import Cash.Ram.Lemmas

/-!
# The clock and the caps of the RAM tier
-/

namespace Cash.Ram

namespace Tier

variable {K α τ C : Type} [DecidableEq K] [Field α] [LinearOrder α] {cfg : Config α C} {t : Tier K α τ C}

/-! ## The clock -/

/-- An entry was touched no later than now, and its priority is not past. -/
def Aged (cfg : Config α C) (t : Tier K α τ C) : Prop :=
  ∀ k e, t.store.lookup k = some e → ∃ b, t.gdsfBase.lookup k = some b ∧ b ≤ t.gdsfClock ∧
    t.gdsfClock ≤ b + cfg.gdsfValue e.cost e.accessCount e.size

/-- What a step does to the clock. -/
structure Ages (cfg : Config α C) (t t' : Tier K α τ C) : Prop where
  aged : t.Aged cfg → t'.Aged cfg
  clock : t.gdsfClock ≤ t'.gdsfClock

theorem Ages.refl (t : Tier K α τ C) : t.Ages cfg t := ⟨id, le_refl _⟩

theorem Ages.trans {t t' t'' : Tier K α τ C} (h : t.Ages cfg t') (h' : t'.Ages cfg t'') : t.Ages cfg t'' :=
  ⟨h'.aged ∘ h.aged, h.clock.trans h'.clock⟩

theorem Ages.foldl {β : Type} {f : Tier K α τ C → β → Tier K α τ C} (hf : ∀ (t : Tier K α τ C) b, t.Ages cfg (f t b))
    (bs : List β) : ∀ t : Tier K α τ C, t.Ages cfg (bs.foldl f t) := by
  induction bs with
  | nil => exact Ages.refl
  | cons b bs ih => exact fun t => (hf t b).trans (ih (f t b))

/-- The store, the bases and the clock stay. -/
theorem Ages.of_same {t' : Tier K α τ C} (hstore : t'.store = t.store) (hbase : t'.gdsfBase = t.gdsfBase)
    (hclock : t'.gdsfClock = t.gdsfClock) : t.Ages cfg t' where
  aged h k e he := by
    rw [hstore] at he
    rw [hbase, hclock]
    exact h k e he
  clock := hclock.ge

theorem ages_drop (t : Tier K α τ C) (key : K) : t.Ages cfg (t.drop key) where
  aged h k e he := by
    obtain ⟨hne, hlook⟩ := Dict.lookup_of_erase (d := t.store) he
    obtain ⟨b, hb, hle⟩ := h k e hlook
    refine ⟨b, ?_, hle⟩
    change (t.gdsfBase.erase key).lookup k = some b
    rw [Dict.lookup_erase', if_neg hne, hb]
  clock := le_refl _

/-- The least of the ranks goes, and the clock rises to it. -/
theorem ages_evictOne {r : Rank K α} {rs : List (Rank K α)} (hlists : t.Lists cfg (r :: rs))
    (hleast : ∀ r' ∈ rs, r.priority ≤ r'.priority) : t.Ages cfg (t.evictOne r) where
  aged h k e he := by
    obtain ⟨hne, hlook⟩ := Dict.lookup_of_erase (d := t.store) he
    obtain ⟨b, hb, hle, hnext⟩ := h k e hlook
    refine ⟨b, ?_, hle.trans (le_max_left _ _), max_le hnext ?_⟩
    · change (t.gdsfBase.erase r.key).lookup k = some b
      rw [Dict.lookup_erase', if_neg hne, hb]
    · obtain ⟨r', hr', hkey⟩ := List.mem_map.mp ((hlists.mem k).mpr (Dict.mem_of_lookup hlook))
      rcases List.mem_cons.mp hr' with rfl | hr'
      · exact absurd hkey.symm hne
      · have hpriority := hlists.priority r' (List.mem_cons_of_mem _ hr') e (by rw [hkey, hlook])
        rw [gdsfPriority, hkey, hb, Option.getD_some] at hpriority
        rw [← hpriority]
        exact hleast r' hr'
  clock := le_max_left _ _

theorem ages_evictAll (pre post : List (Rank K α)) : ∀ {t : Tier K α τ C}, t.Lists cfg (pre ++ post) →
    (pre ++ post).Pairwise (fun r r' => r.priority ≤ r'.priority) → t.Ages cfg (t.evictAll pre) := by
  induction pre with
  | nil => exact fun _ _ => .refl _
  | cons r pre ih =>
      intro t hlists hsorted
      rw [List.cons_append, List.pairwise_cons] at hsorted
      exact (ages_evictOne hlists hsorted.1).trans (ih (lists_evictOne hlists) hsorted.2)

section Order

variable [LinearOrder K]

theorem ages_evictToByteCap (t : Tier K α τ C) : t.Ages cfg (t.evictToByteCap cfg) := by
  obtain ⟨pre, post, hranked, heq, -⟩ := evictToByteCap_eq cfg t
  rw [heq]
  apply ages_evictAll pre post
  · rw [← hranked]
    exact lists_ranked cfg t
  · rw [← hranked]
    exact ranked_sorted cfg t

theorem ages_shed (t : Tier K α τ C) (nbytes : α) : t.Ages cfg (t.shed cfg nbytes) := by
  rw [shed]
  split
  · obtain ⟨n, -, heq, -⟩ := shedLoop_eq nbytes (t.ranked cfg) 0 (lists_ranked cfg t)
    rw [heq]
    have hages : t.Ages cfg (t.evictAll ((t.ranked cfg).take n)) := by
      apply ages_evictAll _ ((t.ranked cfg).drop n)
      · rw [List.take_append_drop]
        exact lists_ranked cfg t
      · rw [List.take_append_drop]
        exact ranked_sorted cfg t
    exact hages.trans (.of_same rfl rfl rfl)
  · exact .of_same rfl rfl rfl

theorem ages_check (t : Tier K α τ C) (mem : Reading α) : t.Ages cfg (t.check cfg mem) := by
  rw [check]
  split
  · have hshare : t.Ages cfg (t.pressureShare mem (cfg.maxMemoryPercent * (9 / 10))).2 := by
      rw [pressureShare]
      split
      · exact .refl t
      · exact .of_same rfl rfl rfl
    exact hshare.trans (ages_shed _ _)
  · exact .of_same rfl rfl rfl

theorem ages_enforceBytes (t : Tier K α τ C) : t.Ages cfg (t.enforceBytes cfg) := by
  rw [enforceBytes]
  split
  · exact .refl t
  · split
    · exact ages_evictToByteCap t
    · exact .refl t

theorem ages_enforceEntries [LinearOrder τ] (t : Tier K α τ C) : t.Ages cfg (t.enforceEntries cfg) := by
  rw [enforceEntries]
  split
  · exact .refl t
  · split
    · exact Ages.foldl ages_drop _ t
    · exact .refl t

end Order

/-- `gdsf_value` is positive, and grows with the access count. -/
structure Valued (cfg : Config α C) : Prop where
  pos : ∀ cost count size, 0 < cfg.gdsfValue cost count size
  mono : ∀ cost size, Monotone fun count => cfg.gdsfValue cost count size

variable [IsStrictOrderedRing α]

theorem ages_counted (hv : Valued cfg) {key : K} {e : Entry τ C} (hlook : t.store.lookup key = some e) (reads : Nat) (last : τ) :
    t.Ages cfg (t.counted key e reads last) where
  aged h k e' he' := by
    rcases Dict.lookup_insert_cases he' with ⟨rfl, rfl⟩ | ⟨-, he'⟩
    · obtain ⟨b, hb, hle, hnext⟩ := h k e hlook
      have hgrows : cfg.gdsfValue e.cost e.accessCount e.size ≤ cfg.gdsfValue e.cost (e.accessCount + reads) e.size :=
        hv.mono e.cost e.size (Nat.le_add_right _ _)
      exact ⟨b, hb, hle, hnext.trans (add_le_add_right hgrows b)⟩
    · exact h k e' he'
  clock := le_refl _

theorem ages_touch (hv : Valued cfg) (t : Tier K α τ C) (key : K) : t.Ages cfg (t.touch key) where
  aged h k e he := by
    change ∃ b, (t.gdsfBase.insert key t.gdsfClock).lookup k = some b ∧ _
    rw [Dict.lookup_insert']
    by_cases hk : k = key
    · rw [if_pos hk]
      exact ⟨_, rfl, le_refl _, le_add_of_nonneg_right (hv.pos _ _ _).le⟩
    · rw [if_neg hk]
      exact h k e he
  clock := le_refl _

theorem ages_flush (hv : Valued cfg) (t : Tier K α τ C) (held : List (Held K τ)) : t.Ages cfg (t.flush held) := by
  refine Ages.foldl (fun t h => ?_) held t
  rw [flushOne]
  cases hlook : t.store.lookup h.key with
  | none => exact .refl t
  | some e =>
      dsimp only
      split
      · exact .refl t
      · exact (ages_counted hv hlook _ _).trans (ages_touch hv _ _)

omit [IsStrictOrderedRing α] in
theorem ages_hit (t : Tier K α τ C) (key : K) (h : Hit) : t.Ages cfg (t.hit key h) := by
  cases h with
  | unservable => exact ages_drop t key
  | served plans adopts slow =>
      have hadopts : t.Ages cfg (t.adoptTables key adopts) := by
        cases adopts with
        | none => exact .refl t
        | some left => exact .of_same rfl rfl rfl
      rw [Tier.hit]
      generalize t.adoptTables key adopts = t' at hadopts
      have hplans : t.Ages cfg (if plans then t'.planned key else t') := by
        split
        · exact hadopts.trans (.of_same rfl rfl rfl)
        · exact hadopts
      split
      · exact hplans.trans (ages_drop _ key)
      · exact hplans

theorem ages_get (hv : Valued cfg) (t : Tier K α τ C) (key : K) (now : τ) (h : Hit) : t.Ages cfg (t.get key now h) := by
  rw [get]
  cases hlook : t.store.lookup key with
  | none => exact .refl t
  | some e => exact ((ages_counted hv hlook 1 now).trans (ages_touch hv _ key)).trans (ages_hit _ key h)

theorem ages_put (hv : Valued cfg) [LinearOrder K] [LinearOrder τ] (t : Tier K α τ C) (key : K) (w : Write α τ C K) (size : Nat)
    (enters : Side → Bool) : t.Ages cfg (t.put key w size enters) where
  aged h k e he := by
    change ∃ b, (t.gdsfBase.insert key t.gdsfClock).lookup k = some b ∧ _
    rw [Dict.lookup_insert']
    rcases Dict.lookup_insert_cases (d := t.store) he with ⟨rfl, -⟩ | ⟨hne, hlook⟩
    · rw [if_pos rfl]
      exact ⟨_, rfl, le_refl _, le_add_of_nonneg_right (hv.pos _ _ _).le⟩
    · rw [if_neg hne]
      exact h k e hlook
  clock := le_refl _

variable [LinearOrder K]

theorem ages_checkAndEvict (hv : Valued cfg) (t : Tier K α τ C) (mem : Option (Reading α)) (held : List (Held K τ)) :
    t.Ages cfg (t.checkAndEvict cfg mem held) := by
  cases mem with
  | none => exact ages_flush hv t held
  | some mem => exact (ages_flush hv t held).trans (ages_check _ mem)

variable [LinearOrder τ]

theorem ages_step (hv : Valued cfg) (t : Tier K α τ C) (op : Op K α τ C) : t.Ages cfg (t.step cfg op) := by
  cases op with
  | set key w =>
      rw [step, set]
      refine (ages_flush hv t w.held).trans ?_
      generalize t.flush w.held = t
      cases w.made with
      | refused => exact ages_drop t key
      | raised => exact .refl t
      | copied size enters =>
          dsimp only
          have hwritten : t.Ages cfg (t.written cfg key w size enters) :=
            (((ages_put hv t key w size enters).trans (ages_enforceEntries _)).trans (ages_enforceBytes _)).trans
              (.of_same rfl rfl rfl)
          split
          · exact ages_drop t key
          · dsimp only
            split
            · exact hwritten.trans (ages_checkAndEvict hv _ _ _)
            · exact hwritten
  | get key now h => exact ages_get hv t key now h
  | getMetadata key now held =>
      rw [step, getMetadata]
      refine (ages_flush hv t held).trans ?_
      generalize t.flush held = t
      cases hlook : t.store.lookup key with
      | none => exact .refl t
      | some e => exact ages_counted hv hlook 1 now
  | delete key => exact ages_drop t key
  | clear => exact ⟨fun _ k e he => absurd he.symm (Option.some_ne_none e), le_refl _⟩
  | check mem held => exact ages_checkAndEvict hv t mem held
  | evict => exact ages_evictToByteCap t

/-- The clock never goes back, no entry was touched later than now or has a priority that is past, and the byte cap removes
entries of the least priorities. -/
theorem run_ages (hpos : ∀ cost count size, 0 < cfg.gdsfValue cost count size)
    (hmono : ∀ cost size, Monotone fun count => cfg.gdsfValue cost count size) (ops : List (Op K α τ C)) :
    (∀ op, (empty.run cfg ops).gdsfClock ≤ ((empty.run cfg ops).step cfg op).gdsfClock) ∧
      (∀ k ∈ (empty.run cfg ops).store, ∃ b, (empty.run cfg ops).gdsfBase.lookup k = some b ∧ b ≤ (empty.run cfg ops).gdsfClock) ∧
      (∀ k e, (empty.run cfg ops).store.lookup k = some e →
        (empty.run cfg ops).gdsfClock ≤ (empty.run cfg ops).gdsfPriority cfg k e) ∧
      ∀ (t : Tier K α τ C) (k k' : K) (e e' : Entry τ C), t.store.lookup k = some e → k ∉ (t.evictToByteCap cfg).store →
        (t.evictToByteCap cfg).store.lookup k' = some e' → t.gdsfPriority cfg k e ≤ t.gdsfPriority cfg k' e' := by
  have hv : Valued cfg := ⟨hpos, hmono⟩
  have haged : (empty.run cfg ops).Aged cfg := by
    apply (Ages.foldl (ages_step hv) ops empty).aged
    exact fun k e he => absurd he.symm (Option.some_ne_none e)
  refine ⟨fun op => (ages_step hv _ op).clock, fun k hk => ?_, fun k e he => ?_, fun t k k' e e' he hgone he' => ?_⟩
  · obtain ⟨e, he⟩ := Dict.mem_iff_lookup.mp hk
    obtain ⟨b, hb, hle, -⟩ := haged k e he
    exact ⟨b, hb, hle⟩
  · obtain ⟨b, hb, -, hnext⟩ := haged k e he
    rw [gdsfPriority, hb]
    exact hnext
  · obtain ⟨pre, post, hranked, heq, -⟩ := evictToByteCap_eq cfg t
    have hlists := lists_ranked cfg t
    have hsorted := ranked_sorted cfg t
    rw [hranked] at hlists hsorted
    rw [heq] at hgone he'
    rw [lookup_evictAll] at he'
    have hpre : k ∈ pre.map Rank.key := by
      by_contra hnot
      apply hgone
      rw [Dict.mem_iff_lookup]
      exact ⟨e, by rw [lookup_evictAll, if_neg hnot, he]⟩
    by_cases hpre' : k' ∈ pre.map Rank.key
    · rw [if_pos hpre'] at he'
      cases he'
    · rw [if_neg hpre'] at he'
      have hpost : k' ∈ post.map Rank.key := by
        have hmem := (hlists.mem k').mpr (Dict.mem_of_lookup he')
        rw [List.map_append, List.mem_append] at hmem
        exact hmem.resolve_left hpre'
      obtain ⟨r, hr, rfl⟩ := List.mem_map.mp hpre
      obtain ⟨r', hr', rfl⟩ := List.mem_map.mp hpost
      rw [← hlists.priority r (List.mem_append_left _ hr) e he, ← hlists.priority r' (List.mem_append_right _ hr') e' he']
      exact (List.pairwise_append.mp hsorted).2.2 r hr r' hr'

/-- The second entry of six bytes takes the place of the first, under a cap of ten. -/
def agedRun : Tier Nat ℚ Nat Unit :=
  empty.run (counting none (some 10)) [.set 1 (writeOf 6 0 none), .set 2 (writeOf 6 0 none)]

theorem run_ages_counting : agedRun.gdsfClock ≤ (agedRun.step (counting none (some 10)) (.delete 2)).gdsfClock ∧
    ∃ b, agedRun.gdsfBase.lookup 2 = some b ∧ b ≤ agedRun.gdsfClock := by
  have hpos : ∀ (cost : Unit) (count size : Nat), 0 < (counting none (some 10)).gdsfValue cost count size :=
    fun _ count _ => Nat.cast_add_one_pos count
  have hmono : ∀ (cost : Unit) (size : Nat), Monotone fun count => (counting none (some 10)).gdsfValue cost count size :=
    fun _ _ _ _ h => add_le_add_left (Nat.cast_le.mpr h) 1
  obtain ⟨hclock, hbase, -⟩ := run_ages hpos hmono [.set 1 (writeOf 6 0 none), .set 2 (writeOf 6 0 none)]
  exact ⟨hclock (.delete 2), hbase 2 (by decide +kernel)⟩

end Tier

end Cash.Ram
