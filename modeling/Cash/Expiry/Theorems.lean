import Cash.Expiry.Tiers
import Mathlib.Algebra.Order.Ring.Int

/-!
# What a cleanup changes
-/

namespace Cash.Expiry

variable {K τ V : Type} [DecidableEq K]

/-! ## Tiers without some keys -/

/-- A tier without the keys of a set. -/
def Tier.without (gone : K → Bool) (t : Tier K τ V) : Tier K τ V where
  defaultTtl := t.defaultTtl
  checks := t.checks
  entries := t.entries.filter fun e => !gone e.1
  nodup := t.nodup.sublist (List.filter_sublist.map _)

omit [DecidableEq K] in
theorem Tier.without_none (t : Tier K τ V) : t.without (fun _ => false) = t :=
  Tier.ext rfl rfl (List.filter_eq_self.mpr fun _ _ => rfl)

theorem Tier.delete_without (t : Tier K τ V) (gone : K → Bool) (key : K) :
    (t.without gone).delete key = t.without fun k => decide (k = key) || gone k := by
  refine Tier.ext rfl rfl ?_
  change Items.pop (t.entries.filter fun e => !gone e.1) key = t.entries.filter fun e => !(decide (e.1 = key) || gone e.1)
  rw [Items.pop, List.filter_filter]
  apply List.filter_congr
  intro e _
  rw [Bool.not_or, decide_not]

theorem Tier.copy_eq_some {t : Tier K τ V} {key : K} {c : Copy τ V} : t.copy key = some c ↔ (key, c) ∈ t.entries :=
  ⟨Items.mem_of_lookup, Items.lookup_eq_of_mem t.nodup⟩

theorem Tier.copy_without (t : Tier K τ V) (gone : K → Bool) (key : K) :
    (t.without gone).copy key = if gone key then none else t.copy key := by
  cases hgone : gone key with
  | true =>
      rw [if_pos rfl, Option.eq_none_iff_forall_ne_some]
      intro c hc
      have hmem := (List.mem_filter.mp (Tier.copy_eq_some.mp hc)).2
      rw [hgone] at hmem
      cases hmem
  | false =>
      rw [if_neg Bool.false_ne_true]
      apply Option.ext
      intro c
      rw [Tier.copy_eq_some, Tier.copy_eq_some, Tier.without, List.mem_filter, hgone]
      exact and_iff_left rfl

/-! ## The cleanup -/

/-- The copy of the first tier that has one. -/
def firstCopy (backends : List (Tier K τ V)) (key : K) : Option (Copy τ V) := backends.findSome? (·.copy key)

/-- The first copy is expired. -/
def dead (isExpired : Copy τ V → Bool) (backends : List (Tier K τ V)) (key : K) : Bool :=
  (firstCopy backends key).any isExpired

variable {isExpired : Copy τ V → Bool} {backends : List (Tier K τ V)} {s : Cleanup K τ V}

/-- A cleanup has removed the dead keys among those seen. -/
def Cleaned (isExpired : Copy τ V → Bool) (backends : List (Tier K τ V)) (s : Cleanup K τ V) : Prop :=
  s.backends = backends.map (·.without fun key => decide (key ∈ s.seenKeys) && dead isExpired backends key)

theorem cleaned_cleanEntry (h : Cleaned isExpired backends s) {entry : K × Copy τ V}
    (hfirst : entry.1 ∈ s.seenKeys ∨ firstCopy backends entry.1 = some entry.2) :
    Cleaned isExpired backends (cleanEntry isExpired s entry) ∧
      ∀ key, key ∈ (cleanEntry isExpired s entry).seenKeys ↔ key = entry.1 ∨ key ∈ s.seenKeys := by
  rw [cleanEntry]
  by_cases hseen : entry.1 ∈ s.seenKeys
  · rw [if_pos hseen]
    refine ⟨h, fun key => (or_iff_right_of_imp ?_).symm⟩
    rintro rfl
    exact hseen
  · rw [if_neg hseen]
    have hfirst := hfirst.resolve_left hseen
    have hdead : dead isExpired backends entry.1 = isExpired entry.2 := by rw [dead, hfirst, Option.any_some]
    cases hexpired : isExpired entry.2 with
    | true =>
        rw [if_pos rfl]
        refine ⟨?_, fun key => List.mem_cons⟩
        rw [Cleaned, h, List.map_map]
        apply List.map_congr_left
        intro t _
        rw [Function.comp_apply, Tier.delete_without]
        congr 1
        funext key
        by_cases hkey : key = entry.1
        · rw [hkey, hdead, hexpired]
          simp
        · simp [hkey]
    | false =>
        rw [if_neg Bool.false_ne_true]
        refine ⟨?_, fun key => List.mem_cons⟩
        rw [Cleaned, h]
        apply List.map_congr_left
        intro t _
        congr 1
        funext key
        by_cases hkey : key = entry.1
        · rw [hkey, hdead, hexpired, Bool.and_false, Bool.and_false]
        · simp [hkey]

theorem cleaned_entries {entries : List (K × Copy τ V)} :
    ∀ {s : Cleanup K τ V}, Cleaned isExpired backends s →
      (∀ e ∈ entries, e.1 ∈ s.seenKeys ∨ firstCopy backends e.1 = some e.2) →
      Cleaned isExpired backends (entries.foldl (cleanEntry isExpired) s) ∧
        ∀ key, key ∈ (entries.foldl (cleanEntry isExpired) s).seenKeys ↔ key ∈ Items.keys entries ∨ key ∈ s.seenKeys := by
  induction entries with
  | nil => exact fun h _ => ⟨h, fun key => (or_iff_right List.not_mem_nil).symm⟩
  | cons e entries ih =>
      intro s h hfirst
      obtain ⟨hcleaned, hseen⟩ := cleaned_cleanEntry h (hfirst e List.mem_cons_self)
      obtain ⟨hcleaned', hseen'⟩ := ih hcleaned fun e' he' =>
        (hfirst e' (List.mem_cons_of_mem _ he')).imp_left fun h => (hseen _).mpr (.inr h)
      refine ⟨hcleaned', fun key => ?_⟩
      rw [List.foldl_cons, hseen', hseen, show Items.keys (e :: entries) = e.1 :: Items.keys entries from rfl, List.mem_cons,
        or_left_comm, or_assoc]

/-- After the first tiers every key of theirs is seen. -/
theorem cleaned_tiers (isExpired : Copy τ V → Bool) (n : Nat) (hn : n ≤ backends.length) :
    Cleaned isExpired backends ((List.range n).foldl (cleanTier isExpired) ⟨backends, [], 0⟩) ∧
      ∀ key, key ∈ ((List.range n).foldl (cleanTier isExpired) ⟨backends, [], 0⟩).seenKeys ↔
        ∃ t ∈ backends.take n, key ∈ Items.keys t.entries := by
  induction n with
  | zero =>
      refine ⟨?_, fun key => iff_of_false List.not_mem_nil ?_⟩
      · exact (List.map_id _).symm.trans (List.map_congr_left fun t _ => (Tier.without_none t).symm)
      · rintro ⟨t, ht, -⟩
        exact List.not_mem_nil ht
  | succ n ih =>
      obtain ⟨hcleaned, hseen⟩ := ih (by omega)
      rw [List.range_succ, List.foldl_append, List.foldl_cons, List.foldl_nil]
      generalize (List.range n).foldl (cleanTier isExpired) ⟨backends, [], 0⟩ = s at hcleaned hseen ⊢
      obtain ⟨t, ht⟩ : ∃ t, backends[n]? = some t := ⟨_, List.getElem?_eq_getElem hn⟩
      have hget : s.backends[n]? = some (t.without fun key => decide (key ∈ s.seenKeys) && dead isExpired backends key) := by
        rw [hcleaned, List.getElem?_map, ht, Option.map_some]
      have htake : backends.take (n + 1) = backends.take n ++ [t] := by rw [List.take_add_one, ht, Option.toList_some]
      rw [cleanTier, hget]
      dsimp only
      have hfirst : ∀ e ∈ (t.without fun key => decide (key ∈ s.seenKeys) && dead isExpired backends key).entries,
          e.1 ∈ s.seenKeys ∨ firstCopy backends e.1 = some e.2 := by
        intro e he
        by_cases hmem : e.1 ∈ s.seenKeys
        · exact .inl hmem
        · refine .inr (List.findSome?_eq_some_iff.mpr ⟨backends.take n, t, backends.drop (n + 1), ?_, ?_, ?_⟩)
          · rw [← List.singleton_append, ← List.append_assoc, ← htake, List.take_append_drop]
          · exact Tier.copy_eq_some.mpr (List.mem_filter.mp he).1
          · intro t' ht'
            rw [Option.eq_none_iff_forall_ne_some]
            intro c hc
            exact hmem ((hseen _).mpr ⟨t', ht', Items.mem_keys.mpr ⟨c, Tier.copy_eq_some.mp hc⟩⟩)
      obtain ⟨hcleaned', hseen'⟩ := cleaned_entries hcleaned hfirst
      refine ⟨hcleaned', fun key => ?_⟩
      rw [hseen', hseen, htake]
      constructor
      · rintro (hkey | ⟨t', ht', hkey⟩)
        · obtain ⟨c, hc⟩ := Items.mem_keys.mp hkey
          exact ⟨t, List.mem_append_right _ List.mem_cons_self, Items.mem_keys.mpr ⟨c, (List.mem_filter.mp hc).1⟩⟩
        · exact ⟨t', List.mem_append_left _ ht', hkey⟩
      · rintro ⟨t', ht', hkey⟩
        rcases List.mem_append.mp ht' with ht' | ht'
        · exact .inr ⟨t', ht', hkey⟩
        · rw [List.mem_singleton.mp ht'] at hkey
          by_cases hmem : key ∈ s.seenKeys
          · exact .inr ((hseen key).mp hmem)
          · obtain ⟨c, hc⟩ := Items.mem_keys.mp hkey
            refine .inl (Items.mem_keys.mpr ⟨c, List.mem_filter.mpr ⟨hc, ?_⟩⟩)
            dsimp only
            rw [decide_eq_false hmem]
            rfl

theorem cleanupExpired_backends (isExpired : Copy τ V → Bool) (backends : List (Tier K τ V)) :
    (cleanupExpired isExpired backends).backends = backends.map (·.without (dead isExpired backends)) := by
  obtain ⟨hcleaned, hseen⟩ := cleaned_tiers isExpired backends.length (Nat.le_refl _)
  rw [List.take_length] at hseen
  rw [cleanupExpired, hcleaned]
  apply List.map_congr_left
  intro t _
  congr 1
  funext key
  cases hdead : dead isExpired backends key with
  | false => rw [Bool.and_false]
  | true =>
      obtain ⟨c, hc, -⟩ := (Option.any_eq_true ..).mp hdead
      obtain ⟨t', ht', hcopy⟩ := List.exists_of_findSome?_eq_some hc
      rw [decide_eq_true ((hseen key).mpr ⟨t', ht', Items.mem_keys.mpr ⟨c, Tier.copy_eq_some.mp hcopy⟩⟩)]
      rfl

/-! ## A read -/

section Read

variable [LinearOrder τ] [Sub τ] [Zero τ]

/-- A read takes this copy of the tier. -/
def Tier.Serves (t : Tier K τ V) (tierDefault : Option τ) (now : τ) (c : Copy τ V) : Prop :=
  c.metadataOnly = false ∧ (t.checks = true → entryExpired c t.defaultTtl now none = false) ∧
    entryExpired c tierDefault now none = false

variable {tierDefault : Option τ} {key : K} {now : τ}

/-- What a tier gives. -/
theorem Tier.get_found {t : Tier K τ V} : (t.get key now).1 = (t.copy key).filter fun c =>
    !c.metadataOnly && !(t.checks && entryExpired c t.defaultTtl now none) := by
  rw [Tier.get]
  cases t.copy key with
  | none => rfl
  | some c =>
      rw [Option.filter_some]
      dsimp only
      by_cases hmetadata : c.metadataOnly = true
      · rw [if_pos hmetadata, hmetadata]
        rfl
      · rw [if_neg hmetadata, Bool.eq_false_iff.mpr hmetadata, Bool.not_false, Bool.true_and]
        cases t.checks && entryExpired c t.defaultTtl now none with
        | true => rfl
        | false => rfl

theorem getFrom_cons (t : Tier K τ V) (ts : List (Tier K τ V)) : (getFrom tierDefault key now (t :: ts)).1 =
    (((t.get key now).1.filter fun c => !entryExpired c tierDefault now none).or (getFrom tierDefault key now ts).1) := by
  rw [getFrom]
  cases t.get key now with
  | mk found t' =>
      cases found with
      | none => rfl
      | some c =>
          rw [Option.filter_some]
          dsimp only
          cases entryExpired c tierDefault now none with
          | true => rfl
          | false => rfl

theorem getFrom_eq_none {ts : List (Tier K τ V)} :
    (getFrom tierDefault key now ts).1 = none ↔ ∀ t ∈ ts, ∀ c, t.copy key = some c → ¬t.Serves tierDefault now c := by
  induction ts with
  | nil => exact iff_of_true rfl fun _ ht => absurd ht List.not_mem_nil
  | cons t ts ih =>
      rw [getFrom_cons, Option.or_eq_none_iff, ih, List.forall_mem_cons, Tier.get_found]
      refine and_congr_left fun _ => ?_
      cases t.copy key with
      | none => exact iff_of_true rfl fun c hc => by cases hc
      | some c =>
          have hserves : t.Serves tierDefault now c ↔ (!c.metadataOnly && !(t.checks && entryExpired c t.defaultTtl now none)) = true ∧
              (!entryExpired c tierDefault now none) = true := by
            rw [Tier.Serves]
            cases c.metadataOnly <;> cases t.checks <;> cases entryExpired c t.defaultTtl now none <;>
              cases entryExpired c tierDefault now none <;> decide
          rw [Option.filter_some]
          constructor
          · rintro h c' hc' hs
            cases hc'
            obtain ⟨hfound, hfresh⟩ := hserves.mp hs
            rw [if_pos hfound, Option.filter_some, if_pos hfresh] at h
            cases h
          · intro h
            have hnot := mt hserves.mpr (h c rfl)
            by_cases hfound : (!c.metadataOnly && !(t.checks && entryExpired c t.defaultTtl now none)) = true
            · rw [if_pos hfound, Option.filter_some, if_neg fun hfresh => hnot ⟨hfound, hfresh⟩]
            · rw [if_neg hfound]
              rfl

theorem getFrom_without {gone : K → Bool} (ts : List (Tier K τ V)) : (getFrom tierDefault key now (ts.map (·.without gone))).1 =
    if gone key then none else (getFrom tierDefault key now ts).1 := by
  induction ts with
  | nil =>
      split
      · rfl
      · rfl
  | cons t ts ih =>
      rw [List.map_cons, getFrom_cons, getFrom_cons, ih, Tier.get_found, Tier.get_found, Tier.copy_without]
      cases gone key with
      | true => rfl
      | false => rfl

omit [DecidableEq K] [LinearOrder τ] [Sub τ] [Zero τ] in
theorem defaultTtl_without {gone : K → Bool} : defaultTtl (backends.map (·.without gone)) = defaultTtl backends := by
  rw [defaultTtl, defaultTtl, List.findSome?_map]
  rfl

/-- A cleanup changes no read, exactly when no tier serves a copy of a key whose first copy is expired. -/
theorem cleanup_get_iff (backends : List (Tier K τ V)) (now : τ) :
    (∀ key, (get (cleanupExpired (entryExpired · (defaultTtl backends) now none) backends).backends key now).1 =
        (get backends key now).1) ↔
      ∀ key c, firstCopy backends key = some c → entryExpired c (defaultTtl backends) now none = true →
        ∀ t ∈ backends, ∀ c', t.copy key = some c' → ¬t.Serves (defaultTtl backends) now c' := by
  apply forall_congr'
  intro key
  rw [get, get, cleanupExpired_backends, defaultTtl_without, getFrom_without]
  cases hdead : dead (entryExpired · (defaultTtl backends) now none) backends key with
  | true =>
      obtain ⟨c, hc, hexpired⟩ := (Option.any_eq_true ..).mp hdead
      rw [if_pos rfl, eq_comm, getFrom_eq_none]
      exact ⟨fun h _ _ _ => h, fun h => h c hc hexpired⟩
  | false =>
      rw [if_neg Bool.false_ne_true]
      refine iff_of_true rfl fun c hc hexpired => ?_
      rw [dead, hc, Option.any_some, hexpired] at hdead
      cases hdead

end Read

/-! ## A slower tier that was rewritten -/

def writtenAtTime (createdAt : Int) : Copy Int Nat := ⟨some createdAt, none, .number 10, false, false, createdAt.toNat⟩

/-- The second tier was written 95 later. -/
def rewritten : List (Tier Unit Int Nat) :=
  [⟨none, false, [((), writtenAtTime 0)], by decide⟩, ⟨none, true, [((), writtenAtTime 95)], by decide⟩]

/-- The newer copy is read, and is gone after a cleanup. -/
theorem rewritten_cleaned :
    ¬∀ key, (get (cleanupExpired (entryExpired · (defaultTtl rewritten) 100 none) rewritten).backends key 100).1 =
      (get rewritten key 100).1 := by
  intro h
  have hread := h ()
  revert hread
  decide

end Cash.Expiry
