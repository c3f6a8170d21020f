import Cash.Ram.Tier

/-!
# What the steps of the RAM tier keep

The tables, the byte count and the number of entries; what the loops of the evictions drop.
-/

namespace Cash.Ram

variable {K α τ C V : Type} [DecidableEq K]

/-! ## Dicts -/

theorem length_erase_of_mem {d : Dict K V} {k : K} (h : k ∈ d) : (d.erase k).entries.length + 1 = d.entries.length := by
  have hmem : k ∈ d.keys := h
  have hpos := List.length_pos_of_mem hmem
  rw [← Dict.length_keys, ← Dict.length_keys, AList.keys_erase, List.length_erase_of_mem hmem]
  omega

theorem length_erase_le (d : Dict K V) (k : K) : (d.erase k).entries.length ≤ d.entries.length := by
  rw [← Dict.length_keys, ← Dict.length_keys, AList.keys_erase]
  exact List.length_erase_le

theorem length_insert_of_mem {d : Dict K V} {k : K} (h : k ∈ d) (v : V) : (d.insert k v).entries.length = d.entries.length := by
  have hmem : k ∈ d.keys := h
  have hpos := List.length_pos_of_mem hmem
  rw [← Dict.length_keys, ← Dict.length_keys, AList.keys_insert, List.length_cons, List.length_erase_of_mem hmem]
  omega

theorem length_insert_of_not_mem {d : Dict K V} {k : K} (h : k ∉ d) (v : V) :
    (d.insert k v).entries.length = d.entries.length + 1 := by
  have hmem : k ∉ d.keys := h
  rw [← Dict.length_keys, ← Dict.length_keys, AList.keys_insert, List.length_cons, List.erase_of_not_mem hmem]

theorem mem_insert_iff_of_mem {d : Dict K V} {k k' : K} (h : k ∈ d) (v : V) : k' ∈ d.insert k v ↔ k' ∈ d := by
  rw [AList.mem_insert]
  refine or_iff_right_of_imp ?_
  rintro rfl
  exact h

theorem mem_erase_iff {d : Dict K V} {k k' : K} : k' ∈ d.erase k ↔ k' ≠ k ∧ k' ∈ d := AList.mem_erase

/-! ## The tables -/

namespace Tier

/-- The sum of the sizes held. -/
def heldBytes (t : Tier K α τ C) : Int := Dict.sumBy (fun _ e => (e.size : Int)) t.store

omit [DecidableEq K] in
theorem heldBytes_nonneg (t : Tier K α τ C) : 0 ≤ t.heldBytes := Dict.sumBy_nonneg fun _ _ => Int.natCast_nonneg _

/-- The byte count is the sum of the sizes, a side table has keys of the store only, and the two tables of the eviction order
have all of them. -/
structure Kept (t : Tier K α τ C) : Prop where
  sized : t.currentSizeBytes = t.heldBytes
  side : ∀ s k, t.side s k = true → k ∈ t.store
  base : ∀ k, k ∈ t.gdsfBase ↔ k ∈ t.store
  seq : ∀ k, k ∈ t.seqByKey ↔ k ∈ t.store

/-- What a step that stores nothing does. -/
structure Less (t t' : Tier K α τ C) : Prop where
  kept : t.Kept → t'.Kept
  bytes : t'.currentSizeBytes ≤ t.currentSizeBytes
  length : t'.store.entries.length ≤ t.store.entries.length
  floor : ∀ f, t'.pressureFloor = some f → t.pressureFloor = some f ∨ pressureKeepsBytes ≤ f

omit [DecidableEq K] in
theorem Less.refl (t : Tier K α τ C) : t.Less t := ⟨id, le_refl _, le_refl _, fun _ => .inl⟩

omit [DecidableEq K] in
theorem Less.trans {t t' t'' : Tier K α τ C} (h : t.Less t') (h' : t'.Less t'') : t.Less t'' :=
  ⟨h'.kept ∘ h.kept, h'.bytes.trans h.bytes, h'.length.trans h.length, fun f hf => (h'.floor f hf).elim (h.floor f) .inr⟩

omit [DecidableEq K] in
theorem Less.foldl {β : Type} {f : Tier K α τ C → β → Tier K α τ C} (hf : ∀ (t : Tier K α τ C) b, t.Less (f t b)) (bs : List β) :
    ∀ t : Tier K α τ C, t.Less (bs.foldl f t) := by
  induction bs with
  | nil => exact Less.refl
  | cons b bs ih => exact fun t => (hf t b).trans (ih (f t b))

omit [DecidableEq K] in
/-- Only the clock, the pressure or the counts change. -/
theorem Less.of_same {t t' : Tier K α τ C} (hstore : t'.store = t.store) (hside : t'.side = t.side)
    (hbase : t'.gdsfBase = t.gdsfBase) (hseq : t'.seqByKey = t.seqByKey)
    (hbytes : t'.currentSizeBytes = t.currentSizeBytes)
    (hfloor : ∀ f, t'.pressureFloor = some f → t.pressureFloor = some f ∨ pressureKeepsBytes ≤ f) : t.Less t' where
  kept h := by
    constructor
    · rw [hbytes, heldBytes, hstore]
      exact h.sized
    · rw [hside, hstore]
      exact h.side
    · rw [hbase, hstore]
      exact h.base
    · rw [hseq, hstore]
      exact h.seq
  bytes := hbytes.le
  length := by rw [hstore]
  floor := hfloor

variable {t : Tier K α τ C} {key : K} {e : Entry τ C}

theorem kept_drop (h : t.Kept) (key : K) : (t.drop key).Kept where
  sized := by
    change t.currentSizeBytes - _ = Dict.sumBy _ (t.store.erase key)
    rw [Dict.sumBy_erase, h.sized]
    rfl
  side s k hk := by
    obtain ⟨hside, hne⟩ := (Bool.and_eq_true _ _).mp hk
    exact mem_erase_iff.mpr ⟨of_decide_eq_true hne, h.side s k hside⟩
  base k := by
    change k ∈ t.gdsfBase.erase key ↔ k ∈ t.store.erase key
    rw [mem_erase_iff, mem_erase_iff, h.base]
  seq k := by
    change k ∈ t.seqByKey.erase key ↔ k ∈ t.store.erase key
    rw [mem_erase_iff, mem_erase_iff, h.seq]

theorem less_drop (t : Tier K α τ C) (key : K) : t.Less (t.drop key) where
  kept h := kept_drop h key
  bytes := by
    change t.currentSizeBytes - _ ≤ t.currentSizeBytes
    have hsize : 0 ≤ ((t.store.lookup key).map fun e => (e.size : Int)).getD 0 := by
      cases t.store.lookup key with
      | none => exact le_refl _
      | some e => exact Int.natCast_nonneg _
    omega
  length := length_erase_le _ _
  floor _ := .inl

theorem less_counted (hlook : t.store.lookup key = some e) (reads : Nat) (last : τ) : t.Less (t.counted key e reads last) where
  kept h := by
    have hmem : key ∈ t.store := Dict.mem_of_lookup hlook
    constructor
    · change t.currentSizeBytes = Dict.sumBy _ (t.store.insert key _)
      rw [Dict.sumBy_insert, hlook, h.sized, Option.map_some, Option.getD_some, Int.sub_add_cancel]
      rfl
    · exact fun s k hk => (mem_insert_iff_of_mem hmem _).mpr (h.side s k hk)
    · exact fun k => (h.base k).trans (mem_insert_iff_of_mem hmem _).symm
    · exact fun k => (h.seq k).trans (mem_insert_iff_of_mem hmem _).symm
  bytes := le_refl _
  length := (length_insert_of_mem (Dict.mem_of_lookup hlook) _).le
  floor _ := .inl

theorem less_touch (h : key ∈ t.store) : t.Less (t.touch key) where
  kept hk := by
    constructor
    · exact hk.sized
    · exact hk.side
    · exact fun k => (mem_insert_iff_of_mem ((hk.base key).mpr h) _).trans (hk.base k)
    · exact fun k => (mem_insert_iff_of_mem ((hk.seq key).mpr h) _).trans (hk.seq k)
  bytes := le_refl _
  length := le_refl _
  floor _ := .inl

theorem less_read (hlook : t.store.lookup key = some e) (reads : Nat) (last : τ) :
    t.Less ((t.counted key e reads last).touch key) :=
  (less_counted hlook reads last).trans (less_touch ((AList.mem_insert _).mpr (.inl rfl)))

theorem less_flush (t : Tier K α τ C) (held : List (Held K τ)) : t.Less (t.flush held) := by
  refine Less.foldl (fun t h => ?_) held t
  rw [flushOne]
  cases hlook : t.store.lookup h.key with
  | none => exact .refl t
  | some e =>
      dsimp only
      split
      · exact .refl t
      · exact less_read hlook _ _

omit [DecidableEq K] in
theorem less_side {side : Side → K → Bool} (h : ∀ s k, side s k = true → t.side s k = true ∨ k ∈ t.store) :
    t.Less { t with side := side } where
  kept hk := ⟨hk.sized, fun s k hs => (h s k hs).elim (hk.side s k) id, hk.base, hk.seq⟩
  bytes := le_refl _
  length := le_refl _
  floor _ := .inl

theorem less_adoptTables (h : key ∈ t.store) (adopts : Option Bool) : t.Less (t.adoptTables key adopts) := by
  cases adopts with
  | none => exact .refl t
  | some left =>
      refine less_side fun s k hs => ?_
      by_cases hk : k = key
      · exact .inr (hk ▸ h)
      · rw [if_neg hk] at hs
        exact .inl hs

theorem less_planned (h : key ∈ t.store) : t.Less (t.planned key) := by
  refine less_side fun s k hs => ?_
  rcases (Bool.or_eq_true _ _).mp hs with hs | hs
  · exact .inl hs
  · exact .inr (of_decide_eq_true ((Bool.and_eq_true _ _).mp hs).1 ▸ h)

theorem less_hit (h : key ∈ t.store) (hit : Hit) : t.Less (t.hit key hit) := by
  cases hit with
  | unservable => exact less_drop t key
  | served plans adopts slow =>
      have hadopts := less_adoptTables h adopts
      have hmem : key ∈ (t.adoptTables key adopts).store := by cases adopts <;> exact h
      rw [Tier.hit]
      generalize t.adoptTables key adopts = t' at hadopts hmem
      have hplans : t.Less (if plans then t'.planned key else t') := by
        split
        · exact hadopts.trans (less_planned hmem)
        · exact hadopts
      split
      · exact hplans.trans (less_drop _ key)
      · exact hplans

theorem less_get (t : Tier K α τ C) (key : K) (now : τ) (hit : Hit) : t.Less (t.get key now hit) := by
  rw [get]
  cases hlook : t.store.lookup key with
  | none => exact .refl t
  | some e => exact (less_read hlook 1 now).trans (less_hit ((AList.mem_insert _).mpr (.inl rfl)) hit)

omit [DecidableEq K] in
theorem less_clear (t : Tier K α τ C) (h : 0 ≤ t.currentSizeBytes) : t.Less t.clear where
  kept _ := by
    constructor
    · rfl
    · exact fun s k hs => by cases hs
    · exact fun k => Iff.rfl
    · exact fun k => Iff.rfl
  bytes := h
  length := Nat.zero_le _
  floor _ hf := by cases hf

/-! ## Evictions -/

theorem less_evictLru [LinearOrder K] [LinearOrder τ] (t : Tier K α τ C) (count : Nat) : t.Less (t.evictLru count) :=
  Less.foldl less_drop _ t

section Order

variable [LinearOrder α] {cfg : Config α C}

/-- These victims dropped. -/
def evictAll (t : Tier K α τ C) (rs : List (Rank K α)) : Tier K α τ C := rs.foldl evictOne t

theorem less_evictOne (t : Tier K α τ C) (r : Rank K α) : t.Less (t.evictOne r) :=
  (less_drop t r.key).trans (.of_same rfl rfl rfl rfl rfl fun _ => .inl)

theorem less_evictAll (t : Tier K α τ C) (rs : List (Rank K α)) : t.Less (t.evictAll rs) := Less.foldl less_evictOne rs t

/-- The loop of the byte cap drops the victims up to its target. -/
theorem byteCapLoop_eq (cap : Nat) (rs : List (Rank K α)) : ∀ t : Tier K α τ C, ∃ pre post, rs = pre ++ post ∧
    byteCapLoop cap t rs = t.evictAll pre ∧ (post = [] ∨ 10 * (t.evictAll pre).currentSizeBytes ≤ 9 * (cap : Int)) := by
  induction rs with
  | nil => exact fun t => ⟨[], [], rfl, rfl, .inl rfl⟩
  | cons r rs ih =>
      intro t
      rw [byteCapLoop]
      split
      · next htarget => exact ⟨[], r :: rs, rfl, rfl, .inr htarget⟩
      · obtain ⟨pre, post, rfl, heq, hend⟩ := ih (t.evictOne r)
        exact ⟨r :: pre, post, rfl, heq, hend⟩

/-- The bytes that the first victims free. -/
def freed (t : Tier K α τ C) (rs : List (Rank K α)) : Nat := (rs.map fun r => ((t.store.lookup r.key).map Entry.size).getD 0).sum

theorem lookup_evictAll (rs : List (Rank K α)) (k : K) : ∀ t : Tier K α τ C,
    (t.evictAll rs).store.lookup k = if k ∈ rs.map Rank.key then none else t.store.lookup k := by
  induction rs with
  | nil => exact fun t => (if_neg List.not_mem_nil).symm
  | cons r rs ih =>
      intro t
      refine (ih (t.evictOne r)).trans ?_
      change (if _ then none else (t.store.erase r.key).lookup k) = _
      rw [Dict.lookup_erase', List.map_cons]
      by_cases hrest : k ∈ rs.map Rank.key
      · rw [if_pos hrest, if_pos (List.mem_cons_of_mem _ hrest)]
      · rw [if_neg hrest]
        by_cases hk : k = r.key
        · rw [if_pos hk, if_pos (hk ▸ List.mem_cons_self)]
        · rw [if_neg hk, if_neg fun h => (List.mem_cons.mp h).elim hk hrest]

variable [Field α]

/-- The ranks list the entries, each once, with its priority. -/
structure Lists (cfg : Config α C) (t : Tier K α τ C) (rs : List (Rank K α)) : Prop where
  nodup : (rs.map Rank.key).Nodup
  mem : ∀ k, k ∈ rs.map Rank.key ↔ k ∈ t.store
  priority : ∀ r ∈ rs, ∀ e, t.store.lookup r.key = some e → r.priority = t.gdsfPriority cfg r.key e

theorem lists_evictOne {r : Rank K α} {rs : List (Rank K α)} (h : t.Lists cfg (r :: rs)) : (t.evictOne r).Lists cfg rs where
  nodup := (List.nodup_cons.mp h.nodup).2
  mem k := by
    change k ∈ rs.map Rank.key ↔ k ∈ t.store.erase r.key
    rw [mem_erase_iff, ← h.mem, List.map_cons, List.mem_cons]
    constructor
    · intro hk
      refine ⟨?_, .inr hk⟩
      rintro rfl
      exact (List.nodup_cons.mp h.nodup).1 hk
    · exact fun ⟨hne, hk⟩ => hk.resolve_left hne
  priority r' hr' e he := by
    obtain ⟨hne, hlook⟩ := Dict.lookup_of_erase (d := t.store) he
    rw [h.priority r' (List.mem_cons_of_mem _ hr') e hlook, gdsfPriority, gdsfPriority]
    change _ = ((t.gdsfBase.erase r.key).lookup r'.key).getD 0 + _
    rw [Dict.lookup_erase', if_neg hne]

theorem lists_evictAll {pre post : List (Rank K α)} : ∀ {t : Tier K α τ C}, t.Lists cfg (pre ++ post) →
    (t.evictAll pre).Lists cfg post := by
  induction pre with
  | nil => exact id
  | cons r pre ih => exact fun h => ih (lists_evictOne h)

/-- The loop of `_shed` drops the victims up to the first that frees enough. -/
theorem shedLoop_eq (nbytes : α) (rs : List (Rank K α)) : ∀ {t : Tier K α τ C} (done : Nat), t.Lists cfg rs →
    ∃ n, n ≤ rs.length ∧ shedLoop nbytes done t rs = t.evictAll (rs.take n) ∧
      (n = rs.length ∨ nbytes ≤ ((done + t.freed (rs.take n) : Nat) : α)) ∧
      ∀ m < n, ¬nbytes ≤ ((done + t.freed (rs.take m) : Nat) : α) := by
  induction rs with
  | nil => exact fun done _ => ⟨0, le_refl _, rfl, .inl rfl, fun m hm => absurd hm (Nat.not_lt_zero m)⟩
  | cons r rs ih =>
      intro t done h
      rw [shedLoop]
      split
      · next henough =>
        exact ⟨0, Nat.zero_le _, rfl, .inr henough, fun m hm => absurd hm (Nat.not_lt_zero m)⟩
      · next hnot =>
        obtain ⟨e, he⟩ := Dict.mem_iff_lookup.mp ((h.mem r.key).mp List.mem_cons_self)
        rw [he]
        dsimp only
        have hnext := lists_evictOne h
        obtain ⟨n, hn, heq, hend, hbefore⟩ := ih (done + e.size) hnext
        have hfreed : ∀ m, t.freed ((r :: rs).take (m + 1)) = e.size + (t.evictOne r).freed (rs.take m) := by
          intro m
          rw [List.take_succ_cons, freed, freed, List.map_cons, List.sum_cons, he, Option.map_some, Option.getD_some]
          congr 2
          apply List.map_congr_left
          intro r' hr'
          have hne : r'.key ≠ r.key := by
            intro heq
            exact (List.nodup_cons.mp h.nodup).1 (heq ▸ List.mem_map_of_mem (List.mem_of_mem_take hr'))
          change _ = (((t.store.erase r.key).lookup r'.key).map Entry.size).getD 0
          rw [Dict.lookup_erase', if_neg hne]
        refine ⟨n + 1, Nat.succ_le_succ hn, heq, ?_, fun m hm => ?_⟩
        · rw [hfreed, ← Nat.add_assoc, List.length_cons]
          exact hend.imp_left (congrArg _)
        · cases m with
          | zero => exact hnot
          | succ m =>
              rw [hfreed, ← Nat.add_assoc]
              exact hbefore m (Nat.lt_of_succ_lt_succ hm)

omit [DecidableEq K] in
theorem pressureShare_same (t : Tier K α τ C) (mem : Reading α) (target : α) : t.Less (t.pressureShare mem target).2 := by
  rw [pressureShare]
  split
  · exact .refl t
  · exact .of_same rfl rfl rfl rfl rfl fun _ => .inl

variable [LinearOrder K]

theorem ranked_perm (t : Tier K α τ C) : (t.ranked cfg).Perm (t.store.entries.map fun p =>
    toLex (t.gdsfPriority cfg p.1 p.2, toLex ((t.seqByKey.lookup p.1).getD 0, p.1))) := List.perm_insertionSort _ _

theorem keys_ranked (t : Tier K α τ C) : ((t.ranked cfg).map Rank.key).Perm t.store.keys := by
  refine ((ranked_perm t).map _).trans ?_
  rw [List.map_map]
  exact .refl _

theorem lists_ranked (cfg : Config α C) (t : Tier K α τ C) : t.Lists cfg (t.ranked cfg) where
  nodup := (keys_ranked t).nodup_iff.mpr t.store.keys_nodup
  mem k := (keys_ranked t).mem_iff
  priority r hr e he := by
    obtain ⟨p, hp, rfl⟩ := List.mem_map.mp ((ranked_perm t).mem_iff.mp hr)
    have hlook := Dict.lookup_of_mem_entries hp
    change t.store.lookup p.1 = some e at he
    rw [hlook] at he
    cases he
    rfl

/-- The ranks are sorted by their priority. -/
theorem ranked_sorted (cfg : Config α C) (t : Tier K α τ C) : (t.ranked cfg).Pairwise fun r r' => r.priority ≤ r'.priority := by
  have hsorted : (t.ranked cfg).Pairwise (· ≤ ·) := List.pairwise_insertionSort _ _
  refine hsorted.imp fun {r r'} h => ?_
  rcases Prod.Lex.le_iff.mp h with hlt | ⟨heq, -⟩
  · exact hlt.le
  · exact heq.le

/-- What `_evict_to_byte_cap` drops. -/
theorem evictToByteCap_eq (cfg : Config α C) (t : Tier K α τ C) : ∃ pre post, t.ranked cfg = pre ++ post ∧ t.evictToByteCap cfg = t.evictAll pre ∧
    ∀ cap, cfg.maxSizeBytes = some cap → cap = 0 ∨ t.currentSizeBytes ≤ cap ∨ post = [] ∨
      10 * (t.evictAll pre).currentSizeBytes ≤ 9 * (cap : Int) := by
  rw [evictToByteCap]
  cases hcap : cfg.maxSizeBytes with
  | none => exact ⟨[], _, rfl, rfl, fun cap h => by cases h⟩
  | some cap =>
      dsimp only
      split
      · next hsmall =>
        refine ⟨[], _, rfl, rfl, fun cap' h => ?_⟩
        cases h
        exact hsmall.imp_right .inl
      · obtain ⟨pre, post, hranked, heq, hend⟩ := byteCapLoop_eq cap (t.ranked cfg) t
        refine ⟨pre, post, hranked, heq, fun cap' h => ?_⟩
        cases h
        exact .inr (.inr hend)

theorem less_evictToByteCap (t : Tier K α τ C) : t.Less (t.evictToByteCap cfg) := by
  obtain ⟨pre, -, -, heq, -⟩ := evictToByteCap_eq cfg t
  rw [heq]
  exact less_evictAll t pre

theorem less_shed (t : Tier K α τ C) (nbytes : α) : t.Less (t.shed cfg nbytes) := by
  have hkeeps : ∀ (own : Int) f, some (max own pressureKeepsBytes) = some f → pressureKeepsBytes ≤ f := by
    intro own f hf
    rw [← Option.some_inj.mp hf]
    exact le_max_right _ _
  rw [shed]
  split
  · obtain ⟨n, -, heq, -⟩ := shedLoop_eq nbytes (t.ranked cfg) 0 (lists_ranked cfg t)
    rw [heq]
    exact (less_evictAll t _).trans (.of_same rfl rfl rfl rfl rfl fun f hf => .inr (hkeeps _ f hf))
  · exact .of_same rfl rfl rfl rfl rfl fun f hf => .inr (hkeeps _ f hf)

theorem less_check (t : Tier K α τ C) (mem : Reading α) : t.Less (t.check cfg mem) := by
  rw [check]
  split
  · exact (pressureShare_same t mem _).trans (less_shed _ _)
  · exact .of_same rfl rfl rfl rfl rfl fun _ hf => by cases hf

theorem less_checkAndEvict (t : Tier K α τ C) (mem : Option (Reading α)) (held : List (Held K τ)) :
    t.Less (t.checkAndEvict cfg mem held) := by
  cases mem with
  | none => exact less_flush t held
  | some mem => exact (less_flush t held).trans (less_check _ mem)

end Order

end Tier

/-! ## Small tiers -/

/-- Values that are the access count and one. -/
def counting (maxEntries maxSizeBytes : Option Nat) : Config ℚ Unit where
  maxMemoryPercent := 9 / 10
  checkInterval := 1
  maxEntries := maxEntries
  maxSizeBytes := maxSizeBytes
  gdsfValue _ count _ := count + 1
  checkInterval_pos := Nat.one_pos

/-- A write of an entry of a size, last read at a time. -/
def writeOf (size lastAccess : Nat) (mem : Option (Reading ℚ)) : Write ℚ Nat Unit Nat where
  held := []
  now := 10
  lastAccess := some lastAccess
  accessCount := none
  cost := ()
  made := .copied size fun _ => false
  mem := mem
  heldAtCheck := []

end Cash.Ram
