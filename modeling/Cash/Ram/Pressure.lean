import Cash.Ram.Lemmas
import Mathlib.Algebra.BigOperators.Ring.Finset
import Mathlib.Algebra.Order.BigOperators.Group.List

/-!
# Caps and memory pressure
-/

namespace Cash.Ram

/-! ## What holds after a write -/

namespace Tier

variable {K α τ C : Type} [DecidableEq K]

/-! ### Keys dropped one after another -/

theorem lookup_dropAll (ks : List K) (k : K) : ∀ t : Tier K α τ C,
    (ks.foldl drop t).store.lookup k = if k ∈ ks then none else t.store.lookup k := by
  induction ks with
  | nil => exact fun t => (if_neg List.not_mem_nil).symm
  | cons key ks ih =>
      intro t
      refine (ih (t.drop key)).trans ?_
      change (if k ∈ ks then none else (t.store.erase key).lookup k) = _
      rw [Dict.lookup_erase']
      by_cases hrest : k ∈ ks
      · rw [if_pos hrest, if_pos (List.mem_cons_of_mem _ hrest)]
      · rw [if_neg hrest]
        by_cases hk : k = key
        · rw [if_pos hk, if_pos (hk ▸ List.mem_cons_self)]
        · rw [if_neg hk, if_neg fun h => (List.mem_cons.mp h).elim hk hrest]

theorem length_dropAll {ks : List K} (hnodup : ks.Nodup) : ∀ {t : Tier K α τ C}, (∀ k ∈ ks, k ∈ t.store) →
    (ks.foldl drop t).store.entries.length + ks.length = t.store.entries.length := by
  induction ks with
  | nil => exact fun _ => rfl
  | cons key ks ih =>
      intro t hmem
      rw [List.nodup_cons] at hnodup
      have hrest : ∀ k ∈ ks, k ∈ (t.drop key).store := by
        intro k hk
        refine mem_erase_iff.mpr ⟨?_, hmem k (List.mem_cons_of_mem _ hk)⟩
        rintro rfl
        exact hnodup.1 hk
      have hlength := ih hnodup.2 hrest
      have hdropped : (t.drop key).store.entries.length + 1 = t.store.entries.length :=
        length_erase_of_mem (hmem key List.mem_cons_self)
      rw [List.foldl_cons, List.length_cons]
      omega

/-! ### The entry cap -/

section Entries

variable [LinearOrder K] [LinearOrder τ]

/-- The entries with the time of their last read, oldest first. -/
def accessRanks (t : Tier K α τ C) : List (τ ×ₗ K) :=
  (t.store.entries.map fun p => (toLex (p.2.lastAccess, p.1) : τ ×ₗ K)).insertionSort (· ≤ ·)

theorem mem_accessRanks {t : Tier K α τ C} {last : τ} {k : K} :
    toLex (last, k) ∈ t.accessRanks ↔ ∃ e, t.store.lookup k = some e ∧ e.lastAccess = last := by
  rw [accessRanks, List.mem_insertionSort, List.mem_map]
  constructor
  · rintro ⟨p, hp, heq⟩
    have heq := Prod.ext_iff.mp (toLex.injective heq)
    obtain rfl : p.1 = k := heq.2
    exact ⟨p.2, Dict.lookup_of_mem_entries hp, heq.1⟩
  · rintro ⟨e, he, rfl⟩
    exact ⟨⟨k, e⟩, Dict.mem_entries_of_lookup he, rfl⟩

omit [DecidableEq K] in
theorem byAccess_perm (t : Tier K α τ C) : t.byAccess.Perm t.store.keys := by
  refine ((List.perm_insertionSort _ _).map _).trans ?_
  rw [List.map_map]
  exact .refl _

theorem length_evictLru (t : Tier K α τ C) {count : Nat} (h : count ≤ t.store.entries.length) :
    (t.evictLru count).store.entries.length + count = t.store.entries.length := by
  have hlength : (t.byAccess.take count).length = count := by
    rw [List.length_take, (byAccess_perm t).length_eq, Dict.length_keys, Nat.min_eq_left h]
  have hnodup : (t.byAccess.take count).Nodup :=
    ((byAccess_perm t).nodup_iff.mpr t.store.keys_nodup).sublist (List.take_sublist _ _)
  have hdropped := length_dropAll hnodup fun k hk =>
    show k ∈ t.store from (byAccess_perm t).mem_iff.mp (List.mem_of_mem_take hk)
  rw [hlength] at hdropped
  exact hdropped

/-- The oldest entry is the one that goes. -/
theorem mem_evictLru_one {t : Tier K α τ C} {key : K} {e : Entry τ C} (hlook : t.store.lookup key = some e) :
    key ∈ (t.evictLru 1).store ↔ ∃ k e', t.store.lookup k = some e' ∧
      (e'.lastAccess < e.lastAccess ∨ e'.lastAccess = e.lastAccess ∧ k < key) := by
  have hsorted : t.accessRanks.Pairwise (· ≤ ·) := List.pairwise_insertionSort _ _
  have hkey : toLex (e.lastAccess, key) ∈ t.accessRanks := mem_accessRanks.mpr ⟨e, hlook, rfl⟩
  rw [evictLru, show t.byAccess = t.accessRanks.map fun r => (ofLex r).2 from rfl]
  have hmem : ∀ {r : τ ×ₗ K}, r ∈ t.accessRanks ↔ ∃ e, t.store.lookup (ofLex r).2 = some e ∧ e.lastAccess = (ofLex r).1 :=
    mem_accessRanks
  cases hranks : t.accessRanks with
  | nil =>
      rw [hranks] at hkey
      cases hkey
  | cons first rest =>
      rw [hranks] at hsorted hkey hmem
      have hleast : ∀ r ∈ first :: rest, first ≤ r := by
        intro r hr
        rcases List.mem_cons.mp hr with rfl | hr
        · exact le_refl _
        · exact (List.pairwise_cons.mp hsorted).1 r hr
      obtain ⟨e', he', hlast⟩ := hmem.mp List.mem_cons_self
      rw [List.map_cons, List.take_succ_cons, List.take_zero, Dict.mem_iff_lookup]
      simp only [lookup_dropAll, List.mem_singleton]
      by_cases hfirst : key = (ofLex first).2
      · rw [if_pos hfirst]
        refine iff_of_false (fun ⟨_, h⟩ => by cases h) ?_
        rintro ⟨k, e'', he'', hbefore⟩
        have hstamp : first = toLex (e.lastAccess, key) := by
          rw [← hfirst, hlook] at he'
          cases he'
          exact ofLex.injective (Prod.ext hlast.symm hfirst.symm)
        have hle := hleast (toLex (e''.lastAccess, k)) (hmem.mpr ⟨e'', he'', rfl⟩)
        rw [hstamp] at hle
        exact absurd (Prod.Lex.lt_iff.mpr hbefore : toLex (e''.lastAccess, k) < toLex (e.lastAccess, key)) (not_lt.mpr hle)
      · rw [if_neg hfirst, hlook]
        refine iff_of_true ⟨e, rfl⟩ ⟨_, e', he', ?_⟩
        rw [hlast]
        rcases Prod.Lex.le_iff.mp (hleast _ hkey) with hlt | ⟨heq, hle⟩
        · exact .inl hlt
        · exact .inr ⟨heq, lt_of_le_of_ne hle (Ne.symm hfirst)⟩

end Entries

/-! ### Within the caps -/

variable {cfg : Config α C} {t : Tier K α τ C}

/-- What holds of a tier between two calls. -/
structure Within (cfg : Config α C) (t : Tier K α τ C) : Prop where
  kept : t.Kept
  bytes : ∀ cap, cfg.maxSizeBytes = some cap → t.currentSizeBytes ≤ cap
  entries : ∀ most, cfg.maxEntries = some most → t.store.entries.length ≤ most
  floor : ∀ f, t.pressureFloor = some f → pressureKeepsBytes ≤ f

omit [DecidableEq K] in
theorem Within.less {t' : Tier K α τ C} (h : t.Within cfg) (hless : t.Less t') : t'.Within cfg where
  kept := hless.kept h.kept
  bytes cap hcap := hless.bytes.trans (h.bytes cap hcap)
  entries most hmost := hless.length.trans (h.entries most hmost)
  floor f hf := (hless.floor f hf).elim (h.floor f) id

theorem kept_put (h : t.Kept) (key : K) (w : Write α τ C K) (size : Nat) (enters : Side → Bool) :
    (t.put key w size enters).Kept where
  sized := by
    change t.currentSizeBytes - _ + (size : Int) = Dict.sumBy _ (t.store.insert key _)
    rw [Dict.sumBy_insert, h.sized]
    rfl
  side s k hs := by
    change k ∈ t.store.insert key _
    rw [AList.mem_insert]
    by_cases hk : k = key
    · exact .inl hk
    · change (if k = key then enters s else t.side s k) = true at hs
      rw [if_neg hk] at hs
      exact .inr (h.side s k hs)
  base k := by
    change k ∈ t.gdsfBase.insert key _ ↔ k ∈ t.store.insert key _
    rw [AList.mem_insert, AList.mem_insert, h.base]
  seq k := by
    change k ∈ t.seqByKey.insert key _ ↔ k ∈ t.store.insert key _
    rw [AList.mem_insert, AList.mem_insert, h.seq]

variable [LinearOrder K]

section

variable [LinearOrder τ]

theorem less_enforceEntries (cfg : Config α C) (t : Tier K α τ C) : t.Less (t.enforceEntries cfg) := by
  rw [enforceEntries]
  split
  · exact .refl t
  · split
    · exact less_evictLru t _
    · exact .refl t

theorem length_enforceEntries {most : Nat} (h : cfg.maxEntries = some most) (t : Tier K α τ C) :
    (t.enforceEntries cfg).store.entries.length ≤ most := by
  rw [enforceEntries, h]
  dsimp only
  split
  · have hlength := length_evictLru t (Nat.sub_le t.store.entries.length most)
    omega
  · omega

end

variable [Field α] [LinearOrder α]

theorem less_enforceBytes (cfg : Config α C) (t : Tier K α τ C) : t.Less (t.enforceBytes cfg) := by
  rw [enforceBytes]
  split
  · exact .refl t
  · split
    · exact less_evictToByteCap t
    · exact .refl t

theorem bytes_enforceBytes {cap : Nat} (h : cfg.maxSizeBytes = some cap) (hkept : t.Kept)
    (hzero : cap = 0 → t.currentSizeBytes ≤ 0) : (t.enforceBytes cfg).currentSizeBytes ≤ cap := by
  rw [enforceBytes, h]
  dsimp only
  split
  · next hover =>
    obtain ⟨pre, post, hranked, heq, hend⟩ := evictToByteCap_eq cfg t
    rw [heq]
    rcases hend cap h with rfl | hsmall | rfl | htarget
    · exact absurd hover (not_lt.mpr (hzero rfl))
    · exact absurd hover (not_lt.mpr hsmall)
    · have hlists := lists_ranked cfg t
      rw [hranked] at hlists
      have hempty : (t.evictAll pre).store.entries = [] := by
        rw [List.eq_nil_iff_forall_not_mem]
        intro p hp
        exact absurd (((lists_evictAll hlists).mem p.1).mpr (Dict.mem_of_lookup (Dict.lookup_of_mem_entries hp)))
          List.not_mem_nil
      rw [((less_evictAll t pre).kept hkept).sized, heldBytes, Dict.sumBy, hempty]
      exact Int.natCast_nonneg _
    · omega
  · next hunder => exact not_lt.mp hunder

variable [LinearOrder τ]

theorem within_written (h : t.Within cfg) {size : Nat} (hsize : overTarget cfg size = false) (key : K) (w : Write α τ C K)
    (enters : Side → Bool) : (t.written cfg key w size enters).Within cfg := by
  have hput := kept_put h.kept key w size enters
  have hentries := less_enforceEntries cfg (t.put key w size enters)
  have hbytes := less_enforceBytes cfg ((t.put key w size enters).enforceEntries cfg)
  have hcounted : Within cfg (((t.put key w size enters).enforceEntries cfg).enforceBytes cfg) := by
    refine ⟨hbytes.kept (hentries.kept hput), fun cap hcap => ?_, fun most hmost => ?_, fun f hf => ?_⟩
    · refine bytes_enforceBytes hcap (hentries.kept hput) fun hzero => hentries.bytes.trans ?_
      rw [overTarget, hcap, decide_eq_false_iff_not] at hsize
      have hheld := h.bytes cap hcap
      have hprevious : 0 ≤ ((t.store.lookup key).map fun e => (e.size : Int)).getD 0 := by
        cases t.store.lookup key with
        | none => exact le_refl _
        | some e => exact Int.natCast_nonneg _
      change t.currentSizeBytes - _ + (size : Int) ≤ 0
      omega
    · exact hbytes.length.trans (length_enforceEntries hmost _)
    · rcases hbytes.floor f hf with hf | hf
      · exact (hentries.floor f hf).elim (h.floor f) id
      · exact hf
  exact hcounted.less (.of_same rfl rfl rfl rfl rfl fun _ => .inl)

theorem within_set (h : t.Within cfg) (key : K) (w : Write α τ C K) : (t.set cfg key w).2.Within cfg := by
  rw [set]
  have hflush := h.less (less_flush t w.held)
  generalize t.flush w.held = t at hflush
  cases w.made with
  | refused => exact hflush.less (less_drop t key)
  | raised => exact hflush
  | copied size enters =>
      dsimp only
      by_cases hover : overTarget cfg size = true
      · rw [if_pos hover]
        exact hflush.less (less_drop t key)
      · rw [if_neg hover]
        have hwritten := within_written hflush (Bool.eq_false_iff.mpr hover) key w enters
        dsimp only
        split
        · exact hwritten.less (less_checkAndEvict _ _ _)
        · exact hwritten

theorem within_step (h : t.Within cfg) (op : Op K α τ C) : (t.step cfg op).Within cfg := by
  cases op with
  | set key w => exact within_set h key w
  | get key now hit => exact h.less (less_get t key now hit)
  | getMetadata key now held =>
      rw [step, getMetadata]
      refine (h.less (less_flush t held)).less ?_
      generalize t.flush held = t
      cases hlook : t.store.lookup key with
      | none => exact .refl t
      | some e => exact less_counted hlook 1 now
  | delete key => exact h.less (less_drop t key)
  | clear =>
      refine h.less (less_clear t ?_)
      rw [h.kept.sized]
      exact heldBytes_nonneg t
  | check mem held => exact h.less (less_checkAndEvict t mem held)
  | evict => exact h.less (less_evictToByteCap t)

/-! ### A run's writes -/

/-- What a write should leave. -/
structure Caps (cfg : Config α C) (t : Tier K α τ C) : Prop where
  bytes : ∀ cap, cfg.maxSizeBytes = some cap → t.heldBytes ≤ cap
  entries : ∀ most, cfg.maxEntries = some most → t.store.entries.length ≤ most
  side : ∀ s k, t.side s k = true → k ∈ t.store
  base : ∀ k, k ∈ t.gdsfBase ↔ k ∈ t.store
  seq : ∀ k, k ∈ t.seqByKey ↔ k ∈ t.store

/-- An entry that a write accepts is not the one its own entry cap evicts. -/
def Survives (cfg : Config α C) (t : Tier K α τ C) (key : K) (w : Write α τ C K) : Prop :=
  ∀ size enters, w.made = .copied size enters → overTarget cfg size = false →
    key ∈ (((t.flush w.held).put key w size enters).enforceEntries cfg).store

/-- Where a write adds a key to a full tier, some entry held was last read earlier by its metadata, or at the same time and has
a smaller key. -/
def Older (cfg : Config α C) (t : Tier K α τ C) (key : K) (w : Write α τ C K) : Prop :=
  ∀ size enters, w.made = .copied size enters → overTarget cfg size = false →
    cfg.maxEntries = some (t.flush w.held).store.entries.length → key ∉ (t.flush w.held).store →
      ∃ k e, (t.flush w.held).store.lookup k = some e ∧
        (e.lastAccess < w.lastAccess.getD w.now ∨ e.lastAccess = w.lastAccess.getD w.now ∧ k < key)

omit [Field α] [LinearOrder α] in
theorem survives_iff (h : t.Within cfg) (key : K) (w : Write α τ C K) : t.Survives cfg key w ↔ t.Older cfg key w := by
  have hflush := h.less (less_flush t w.held)
  rw [Survives, Older]
  generalize t.flush w.held = t at hflush
  refine forall_congr' fun size => forall_congr' fun enters => forall_congr' fun _ => forall_congr' fun _ => ?_
  have hput : (t.put key w size enters).store.lookup key =
      some ⟨t.dicts, size, w.cost, w.accessCount.getD 0, w.lastAccess.getD w.now⟩ := AList.lookup_insert _
  have hin : key ∈ (t.put key w size enters).store := Dict.mem_of_lookup hput
  rw [enforceEntries]
  cases hmost : cfg.maxEntries with
  | none => exact iff_of_true hin fun hfull => by cases hfull
  | some most =>
      dsimp only
      have hle := hflush.entries most hmost
      by_cases hmem : key ∈ t.store
      · have hlength : (t.put key w size enters).store.entries.length = t.store.entries.length := length_insert_of_mem hmem _
        rw [hlength, if_neg (not_lt.mpr hle)]
        exact iff_of_true hin fun _ hnot => absurd hmem hnot
      · have hlength : (t.put key w size enters).store.entries.length = t.store.entries.length + 1 :=
          length_insert_of_not_mem hmem _
        by_cases hfull : most = t.store.entries.length
        · rw [hlength, hfull, if_pos (Nat.lt_succ_self _), Nat.add_sub_cancel_left, mem_evictLru_one hput]
          refine Iff.trans ?_ (forall_prop_of_true rfl).symm
          refine Iff.trans ?_ (forall_prop_of_true hmem).symm
          refine exists_congr fun k => exists_congr fun e => ?_
          change (t.store.insert key _).lookup k = some e ∧ _ ↔ _
          rw [Dict.lookup_insert']
          by_cases hk : k = key
          · rw [if_pos hk, hk]
            refine iff_of_false ?_ fun hlook => hmem (Dict.mem_of_lookup hlook.1)
            rintro ⟨he, hbefore⟩
            cases he
            rcases hbefore with hlt | ⟨-, hlt⟩
            · exact lt_irrefl _ hlt
            · exact lt_irrefl _ hlt
          · rw [if_neg hk]
        · rw [hlength, if_neg (by omega)]
          exact iff_of_true hin fun heq => absurd (Option.some_inj.mp heq) hfull

/-- The writes of a run, each with the tier before it. -/
def writes (cfg : Config α C) (t : Tier K α τ C) : List (Op K α τ C) → List (Tier K α τ C × K × Write α τ C K)
  | [] => []
  | .set key w :: ops => (t, key, w) :: writes cfg (t.set cfg key w).2 ops
  | op :: ops => writes cfg (t.step cfg op) ops

theorem within_writes (ops : List (Op K α τ C)) : ∀ {t : Tier K α τ C}, t.Within cfg →
    ∀ p ∈ writes cfg t ops, p.1.Within cfg := by
  induction ops with
  | nil => exact fun _ p hp => absurd hp List.not_mem_nil
  | cons op ops ih =>
      intro t h p hp
      cases op with
      | set key w =>
          rcases List.mem_cons.mp hp with rfl | hp
          · exact h
          · exact ih (within_set h key w) p hp
      | _ => exact ih (within_step h _) p hp

omit [DecidableEq K] [LinearOrder K] [LinearOrder α] [LinearOrder τ] in
theorem within_empty : (empty : Tier K α τ C).Within cfg where
  kept := ⟨rfl, fun _ _ hs => (by cases hs), fun _ => Iff.rfl, fun _ => Iff.rfl⟩
  bytes _ _ := Int.natCast_nonneg _
  entries _ _ := Nat.zero_le _
  floor _ hf := by cases hf

/-- After every write the caps hold, and no write evicts its own entry by the entry cap, exactly when every write that adds a
key to a full tier finds an older entry there. -/
theorem writes_caps_iff (cfg : Config α C) (ops : List (Op K α τ C)) :
    (∀ p ∈ writes cfg empty ops, Caps cfg (p.1.set cfg p.2.1 p.2.2).2 ∧ p.1.Survives cfg p.2.1 p.2.2) ↔
      ∀ p ∈ writes cfg empty ops, p.1.Older cfg p.2.1 p.2.2 := by
  apply forall₂_congr
  intro p hp
  have hwithin := within_writes ops within_empty p hp
  have hset := within_set hwithin p.2.1 p.2.2
  rw [survives_iff hwithin]
  refine and_iff_right ⟨?_, hset.entries, hset.kept.side, hset.kept.base, hset.kept.seq⟩
  rw [← hset.kept.sized]
  exact hset.bytes

/-- The second entry was last read before the first, by its metadata, and is evicted as it is stored. -/
theorem promoted_entry_evicted : ¬∀ p ∈ writes (counting (some 1) none) (empty : Tier Nat ℚ Nat Unit)
    [.set 1 (writeOf 6 5 none), .set 2 (writeOf 6 3 none)],
      Caps (counting (some 1) none) (p.1.set (counting (some 1) none) p.2.1 p.2.2).2 ∧
        p.1.Survives (counting (some 1) none) p.2.1 p.2.2 := by
  intro h
  have hkept := (h _ (List.mem_cons_of_mem _ List.mem_cons_self)).2 6 (fun _ => false) rfl rfl
  revert hkept
  decide +kernel

end Tier

/-! ## What memory pressure takes -/

namespace Tier

variable {K α τ C : Type} [DecidableEq K] [Field α] [LinearOrder α] [LinearOrder K] {cfg : Config α C} {t : Tier K α τ C}

/-! ### The bytes that are shed -/

/-- The bytes that the `n` least valuable entries hold. -/
def freedBy (cfg : Config α C) (t : Tier K α τ C) (n : Nat) : Nat := t.freed ((t.ranked cfg).take n)

/-- A check does not take the tier below what it keeps, and does not lower the level of the episode. -/
structure Holds (t t' : Tier K α τ C) : Prop where
  footprint : min t.currentSizeBytes pressureKeepsBytes ≤ t'.currentSizeBytes
  floor : ∀ f, t.pressureFloor = some f → ∃ f', t'.pressureFloor = some f' ∧ f ≤ f'

/-- What is to be given back can be given back in whole entries: for a fresh share some number of the least valuable entries is
enough and leaves what the tier keeps; later some number of them is exactly what is over the level. -/
structure Whole (cfg : Config α C) (t : Tier K α τ C) (mem : Reading α) : Prop where
  first : t.pressureFloor = none → freshShare t.currentSizeBytes mem (cfg.maxMemoryPercent * (9 / 10)) ≤ 0 ∨
    ∃ n, freshShare t.currentSizeBytes mem (cfg.maxMemoryPercent * (9 / 10)) ≤ (t.freedBy cfg n : α) ∧
      (t.freedBy cfg n : Int) ≤ t.currentSizeBytes - pressureKeepsBytes
  later : ∀ f, t.pressureFloor = some f → f = pressureKeepsBytes ∧ t.currentSizeBytes ≤ pressureKeepsBytes ∨
    ∃ n, (t.freedBy cfg n : Int) = t.currentSizeBytes - f

section Check

variable [IsStrictOrderedRing α] {mem : Reading α}

end Check

/-! ### Episodes -/

variable [LinearOrder τ]

/-- The memory check that an operation makes: the tier before it, and the reading. -/
def checkOf (cfg : Config α C) (t : Tier K α τ C) : Op K α τ C → Option (Tier K α τ C × Reading α)
  | .set key w =>
    let t := t.flush w.held
    match w.made with
    | .copied size enters =>
      if overTarget cfg size then none
      else
        let t := t.written cfg key w size enters
        if t.due cfg then w.mem.map fun mem => (t.flush w.heldAtCheck, mem) else none
    | _ => none
  | .check mem held => mem.map fun mem => (t.flush held, mem)
  | _ => none

/-- The checks of a run: the tier before each, its reading, and the tier the operation leaves. -/
def checks (cfg : Config α C) (t : Tier K α τ C) : List (Op K α τ C) → List (Tier K α τ C × Reading α × Tier K α τ C)
  | [] => []
  | op :: ops => ((checkOf cfg t op).toList.map fun p => (p.1, p.2, t.step cfg op)) ++ checks cfg (t.step cfg op) ops

end Tier

end Cash.Ram
