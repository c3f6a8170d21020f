import Mathlib.Algebra.Ring.Int.Defs
import Mathlib.Data.List.AList
import Mathlib.Algebra.BigOperators.Group.List.Basic
import Mathlib.Tactic.Common

/-!
# Dicts

A dict is Mathlib's `AList`, a list of items in which no key occurs twice. Here are the facts about
lookups, in the form the proofs rewrite with, and the sum of a weight over the items.
-/

/-- A dict from `K` to `V`. -/
abbrev Dict (K V : Type) : Type := AList fun _ : K => V

namespace Dict

variable {K V : Type} [DecidableEq K]

/-- `d.get(k, default)`. -/
def getD (d : Dict K V) (k : K) (default : V) : V := (d.lookup k).getD default

/-- `d[k] = f(d.get(k))`. -/
def modify (d : Dict K V) (k : K) (f : Option V → V) : Dict K V := d.insert k (f (d.lookup k))

/-- `d.update(items)`: a later item replaces an earlier one of its key. -/
def update (d : Dict K V) (items : List (K × V)) : Dict K V := items.foldl (fun d p => d.insert p.1 p.2) d

/-- `items[k] = v` where the order of the items counts: a key that is there keeps its position. -/
def setItem (items : List (K × V)) (k : K) (v : V) : List (K × V) :=
  if k ∈ items.map (·.1) then items.map fun p => if p.1 = k then (k, v) else p else items ++ [(k, v)]

theorem lookup_insert' (d : Dict K V) (k k' : K) (v : V) :
    (d.insert k v).lookup k' = if k' = k then some v else d.lookup k' := by
  by_cases h : k' = k
  · subst h; simp
  · simp [h]

theorem lookup_erase' (d : Dict K V) (k k' : K) :
    (d.erase k).lookup k' = if k' = k then none else d.lookup k' := by
  by_cases h : k' = k
  · subst h; simp
  · simp [h]

theorem lookup_insert_cases {d : Dict K V} {k k' : K} {v v' : V} (h : (d.insert k v).lookup k' = some v') :
    k' = k ∧ v' = v ∨ k' ≠ k ∧ d.lookup k' = some v' := by
  rw [lookup_insert'] at h
  split at h
  · rename_i hk
    cases h
    exact .inl ⟨hk, rfl⟩
  · rename_i hk
    exact .inr ⟨hk, h⟩

theorem lookup_of_erase {d : Dict K V} {k k' : K} {v : V} (h : (d.erase k).lookup k' = some v) :
    k' ≠ k ∧ d.lookup k' = some v := by
  rw [lookup_erase'] at h
  split at h
  · cases h
  · rename_i hk
    exact ⟨hk, h⟩

theorem getD_insert (d : Dict K V) (k k' : K) (v default : V) :
    getD (d.insert k v) k' default = if k' = k then v else getD d k' default := by
  unfold getD
  rw [lookup_insert']
  split <;> rfl

theorem getD_erase (d : Dict K V) (k k' : K) (default : V) :
    getD (d.erase k) k' default = if k' = k then default else getD d k' default := by
  unfold getD
  rw [lookup_erase']
  split <;> rfl

theorem mem_iff_lookup {d : Dict K V} {k : K} : k ∈ d ↔ ∃ v, d.lookup k = some v := by
  rw [← AList.lookup_isSome, Option.isSome_iff_exists]

theorem mem_of_lookup {d : Dict K V} {k : K} {v : V} (h : d.lookup k = some v) : k ∈ d :=
  mem_iff_lookup.mpr ⟨v, h⟩

theorem lookup_of_mem_entries {d : Dict K V} {e : Sigma fun _ : K => V} (h : e ∈ d.entries) :
    d.lookup e.1 = some e.2 :=
  AList.mem_lookup_iff.mpr h

theorem mem_entries_of_lookup {d : Dict K V} {k : K} {v : V} (h : d.lookup k = some v) :
    (⟨k, v⟩ : Sigma fun _ : K => V) ∈ d.entries :=
  AList.mem_lookup_iff.mp h

/-! ## Many items at once -/

theorem lookup_update {d : Dict K V} {items : List (K × V)} {k : K} {v : V}
    (h : (d.update items).lookup k = some v) :
    (k, v) ∈ items ∨ k ∉ items.map (·.1) ∧ d.lookup k = some v := by
  induction items generalizing d with
  | nil => exact .inr ⟨by simp, h⟩
  | cons p items ih =>
      rcases ih (d := d.insert p.1 p.2) h with h | ⟨hk, h⟩
      · exact .inl (by simp [h])
      · rw [lookup_insert'] at h
        split at h
        · rename_i heq
          cases h
          exact .inl (by simp [heq])
        · rename_i hne
          refine .inr ⟨?_, h⟩
          simp only [List.map_cons, List.mem_cons, not_or]
          exact ⟨hne, hk⟩

theorem mem_update {d : Dict K V} {items : List (K × V)} {k : K} :
    k ∈ d.update items ↔ k ∈ items.map (·.1) ∨ k ∈ d := by
  induction items generalizing d with
  | nil => simp [update]
  | cons p items ih =>
      have : update d (p :: items) = update (d.insert p.1 p.2) items := rfl
      rw [this, ih, AList.mem_insert]
      simp only [List.map_cons, List.mem_cons]
      tauto

theorem mem_setItem {items : List (K × V)} {k : K} {v : V} {p : K × V} (h : p ∈ setItem items k v) :
    p = (k, v) ∨ p ∈ items := by
  unfold setItem at h
  split at h
  · obtain ⟨q, hq, rfl⟩ := List.mem_map.mp h
    split
    · exact .inl rfl
    · exact .inr hq
  · rcases List.mem_append.mp h with h | h
    · exact .inr h
    · exact .inl (List.mem_singleton.mp h)

theorem mem_keys_setItem {items : List (K × V)} {k k' : K} {v : V} :
    k' ∈ (setItem items k v).map (·.1) ↔ k' = k ∨ k' ∈ items.map (·.1) := by
  unfold setItem
  split
  · rename_i hk
    have hkeys : (items.map fun p => if p.1 = k then (k, v) else p).map (·.1) = items.map (·.1) := by
      rw [List.map_map]
      apply List.map_congr_left
      intro p _
      by_cases h : p.1 = k
      · simp [h]
      · simp [h]
    rw [hkeys]
    constructor
    · exact .inr
    · rintro (rfl | h)
      · exact hk
      · exact h
  · simp only [List.map_append, List.map_cons, List.map_nil, List.mem_append, List.mem_singleton]
    tauto

/-! ## The items by their last use

A stored item stands first in the list of items, so the list is ordered by the last use where a read stores what it
finds again.
-/

/-- A read that marks the item used. -/
def touch (d : Dict K V) (k : K) : Dict K V :=
  match d.lookup k with
  | some v => d.insert k v
  | none => d

@[simp] theorem lookup_touch (d : Dict K V) (k k' : K) : (d.touch k).lookup k' = d.lookup k' := by
  unfold touch
  split
  · rename_i v hv
    rw [lookup_insert']
    split
    · rename_i hk
      rw [hk, hv]
    · rfl
  · rfl

omit [DecidableEq K] in
theorem length_keys (d : Dict K V) : d.keys.length = d.entries.length := by
  simp [AList.keys, List.keys]

theorem length_insert_le (d : Dict K V) (k : K) (v : V) :
    (d.insert k v).entries.length ≤ d.entries.length + 1 := by
  rw [← length_keys, ← length_keys, AList.keys_insert, List.length_cons]
  exact Nat.succ_le_succ List.length_erase_le

theorem length_touch (d : Dict K V) (k : K) : (d.touch k).entries.length = d.entries.length := by
  unfold touch
  split
  · rename_i v hv
    have hmem : k ∈ d.keys := mem_of_lookup hv
    have hpos : 0 < d.keys.length := List.length_pos_of_mem hmem
    rw [← length_keys, ← length_keys, AList.keys_insert, List.length_cons, List.length_erase_of_mem hmem]
    omega
  · rfl

/-- The `n` items used last, in the order of their use. -/
def newest (d : Dict K V) (n : Nat) : List (K × V) := (d.entries.take n).reverse.map fun e => (e.1, e.2)

theorem mem_newest {d : Dict K V} {n : Nat} (h : d.entries.length ≤ n) {k : K} {v : V} :
    (k, v) ∈ d.newest n ↔ d.lookup k = some v := by
  unfold newest
  rw [List.take_of_length_le h]
  constructor
  · intro hmem
    obtain ⟨e, he, heq⟩ := List.mem_map.mp hmem
    cases heq
    exact lookup_of_mem_entries (List.mem_reverse.mp he)
  · intro hlook
    exact List.mem_map.mpr ⟨_, List.mem_reverse.mpr (mem_entries_of_lookup hlook), rfl⟩

/-! ## The sum of a weight over the items -/

/-- The sum of `f k v` over the items `k ↦ v`. -/
def sumBy (f : K → V → Int) (d : Dict K V) : Int := (d.entries.map fun p => f p.1 p.2).sum

omit [DecidableEq K] in
@[simp] theorem sumBy_empty (f : K → V → Int) : sumBy f (∅ : Dict K V) = 0 := rfl

private theorem sum_kerase (f : K → V → Int) (k : K) (l : List (Sigma fun _ : K => V)) :
    ((l.kerase k).map fun p => f p.1 p.2).sum =
      (l.map fun p => f p.1 p.2).sum - ((l.dlookup k).map (f k)).getD 0 := by
  induction l with
  | nil => simp
  | cons p l ih =>
      obtain ⟨a, v⟩ := p
      by_cases h : k = a
      · subst h; simp
      · rw [List.kerase_cons_ne (by simpa using h), List.dlookup_cons_ne _ _ (by simpa using h)]
        simp only [List.map_cons, List.sum_cons, ih]
        omega

/-- Removing a key takes its weight off the sum. -/
theorem sumBy_erase (f : K → V → Int) (d : Dict K V) (k : K) :
    sumBy f (d.erase k) = sumBy f d - ((d.lookup k).map (f k)).getD 0 :=
  sum_kerase f k d.entries

/-- Storing under a key replaces its weight in the sum. -/
theorem sumBy_insert (f : K → V → Int) (d : Dict K V) (k : K) (v : V) :
    sumBy f (d.insert k v) = sumBy f d - ((d.lookup k).map (f k)).getD 0 + f k v := by
  have h := sum_kerase f k d.entries
  simp only [sumBy, AList.entries_insert, List.map_cons, List.sum_cons, h, AList.lookup]
  omega

omit [DecidableEq K] in
theorem sumBy_nonneg {f : K → V → Int} {d : Dict K V} (h : ∀ k v, 0 ≤ f k v) : 0 ≤ sumBy f d := by
  unfold sumBy
  induction d.entries with
  | nil => simp
  | cons p l ih =>
      have := h p.1 p.2
      simp only [List.map_cons, List.sum_cons]
      omega

end Dict
