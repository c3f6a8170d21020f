import Cash.Lib.Dict
import Mathlib.Data.List.Nodup
import Mathlib.Tactic.Common

/-!
# Items in the order they were put

A dict as the list of its items, the item put last at the end.
-/

namespace Items

variable {K V W : Type} [DecidableEq K]

/-- `d.pop(k, None)`. -/
def pop (items : List (K × V)) (k : K) : List (K × V) := items.filter fun p => p.1 ≠ k

/-- `d.pop(k, None); d[k] = v`. -/
def putLast (items : List (K × V)) (k : K) (v : V) : List (K × V) := pop items k ++ [(k, v)]

/-- The last items, `most` of them at most. -/
def trim {α : Type} (items : List α) (most : ℕ) : List α := items.drop (items.length - most)

/-- The keys, in order. -/
def keys (items : List (K × V)) : List K := items.map (·.1)

variable {items : List (K × V)} {k k' : K} {v : V} {p : K × V}

omit [DecidableEq K] in
theorem mem_keys : k ∈ keys items ↔ ∃ v, (k, v) ∈ items := by
  simp [keys]

theorem mem_pop : p ∈ pop items k ↔ p ∈ items ∧ p.1 ≠ k := by
  rw [pop, List.mem_filter, decide_eq_true_eq]

theorem mem_keys_pop : k' ∈ keys (pop items k) ↔ k' ∈ keys items ∧ k' ≠ k := by
  simp only [mem_keys, mem_pop, exists_and_right]

theorem pop_of_not_mem (h : k ∉ keys items) : pop items k = items := by
  rw [pop, List.filter_eq_self]
  intro p hp
  rw [decide_eq_true_eq]
  rintro rfl
  exact h (mem_keys.mpr ⟨p.2, hp⟩)

theorem keys_pop : keys (pop items k) = (keys items).filter (· ≠ k) := by
  rw [keys, pop, keys, List.filter_map]
  rfl

theorem nodup_pop (h : (keys items).Nodup) : (keys (pop items k)).Nodup := by
  rw [keys_pop]
  exact h.filter _

theorem pop_append (items items' : List (K × V)) : pop (items ++ items') k = pop items k ++ pop items' k :=
  List.filter_append _ _

theorem mem_trim {α : Type} {items : List α} {most : ℕ} {x : α} (h : x ∈ trim items most) : x ∈ items := List.mem_of_mem_drop h

theorem length_trim {α : Type} {items : List α} {most : ℕ} : (trim items most).length ≤ most := by
  rw [trim, List.length_drop]
  omega

theorem trim_of_le {α : Type} {items : List α} {most : ℕ} (h : items.length ≤ most) : trim items most = items := by
  rw [trim, Nat.sub_eq_zero_of_le h, List.drop_zero]

/-- What was put last is not trimmed, where it is few enough. -/
theorem trim_append {α : Type} {items last : List α} {most : ℕ} (h : last.length ≤ most) :
    trim (items ++ last) most = items.drop (items.length + last.length - most) ++ last := by
  rw [trim, List.length_append, List.drop_append_of_le_length (by omega)]

omit [DecidableEq K] in
theorem keys_trim (most : ℕ) : keys (trim items most) = trim (keys items) most := by
  rw [keys, trim, keys, trim, List.length_map, List.map_drop]

omit [DecidableEq K] in
theorem nodup_trim {most : ℕ} (h : (keys items).Nodup) : (keys (trim items most)).Nodup := by
  rw [keys_trim]
  exact h.sublist (List.drop_sublist _ _)

/-! ## Items set one after another -/

section

variable {K V : Type} [DecidableEq K] [BEq K] [LawfulBEq K]

omit [DecidableEq K] in
theorem lookup_eq_of_mem {items : List (K × V)} {k : K} {v : V} (h : (keys items).Nodup) (hp : (k, v) ∈ items) :
    items.lookup k = some v := by
  induction items with
  | nil => cases hp
  | cons q items ih =>
      rw [keys, List.map_cons, List.nodup_cons] at h
      rcases List.mem_cons.mp hp with rfl | hp
      · exact List.lookup_cons_self
      · have hne : k ≠ q.1 := by
          rintro rfl
          exact h.1 (mem_keys.mpr ⟨v, hp⟩)
        rw [List.lookup_cons, beq_false_of_ne hne]
        exact ih h.2 hp

omit [DecidableEq K] in
theorem mem_of_lookup {items : List (K × V)} {k : K} {v : V} (h : items.lookup k = some v) : (k, v) ∈ items := by
  induction items with
  | nil => cases h
  | cons p items ih =>
      rw [List.lookup_cons] at h
      by_cases hk : k = p.1
      · rw [hk, beq_self_eq_true] at h
        rw [hk, ← Option.some_inj.mp h]
        exact List.mem_cons_self
      · rw [beq_false_of_ne hk] at h
        exact List.mem_cons_of_mem _ (ih h)

theorem lookup_setItem (d : List (K × V)) (k k' : K) (v : V) :
    (Dict.setItem d k v).lookup k' = if k' = k then some v else d.lookup k' := by
  have hmap : ∀ d : List (K × V), (d.map fun p => if p.1 = k then (k, v) else p).lookup k' =
      if k' = k then (if k ∈ d.map (·.1) then some v else none) else d.lookup k' := by
    intro d
    induction d with
    | nil => simp
    | cons p d ih =>
        rw [List.map_cons, List.lookup_cons, ih, List.lookup_cons]
        by_cases hp : p.1 = k
        · rw [if_pos hp, hp]
          by_cases hk : k' = k
          · rw [hk, beq_self_eq_true, if_pos rfl, List.map_cons, hp, if_pos List.mem_cons_self]
            exact (if_pos rfl).symm
          · rw [beq_false_of_ne hk, if_neg hk, if_neg hk]
        · rw [if_neg hp]
          by_cases hk : k' = k
          · rw [hk, beq_false_of_ne (Ne.symm hp), if_pos rfl, if_pos rfl, List.map_cons]
            by_cases hmem : k ∈ d.map (·.1)
            · rw [if_pos hmem, if_pos (List.mem_cons_of_mem _ hmem)]
            · rw [if_neg hmem, if_neg (fun h => (List.mem_cons.mp h).elim (fun h => hp h.symm) hmem)]
          · rw [if_neg hk, if_neg hk]
  have hnone : ∀ d : List (K × V), k ∉ d.map (·.1) → d.lookup k = none := by
    intro d hk
    rw [List.lookup_eq_none_iff]
    intro p hp
    have hne : k ≠ p.1 := fun heq => hk (List.mem_map.mpr ⟨p, hp, heq.symm⟩)
    simpa using hne
  unfold Dict.setItem
  split
  · next hk => rw [hmap, if_pos hk]
  · next hk =>
    rw [List.lookup_append]
    by_cases hkk : k' = k
    · rw [if_pos hkk, hkk, hnone d hk, Option.none_or, List.lookup_cons_self]
    · rw [if_neg hkk, List.lookup_cons, beq_false_of_ne hkk, List.lookup_nil, Option.or_none]

theorem keys_setItem (d : List (K × V)) (k : K) (v : V) :
    keys (Dict.setItem d k v) = if k ∈ keys d then keys d else keys d ++ [k] := by
  unfold Dict.setItem keys
  split
  · rw [List.map_map]
    apply List.map_congr_left
    intro p _
    by_cases hp : p.1 = k
    · simp [hp]
    · simp [hp]
  · rw [List.map_append, List.map_singleton]

theorem nodup_setItem {d : List (K × V)} (h : (keys d).Nodup) (k : K) (v : V) :
    (keys (Dict.setItem d k v)).Nodup := by
  rw [keys_setItem]
  split
  · exact h
  · next hk => exact List.nodup_append.mpr ⟨h, List.nodup_singleton k, fun a ha b hb hab => hk (List.mem_singleton.mp hb ▸ hab ▸ ha)⟩

/-- The value that writes leave under a key. -/
def lastFrom (old : Option V) (writes : List (K × V)) (k : K) : Option V :=
  writes.foldl (fun last p => if k = p.1 then some p.2 else last) old

omit [BEq K] in
theorem lastFrom_append (old : Option V) (xs ys : List (K × V)) (k : K) :
    lastFrom old (xs ++ ys) k = lastFrom (lastFrom old xs k) ys k := List.foldl_append ..

theorem lookup_foldl_setItem (writes d : List (K × V)) (k : K) :
    (writes.foldl (fun d p => Dict.setItem d p.1 p.2) d).lookup k = lastFrom (d.lookup k) writes k := by
  induction writes generalizing d with
  | nil => rfl
  | cons p writes ih => rw [List.foldl_cons, ih, lookup_setItem, lastFrom, lastFrom, List.foldl_cons]

theorem nodup_foldl_setItem (writes : List (K × V)) {d : List (K × V)} (h : (keys d).Nodup) :
    (keys (writes.foldl (fun d p => Dict.setItem d p.1 p.2) d)).Nodup := by
  induction writes generalizing d with
  | nil => exact h
  | cons p writes ih => exact ih (nodup_setItem h p.1 p.2)

/-- A dict's items, written over another's, leave what the dict holds. -/
theorem lastFrom_of_nodup {d : List (K × V)} (h : (keys d).Nodup) (old : Option V) (k : K) :
    lastFrom old d k = (d.lookup k).or old := by
  induction d generalizing old with
  | nil => rfl
  | cons p d ih =>
      rw [keys, List.map_cons, List.nodup_cons] at h
      rw [lastFrom, List.foldl_cons, List.lookup_cons]
      refine (ih h.2 _).trans ?_
      by_cases hk : k = p.1
      · have hnone : d.lookup k = none := by
          rw [List.lookup_eq_none_iff]
          intro q hq
          have hne : k ≠ q.1 := fun heq => h.1 (hk ▸ List.mem_map.mpr ⟨q, hq, heq.symm⟩)
          simpa using hne
        rw [hnone, if_pos hk, hk, beq_self_eq_true, Option.none_or, Option.some_or]
      · rw [if_neg hk, beq_false_of_ne hk]

omit [BEq K] in
theorem lastFrom_or (old : Option V) (writes : List (K × V)) (k : K) :
    lastFrom old writes k = (lastFrom none writes k).or old := by
  induction writes generalizing old with
  | nil => rfl
  | cons p writes ih =>
      have hcons : ∀ old : Option V, lastFrom old (p :: writes) k = lastFrom (if k = p.1 then some p.2 else old) writes k :=
        fun old => rfl
      rw [hcons, hcons, ih]
      refine Eq.trans ?_ (congrArg (·.or old) (ih _)).symm
      by_cases hk : k = p.1
      · simp [hk]
      · simp [hk]

end

end Items
