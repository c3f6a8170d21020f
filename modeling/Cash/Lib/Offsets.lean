import Mathlib.Data.List.Basic
import Mathlib.Data.List.GetD
import Mathlib.Tactic.Common

/-!
# Items of lists laid end to end

Where an item of a concatenation comes from, found by the running counts of the lists' lengths: which list it is in
(`listAt`) and where in it (`offsetAt`).
-/

namespace Offsets

/-- `accumulate`. -/
def accumulate : List Nat → List Nat
  | [] => []
  | n :: ns => n :: (accumulate ns).map (n + ·)

/-- `bisect_right`, of a list in order. -/
def bisectRight (ends : List Nat) (i : Nat) : Nat := (ends.takeWhile (· ≤ i)).length

/-- Which of the lists item `i` is in. -/
def listAt (lengths : List Nat) (i : Nat) : Nat := bisectRight (accumulate lengths) i

/-- Where in that list. -/
def offsetAt (lengths : List Nat) (i : Nat) : Nat :=
  i - if listAt lengths i = 0 then 0 else (accumulate lengths).getD (listAt lengths i - 1) 0

variable {n i : Nat} {ns : List Nat}

theorem listAt_lt (h : i < n) : listAt (n :: ns) i = 0 := by
  rw [listAt, accumulate, bisectRight, List.takeWhile_cons_of_neg (by simpa using h), List.length_nil]

theorem offsetAt_lt (h : i < n) : offsetAt (n :: ns) i = i := by
  rw [offsetAt, listAt_lt h, if_pos rfl, Nat.sub_zero]

theorem bisectRight_map (ends : List Nat) (h : n ≤ i) : bisectRight (ends.map (n + ·)) i = bisectRight ends (i - n) := by
  unfold bisectRight
  rw [List.takeWhile_map, List.length_map]
  congr 2
  funext m
  simp only [Function.comp, decide_eq_decide]
  omega

theorem listAt_le (h : n ≤ i) : listAt (n :: ns) i = listAt ns (i - n) + 1 := by
  rw [listAt, accumulate, bisectRight, List.takeWhile_cons_of_pos (by simpa using h), List.length_cons]
  congr 1
  exact bisectRight_map _ h

theorem length_accumulate (ns : List Nat) : (accumulate ns).length = ns.length := by
  induction ns with
  | nil => rfl
  | cons n ns ih => rw [accumulate, List.length_cons, List.length_map, ih, List.length_cons]

theorem listAt_le_length (ns : List Nat) (i : Nat) : listAt ns i ≤ ns.length := by
  rw [← length_accumulate]
  exact (List.takeWhile_sublist _).length_le

theorem offsetAt_le (h : n ≤ i) : offsetAt (n :: ns) i = offsetAt ns (i - n) := by
  rw [offsetAt, offsetAt, listAt_le h, if_neg (Nat.succ_ne_zero _), Nat.add_sub_cancel, accumulate]
  cases hk : listAt ns (i - n) with
  | zero =>
      rw [List.getD_cons_zero, if_pos rfl]
      omega
  | succ k =>
      have hlen : k < (accumulate ns).length := by
        have := listAt_le_length ns (i - n)
        rw [length_accumulate]
        omega
      rw [List.getD_cons_succ, if_neg (Nat.succ_ne_zero _), Nat.add_sub_cancel,
        List.getD_eq_getElem _ _ (by simpa using hlen), List.getD_eq_getElem _ _ hlen, List.getElem_map]
      omega

variable {α : Type} {xss : List (List α)}

/-- An item of the concatenation is in the list it is found in. -/
theorem getElem?_flatten {x : α} (h : xss.flatten[i]? = some x) :
    ∃ xs, xss[listAt (xss.map List.length) i]? = some xs ∧ xs[offsetAt (xss.map List.length) i]? = some x := by
  induction xss generalizing i with
  | nil => cases h
  | cons xs xss ih =>
      rw [List.flatten_cons] at h
      rw [List.map_cons]
      by_cases hlt : i < xs.length
      · rw [List.getElem?_append_left hlt] at h
        refine ⟨xs, ?_, ?_⟩
        · rw [listAt_lt hlt, List.getElem?_cons_zero]
        · rw [offsetAt_lt hlt, h]
      · have hle := Nat.le_of_not_lt hlt
        rw [List.getElem?_append_right hle] at h
        rw [listAt_le hle, offsetAt_le hle, List.getElem?_cons_succ]
        exact ih h

end Offsets
