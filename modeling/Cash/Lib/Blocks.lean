import Mathlib.Data.List.Basic
import Mathlib.Data.Nat.Basic
import Mathlib.Data.Set.Function
import Mathlib.Order.Monotone.Basic
import Mathlib.Tactic.Common

/-!
# A list cut into blocks

The whole blocks of `n` items at the front of a list and what is left over, and the writes that fill a table slot by
slot in any order.
-/

namespace Blocks

variable {α : Type*} {n : Nat}

/-- The items from `i * n` on, `n` of them. -/
def block (n : Nat) (xs : List α) (i : Nat) : List α := (xs.drop (i * n)).take n

/-- The first `count` blocks. -/
def blocksUpTo (n count : Nat) (xs : List α) : List (List α) := (List.range count).map (block n xs)

/-- The whole blocks. -/
def blocks (n : Nat) (xs : List α) : List (List α) := blocksUpTo n (xs.length / n) xs

/-- The items after the last whole block. -/
def leftover (n : Nat) (xs : List α) : List α := xs.drop (xs.length / n * n)

@[simp] theorem blocks_nil (n : Nat) : blocks n ([] : List α) = [] := by simp [blocks, blocksUpTo]

@[simp] theorem leftover_nil (n : Nat) : leftover n ([] : List α) = [] := by simp [leftover]

theorem length_leftover (n : Nat) (xs : List α) : (leftover n xs).length = xs.length % n := by
  have hdiv := Nat.div_add_mod' xs.length n
  simp only [leftover, List.length_drop]
  omega

/-! ## A list and what follows it -/

/-- A block that the list holds whole is the same with anything behind it. -/
theorem block_append_left {xs : List α} (ys : List α) {i : Nat} (hi : i < xs.length / n) :
    block n (xs ++ ys) i = block n xs i := by
  have hle : (i + 1) * n ≤ xs.length := Nat.le_trans (Nat.mul_le_mul_right n hi) (Nat.div_mul_le_self xs.length n)
  rw [Nat.succ_mul] at hle
  rw [block, block, List.drop_append_of_le_length (by omega), List.take_append_of_le_length]
  simp only [List.length_drop]
  omega

theorem block_append_right {xs : List α} (ys : List α) {q : Nat} (hxs : xs.length = q * n) (i : Nat) :
    block n (xs ++ ys) (q + i) = block n ys i := by
  have hdrop : xs.drop (xs.length + i * n) = [] := List.drop_eq_nil_of_le (by omega)
  rw [block, block, Nat.add_mul, ← hxs, List.drop_append, hdrop]
  simp

theorem blocks_append {xs : List α} (ys : List α) (hn : 0 < n) (hxs : n ∣ xs.length) :
    blocks n (xs ++ ys) = blocks n xs ++ blocks n ys := by
  obtain ⟨q, hq⟩ := hxs
  have hq' : xs.length = q * n := by rw [hq, Nat.mul_comm]
  have hdiv : xs.length / n = q := by rw [hq', Nat.mul_div_cancel _ hn]
  have hcount : (xs ++ ys).length / n = q + ys.length / n := by
    rw [List.length_append, hq', Nat.mul_comm, Nat.mul_add_div hn]
  simp only [blocks, blocksUpTo, hcount, hdiv, List.range_add, List.map_append, List.map_map]
  congr 1
  · refine List.map_congr_left fun i hi => block_append_left ys ?_
    rw [hdiv]
    exact List.mem_range.mp hi
  · exact List.map_congr_left fun i _ => block_append_right ys hq' i

theorem leftover_append {xs : List α} (ys : List α) (hn : 0 < n) (hxs : n ∣ xs.length) :
    leftover n (xs ++ ys) = leftover n ys := by
  obtain ⟨q, hq⟩ := hxs
  have hq' : xs.length = q * n := by rw [hq, Nat.mul_comm]
  have hcount : (xs ++ ys).length / n = q + ys.length / n := by
    rw [List.length_append, hq', Nat.mul_comm, Nat.mul_add_div hn]
  rw [leftover, leftover, hcount, Nat.add_mul, ← hq']
  simp [List.drop_append]

theorem blocks_of_short {xs : List α} (hxs : xs.length < n) : blocks n xs = [] := by
  simp [blocks, blocksUpTo, Nat.div_eq_of_lt hxs]

theorem leftover_of_short {xs : List α} (hxs : xs.length < n) : leftover n xs = xs := by
  simp [leftover, Nat.div_eq_of_lt hxs]

theorem blocks_of_length {xs : List α} (hn : 0 < n) (hxs : xs.length = n) : blocks n xs = [xs] := by
  have htake : xs.take n = xs := List.take_of_length_le (by omega)
  simp [blocks, blocksUpTo, block, hxs, Nat.div_self hn, htake]

theorem flatten_blocksUpTo {xs : List α} {count : Nat} (hcount : count ≤ xs.length / n) :
    (blocksUpTo n count xs).flatten = xs.take (count * n) := by
  induction count with
  | zero => simp [blocksUpTo]
  | succ count ih =>
    have ih := ih (by omega)
    simp only [blocksUpTo] at ih ⊢
    rw [List.range_succ, List.map_append, List.flatten_append, ih, Nat.succ_mul, List.take_add]
    simp [block]

/-- The blocks and what is left over are the list. -/
theorem flatten_blocks (xs : List α) : (blocks n xs).flatten ++ leftover n xs = xs := by
  rw [blocks, flatten_blocksUpTo le_rfl, leftover, List.take_append_drop]

theorem dvd_length_flatten_blocks (xs : List α) : n ∣ (blocks n xs).flatten.length := by
  rw [blocks, flatten_blocksUpTo le_rfl, List.length_take, Nat.min_eq_left (Nat.div_mul_le_self _ _)]
  exact Nat.dvd_mul_left n _

theorem leftover_lt (hn : 0 < n) (xs : List α) : (leftover n xs).length < n := by
  rw [length_leftover]
  exact Nat.mod_lt _ hn

/-- What follows a list is cut together with the list's leftover. -/
theorem append_cut (hn : 0 < n) (xs ys : List α) :
    blocks n (xs ++ ys) = blocks n xs ++ blocks n (leftover n xs ++ ys) ∧
      leftover n (xs ++ ys) = leftover n (leftover n xs ++ ys) := by
  have hdvd := dvd_length_flatten_blocks (n := n) xs
  have hxs : blocks n (blocks n xs).flatten = blocks n xs := by
    have happend := blocks_append (leftover n xs) hn hdvd
    rw [flatten_blocks, blocks_of_short (leftover_lt hn xs), List.append_nil] at happend
    exact happend.symm
  have hcut : xs ++ ys = (blocks n xs).flatten ++ (leftover n xs ++ ys) := by
    rw [← List.append_assoc, flatten_blocks]
  rw [hcut, blocks_append _ hn hdvd, leftover_append _ hn hdvd, hxs]
  exact ⟨rfl, rfl⟩

/-! ## Lists told from their parts -/

theorem flatten_inj {as bs : List (List α)} (hn : 0 < n) (ha : ∀ a ∈ as, a.length = n)
    (hb : ∀ b ∈ bs, b.length = n) (h : as.flatten = bs.flatten) : as = bs := by
  induction as generalizing bs with
  | nil =>
      cases bs with
      | nil => rfl
      | cons b bs =>
          have hlen := congrArg List.length h
          have := hb b (by simp)
          simp only [List.flatten_nil, List.length_nil, List.flatten_cons, List.length_append] at hlen
          omega
  | cons a as ih =>
      cases bs with
      | nil =>
          have hlen := congrArg List.length h
          have := ha a (by simp)
          simp only [List.flatten_nil, List.length_nil, List.flatten_cons, List.length_append] at hlen
          omega
      | cons b bs =>
          simp only [List.flatten_cons] at h
          obtain ⟨h₁, h₂⟩ := List.append_inj h (by rw [ha a (by simp), hb b (by simp)])
          rw [h₁, ih (fun a h => ha a (by simp [h])) (fun b h => hb b (by simp [h])) h₂]

theorem map_inj_of_injOn {β : Type*} {f : α → β} {s : Set α} (hf : Set.InjOn f s) {as bs : List α}
    (ha : ∀ a ∈ as, a ∈ s) (hb : ∀ b ∈ bs, b ∈ s) (h : as.map f = bs.map f) : as = bs := by
  induction as generalizing bs with
  | nil => simpa using h.symm
  | cons a as ih =>
      cases bs with
      | nil => simp at h
      | cons b bs =>
          simp only [List.map_cons, List.cons.injEq] at h
          have hab := hf (ha a (by simp)) (hb b (by simp)) h.1
          rw [hab, ih (fun a h => ha a (by simp [h])) (fun b h => hb b (by simp [h])) h.2]

/-! ## A table filled in any order -/

section Fill

variable (f : Nat → α)

theorem getElem?_foldl_set (is : List Nat) (out : List α) (j : Nat) :
    (is.foldl (fun out i => out.set i (f i)) out)[j]? = if j ∈ is ∧ j < out.length then some (f j) else out[j]? := by
  induction is generalizing out with
  | nil => simp
  | cons i is ih =>
    rw [List.foldl_cons, ih, List.length_set]
    by_cases hij : i = j
    · subst hij
      by_cases hlen : i < out.length
      · simp [hlen]
      · simp [hlen]
    · have hji : j ≠ i := fun h => hij h.symm
      simp [hij, hji]

/-- Every slot written once, in whatever order, holds its value. -/
theorem foldl_set_perm {is : List Nat} {count : Nat} (h : is.Perm (List.range count)) {out : List α}
    (hlen : out.length = count) : is.foldl (fun out i => out.set i (f i)) out = (List.range count).map f := by
  apply List.ext_getElem?
  intro j
  rw [getElem?_foldl_set, hlen]
  by_cases hj : j < count
  · have hmem : j ∈ is := h.mem_iff.mpr (List.mem_range.mpr hj)
    simp [hj, hmem]
  · simp [hj, List.getElem?_eq_none (show out.length ≤ j by omega)]

/-- Ranges that meet, joined. -/
theorem flatMap_ranges {bound : Nat → Nat} (hmono : Monotone bound) (hzero : bound 0 = 0) (parts : Nat) :
    (List.range parts).flatMap (fun k => List.range' (bound k) (bound (k + 1) - bound k)) = List.range (bound parts) := by
  induction parts with
  | zero => simp [hzero]
  | succ parts ih =>
    have hle : bound parts ≤ bound (parts + 1) := hmono (Nat.le_succ parts)
    rw [List.range_succ, List.flatMap_append, ih, List.range_eq_range', List.range_eq_range']
    simp only [List.flatMap_cons, List.flatMap_nil, List.append_nil]
    have happend := List.range'_append_1 (s := 0) (m := bound parts) (n := bound (parts + 1) - bound parts)
    rw [Nat.zero_add] at happend
    rw [happend, Nat.add_sub_cancel' hle]

end Fill

end Blocks
