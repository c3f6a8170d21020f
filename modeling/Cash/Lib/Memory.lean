import Cash.Lib.Bytes

/-!
# Buffers written in place

`put` writes a string over a part of a buffer. What is read afterwards is told by position (`getElem?_put`), and ranges
that are apart do not change each other (`slice_put_of_apart`). `write` and `copy` stay inside their buffers, or fail.
-/

namespace Bytes

variable {b s t src : Bytes} {off n : Nat}

/-- `s` over the buffer from `off` on. -/
def put (b : Bytes) (off : Nat) (s : Bytes) : Bytes := b.take off ++ (s ++ b.drop (off + s.length))

/-- Two ranges, each of a start and a length, that share no place. -/
def Apart (off n off' n' : Nat) : Prop := n = 0 ∨ n' = 0 ∨ off + n ≤ off' ∨ off' + n' ≤ off

instance (off n off' n' : Nat) : Decidable (Apart off n off' n') := by unfold Apart; infer_instance

theorem Apart.symm {off n off' n' : Nat} (h : Apart off n off' n') : Apart off' n' off n := by
  unfold Apart at h ⊢
  omega

@[simp] theorem put_nil (b : Bytes) (off : Nat) : b.put off [] = b := by
  rw [put, List.nil_append, List.length_nil, Nat.add_zero, List.take_append_drop]

theorem length_put (h : off + s.length ≤ b.length) : (b.put off s).length = b.length := by
  simp only [put, List.length_append, List.length_take, List.length_drop]
  omega

theorem getElem?_put (h : off + s.length ≤ b.length) (i : Nat) :
    (b.put off s)[i]? = if i < off then b[i]? else if i < off + s.length then s[i - off]? else b[i]? := by
  have hoff : (b.take off).length = off := List.length_take_of_le (by omega)
  rw [put]
  split
  · next hi => rw [List.getElem?_append_left (by omega), List.getElem?_take_of_lt hi]
  rw [List.getElem?_append_right (by omega), hoff]
  split
  · rw [List.getElem?_append_left (by omega)]
  · rw [List.getElem?_append_right (by omega), List.getElem?_drop]
    congr 1
    omega

theorem getElem?_put_of_outside (h : off + s.length ≤ b.length) {i : Nat} (hi : ¬ (off ≤ i ∧ i < off + s.length)) :
    (b.put off s)[i]? = b[i]? := by
  rw [getElem?_put h]
  split
  · rfl
  · rw [if_neg (by omega)]

theorem getElem?_slice (b : Bytes) (off n i : Nat) : (b.slice off n)[i]? = if i < n then b[off + i]? else none := by
  rw [slice, List.getElem?_take, List.getElem?_drop]

/-- A slice of a slice. -/
theorem slice_slice {k m : Nat} (h : k + m ≤ n) : (b.slice off n).slice k m = b.slice (off + k) m := by
  apply List.ext_getElem?
  intro i
  rw [getElem?_slice, getElem?_slice, getElem?_slice, Nat.add_assoc]
  split
  · rw [if_pos (by omega)]
  · rfl

theorem slice_put (h : off + s.length ≤ b.length) : (b.put off s).slice off s.length = s := by
  apply List.ext_getElem?
  intro i
  rw [getElem?_slice, getElem?_put h]
  split
  · rw [if_neg (by omega), if_pos (by omega), Nat.add_sub_cancel_left]
  · rw [List.getElem?_eq_none (by omega)]

theorem slice_put_of_apart {off' n' : Nat} (h : off + s.length ≤ b.length) (hapart : Apart off s.length off' n') :
    (b.put off s).slice off' n' = b.slice off' n' := by
  apply List.ext_getElem?
  intro i
  rw [getElem?_slice, getElem?_slice, getElem?_put h]
  unfold Apart at hapart
  split
  · split
    · rfl
    · split
      · omega
      · rfl
  · rfl

/-- One string after the other. -/
theorem put_put (h : off + s.length + t.length ≤ b.length) :
    (b.put off s).put (off + s.length) t = b.put off (s ++ t) := by
  have hs : off + s.length ≤ b.length := by omega
  apply List.ext_getElem?
  intro i
  rw [getElem?_put (by rwa [length_put hs]), getElem?_put hs, getElem?_put (by rw [List.length_append]; omega),
    List.length_append, List.getElem?_append]
  repeat' split
  all_goals first | rfl | omega | congr 1; omega

/-! ## Writes that are checked -/

def write (b : Bytes) (off : Nat) (s : Bytes) : Option Bytes := if off + s.length ≤ b.length then some (b.put off s) else none

/-- `memcpy`, of `n` bytes; none when it reads or writes outside. -/
def copy (b : Bytes) (off : Int) (src : Bytes) (start : Int) (n : Nat) : Option Bytes :=
  if n = 0 then some b
  else if 0 ≤ off ∧ off + n ≤ b.length ∧ 0 ≤ start ∧ start + n ≤ src.length then
    some (b.put off.toNat (src.slice start.toNat n))
  else none

theorem write_eq (h : off + s.length ≤ b.length) : b.write off s = some (b.put off s) := if_pos h

theorem copy_eq {off start : Nat} (h : off + n ≤ b.length) (hsrc : start + n ≤ src.length) :
    b.copy off src start n = some (b.put off (src.slice start n)) := by
  rw [copy]
  split
  · next hn => rw [hn, slice_zero, put_nil]
  · rw [if_pos ⟨by omega, by omega, by omega, by omega⟩, Int.toNat_natCast, Int.toNat_natCast]

end Bytes
