import Mathlib.Algebra.Group.Nat.Defs
import Mathlib.Data.Nat.Basic
import Mathlib.Tactic.Common

/-!
# Byte strings

Slices, little-endian words and the crc32 of a byte string. A crc32 can be taken over the pieces of a
string one after the other (`crc32_append`).
-/

abbrev Bytes := List UInt8

namespace Bytes

/-! ## Slices -/

/-- The bytes from `off` on, at most `n` of them. -/
def slice (b : Bytes) (off n : Nat) : Bytes := (b.drop off).take n

/-- `n` zero bytes. -/
def zeros (n : Nat) : Bytes := List.replicate n 0

theorem length_slice (b : Bytes) (off n : Nat) : (slice b off n).length = min n (b.length - off) := by
  simp [slice]

theorem length_slice_of_le {b : Bytes} {off n : Nat} (h : off + n ≤ b.length) : (slice b off n).length = n := by
  rw [length_slice]
  omega

@[simp] theorem length_zeros (n : Nat) : (zeros n).length = n := List.length_replicate ..

@[simp] theorem slice_zero (b : Bytes) (off : Nat) : slice b off 0 = [] := by simp [slice]

/-- A part of a string is read at the length of what stands before it. -/
theorem slice_append (a b c : Bytes) : slice (a ++ (b ++ c)) a.length b.length = b := by
  simp [slice]

theorem slice_of_eq {s a b c : Bytes} {off n : Nat} (hs : s = a ++ (b ++ c)) (ho : off = a.length)
    (hn : n = b.length) : slice s off n = b := by
  subst hs ho hn
  exact slice_append a b c

/-- A slice of what follows `off`. -/
theorem slice_drop (b : Bytes) (off k n : Nat) : slice (b.drop off) k n = slice b (off + k) n := by
  simp [slice, List.drop_drop]

/-- Two slices, one after the other. -/
theorem slice_add (b : Bytes) (off n m : Nat) : slice b off (n + m) = slice b off n ++ slice b (off + n) m := by
  simp only [slice, List.take_add, List.drop_drop]

/-- The slice up to the end. -/
theorem slice_eq_drop {b : Bytes} {off n : Nat} (h : b.length ≤ off + n) : slice b off n = b.drop off := by
  rw [slice, List.take_of_length_le]
  simp only [List.length_drop]
  omega

/-- Strings of one length, joined: the length, and the string at index `i`. -/
theorem length_flatten_of {n : Nat} {bs : List Bytes} (h : ∀ b ∈ bs, b.length = n) :
    bs.flatten.length = n * bs.length := by
  induction bs with
  | nil => simp
  | cons b bs ih =>
      rw [List.flatten_cons, List.length_append, h b (by simp), ih fun b hb => h b (by simp [hb]),
        List.length_cons, Nat.mul_succ, Nat.add_comm]

theorem slice_flatten {n : Nat} {bs : List Bytes} (h : ∀ b ∈ bs, b.length = n) {i : Nat} (hi : i < bs.length) :
    slice bs.flatten (n * i) n = bs[i] := by
  induction bs generalizing i with
  | nil => simp at hi
  | cons b bs ih =>
      have hb : b.length = n := h b (by simp)
      cases i with
      | zero => simp [slice, ← hb]
      | succ i =>
          have hdrop : slice (b ++ bs.flatten) (n * (i + 1)) n = slice bs.flatten (n * i) n := by
            rw [slice, slice, Nat.mul_succ, Nat.add_comm, ← List.drop_drop, List.drop_left' hb]
          rw [List.flatten_cons, hdrop, ih (fun b hb => h b (by simp [hb])) (by simpa using hi)]
          rfl

/-! ## Alignment -/

/-- The bytes missing from `off` to the next multiple of `align`: `-off % align`. -/
def padding (align off : Nat) : Nat := (align - off % align) % align

theorem add_padding_mod {align : Nat} (h : 0 < align) (off : Nat) : (off + padding align off) % align = 0 := by
  have hlt := Nat.mod_lt off h
  unfold padding
  rw [Nat.add_mod_mod, Nat.add_mod]
  by_cases h0 : off % align = 0
  · simp [h0]
  · rw [Nat.mod_eq_of_lt (a := align - off % align) (by omega)]
    rw [show off % align + (align - off % align) = align by omega, Nat.mod_self]

/-! ## Little-endian words -/

/-- The number `x` in `n` bytes, lowest first. -/
def le : Nat → Nat → Bytes
  | 0, _ => []
  | n + 1, x => UInt8.ofNat x :: le n (x / 256)

/-- The number the bytes stand for, lowest first. -/
def unle : Bytes → Nat
  | [] => 0
  | b :: rest => b.toNat + 256 * unle rest

@[simp] theorem length_le (n x : Nat) : (le n x).length = n := by
  induction n generalizing x with
  | zero => rfl
  | succ n ih => simp [le, ih]

theorem unle_le {n x : Nat} (h : x < 256 ^ n) : unle (le n x) = x := by
  induction n generalizing x with
  | zero => simp at h; simp [le, unle, h]
  | succ n ih =>
      have hdiv : x / 256 < 256 ^ n := by
        rw [Nat.pow_succ] at h
        exact Nat.div_lt_of_lt_mul (by omega)
      have hbyte : (UInt8.ofNat x).toNat = x % 256 := by simp
      simp only [le, unle, ih hdiv, hbyte]
      omega

/-! ## crc32 -/

/-- One bit of the crc32 register (the reflected polynomial). -/
def crcBit (crc : BitVec 32) : BitVec 32 :=
  if crc.getLsbD 0 then (crc >>> 1) ^^^ 0xEDB88320#32 else crc >>> 1

/-- One byte. -/
def crcByte (crc : BitVec 32) (b : UInt8) : BitVec 32 :=
  crcBit (crcBit (crcBit (crcBit (crcBit (crcBit (crcBit (crcBit (crc ^^^ BitVec.ofNat 32 b.toNat))))))))

/-- `zlib.crc32(data, crc)`. -/
def crc32 (data : Bytes) (crc : BitVec 32) : BitVec 32 :=
  (data.foldl crcByte (crc ^^^ 0xFFFFFFFF#32)) ^^^ 0xFFFFFFFF#32

theorem crc32_nil (crc : BitVec 32) : crc32 [] crc = crc := by
  simp [crc32, BitVec.xor_assoc]

/-- The crc32 of one piece after the other. -/
theorem crc32_append (a b : Bytes) (crc : BitVec 32) : crc32 (a ++ b) crc = crc32 b (crc32 a crc) := by
  simp [crc32, List.foldl_append, BitVec.xor_assoc]

/-- `crc.to_bytes(4, "big")`. -/
def crcBytes (crc : BitVec 32) : Bytes := (le 4 crc.toNat).reverse

@[simp] theorem length_crcBytes (crc : BitVec 32) : (crcBytes crc).length = 4 := by simp [crcBytes]

end Bytes

/-!
# Readers that stop and go on

A reader gives a stream a piece at a time, each call from where the last one stopped. A call that gives a first part of
what is left, and leaves the rest with less to do, gives the whole stream (`drain_eq`).
-/

namespace Reader

variable {S : Type*}

/-- The pieces joined, from where the reader stands until it is done; none for a call that fails, or when the fuel is
used up. -/
def drain (done : S → Bool) (call : S → Option (S × Bytes)) : Nat → S → Option Bytes
  | 0, _ => none
  | fuel + 1, s =>
    if done s then some []
    else
      match call s with
      | none => none
      | some (s, piece) => (drain done call fuel s).map (piece ++ ·)

/-- What makes calls read the stream `rest` gives from each place the reader can stand at, with `left` to do. -/
structure Reads (inv : S → Prop) (done : S → Bool) (call : S → Option (S × Bytes)) (rest : S → Bytes) (left : S → Nat) :
    Prop where
  atEnd : ∀ s, inv s → done s → rest s = []
  atCall : ∀ s, inv s → ¬done s →
    ∃ s' piece, call s = some (s', piece) ∧ inv s' ∧ piece ++ rest s' = rest s ∧ left s' < left s

theorem drain_eq {inv : S → Prop} {done : S → Bool} {call : S → Option (S × Bytes)} {rest : S → Bytes} {left : S → Nat}
    (h : Reads inv done call rest left) {fuel : Nat} {s : S} (hs : inv s) (hfuel : left s < fuel) :
    drain done call fuel s = some (rest s) := by
  induction fuel generalizing s with
  | zero => omega
  | succ fuel ih =>
    rw [drain]
    split
    · next hdone => rw [h.atEnd s hs hdone]
    · next hdone =>
      obtain ⟨s', piece, hcall, hs', hrest, hleft⟩ := h.atCall s hs hdone
      rw [hcall, ← hrest]
      simp only [ih hs' (show left s' < fuel by omega), Option.map_some]

end Reader
