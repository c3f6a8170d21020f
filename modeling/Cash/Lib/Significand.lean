import Mathlib.Algebra.Order.Floor.Ring
import Mathlib.Data.Int.Log
import Mathlib.Tactic.Linarith
import Mathlib.Tactic.NormNum
import Mathlib.Tactic.Positivity
import Mathlib.Tactic.Ring

/-!
# Rounding to significant bits

The nearest number of so many significant bits, of two as near the one whose last bit is even. The exponent is not bounded.
-/

namespace Significand

variable {K : Type} [Field K] [LinearOrder K] [FloorRing K] {x : K} {m : ℤ} {bits : ℕ}

/-- The nearest integer, of two as near the even one. -/
def nearest (x : K) : ℤ :=
  if Int.fract x < 1 - Int.fract x ∨ Int.fract x = 1 - Int.fract x ∧ ⌊x⌋ % 2 = 0 then ⌊x⌋ else ⌊x⌋ + 1

/-- The last of the bits of `x` that are kept. -/
def lastPlace (bits : ℕ) (x : K) : K := ((2 : ℕ) : K) ^ (Int.log 2 x + 1 - bits)

def toBits (bits : ℕ) (x : K) : K := nearest (x / lastPlace bits x) * lastPlace bits x

/-! ## The nearest integer -/

theorem floor_le_nearest : ⌊x⌋ ≤ nearest x := by
  rw [nearest]
  split
  · exact le_refl _
  · omega

theorem le_nearest (h : m ≤ x) : m ≤ nearest x := (Int.le_floor.mpr h).trans floor_le_nearest

variable [IsStrictOrderedRing K]

theorem nearest_le (h : x ≤ m) : nearest x ≤ m := by
  rw [nearest]
  split
  · exact Int.cast_le.mp ((Int.floor_le x).trans h)
  · next hfar =>
    rw [Int.add_one_le_iff]
    apply lt_of_le_of_ne (Int.cast_le.mp ((Int.floor_le x).trans h))
    rintro rfl
    apply hfar
    left
    rw [Int.fract, sub_eq_zero.mpr (le_antisymm h (Int.floor_le x))]
    norm_num

theorem nearest_le_iff_of_even (heven : m % 2 = 0) (h : m ≤ x) : nearest x ≤ m ↔ x - m ≤ 1 - (x - m) := by
  constructor
  · intro hle
    by_contra hfar
    rw [not_le] at hfar
    have hfloor : ⌊x⌋ = m := le_antisymm (floor_le_nearest.trans hle) (Int.le_floor.mpr h)
    rw [nearest, Int.fract, hfloor, if_neg] at hle
    · omega
    · rintro (hlt | ⟨heq, -⟩)
      · exact absurd hlt hfar.le.not_gt
      · exact absurd heq hfar.ne'
  · intro hle
    have hfloor : ⌊x⌋ = m := by
      rw [Int.floor_eq_iff]
      constructor <;> linarith
    rw [nearest, Int.fract, hfloor, if_pos]
    exact hle.lt_or_eq.imp_right fun heq => ⟨heq, heven⟩

/-! ## Whole numbers -/

theorem lastPlace_pos : 0 < lastPlace bits x := zpow_pos (Nat.cast_pos.mpr two_pos) _

omit [IsStrictOrderedRing K] in
theorem lastPlace_eq {s : ℕ} (h : Int.log 2 x + 1 + s = bits) : lastPlace bits x = (2 ^ s)⁻¹ := by
  have hs : Int.log 2 x + 1 - bits = -s := by omega
  rw [lastPlace, hs, zpow_neg, zpow_natCast, Nat.cast_ofNat]

omit [IsStrictOrderedRing K] in
theorem toBits_eq {s : ℕ} (h : Int.log 2 x + 1 + s = bits) : toBits bits x = nearest (x * 2 ^ s) / 2 ^ s := by
  rw [toBits, lastPlace_eq h, div_inv_eq_mul, div_eq_mul_inv]

/-- A whole number that the bits reach down to is on the same side of what is rounded as of what it is rounded from. -/
theorem toBits_le (hlog : Int.log 2 x < bits) (h : x ≤ m) : toBits bits x ≤ m := by
  obtain ⟨s, hs⟩ := Int.le.dest hlog
  rw [toBits_eq hs, div_le_iff₀ (by positivity)]
  have hle : nearest (x * 2 ^ s) ≤ m * 2 ^ s := by
    apply nearest_le
    push_cast
    gcongr
  exact_mod_cast hle

theorem le_toBits (hlog : Int.log 2 x < bits) (h : m ≤ x) : m ≤ toBits bits x := by
  obtain ⟨s, hs⟩ := Int.le.dest hlog
  rw [toBits_eq hs, le_div_iff₀ (by positivity)]
  have hle : m * 2 ^ s ≤ nearest (x * 2 ^ s) := by
    apply le_nearest
    push_cast
    gcongr
  exact_mod_cast hle

/-- It is rounded down to a whole number if what it is over is half a last place or less. -/
theorem toBits_le_iff {s : ℕ} (hs : Int.log 2 x + 1 + (s + 1 : ℕ) = bits) (h : m ≤ x) :
    toBits bits x ≤ m ↔ (x - m) * 2 ^ (s + 2) ≤ 1 := by
  rw [toBits_eq hs, div_le_iff₀ (by positivity)]
  have hcast : (nearest (x * 2 ^ (s + 1)) : K) ≤ m * 2 ^ (s + 1) ↔ nearest (x * 2 ^ (s + 1)) ≤ m * 2 ^ (s + 1) := by
    exact_mod_cast Iff.rfl
  have heven : m * 2 ^ (s + 1) % 2 = 0 := by
    rw [pow_succ, ← mul_assoc, Int.mul_emod_left]
  have hle : ((m * 2 ^ (s + 1) : ℤ) : K) ≤ x * 2 ^ (s + 1) := by
    push_cast
    gcongr
  have hdouble : x * 2 ^ (s + 1) - ((m * 2 ^ (s + 1) : ℤ) : K) + (x * 2 ^ (s + 1) - ((m * 2 ^ (s + 1) : ℤ) : K)) =
      (x - m) * 2 ^ (s + 2) := by
    push_cast
    ring
  rw [hcast, nearest_le_iff_of_even heven hle, le_sub_iff_add_le, hdouble]

/-! ## How far it is rounded -/

theorem half_le_toBits (hbits : 0 < bits) (h : 0 < x) : x / 2 ≤ toBits bits x := by
  have hone : 1 ≤ x / lastPlace bits x := by
    rw [one_le_div lastPlace_pos]
    refine le_trans ?_ (Int.zpow_log_le_self Nat.one_lt_two h)
    rw [lastPlace, Nat.cast_ofNat]
    apply zpow_le_zpow_right₀ one_le_two
    omega
  have hfloor : (1 : K) ≤ ⌊x / lastPlace bits x⌋ := by
    exact_mod_cast Int.le_floor.mpr (by exact_mod_cast hone)
  have hnearest : (⌊x / lastPlace bits x⌋ : K) ≤ nearest (x / lastPlace bits x) := by
    exact_mod_cast floor_le_nearest
  have hlt := Int.lt_floor_add_one (x / lastPlace bits x)
  have hhalf : x / lastPlace bits x / 2 ≤ nearest (x / lastPlace bits x) := by linarith
  have hpos : 0 < lastPlace bits x := lastPlace_pos
  have hmul := mul_le_mul_of_nonneg_right hhalf hpos.le
  rwa [div_right_comm, div_mul_cancel₀ _ hpos.ne'] at hmul

theorem toBits_pos (hbits : 0 < bits) (h : 0 < x) : 0 < toBits bits x := (half_pos h).trans_le (half_le_toBits hbits h)

end Significand
