import Mathlib.Algebra.GroupWithZero.Nat
import Mathlib.Data.List.Basic
import Mathlib.Order.Lattice

/-!
# Half-open ranges and the gaps between them
-/

namespace Ranges

variable {α : Type} [LinearOrder α]

/-- The place `i` is in one of the ranges. -/
def Covers (ranges : List (α × α)) (i : α) : Prop := ∃ r ∈ ranges, r.1 ≤ i ∧ i < r.2

/-- Ranges that are not empty, in order, between `lo` and `stop`. They may touch. -/
def Ascending (stop : α) : α → List (α × α) → Prop
  | lo, [] => lo ≤ stop
  | lo, r :: rest => lo ≤ r.1 ∧ r.1 < r.2 ∧ Ascending stop r.2 rest

/-- Ranges that leave nothing out between `lo` and `stop`. -/
def Tiling (stop : α) : α → List (α × α) → Prop
  | lo, [] => lo = stop
  | lo, r :: rest => r.1 = lo ∧ Tiling stop r.2 rest

/-- One range, or none if it would be empty. -/
def range (start stop : α) : List (α × α) := if start < stop then [(start, stop)] else []

/-- What the ranges leave out between `lo` and `stop`. -/
def gaps (stop : α) : α → List (α × α) → List (α × α)
  | lo, [] => range lo stop
  | lo, r :: rest => range lo r.1 ++ gaps stop r.2 rest

variable {lo start stop i : α} {ranges ranges' : List (α × α)} {r : α × α}

/-! ## Places -/

theorem not_covers_nil : ¬Covers [] i := by
  rintro ⟨_, hr, _⟩
  cases hr

theorem covers_cons : Covers (r :: ranges) i ↔ (r.1 ≤ i ∧ i < r.2) ∨ Covers ranges i := by
  simp only [Covers, List.mem_cons, exists_eq_or_imp]

theorem covers_append : Covers (ranges ++ ranges') i ↔ Covers ranges i ∨ Covers ranges' i := by
  simp only [Covers, List.mem_append, or_and_right, exists_or]

theorem covers_range : Covers (range start stop) i ↔ start ≤ i ∧ i < stop := by
  rw [range]
  split
  · rw [covers_cons, or_iff_left not_covers_nil]
  · next h =>
    apply iff_of_false not_covers_nil
    rintro ⟨hstart, hstop⟩
    exact h (hstart.trans_lt hstop)

theorem mem_range (h : r ∈ range start stop) : r = (start, stop) ∧ start < stop := by
  rw [range] at h
  split at h
  · next hlt => exact ⟨List.mem_singleton.mp h, hlt⟩
  · cases h

/-! ## Ranges in order -/

theorem Ascending.le (h : Ascending stop lo ranges) : lo ≤ stop := by
  induction ranges generalizing lo with
  | nil => exact h
  | cons r rest ih => exact (h.1.trans h.2.1.le).trans (ih h.2.2)

theorem Ascending.le_of_covers (h : Ascending stop lo ranges) (hi : Covers ranges i) : lo ≤ i := by
  induction ranges generalizing lo with
  | nil => exact absurd hi not_covers_nil
  | cons r rest ih =>
      rcases covers_cons.mp hi with ⟨hle, _⟩ | hi
      · exact h.1.trans hle
      · exact (h.1.trans h.2.1.le).trans (ih h.2.2 hi)

/-- The gaps are what is not covered. -/
theorem covers_gaps (h : Ascending stop lo ranges) :
    Covers (gaps stop lo ranges) i ↔ lo ≤ i ∧ i < stop ∧ ¬Covers ranges i := by
  induction ranges generalizing lo with
  | nil => rw [gaps, covers_range, and_iff_left not_covers_nil]
  | cons r rest ih =>
      obtain ⟨hle, hlt, hrest⟩ := h
      rw [gaps, covers_append, covers_range, ih hrest, covers_cons, not_or, not_and, not_lt]
      constructor
      · rintro (⟨hat, hi⟩ | ⟨hat, hi, hnot⟩)
        · refine ⟨hat, hi.trans (hlt.trans_le hrest.le), fun hge => absurd hge hi.not_ge, fun hcovers => ?_⟩
          exact absurd (hrest.le_of_covers hcovers) (hi.trans hlt).not_ge
        · exact ⟨(hle.trans hlt.le).trans hat, hi, fun _ => hat, hnot⟩
      · rintro ⟨hat, hi, hout, hnot⟩
        rcases lt_or_ge i r.1 with hbefore | hafter
        · exact .inl ⟨hat, hbefore⟩
        · exact .inr ⟨hout hafter, hi, hnot⟩

theorem gaps_bounds (h : Ascending stop lo ranges) : ∀ r ∈ gaps stop lo ranges, lo ≤ r.1 ∧ r.1 < r.2 ∧ r.2 ≤ stop := by
  induction ranges generalizing lo with
  | nil =>
      intro r hr
      obtain ⟨rfl, hlt⟩ := mem_range hr
      exact ⟨le_refl _, hlt, le_refl _⟩
  | cons r rest ih =>
      obtain ⟨hle, hlt, hrest⟩ := h
      intro gap hgap
      rcases List.mem_append.mp hgap with hgap | hgap
      · obtain ⟨rfl, hbefore⟩ := mem_range hgap
        exact ⟨le_refl _, hbefore, hlt.le.trans hrest.le⟩
      · obtain ⟨hat, hgap⟩ := ih hrest gap hgap
        exact ⟨(hle.trans hlt.le).trans hat, hgap⟩

/-- There is a range between two gaps. -/
theorem pairwise_gaps (h : Ascending stop lo ranges) : (gaps stop lo ranges).Pairwise fun a b => a.2 < b.1 := by
  induction ranges generalizing lo with
  | nil =>
      rw [gaps, range]
      split
      · exact List.pairwise_singleton _ _
      · exact List.Pairwise.nil
  | cons r rest ih =>
      obtain ⟨-, hlt, hrest⟩ := h
      rw [gaps, range]
      split
      · rw [List.singleton_append, List.pairwise_cons]
        refine ⟨fun gap hgap => ?_, ih hrest⟩
        exact hlt.trans_le (gaps_bounds hrest gap hgap).1
      · exact ih hrest

theorem gaps_of_tiling {mid : α} (h : Tiling mid lo ranges) : gaps stop lo ranges = range mid stop := by
  induction ranges generalizing lo with
  | nil =>
      cases h
      rfl
  | cons r rest ih =>
      obtain ⟨rfl, hrest⟩ := h
      rw [gaps, ih hrest, range, if_neg (lt_irrefl _), List.nil_append]

end Ranges
