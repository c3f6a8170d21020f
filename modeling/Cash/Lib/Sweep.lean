import Mathlib.Data.List.Sort
import Mathlib.Order.Defs.LinearOrder

/-!
# A sweep over spans sorted by their start

The spans are taken in the order of their starts. Each is held against the ones still open, which are those met before it
that reach past its start. If only spans that overlap can clash, the sweep finds a clash if any two of them do.
-/

namespace Sweep

variable {σ τ : Type} [LinearOrder τ] (start stop : σ → τ) (clash : σ → σ → Bool)

def stillOpen (opened : List σ) (span : σ) : List σ := opened.filter fun other => start span < stop other

/-- The first clash met, as the later span and the earlier. -/
def sweep : List σ → List σ → Option (σ × σ)
  | _, [] => none
  | opened, span :: rest =>
      ((stillOpen start stop opened span).find? (clash span)).elim
        (sweep (stillOpen start stop opened span ++ [span]) rest) fun other => some (span, other)

/-- Two spans in a list, the earlier first, that clash. -/
def Clashing (l : List σ) : Prop := ∃ one other, [other, one].Sublist l ∧ clash one other = true

/-- Two spans that clash, the earlier among the open ones. -/
def Across (opened l : List σ) : Prop := ∃ other ∈ opened, ∃ one ∈ l, clash one other = true

variable {start stop clash}

theorem mem_stillOpen {opened : List σ} {span other : σ} :
    other ∈ stillOpen start stop opened span ↔ other ∈ opened ∧ start span < stop other := by
  simp only [stillOpen, List.mem_filter, decide_eq_true_eq]

/-! ## What it finds clashes -/

theorem sweep_sound {opened l : List σ} {one other : σ} (h : sweep start stop clash opened l = some (one, other)) :
    [other, one].Sublist (opened ++ l) ∧ clash one other = true := by
  induction l generalizing opened with
  | nil => cases h
  | cons span rest ih =>
      rw [sweep] at h
      cases hfind : (stillOpen start stop opened span).find? (clash span) with
      | none =>
          rw [hfind] at h
          obtain ⟨hsub, hclash⟩ := ih h
          refine ⟨hsub.trans ?_, hclash⟩
          rw [List.append_assoc]
          exact List.filter_sublist.append (List.Sublist.refl _)
      | some found =>
          rw [hfind] at h
          cases h
          have hmem := (mem_stillOpen.mp (List.mem_of_find?_eq_some hfind)).1
          refine ⟨?_, List.find?_some hfind⟩
          have hhead : [one].Sublist (one :: rest) := List.singleton_sublist.mpr List.mem_cons_self
          exact (List.singleton_sublist.mpr hmem).append hhead

/-! ## It finds a clash if there is one -/

theorem clashing_cons {span : σ} {rest : List σ} :
    Clashing clash (span :: rest) ↔ (∃ one ∈ rest, clash one span = true) ∨ Clashing clash rest := by
  constructor
  · rintro ⟨one, other, hsub, hclash⟩
    cases hsub with
    | cons _ hsub => exact .inr ⟨one, other, hsub, hclash⟩
    | cons_cons _ hsub => exact .inl ⟨one, List.singleton_sublist.mp hsub, hclash⟩
  · rintro (⟨one, hmem, hclash⟩ | ⟨one, other, hsub, hclash⟩)
    · exact ⟨one, span, (List.singleton_sublist.mpr hmem).cons_cons span, hclash⟩
    · exact ⟨one, other, hsub.cons span, hclash⟩

/-- Only open spans that reach past the start of the next one matter to it and to the ones after it. -/
theorem across_stillOpen (hover : ∀ one other, clash one other = true → start one < stop other) {opened rest : List σ}
    {span : σ} (hle : ∀ one ∈ rest, start span ≤ start one) :
    Across clash opened (span :: rest) ↔ Across clash (stillOpen start stop opened span) (span :: rest) := by
  constructor
  · rintro ⟨other, hother, one, hone, hclash⟩
    refine ⟨other, mem_stillOpen.mpr ⟨hother, ?_⟩, one, hone, hclash⟩
    rcases List.mem_cons.mp hone with rfl | hone
    · exact hover _ _ hclash
    · exact (hle one hone).trans_lt (hover _ _ hclash)
  · rintro ⟨other, hother, one, hone, hclash⟩
    exact ⟨other, (mem_stillOpen.mp hother).1, one, hone, hclash⟩

theorem across_append_singleton {opened rest : List σ} {span : σ} :
    Across clash (opened ++ [span]) rest ↔ Across clash opened rest ∨ ∃ one ∈ rest, clash one span = true := by
  simp only [Across, List.mem_append, List.mem_singleton, or_and_right, exists_or, exists_eq_left]

theorem across_cons {opened rest : List σ} {span : σ} :
    Across clash opened (span :: rest) ↔ (∃ other ∈ opened, clash span other = true) ∨ Across clash opened rest := by
  simp only [Across, List.mem_cons, exists_eq_or_imp, and_or_left, exists_or]

theorem sweep_complete (hover : ∀ one other, clash one other = true → start one < stop other) {opened l : List σ}
    (hsorted : l.Pairwise fun a b => start a ≤ start b) :
    (sweep start stop clash opened l).isSome = true ↔ Across clash opened l ∨ Clashing clash l := by
  induction l generalizing opened with
  | nil =>
      constructor
      · intro h
        cases h
      · rintro (⟨_, _, _, h, _⟩ | ⟨_, _, h, _⟩)
        · cases h
        · cases h
  | cons span rest ih =>
      rw [List.pairwise_cons] at hsorted
      rw [across_stillOpen hover hsorted.1, across_cons, clashing_cons, sweep]
      cases hfind : (stillOpen start stop opened span).find? (clash span) with
      | none =>
          have hnone : ¬∃ other ∈ stillOpen start stop opened span, clash span other = true := by
            rintro ⟨other, hmem, hclash⟩
            exact List.find?_eq_none.mp hfind other hmem hclash
          rw [Option.elim_none, ih hsorted.2, across_append_singleton, or_iff_right hnone, or_assoc]
      | some other =>
          have hsome : ∃ other ∈ stillOpen start stop opened span, clash span other = true :=
            ⟨other, List.mem_of_find?_eq_some hfind, List.find?_some hfind⟩
          exact iff_of_true rfl (.inl (.inl hsome))

/-- The order of spans of one start does not matter. -/
theorem clashing_perm (hsymm : ∀ one other, clash one other = clash other one) {l l' : List σ} (hperm : l.Perm l') :
    Clashing clash l ↔ Clashing clash l' := by
  have hnot : ∀ k : List σ, ¬Clashing clash k ↔ k.Pairwise fun a b => clash a b = false := by
    intro k
    rw [List.pairwise_iff_forall_sublist]
    constructor
    · intro h a b hsub
      rw [← Bool.not_eq_true]
      intro hclash
      exact h ⟨b, a, hsub, (hsymm b a).trans hclash⟩
    · rintro h ⟨one, other, hsub, hclash⟩
      rw [hsymm, h hsub] at hclash
      cases hclash
  rw [← not_iff_not, hnot, hnot]
  apply hperm.pairwise_iff
  intro a b hab
  exact (hsymm b a).trans hab

end Sweep
