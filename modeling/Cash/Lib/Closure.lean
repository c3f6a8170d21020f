import Mathlib.Data.Fintype.Card
import Mathlib.Data.Finset.Dedup
import Mathlib.Logic.Relation

/-!
# Closing a finite set under a relation

Two loops that close a set: one that applies a step to the whole set until its size stays, and one that
takes an item at a time off a worklist. Both end with what is reachable from the set they start at.
-/

universe u

open Relation (ReflTransGen)

namespace Finset

variable {α : Type u}

/-- What the items of `s` reach. -/
def Reaches (r : α → α → Prop) (s : Finset α) (b : α) : Prop := ∃ a ∈ s, ReflTransGen r a b

theorem Reaches.mem {r : α → α → Prop} {s : Finset α} {a : α} (h : a ∈ s) : s.Reaches r a := ⟨a, h, .refl⟩

theorem Reaches.step {r : α → α → Prop} {s : Finset α} {a b : α} (h : s.Reaches r a) (hr : r a b) :
    s.Reaches r b := by
  obtain ⟨c, hc, hca⟩ := h
  exact ⟨c, hc, hca.tail hr⟩

theorem Reaches.trans {r : α → α → Prop} {s t : Finset α} {b : α} (h : t.Reaches r b)
    (hst : ∀ a ∈ t, s.Reaches r a) : s.Reaches r b := by
  obtain ⟨a, ha, hab⟩ := h
  obtain ⟨c, hc, hca⟩ := hst a ha
  exact ⟨c, hc, hca.trans hab⟩

theorem Reaches.mono {r r' : α → α → Prop} {s : Finset α} {b : α} (h : s.Reaches r b) (hr : ∀ a b, r a b → r' a b) :
    s.Reaches r' b := by
  obtain ⟨a, ha, hab⟩ := h
  exact ⟨a, ha, ReflTransGen.mono hr _ _ hab⟩

theorem Reaches.mem_of_closed {r : α → α → Prop} {s t : Finset α} {b : α} (h : s.Reaches r b) (hst : s ⊆ t)
    (hclosed : ∀ a ∈ t, ∀ c, r a c → c ∈ t) : b ∈ t := by
  obtain ⟨a, ha, hab⟩ := h
  induction hab with
  | refl => exact hst ha
  | tail _ hbc ih => exact hclosed _ ih _ hbc

/-! ## Until the size stays -/

/-- Apply `f` until the size stays. -/
def saturate (f : Finset α → Finset α) : Nat → Finset α → Finset α
  | 0, s => s
  | fuel + 1, s => if (f s).card = s.card then f s else saturate f fuel (f s)

variable {f : Finset α → Finset α}

theorem saturate_fixed [Fintype α] (hf : ∀ s, s ⊆ f s) {fuel : Nat} {s : Finset α}
    (hfuel : Fintype.card α < fuel + s.card) : s ⊆ saturate f fuel s ∧ f (saturate f fuel s) = saturate f fuel s := by
  induction fuel generalizing s with
  | zero =>
    have := s.card_le_univ
    omega
  | succ fuel ih =>
    rw [saturate]
    split
    · rename_i hcard
      have heq : s = f s := eq_of_subset_of_card_le (hf s) hcard.le
      rw [← heq]
      exact ⟨Subset.rfl, heq.symm⟩
    · rename_i hcard
      have hlt : s.card < (f s).card := lt_of_le_of_ne (card_le_card (hf s)) (Ne.symm hcard)
      obtain ⟨hsub, hfixed⟩ := ih (s := f s) (by omega)
      exact ⟨(hf s).trans hsub, hfixed⟩

theorem saturate_reaches {r : α → α → Prop} (hf : ∀ s, ∀ b ∈ f s, s.Reaches r b) {fuel : Nat} {s : Finset α} {b : α}
    (h : b ∈ saturate f fuel s) : s.Reaches r b := by
  induction fuel generalizing s with
  | zero => exact .mem h
  | succ fuel ih =>
    rw [saturate] at h
    split at h
    · exact hf s b h
    · exact (ih h).trans (hf s)

/-- A step that adds only what is reachable, and leaves only closed sets as they are, ends with what is
reachable. -/
theorem mem_saturate [Fintype α] {r : α → α → Prop} (hsub : ∀ s, s ⊆ f s) (hf : ∀ s, ∀ b ∈ f s, s.Reaches r b)
    (hclosed : ∀ s, f s = s → ∀ a ∈ s, ∀ b, r a b → b ∈ s) {s : Finset α} {b : α} :
    b ∈ saturate f (Fintype.card α + 1) s ↔ s.Reaches r b := by
  constructor
  · exact saturate_reaches hf
  · intro h
    have hfuel : Fintype.card α < Fintype.card α + 1 + s.card := by omega
    obtain ⟨hs, hfixed⟩ := saturate_fixed hsub hfuel
    exact h.mem_of_closed hs (hclosed _ hfixed)

/-- Two steps in turn: one that adds what is a step of `r₁` away, or more of what `r₁` reaches, and one that
closes under `r₂`. -/
theorem mem_saturate_comp [Fintype α] {r r₁ r₂ : α → α → Prop} {g h : Finset α → Finset α}
    (hr : ∀ a b, r a b ↔ r₁ a b ∨ r₂ a b) (hg : ∀ s b, b ∈ g s ↔ s.Reaches r₂ b)
    (hsub : ∀ s, s ⊆ h s) (hstep : ∀ s, ∀ a ∈ s, ∀ b, r₁ a b → b ∈ h s) (hreaches : ∀ s, ∀ b ∈ h s, s.Reaches r₁ b)
    {s : Finset α} {b : α} : b ∈ saturate (fun s => g (h s)) (Fintype.card α + 1) s ↔ s.Reaches r b := by
  refine mem_saturate ?_ ?_ ?_
  · intro s a ha
    exact (hg _ a).mpr (.mem (hsub s ha))
  · intro s a ha
    refine (((hg _ a).mp ha).mono fun c d hcd => (hr c d).mpr (.inr hcd)).trans ?_
    intro c hc
    exact (hreaches s c hc).mono fun c d hcd => (hr c d).mpr (.inl hcd)
  · intro s hs a ha c hac
    rw [← hs]
    rcases (hr a c).mp hac with hac | hac
    · exact (hg _ c).mpr (.mem (hstep s a ha c hac))
    · exact (hg _ c).mpr ((Reaches.mem (hsub s ha)).step hac)

variable [DecidableEq α]

/-! ## The worklist -/

/-- Take the next item, schedule what it leads to and is not scheduled yet. -/
def worklist (next : α → List α) : Nat → List α → Finset α → Finset α
  | 0, _, scheduled => scheduled
  | _ + 1, [], scheduled => scheduled
  | fuel + 1, a :: pending, scheduled =>
    let found := (next a).filter (· ∉ scheduled)
    worklist next fuel (pending ++ found) (scheduled ∪ found.toFinset)

variable {next : α → List α}

theorem subset_worklist (fuel : Nat) (pending : List α) (scheduled : Finset α) :
    scheduled ⊆ worklist next fuel pending scheduled := by
  induction fuel generalizing pending scheduled with
  | zero => exact Subset.rfl
  | succ fuel ih =>
    cases pending with
    | nil => exact Subset.rfl
    | cons a pending => exact subset_union_left.trans (ih _ _)

theorem worklist_reaches {fuel : Nat} {pending : List α} {scheduled : Finset α}
    (hpending : ∀ a ∈ pending, a ∈ scheduled) {b : α}
    (h : b ∈ worklist next fuel pending scheduled) : scheduled.Reaches (fun a b => b ∈ next a) b := by
  induction fuel generalizing pending scheduled with
  | zero => exact .mem h
  | succ fuel ih =>
    cases pending with
    | nil => exact .mem h
    | cons a pending =>
      have ha : a ∈ scheduled := hpending a (by simp)
      refine (ih ?_ h).trans ?_
      · intro c hc
        rcases List.mem_append.mp hc with hc | hc
        · exact mem_union_left _ (hpending c (by simp [hc]))
        · exact mem_union_right _ (List.mem_toFinset.mpr hc)
      · intro c hc
        rcases mem_union.mp hc with hc | hc
        · exact .mem hc
        · exact (Reaches.mem ha).step (List.mem_filter.mp (List.mem_toFinset.mp hc)).1

/-- With enough fuel every item scheduled is taken off the list: each turn takes one off and lengthens the
list by what it schedules. -/
theorem worklist_closed [Fintype α] (hnodup : ∀ a, (next a).Nodup) {fuel : Nat} {pending : List α}
    {scheduled : Finset α} (hfuel : pending.length + Fintype.card α ≤ fuel + scheduled.card)
    (htaken : ∀ a ∈ scheduled, a ∉ pending → ∀ b ∈ next a, b ∈ scheduled) :
    ∀ a ∈ worklist next fuel pending scheduled, ∀ b ∈ next a, b ∈ worklist next fuel pending scheduled := by
  induction fuel generalizing pending scheduled with
  | zero =>
    have hcard := scheduled.card_le_univ
    obtain rfl : pending = [] := List.length_eq_zero_iff.mp (by omega)
    intro a ha b hb
    exact htaken a ha (by simp) b hb
  | succ fuel ih =>
    cases pending with
    | nil =>
      intro a ha b hb
      exact htaken a ha (by simp) b hb
    | cons a pending =>
      have hdisjoint : Disjoint scheduled ((next a).filter (· ∉ scheduled)).toFinset := by
        refine disjoint_left.mpr ?_
        intro b hb hb'
        have := (List.mem_filter.mp (List.mem_toFinset.mp hb')).2
        simp [hb] at this
      have hlength : ((next a).filter (· ∉ scheduled)).toFinset.card = ((next a).filter (· ∉ scheduled)).length :=
        List.toFinset_card_of_nodup ((hnodup a).filter _)
      refine ih ?_ ?_
      · rw [card_union_of_disjoint hdisjoint, hlength, List.length_append]
        rw [List.length_cons] at hfuel
        omega
      · intro c hc hcp b hb
        by_cases hbs : b ∈ scheduled
        · exact mem_union_left _ hbs
        · rcases mem_union.mp hc with hc | hc
          · rcases eq_or_ne c a with rfl | hne
            · exact mem_union_right _ (List.mem_toFinset.mpr (List.mem_filter.mpr ⟨hb, by simpa using hbs⟩))
            · refine mem_union_left _ (htaken c hc ?_ b hb)
              simp only [List.mem_append, not_or] at hcp
              simp [hne, hcp.1]
          · exact absurd (List.mem_append_right _ (List.mem_toFinset.mp hc)) hcp

/-- Started with everything scheduled on the list, the loop schedules what is reachable. -/
theorem mem_worklist [Fintype α] (hnodup : ∀ a, (next a).Nodup) {pending : List α} {scheduled : Finset α}
    (hpending : ∀ a, a ∈ pending ↔ a ∈ scheduled) (hlength : pending.length = scheduled.card) {b : α} :
    b ∈ worklist next (Fintype.card α) pending scheduled ↔ scheduled.Reaches (fun a b => b ∈ next a) b := by
  constructor
  · exact worklist_reaches (fun a ha => (hpending a).mp ha)
  · intro h
    refine h.mem_of_closed (subset_worklist _ _ _) (worklist_closed hnodup (by omega) ?_)
    intro a ha hap
    exact absurd ((hpending a).mpr ha) hap

/-- The worklist of the indices below `n`, started in their order. -/
theorem mem_worklist_finRange {n : Nat} {next : Fin n → List (Fin n)} (hnodup : ∀ i, (next i).Nodup)
    {scheduled : Finset (Fin n)} {j : Fin n} :
    j ∈ worklist next n ((List.finRange n).filter (· ∈ scheduled)) scheduled ↔
      scheduled.Reaches (fun i j => j ∈ next i) j := by
  have hlength : ((List.finRange n).filter (· ∈ scheduled)).length = scheduled.card := by
    rw [← List.toFinset_card_of_nodup ((List.nodup_finRange n).filter _)]
    congr 1
    ext i
    simp
  have hspec := mem_worklist hnodup (fun i => by simp) hlength (b := j)
  rwa [Fintype.card_fin] at hspec

end Finset
