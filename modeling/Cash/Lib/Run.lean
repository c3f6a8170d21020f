import Mathlib.Tactic.Common

/-!
# Runs of a labelled transition system

`Run step s ls t`: from `s` the labels `ls`, in order, lead to `t`. An invariant may speak about the labels
taken so far, so that a state can be compared with what its history says it should be. Where the next state is computed
(`Machine`), a weight is summed over the steps, and a bound on the sum is shown step by step, with a potential of the
states (`total_le`).
-/

universe u v

/-- The runs of the transition system `step`. -/
inductive Run {σ : Type u} {ι : Type v} (step : σ → ι → σ → Prop) (s : σ) : List ι → σ → Prop
  | nil : Run step s [] s
  | snoc {ls : List ι} {l : ι} {t t' : σ} : Run step s ls t → step t l t' → Run step s (ls ++ [l]) t'

namespace Run

variable {σ : Type u} {ι : Type v} {step : σ → ι → σ → Prop} {s t : σ} {ls : List ι}

/-- What holds at the start and is kept by every step, given the labels taken, holds in every state
reached. -/
theorem invariant {I : List ι → σ → Prop} (h : Run step s ls t) (h₀ : I [] s)
    (hstep : ∀ ls l t t', I ls t → step t l t' → I (ls ++ [l]) t') : I ls t := by
  induction h with
  | nil => exact h₀
  | snoc _ hst ih => exact hstep _ _ _ _ ih hst

end Run

namespace Machine

variable {σ ι : Type} {next : σ → ι → Option σ} {s t : σ} {l : ι} {ls : List ι}

/-- The state after the labels, if each can be taken. -/
def run (next : σ → ι → Option σ) : σ → List ι → Option σ
  | s, [] => some s
  | s, l :: ls => (next s l).bind fun s' => run next s' ls

/-- The sum of the weights of the steps of a run. -/
def total (next : σ → ι → Option σ) (weight : σ → ι → σ → Nat) : σ → List ι → Nat
  | _, [] => 0
  | s, l :: ls => (next s l).elim 0 fun s' => weight s l s' + total next weight s' ls

/-- How many steps of a run are such steps. -/
def times (next : σ → ι → Option σ) (p : σ → ι → σ → Bool) : σ → List ι → Nat := total next fun s l s' => (p s l s').toNat

theorem run_cons : run next s (l :: ls) = some t ↔ ∃ s', next s l = some s' ∧ run next s' ls = some t := by
  rw [run, Option.bind_eq_some_iff]

theorem times_cons {p : σ → ι → σ → Bool} (h : next s l = some t) :
    times next p s (l :: ls) = (p s l t).toNat + times next p t ls := by
  rw [times, total, h]
  rfl

/-- What every step keeps, a run keeps. -/
theorem run_keeps {I : σ → Prop} (hstep : ∀ s l s', I s → next s l = some s' → I s') (hs : I s)
    (hrun : run next s ls = some t) : I t := by
  induction ls generalizing s with
  | nil => cases hrun; exact hs
  | cons l ls ih =>
      obtain ⟨s', hnext, hrun⟩ := run_cons.1 hrun
      exact ih (hstep _ _ _ hs hnext) hrun

theorem total_add (weight weight' : σ → ι → σ → Nat) (s : σ) (ls : List ι) :
    total next (fun s l s' => weight s l s' + weight' s l s') s ls = total next weight s ls + total next weight' s ls := by
  induction ls generalizing s with
  | nil => rfl
  | cons l ls ih =>
      rw [total, total, total]
      cases next s l with
      | none => rfl
      | some s' =>
          dsimp only [Option.elim]
          rw [ih]
          omega

/-- Where each step's weight is paid for, from what is due or from the potential, so is a run's. -/
theorem total_le {I : σ → Prop} {potential : σ → Nat} {weight due : σ → ι → σ → Nat}
    (hstep : ∀ s l s', I s → next s l = some s' → I s')
    (hpaid : ∀ s l s', I s → next s l = some s' → weight s l s' + potential s ≤ due s l s' + potential s')
    (hs : I s) (hrun : run next s ls = some t) :
    total next weight s ls + potential s ≤ total next due s ls + potential t := by
  induction ls generalizing s with
  | nil =>
      cases hrun
      exact Nat.le_refl _
  | cons l ls ih =>
      obtain ⟨s', hnext, hrun⟩ := run_cons.1 hrun
      have hfirst := hpaid _ _ _ hs hnext
      have hrest := ih (hstep _ _ _ hs hnext) hrun
      rw [total, total, hnext]
      dsimp only [Option.elim]
      omega

/-- The steps that are not bad. -/
def good (next : σ → ι → Option σ) (bad : σ → ι → σ → Bool) (s : σ) (l : ι) : Option σ :=
  (next s l).filter fun s' => !bad s l s'

theorem good_eq_some {bad : σ → ι → σ → Bool} {s' : σ} :
    good next bad s l = some s' ↔ next s l = some s' ∧ bad s l s' = false := by
  rw [good, Option.filter_eq_some_iff, Bool.not_eq_true']

/-- A run without a bad step is a run of the steps that are not bad, and what is counted along it is the same. -/
theorem run_good {bad : σ → ι → σ → Bool} (hrun : run next s ls = some t) (hnone : times next bad s ls = 0) :
    run (good next bad) s ls = some t ∧ ∀ weight, total (good next bad) weight s ls = total next weight s ls := by
  induction ls generalizing s with
  | nil => exact ⟨hrun, fun _ => rfl⟩
  | cons l ls ih =>
      obtain ⟨s', hnext, hrun⟩ := run_cons.1 hrun
      rw [times, total, hnext] at hnone
      dsimp only [Option.elim] at hnone
      obtain ⟨hbad, hnone⟩ := Nat.add_eq_zero_iff.1 hnone
      have hgood : good next bad s l = some s' := good_eq_some.2 ⟨hnext, Bool.toNat_eq_zero.1 hbad⟩
      obtain ⟨hrest, htotal⟩ := ih hrun hnone
      refine ⟨run_cons.2 ⟨s', hgood, hrest⟩, fun weight => ?_⟩
      rw [total, total, hgood, hnext]
      dsimp only [Option.elim]
      rw [htotal]

end Machine
