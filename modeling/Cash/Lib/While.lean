import Mathlib.Tactic.Common

/-!
# Loops that are left from inside

`loop turn` takes turns until one is the last. A turn may depend on its number. The fuel bounds the turns, so that a loop
terminates if some fuel is enough.
-/

namespace While

/-- What a turn leaves, and whether another follows. -/
inductive Turn (σ : Type)
  | again (s : σ)
  | done (s : σ)

variable {σ : Type} {turn : Nat → σ → Turn σ}

def loop (turn : Nat → σ → Turn σ) : Nat → Nat → σ → Option σ
  | 0, _, _ => none
  | fuel + 1, n, s =>
      match turn n s with
      | .again s' => loop turn fuel (n + 1) s'
      | .done s' => some s'

theorem loop_again {fuel n : Nat} {s s' : σ} (h : turn n s = .again s') :
    loop turn (fuel + 1) n s = loop turn fuel (n + 1) s' := by
  rw [loop, h]

theorem loop_done {fuel n : Nat} {s s' : σ} (h : turn n s = .done s') : loop turn (fuel + 1) n s = some s' := by
  rw [loop, h]

/-- With any fuel that is enough, a loop ends in the same state. -/
theorem loop_unique {fuel fuel' n : Nat} {s t t' : σ} (h : loop turn fuel n s = some t)
    (h' : loop turn fuel' n s = some t') : t = t' := by
  induction fuel generalizing fuel' n s with
  | zero => cases h
  | succ fuel ih =>
      cases fuel' with
      | zero => cases h'
      | succ fuel' =>
          cases hturn : turn n s with
          | again s' =>
              rw [loop_again hturn] at h h'
              exact ih h h'
          | done s' =>
              rw [loop_done hturn] at h h'
              exact Option.some.inj (h.symm.trans h')

/-- What each turn but the last keeps holds before the last. -/
theorem loop_invariant {I : σ → Prop} (hkeep : ∀ n s s', I s → turn n s = .again s' → I s') {fuel n : Nat} {s t : σ}
    (h : loop turn fuel n s = some t) (hs : I s) : ∃ m u, I u ∧ turn m u = .done t := by
  induction fuel generalizing n s with
  | zero => cases h
  | succ fuel ih =>
      cases hturn : turn n s with
      | again s' =>
          rw [loop_again hturn] at h
          exact ih h (hkeep n s s' hs hturn)
      | done s' =>
          rw [loop_done hturn] at h
          cases h
          exact ⟨n, s, hs, hturn⟩

/-- Two loops are one if their turns are in every state that the first comes to. -/
theorem loop_congr {turn' : Nat → σ → Turn σ} {I : σ → Prop} (hkeep : ∀ n s s', I s → turn n s = .again s' → I s')
    (hturn : ∀ n s, I s → turn n s = turn' n s) (fuel n : Nat) {s : σ} (hs : I s) :
    loop turn fuel n s = loop turn' fuel n s := by
  induction fuel generalizing n s with
  | zero => rfl
  | succ fuel ih =>
      rw [loop, loop, ← hturn n s hs]
      cases h : turn n s with
      | again s' => exact ih (n + 1) (hkeep n s s' hs h)
      | done s' => rfl

/-- A loop whose every turn but the last goes down terminates. -/
theorem loop_total {r : σ → σ → Prop} (hwf : WellFounded r) (hdown : ∀ n s s', turn n s = .again s' → r s' s) (n : Nat)
    (s : σ) : ∃ fuel t, loop turn fuel n s = some t := by
  induction s using hwf.induction generalizing n with
  | h s ih =>
      cases hturn : turn n s with
      | again s' =>
          obtain ⟨fuel, t, ht⟩ := ih s' (hdown n s s' hturn) (n + 1)
          exact ⟨fuel + 1, t, (loop_again hturn).trans ht⟩
      | done s' => exact ⟨1, s', loop_done hturn⟩

end While
