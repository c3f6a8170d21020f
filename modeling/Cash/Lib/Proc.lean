import Mathlib.Tactic.Common

/-!
# Procedures that raise

A procedure runs from a state, under the exception that is being handled there, and returns or raises, with the state it
leaves; `none` where it does not end. What a `try` makes of it is said by `attempt`, which turns what is raised into a
value.
-/

/-- A procedure over the states `σ` and the exceptions `ε`. -/
def Proc (σ ε α : Type) : Type := Option ε → σ → Option (Except ε α × σ)

namespace Proc

variable {σ ε α β γ : Type}

/-- What comes after an end. -/
def after (f : α → σ → Option (Except ε β × σ)) : Option (Except ε α × σ) → Option (Except ε β × σ)
  | none => none
  | some (.error e, s) => some (.error e, s)
  | some (.ok a, s) => f a s

instance : Monad (Proc σ ε) where
  pure a := fun _ s => some (.ok a, s)
  bind m f := fun c s => after (fun a => f a c) (m c s)

def raise (e : ε) : Proc σ ε α := fun _ s => some (.error e, s)

/-- Its end as a value. -/
def attempt (m : Proc σ ε α) : Proc σ ε (Except ε α) := fun c s => (m c s).map fun r => (.ok r.1, r.2)

/-- After what is returned; what is raised is handed on. -/
def carry (f : α → Proc σ ε (Except ε β)) : Except ε α → Proc σ ε (Except ε β)
  | .ok a => f a
  | .error e => pure (.error e)

/-- While an exception is being handled. -/
def handling (e : ε) (m : Proc σ ε α) : Proc σ ε α := fun _ s => m (some e) s

/-- It does not end. -/
def forever : Proc σ ε α := fun _ _ => none

/-- A change of the state, and a question about it. -/
def modify (f : σ → σ) : Proc σ ε Unit := fun _ s => some (.ok (), f s)

def ask (f : σ → α) : Proc σ ε α := fun _ s => some (.ok (f s), s)

/-- `try: m; finally: last`, where `last` returns. -/
def ensuring (m : Proc σ ε α) (last : Proc σ ε Unit) : Proc σ ε α := do
  match ← attempt m with
  | .ok a => last; pure a
  | .error e => handling e last; raise e

/-! ## Laws -/

theorem bind_apply (m : Proc σ ε α) (f : α → Proc σ ε β) (c : Option ε) (s : σ) :
    (m >>= f) c s = after (fun a => f a c) (m c s) := rfl

@[simp] theorem raise_bind (e : ε) (f : α → Proc σ ε β) : ((raise e : Proc σ ε α) >>= f) = raise e := rfl

/-- A procedure does not end, raises or returns. -/
theorem ends (m : Proc σ ε α) (c : Option ε) (s : σ) :
    m c s = none ∨ (∃ e t, m c s = some (.error e, t)) ∨ ∃ a t, m c s = some (.ok a, t) := by
  rcases m c s with - | ⟨e | a, t⟩
  · exact .inl rfl
  · exact .inr (.inl ⟨e, t, rfl⟩)
  · exact .inr (.inr ⟨a, t, rfl⟩)

instance : LawfulMonad (Proc σ ε) := LawfulMonad.mk' (Proc σ ε)
  (fun m => by
    funext c s
    change after _ (m c s) = m c s
    rcases m.ends c s with h | ⟨e, t, h⟩ | ⟨a, t, h⟩ <;> rw [h] <;> rfl)
  (fun _ _ => rfl)
  (fun m f g => by
    funext c s
    rw [bind_apply, bind_apply, bind_apply]
    rcases m.ends c s with h | ⟨e, t, h⟩ | ⟨a, t, h⟩ <;> rw [h] <;> rfl)

@[simp] theorem attempt_pure (a : α) : attempt (pure a : Proc σ ε α) = pure (.ok a) := rfl

@[simp] theorem attempt_raise (e : ε) : attempt (raise e : Proc σ ε α) = pure (.error e) := rfl

/-- What is raised before the rest is what is raised, and the rest is attempted after what is returned. -/
theorem attempt_bind (m : Proc σ ε α) (f : α → Proc σ ε β) :
    attempt (m >>= f) = attempt m >>= carry fun a => attempt (f a) := by
  funext c s
  rw [bind_apply, attempt, attempt, bind_apply]
  rcases m.ends c s with h | ⟨e, t, h⟩ | ⟨a, t, h⟩ <;> rw [h] <;> rfl

theorem attempt_attempt (m : Proc σ ε α) (f : Except ε α → Proc σ ε β) :
    attempt (attempt m >>= f) = attempt m >>= fun r => attempt (f r) := by
  rw [attempt_bind]
  funext c s
  rw [bind_apply, bind_apply, attempt, attempt]
  rcases m.ends c s with h | ⟨e, t, h⟩ | ⟨a, t, h⟩ <;> rw [h] <;> rfl

/-- What is returned is left aside. -/
def void (m : Proc σ ε α) : Proc σ ε Unit := m >>= fun _ => pure ()

@[simp] theorem void_bind (m : Proc σ ε α) (m' : Proc σ ε β) : (void m >>= fun _ => m') = m >>= fun _ => m' := by
  rw [void, bind_assoc]
  rfl

theorem bind_void (m : Proc σ ε α) (f : α → Proc σ ε β) : void (m >>= f) = m >>= fun a => void (f a) := by
  rw [void, bind_assoc]
  rfl

theorem ask_apply (f : σ → α) (g : α → Proc σ ε β) (c : Option ε) (s : σ) : (ask f >>= g) c s = g (f s) c s := rfl

theorem attempt_apply (m : Proc σ ε α) (f : Except ε α → Proc σ ε β) (c : Option ε) (s : σ) :
    (attempt m >>= f) c s = ((m c s).bind fun r => f r.1 c r.2) := by
  rw [bind_apply, attempt]
  rcases m.ends c s with h | ⟨e, t, h⟩ | ⟨a, t, h⟩ <;> rw [h] <;> rfl

theorem ensuring_void (m : Proc σ ε α) (last : Proc σ ε Unit) : ensuring (void m) last = void (ensuring m last) := by
  funext c s
  rw [ensuring, ensuring, attempt_apply, bind_void, attempt_apply, void, bind_apply]
  rcases m.ends c s with h | ⟨e, t, h⟩ | ⟨a, t, h⟩
  · rw [h]
    rfl
  · rw [h]
    simp only [after, Option.bind_some, bind_void]
    rfl
  · rw [h]
    simp only [after, Option.bind_some, bind_void]
    rfl

/-! ## What is returned -/

/-- Whatever it returns satisfies this. -/
def Returns (m : Proc σ ε α) (Q : α → Prop) : Prop := ∀ c s a t, m c s = some (.ok a, t) → Q a

namespace Returns

variable {m : Proc σ ε α} {f : α → Proc σ ε β} {P : α → Prop} {Q : β → Prop}

theorem always (m : Proc σ ε α) : m.Returns fun _ => True := fun _ _ _ _ _ => trivial

theorem pure {a : α} (ha : P a) : (Pure.pure a : Proc σ ε α).Returns P := fun _ _ _ _ h => by
  cases h
  exact ha

theorem raise (e : ε) : (Proc.raise e : Proc σ ε α).Returns P := fun _ _ _ _ h => by cases h

theorem bind (hm : m.Returns P) (hf : ∀ a, P a → (f a).Returns Q) : (m >>= f).Returns Q := fun c s b t h => by
  rw [bind_apply] at h
  rcases m.ends c s with hs | ⟨e, u, hs⟩ | ⟨a, u, hs⟩
  · rw [hs] at h
    cases h
  · rw [hs] at h
    cases h
  · rw [hs] at h
    exact hf a (hm c s a u hs) c u b t h

/-- The rest returns it, whatever came first. -/
theorem next (hf : ∀ a, (f a).Returns Q) : (m >>= f).Returns Q := (always m).bind fun a _ => hf a

theorem handling (hm : m.Returns P) (e : ε) : (Proc.handling e m).Returns P := fun _ s a t h => hm (some e) s a t h

/-- What is attempted returns it where it returns. -/
theorem attempt (hm : m.Returns P) {f : Except ε α → Proc σ ε β} (hok : ∀ a, P a → (f (.ok a)).Returns Q)
    (herror : ∀ e, (f (.error e)).Returns Q) : (Proc.attempt m >>= f).Returns Q := fun c s b t h => by
  rw [attempt_apply] at h
  rcases m.ends c s with hs | ⟨e, u, hs⟩ | ⟨a, u, hs⟩
  · rw [hs] at h
    cases h
  · rw [hs] at h
    exact herror e c u b t h
  · rw [hs] at h
    exact hok a (hm c s a u hs) c u b t h

theorem ensuring (hm : m.Returns P) (last : Proc σ ε Unit) : (Proc.ensuring m last).Returns P :=
  hm.attempt (fun _ ha => .next fun _ => .pure ha) fun _ => .next fun _ => .raise _

/-- How it ends. -/
theorem ends (hm : m.Returns P) (c : Option ε) (s : σ) :
    m c s = none ∨ (∃ e t, m c s = some (.error e, t)) ∨ ∃ a t, P a ∧ m c s = some (.ok a, t) := by
  rcases m.ends c s with h | h | ⟨a, t, h⟩
  · exact .inl h
  · exact .inr (.inl h)
  · exact .inr (.inr ⟨a, t, hm c s a t h, h⟩)

end Returns

end Proc
