import Mathlib.Tactic.Common

/-!
# Reading that may fail, with the buffers it asked for

A computation that returns or raises, and the list of the buffers it allocated on the way. `Safe P`: every
buffer is within its bound, and what is raised satisfies `P`. Sequencing is safe exactly when each part is
(`safe_bind`), so the safety of a reader is read off its text.
-/

/-- A buffer of `bytes` bytes was allocated where at most `bound` are allowed. -/
structure Alloc where
  bytes : Nat
  bound : Nat
deriving DecidableEq, Repr

/-- The buffers asked for, and the outcome. -/
structure Io (ε α : Type) where
  allocs : List Alloc
  result : Except ε α

namespace Io

variable {ε α β : Type}

def throw (e : ε) : Io ε α := ⟨[], .error e⟩

def alloc (bytes bound : Nat) : Io ε Unit := ⟨[⟨bytes, bound⟩], .ok ()⟩

def ofExcept (r : Except ε α) : Io ε α := ⟨[], r⟩

/-- `try m except e: raise f(e)`. -/
def mapError {ε' : Type} (f : ε → ε') (m : Io ε α) : Io ε' α :=
  ⟨m.allocs, match m.result with | .ok a => .ok a | .error e => .error (f e)⟩

protected def bind (m : Io ε α) (f : α → Io ε β) : Io ε β :=
  match m.result with
  | .ok a => ⟨m.allocs ++ (f a).allocs, (f a).result⟩
  | .error e => ⟨m.allocs, .error e⟩

instance : Monad (Io ε) where
  pure a := ⟨[], .ok a⟩
  bind := Io.bind

/-! ## Outcomes -/

@[simp] theorem result_pure (a : α) : (pure a : Io ε α).result = .ok a := rfl

@[simp] theorem result_throw (e : ε) : (throw e : Io ε α).result = .error e := rfl

@[simp] theorem result_alloc (n b : Nat) : (alloc n b : Io ε Unit).result = .ok () := rfl

@[simp] theorem result_ofExcept (r : Except ε α) : (ofExcept r).result = r := rfl

theorem result_bind_ok {m : Io ε α} {a : α} (h : m.result = .ok a) (f : α → Io ε β) :
    (m >>= f).result = (f a).result := by
  change (Io.bind m f).result = _
  rw [Io.bind, h]

theorem result_bind_error {m : Io ε α} {e : ε} (h : m.result = .error e) (f : α → Io ε β) :
    (m >>= f).result = .error e := by
  change (Io.bind m f).result = _
  rw [Io.bind, h]

/-- The outcome of a sequence, from the outcomes of its parts. -/
theorem result_bind (m : Io ε α) (f : α → Io ε β) :
    (m >>= f).result = m.result.bind fun a => (f a).result := by
  cases h : m.result with
  | ok a => rw [result_bind_ok h]; rfl
  | error e => rw [result_bind_error h]; rfl

/-- A sequence returned: so did its parts. -/
theorem result_bind_eq_ok {m : Io ε α} {f : α → Io ε β} {b : β} :
    (m >>= f).result = .ok b ↔ ∃ a, m.result = .ok a ∧ (f a).result = .ok b := by
  cases h : m.result with
  | ok a => rw [result_bind_ok h]; simp
  | error e => rw [result_bind_error h]; simp

/-- A sequence raised: its first part did, or the rest after it. -/
theorem result_bind_eq_error {m : Io ε α} {f : α → Io ε β} {e : ε} :
    (m >>= f).result = .error e ↔ m.result = .error e ∨ ∃ a, m.result = .ok a ∧ (f a).result = .error e := by
  cases h : m.result with
  | ok a => rw [result_bind_ok h]; simp
  | error e => rw [result_bind_error h]; simp

theorem result_mapError_eq_error {ε' : Type} {f : ε → ε'} {m : Io ε α} {e : ε'} :
    (mapError f m).result = .error e ↔ ∃ e', m.result = .error e' ∧ f e' = e := by
  unfold mapError
  cases m.result with
  | ok a => simp
  | error e' => simp

/-! ## Up to the first failure -/

/-- Every element that comes after elements that are `ok` only is `good`. -/
def UpTo (ok good : α → Prop) (l : List α) : Prop :=
  ∀ (i : Nat) x, l[i]? = some x → (∀ (j : Nat) y, j < i → l[j]? = some y → ok y) → good x

@[simp] theorem upTo_nil (ok good : α → Prop) : UpTo ok good [] := by
  intro i x hx
  simp at hx

theorem upTo_cons {ok good : α → Prop} {x : α} {l : List α} :
    UpTo ok good (x :: l) ↔ good x ∧ (ok x → UpTo ok good l) := by
  constructor
  · intro h
    refine ⟨h 0 x rfl fun j y hj => by omega, fun hx i y hy hall => h (i + 1) y (by simpa using hy) ?_⟩
    intro j z hj hz
    cases j with
    | zero =>
        simp only [List.getElem?_cons_zero, Option.some.injEq] at hz
        exact hz ▸ hx
    | succ j => exact hall j z (by omega) (by simpa using hz)
  · rintro ⟨hx, hl⟩ i y hy hall
    cases i with
    | zero =>
        simp only [List.getElem?_cons_zero, Option.some.injEq] at hy
        exact hy ▸ hx
    | succ i =>
        refine hl (hall 0 x (by omega) rfl) i y (by simpa using hy) fun j z hj hz => ?_
        exact hall (j + 1) z (by omega) (by simpa using hz)

/-! ## Safety -/

/-- Every buffer is within its bound, and what is raised satisfies `P`. -/
def Safe (P : ε → Prop) (m : Io ε α) : Prop :=
  (∀ a ∈ m.allocs, a.bytes ≤ a.bound) ∧ ∀ e, m.result = .error e → P e

variable {P : ε → Prop}

@[simp] theorem safe_pure (a : α) : Safe P (pure a : Io ε α) :=
  ⟨fun x hx => (by cases hx), fun e he => (by cases he)⟩

@[simp] theorem safe_throw (e : ε) : Safe P (throw e : Io ε α) ↔ P e := by
  constructor
  · intro h; exact h.2 e rfl
  · intro h; exact ⟨fun a ha => (by cases ha), fun e' he => (by cases he; exact h)⟩

@[simp] theorem safe_alloc (n b : Nat) : Safe P (alloc n b : Io ε Unit) ↔ n ≤ b := by
  constructor
  · intro h; exact h.1 ⟨n, b⟩ (by simp [alloc])
  · intro h
    refine ⟨fun a ha => ?_, fun e he => by cases he⟩
    simp only [alloc, List.mem_singleton] at ha
    subst ha
    exact h

theorem safe_ofExcept (r : Except ε α) : Safe P (ofExcept r) ↔ ∀ e, r = .error e → P e := by
  constructor
  · intro h; exact h.2
  · intro h; exact ⟨fun a ha => (by cases ha), h⟩

/-- A sequence is safe exactly when its first part is, and the rest whenever it comes to that. -/
theorem safe_bind (m : Io ε α) (f : α → Io ε β) :
    Safe P (m >>= f) ↔ Safe P m ∧ ∀ a, m.result = .ok a → Safe P (f a) := by
  have hallocs : ∀ a, m.result = .ok a → (m >>= f).allocs = m.allocs ++ (f a).allocs := by
    intro a h
    change (Io.bind m f).allocs = _
    rw [Io.bind, h]
  have hallocs' : ∀ e, m.result = .error e → (m >>= f).allocs = m.allocs := by
    intro e h
    change (Io.bind m f).allocs = _
    rw [Io.bind, h]
  unfold Safe
  cases hm : m.result with
  | ok a =>
      rw [hallocs a hm, result_bind_ok hm]
      constructor
      · rintro ⟨ha, he⟩
        refine ⟨⟨fun x hx => ha x (by simp [hx]), fun e he => by cases he⟩, fun a' ha' => ?_⟩
        cases ha'
        exact ⟨fun x hx => ha x (by simp [hx]), he⟩
      · rintro ⟨⟨ha, _⟩, hf⟩
        obtain ⟨hfa, hfe⟩ := hf a rfl
        refine ⟨fun x hx => ?_, hfe⟩
        rcases List.mem_append.mp hx with hx | hx
        · exact ha x hx
        · exact hfa x hx
  | error e =>
      rw [hallocs' e hm, result_bind_error hm]
      constructor
      · rintro ⟨ha, he⟩
        exact ⟨⟨ha, fun e' h => he e' (by cases h; rfl)⟩, fun a ha => by cases ha⟩
      · rintro ⟨⟨ha, he⟩, _⟩
        exact ⟨ha, fun e' h => he e' (by cases h; rfl)⟩

theorem safe_mapError {ε' : Type} {Q : ε' → Prop} (f : ε → ε') (m : Io ε α) :
    Safe Q (mapError f m) ↔ Safe (fun e => Q (f e)) m := by
  unfold mapError Safe
  cases hm : m.result with
  | ok a => simp
  | error e => simp

end Io
