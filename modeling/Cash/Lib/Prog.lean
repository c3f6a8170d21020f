import Mathlib.Tactic.Common

/-!
# Programs that make calls

`Prog Op ε α`: a program that returns an `α`, raises an `ε`, or makes a call of `Op` and goes on with its
answer. What a call does is given apart from the program, as a relation on states: one program can be read
in a world of its own, among other processes, or with answers of which only little is known.

`Wp` is the weakest precondition of a program, for rules that give it for each call. The rules may come from
what calls do to a state (`Sem.rules`), or from a contract that forgets the state (`Contract.rules`).
-/

/-- A program over the calls `Op`. -/
inductive Prog (Op : Type → Type 1) (ε α : Type) : Type 1
  | ret (a : α)
  | raise (e : ε)
  | call {β : Type} (op : Op β) (k : β → Prog Op ε α)

namespace Prog

variable {Op : Type → Type 1} {ε ε' α β γ S : Type}

/-- `p`, then `f` with what it returns or `g` with what it raises. -/
def after : Prog Op ε α → (α → Prog Op ε' β) → (ε → Prog Op ε' β) → Prog Op ε' β
  | ret a, f, _ => f a
  | raise e, _, g => g e
  | call op k, f, g => call op fun b => (k b).after f g

instance : Monad (Prog Op ε) where
  pure := ret
  bind p f := p.after f raise

/-- `try: p; except: handler`. -/
def handle (p : Prog Op ε α) (handler : ε → Prog Op ε' α) : Prog Op ε' α := p.after ret handler

/-- `try: p; finally: last`. -/
def ensuring (p : Prog Op ε α) (last : Prog Op ε Unit) : Prog Op ε α :=
  p.after (fun a => last.after (fun _ => ret a) raise) fun e => last.after (fun _ => raise e) raise

/-- One call. -/
def perform (op : Op β) : Prog Op ε β := call op ret

/-! ## What a program does -/

/-- What calls do: the state before, the call, its answer and the state after. -/
abbrev Sem (Op : Type → Type 1) (S : Type) : Type 1 := ∀ β : Type, S → Op β → β → S → Prop

/-- From `s` the program ends in `t` with this result. -/
inductive Exec (sem : Sem Op S) : Prog Op ε α → S → Except ε α → S → Prop
  | ret {a : α} {s : S} : Exec sem (.ret a) s (.ok a) s
  | raise {e : ε} {s : S} : Exec sem (.raise e) s (.error e) s
  | call {β : Type} {op : Op β} {k : β → Prog Op ε α} {b : β} {s s' t : S} {r : Except ε α} :
      sem β s op b s' → Exec sem (k b) s' r t → Exec sem (.call op k) s r t

/-- One call more, before an execution of which only the end matters. -/
theorem Exec.before {sem : Sem Op S} {P : S → Prop} {op : Op β} {k : β → Prog Op ε α} {b : β} {s s' : S}
    {r : Except ε α} (hsem : sem β s op b s') (h : ∃ t, Exec sem (k b) s' r t ∧ P t) :
    ∃ t, Exec sem (.call op k) s r t ∧ P t := by
  obtain ⟨t, hx, hP⟩ := h
  exact ⟨t, .call hsem hx, hP⟩

/-- From `s` the program comes to `t`, with `q` left to do. -/
inductive Leads (sem : Sem Op S) : Prog Op ε α → S → Prog Op ε α → S → Prop
  | here {p : Prog Op ε α} {s : S} : Leads sem p s p s
  | call {β : Type} {op : Op β} {k : β → Prog Op ε α} {b : β} {s s' t : S} {q : Prog Op ε α} :
      sem β s op b s' → Leads sem (k b) s' q t → Leads sem (.call op k) s q t

/-! ## Weakest preconditions -/

/-- What has to hold before a call, for a postcondition to hold after it. -/
structure Rules (Op : Type → Type 1) (S : Type) where
  pre : ∀ {β : Type}, Op β → (β → S → Prop) → S → Prop
  mono : ∀ {β : Type} {op : Op β} {P Q : β → S → Prop} {s : S}, pre op P s → (∀ b s, P b s → Q b s) → pre op Q s

/-- By the rules, `Q` holds when the program started in `s` returns and `E` when it raises. -/
def Wp (R : Rules Op S) : Prog Op ε α → (α → S → Prop) → (ε → S → Prop) → S → Prop
  | ret a, Q, _, s => Q a s
  | raise e, _, E, s => E e s
  | call op k, Q, E, s => R.pre op (fun b s => (k b).Wp R Q E s) s

section

variable {R : Rules Op S} {Q Q' : α → S → Prop} {E E' : ε → S → Prop} {s : S}

theorem Wp.mono {p : Prog Op ε α} (h : p.Wp R Q E s) (hQ : ∀ a s, Q a s → Q' a s) (hE : ∀ e s, E e s → E' e s) :
    p.Wp R Q' E' s := by
  induction p generalizing s with
  | ret a => exact hQ _ _ h
  | raise e => exact hE _ _ h
  | call op k ih => exact R.mono h fun b s hk => ih b hk

theorem Wp.after {p : Prog Op ε α} {f : α → Prog Op ε' β} {g : ε → Prog Op ε' β} {P : β → S → Prop}
    {F : ε' → S → Prop} (h : p.Wp R (fun a s => (f a).Wp R P F s) (fun e s => (g e).Wp R P F s) s) :
    (p.after f g).Wp R P F s := by
  induction p generalizing s with
  | ret a => exact h
  | raise e => exact h
  | call op k ih => exact R.mono h fun b s hk => ih b hk

theorem Wp.bind {p : Prog Op ε α} {f : α → Prog Op ε β} {P : β → S → Prop}
    (h : p.Wp R (fun a s => (f a).Wp R P E s) E s) : (p >>= f).Wp R P E s :=
  Wp.after h

/-- A program of which this is known, and the rest. -/
theorem Wp.seq {p : Prog Op ε α} {f : α → Prog Op ε β} {P : β → S → Prop} (h : p.Wp R Q E' s)
    (hf : ∀ a s, Q a s → (f a).Wp R P E s) (he : ∀ e s, E' e s → E e s) : (p >>= f).Wp R P E s :=
  Wp.bind (h.mono hf he)

theorem Wp.handle {p : Prog Op ε α} {g : ε → Prog Op ε' α} {F : ε' → S → Prop}
    (h : p.Wp R Q (fun e s => (g e).Wp R Q F s) s) : (p.handle g).Wp R Q F s :=
  Wp.after h

theorem Wp.ensuring {p : Prog Op ε α} {last : Prog Op ε Unit}
    (h : p.Wp R (fun a s => last.Wp R (fun _ s => Q a s) E s) (fun e s => last.Wp R (fun _ s => E e s) E s) s) :
    (p.ensuring last).Wp R Q E s := by
  apply Wp.after
  apply h.mono
  · intro a s ha
    exact Wp.after (ha.mono (fun _ _ h => h) fun _ _ h => h)
  · intro e s he
    exact Wp.after (he.mono (fun _ _ h => h) fun _ _ h => h)

end

/-! ## What calls do, as rules -/

/-- Whatever the call answers, `I` holds after it. -/
def Sem.rules (sem : Sem Op S) (I : S → Prop) : Rules Op S where
  pre op P s := ∀ b s', sem _ s op b s' → I s' ∧ P b s'
  mono h hPQ b s' hsem := ⟨(h b s' hsem).1, hPQ _ _ (h b s' hsem).2⟩

section

variable {sem : Sem Op S} {I : S → Prop} {Q : α → S → Prop} {E : ε → S → Prop} {s t : S}

/-- Two things known of a program are known together. -/
theorem Wp.and {p : Prog Op ε α} {Q' : α → S → Prop} {E' : ε → S → Prop} (h : p.Wp (sem.rules I) Q E s)
    (h' : p.Wp (sem.rules I) Q' E' s) :
    p.Wp (sem.rules I) (fun a s => Q a s ∧ Q' a s) (fun e s => E e s ∧ E' e s) s := by
  induction p generalizing s with
  | ret a => exact ⟨h, h'⟩
  | raise e => exact ⟨h, h'⟩
  | call op k ih =>
      intro b s' hsem
      exact ⟨(h b s' hsem).1, ih b (h b s' hsem).2 (h' b s' hsem).2⟩

theorem Wp.exec {p : Prog Op ε α} {r : Except ε α} (h : p.Wp (sem.rules I) Q E s) (hx : Exec sem p s r t) :
    (∀ a, r = .ok a → Q a t) ∧ ∀ e, r = .error e → E e t := by
  induction hx with
  | ret =>
      refine ⟨fun a ha => ?_, fun e he => (nomatch he)⟩
      cases ha
      exact h
  | raise =>
      refine ⟨fun a ha => (nomatch ha), fun e he => ?_⟩
      cases he
      exact h
  | call hsem _ ih => exact ih (h _ _ hsem).2

end

/-! ## Contracts -/

/-- What a program may call, and what it is told then: nothing about the state is remembered between two
calls, so a program that meets a contract does so whatever others do meanwhile. -/
structure Contract (Op : Type → Type 1) where
  may : ∀ β : Type, Op β → Prop
  gives : ∀ β : Type, Op β → β → Prop

def Contract.rules (C : Contract Op) : Rules Op Unit where
  pre op P _ := C.may _ op ∧ ∀ b, C.gives _ op b → P b ()
  mono h hPQ := ⟨h.1, fun b hb => hPQ _ _ (h.2 b hb)⟩

/-- Every call of the program is allowed; `Q` holds of what it returns and `E` of what it raises. -/
def Meets (C : Contract Op) (p : Prog Op ε α) (Q : α → Prop) (E : ε → Prop) : Prop :=
  p.Wp C.rules (fun a _ => Q a) (fun e _ => E e) ()

variable {C : Contract Op} {P P' : α → Prop} {F F' : ε → Prop}

theorem Meets.mono {p : Prog Op ε α} (h : p.Meets C P F) (hP : ∀ a, P a → P' a) (hF : ∀ e, F e → F' e) :
    p.Meets C P' F' :=
  Wp.mono h (fun a _ => hP a) fun e _ => hF e

theorem Meets.bind {p : Prog Op ε α} {f : α → Prog Op ε β} {R : β → Prop} (h : p.Meets C P F)
    (hf : ∀ a, P a → (f a).Meets C R F) : (p >>= f).Meets C R F :=
  Wp.bind (Wp.mono h (fun a _ => hf a) fun _ _ he => he)

theorem Meets.handle {p : Prog Op ε α} {g : ε → Prog Op ε' α} {F' : ε' → Prop} (h : p.Meets C P F)
    (hg : ∀ e, F e → (g e).Meets C P F') : (p.handle g).Meets C P F' :=
  Wp.handle (Wp.mono h (fun _ _ ha => ha) fun e _ => hg e)

theorem Meets.after {p : Prog Op ε α} {f : α → Prog Op ε' β} {g : ε → Prog Op ε' β} {R : β → Prop}
    {F' : ε' → Prop} (h : p.Meets C (fun a => (f a).Meets C R F') (fun e => (g e).Meets C R F')) :
    (p.after f g).Meets C R F' :=
  Wp.after h

theorem Meets.ensuring {p : Prog Op ε α} {last : Prog Op ε Unit} (h : p.Meets C P F)
    (hl : last.Meets C (fun _ => True) F) : (p.ensuring last).Meets C P F := by
  apply Wp.ensuring
  apply Wp.mono h
  · intro a _ ha
    exact Wp.mono hl (fun _ _ _ => ha) fun _ _ he => he
  · intro e _ he
    exact Wp.mono hl (fun _ _ _ => he) fun _ _ he => he

end Prog
