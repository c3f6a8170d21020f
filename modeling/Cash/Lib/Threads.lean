import Cash.Lib.Prog
import Mathlib.Logic.Function.Basic
import Mathlib.Logic.Relation

/-!
# Threads of processes

Any number of processes with any number of threads each, over one state. A step starts a thread, lets one
thread make its next call, or ends a process between two calls.
-/

namespace Prog

variable {Op : Type → Type 1} {ε α S : Type}

/-- A thread of process `pid`, and what it has left to do. -/
structure Thread (Op : Type → Type 1) (ε α : Type) where
  pid : Nat
  prog : Prog Op ε α

/-- The state and the threads. -/
structure Config (Op : Type → Type 1) (ε α S : Type) where
  state : S
  threads : Nat → Option (Thread Op ε α)

/-- What calls of a thread of a process do. -/
abbrev ThreadSem (Op : Type → Type 1) (S : Type) : Type 1 := Nat → Nat → Sem Op S

/-- One step: `sem` says what a call does, `starts` which programs a thread runs, `dies` what is left when a
process is gone. -/
inductive Sched (sem : ThreadSem Op S) (starts : Prog Op ε α → Prop) (dies : Nat → S → S → Prop) :
    Config Op ε α S → Config Op ε α S → Prop
  | start {c : Config Op ε α S} {tid : Nat} {p : Prog Op ε α} (pid : Nat) : c.threads tid = none → starts p →
      Sched sem starts dies c ⟨c.state, Function.update c.threads tid (some ⟨pid, p⟩)⟩
  | call {c : Config Op ε α S} {tid pid : Nat} {β : Type} {op : Op β} {k : β → Prog Op ε α} {b : β} {s : S} :
      c.threads tid = some ⟨pid, .call op k⟩ → sem pid tid β c.state op b s →
      Sched sem starts dies c ⟨s, Function.update c.threads tid (some ⟨pid, k b⟩)⟩
  | die {c : Config Op ε α S} {s : S} (pid : Nat) : dies pid c.state s →
      Sched sem starts dies c ⟨s, fun tid => (c.threads tid).filter fun t => t.pid ≠ pid⟩

/-- No thread yet. -/
def Config.initial (s : S) : Config Op ε α S := ⟨s, fun _ => none⟩

variable {sem : ThreadSem Op S} {starts : Prog Op ε α → Prop} {dies : Nat → S → S → Prop} {C : Contract Op}
  {Q : α → Prop} {E : ε → Prop} {W : S → Prop}

/-- The state keeps `W`, and gives what the contract says, where every call is one the contract allows. -/
def Honours (sem : ThreadSem Op S) (C : Contract Op) (W : S → Prop) : Prop :=
  ∀ pid tid β s (op : Op β) b s', W s → C.may β op → sem pid tid β s op b s' → C.gives β op b ∧ W s'

/-- Threads that all meet a contract the state honours: in every configuration reached the state keeps `W`,
and what a thread has left to do meets the contract. -/
theorem Honours.reaches (h : Honours sem C W) (hdies : ∀ pid s s', W s → dies pid s s' → W s')
    (hstarts : ∀ p, starts p → p.Meets C Q E) {s : S} (hs : W s) {c : Config Op ε α S}
    (hc : Relation.ReflTransGen (Sched sem starts dies) (.initial s) c) :
    W c.state ∧ ∀ tid t, c.threads tid = some t → t.prog.Meets C Q E := by
  induction hc with
  | refl => exact ⟨hs, fun tid t ht => nomatch ht⟩
  | tail _ hstep ih =>
      obtain ⟨hW, hmeets⟩ := ih
      cases hstep with
      | start pid hfree hp =>
          refine ⟨hW, fun tid' t ht => ?_⟩
          simp only [Function.update_apply] at ht
          split at ht
          · cases ht
            exact hstarts _ hp
          · exact hmeets tid' t ht
      | call hthread hsem =>
          obtain ⟨hmay, hk⟩ := hmeets _ _ hthread
          obtain ⟨hgives, hW'⟩ := h _ _ _ _ _ _ _ hW hmay hsem
          refine ⟨hW', fun tid' t ht => ?_⟩
          simp only [Function.update_apply] at ht
          split at ht
          · cases ht
            exact hk _ hgives
          · exact hmeets tid' t ht
      | die pid hdie =>
          refine ⟨hdies pid _ _ hW hdie, fun tid t ht => ?_⟩
          obtain ⟨ht, -⟩ := Option.filter_eq_some_iff.mp ht
          exact hmeets tid t ht

/-! ## Shares

A thread may have a share of the state, which no call of another thread takes from it. The state and the
shares of all threads keep an invariant; the rules say what a thread may do with its own share. -/

section

variable {G : Type} {R : Rules Op G} {Ok : S → (Nat → G) → Prop} {g₀ : G} {Q : α → G → Prop} {E : ε → G → Prop}

/-- A call that the rules allow keeps the invariant, with a new share for the thread that makes it. -/
def Tracks (sem : ThreadSem Op S) (R : Rules Op G) (Ok : S → (Nat → G) → Prop) : Prop :=
  ∀ pid tid β s γ (op : Op β) b s' (P : β → G → Prop), Ok s γ → R.pre op P (γ tid) → sem pid tid β s op b s' →
    ∃ g, Ok s' (Function.update γ tid g) ∧ P b g

/-- Threads of one process that all start with the share `g₀` and follow the rules: in every configuration
reached the state and the shares keep the invariant. -/
theorem Tracks.reaches (h : Tracks sem R Ok) (hstarts : ∀ p, starts p → p.Wp R Q E g₀) {s : S} (hs : Ok s fun _ => g₀)
    {c : Config Op ε α S} (hc : Relation.ReflTransGen (Sched sem starts fun _ _ _ => False) (.initial s) c) :
    ∃ γ, Ok c.state γ ∧ (∀ tid, c.threads tid = none → γ tid = g₀) ∧
      ∀ tid t, c.threads tid = some t → t.prog.Wp R Q E (γ tid) := by
  induction hc with
  | refl => exact ⟨fun _ => g₀, hs, fun _ _ => rfl, fun tid t ht => nomatch ht⟩
  | tail _ hstep ih =>
      obtain ⟨γ, hok, hidle, hwp⟩ := ih
      cases hstep with
      | start pid hfree hp =>
          rename_i tid p
          refine ⟨γ, hok, fun tid' hidle' => ?_, fun tid' t ht => ?_⟩
          · simp only [Function.update_apply] at hidle'
            split at hidle'
            · cases hidle'
            · exact hidle tid' hidle'
          · simp only [Function.update_apply] at ht
            split at ht
            · rename_i htid
              cases ht
              rw [htid, hidle tid hfree]
              exact hstarts p hp
            · exact hwp tid' t ht
      | call hthread hsem =>
          rename_i tid pid β op k b s'
          obtain ⟨g, hok', hk⟩ := h _ _ _ _ _ _ _ _ _ hok (hwp tid _ hthread) hsem
          refine ⟨_, hok', fun tid' hidle' => ?_, fun tid' t ht => ?_⟩
          · simp only [Function.update_apply] at hidle' ⊢
            split at hidle'
            · cases hidle'
            · rename_i htid
              rw [if_neg htid]
              exact hidle tid' hidle'
          · simp only [Function.update_apply] at ht ⊢
            split at ht
            · rename_i htid
              cases ht
              rw [if_pos htid]
              exact hk
            · rename_i htid
              rw [if_neg htid]
              exact hwp tid' t ht
      | die pid hdie => exact hdie.elim

end

/-! ## Schedules -/

/-- A thread may go on while the others wait. -/
theorem Sched.leads {pid tid : Nat} {p q : Prog Op ε α} {s t : S} (h : Leads (sem pid tid) p s q t)
    (threads : Nat → Option (Thread Op ε α)) :
    Relation.ReflTransGen (Sched sem starts dies) ⟨s, Function.update threads tid (some ⟨pid, p⟩)⟩
      ⟨t, Function.update threads tid (some ⟨pid, q⟩)⟩ := by
  induction h with
  | here => exact .refl
  | @call β op k b s s' t q hsem _ ih =>
      refine .head ?_ ih
      have hstep := @Sched.call Op ε α S sem starts dies ⟨s, Function.update threads tid (some ⟨pid, .call op k⟩)⟩ tid pid
        β op k b s' (by simp) hsem
      simpa using hstep

/-- What is left of a program that has ended. -/
def outcome : Except ε α → Prog Op ε α
  | .ok a => ret a
  | .error e => raise e

theorem Exec.leads {sem : Sem Op S} {p : Prog Op ε α} {r : Except ε α} {s t : S} (h : Exec sem p s r t) :
    Leads sem p s (outcome r) t := by
  induction h with
  | ret => exact .here
  | raise => exact .here
  | call hsem _ ih => exact .call hsem ih

/-- A thread may run to its end while the others wait. -/
theorem Sched.run {pid tid : Nat} {p : Prog Op ε α} {r : Except ε α} {s t : S} (h : Exec (sem pid tid) p s r t)
    (threads : Nat → Option (Thread Op ε α)) :
    Relation.ReflTransGen (Sched sem starts dies) ⟨s, Function.update threads tid (some ⟨pid, p⟩)⟩
      ⟨t, Function.update threads tid (some ⟨pid, outcome r⟩)⟩ :=
  Sched.leads h.leads threads

end Prog
