import Mathlib.Data.List.Basic
import Mathlib.Logic.Function.Basic
import Mathlib.Tactic.Common

/-!
# Iterators that are read by one another

What an iterator gives is known by the number of calls before. A handle gives what is queued for it and then what its
source does, as the copies of `itertools.tee` do: what one of two draws is queued for the other. When any reader of some
handles is given what it would be by the sources themselves (`pulls_eq_iff`).
-/

namespace Tee

variable {σ ι κ α ε : Type}

/-- What a call of `__next__` comes to. -/
inductive Given (α ε : Type)
  | item (x : α)
  | stop
  | raised (error : ε)
deriving DecidableEq

/-- What is drawn of the source is queued for the partner as well. -/
@[ext]
structure Handle (ι κ : Type) where
  queue : Option κ
  source : Option ι
  partner : Option κ
deriving DecidableEq

namespace Handle

/-- The source itself. -/
def original (o : ι) : Handle ι κ := ⟨none, some o, none⟩

/-- One of two copies. -/
def tee (o : ι) (own other : κ) : Handle ι κ := ⟨some own, some o, some other⟩

/-- A generator over the items queued. -/
def listed (own : κ) : Handle ι κ := ⟨some own, none, none⟩

/-- A generator over the items queued and then the source. -/
def chain (own : κ) (o : ι) : Handle ι κ := ⟨some own, some o, none⟩

end Handle

structure State (ι κ α : Type) where
  calls : ι → Nat
  queued : κ → List α

namespace State

/-- Nothing was called and nothing is queued. -/
def start : State ι κ α := ⟨fun _ => 0, fun _ => []⟩

def queuedFor (st : State ι κ α) (q : Option κ) : List α :=
  match q with
  | none => []
  | some q => st.queued q

def pending (st : State ι κ α) (h : Handle ι κ) : List α := st.queuedFor h.queue

variable [DecidableEq ι] [DecidableEq κ]

def call (st : State ι κ α) (o : ι) : State ι κ α := { st with calls := Function.update st.calls o (st.calls o + 1) }

def enqueue (st : State ι κ α) (q : Option κ) (xs : List α) : State ι κ α :=
  match q with
  | none => st
  | some q => { st with queued := Function.update st.queued q xs }

/-- Queues an item that was drawn. -/
def pass (st : State ι κ α) (partner : Option κ) : Given α ε → State ι κ α
  | .item x => st.enqueue partner (st.queuedFor partner ++ [x])
  | _ => st

end State

variable [DecidableEq ι] [DecidableEq κ] (given : ι → Nat → Given α ε)

/-- `next(handle)`. -/
def next (h : Handle ι κ) (st : State ι κ α) : Given α ε × State ι κ α :=
  match st.pending h with
  | x :: xs => (.item x, st.enqueue h.queue xs)
  | [] =>
    match h.source with
    | none => (.stop, st)
    | some o => (given o (st.calls o), (st.call o).pass h.partner (given o (st.calls o)))

variable (hs : σ → Option (Handle ι κ))

/-- One reading of what stands in a slot. -/
def pull (i : σ) (st : State ι κ α) : Option (Given α ε) × State ι κ α :=
  match hs i with
  | none => (none, st)
  | some h => (some (next given h st).1, (next given h st).2)

/-- What is read slot by slot. -/
def pulls : List σ → State ι κ α → List (Option (Given α ε))
  | [], _ => []
  | i :: is, st => (pull given hs i st).1 :: pulls is (pull given hs i st).2

def after : List σ → State ι κ α → State ι κ α
  | [], st => st
  | i :: is, st => after is (pull given hs i st).2

/-- What a handle gives when nothing else is read. -/
def ahead (h : Handle ι κ) (st : State ι κ α) (n : Nat) : Given α ε :=
  match (st.pending h)[n]? with
  | some x => .item x
  | none =>
    match h.source with
    | none => .stop
    | some o => given o (st.calls o + (n - (st.pending h).length))

/-- Every slot holds the source. -/
def plain (owner : σ → Option ι) (i : σ) : Option (Handle ι κ) := (owner i).map .original

/-- Handles of the sources: what is queued for one slot is for no other, and what any draws is queued for none. -/
structure Slots (owner : σ → Option ι) (hs : σ → Option (Handle ι κ)) : Prop where
  held : ∀ i, (hs i).isSome = (owner i).isSome
  source : ∀ i h o, hs i = some h → h.source = some o → owner i = some o
  apart : ∀ i j h h', i ≠ j → hs i = some h → hs j = some h' → h.queue ≠ none → h.queue ≠ h'.queue
  partner : ∀ i j h h', hs i = some h → hs j = some h' → h.partner ≠ none → h.partner ≠ h'.queue

/-- The source stands in two slots. -/
def Shared (owner : σ → Option ι) (o : ι) : Prop := ∃ i j, i ≠ j ∧ owner i = some o ∧ owner j = some o

variable {given} {hs} {owner : σ → Option ι} {h h' : Handle ι κ} {o o' : ι} {q : Option κ} {st st₀ : State ι κ α} {xs : List α}
  {i j : σ}

/-! ## One reading -/

namespace State

omit [DecidableEq ι] in
@[simp] theorem calls_enqueue : (st.enqueue q xs).calls = st.calls := by
  cases q with
  | none => rfl
  | some q => rfl

omit [DecidableEq ι] in
@[simp] theorem calls_pass (g : Given α ε) : (st.pass q g).calls = st.calls := by
  cases g with
  | item x => exact calls_enqueue
  | stop => rfl
  | raised e => rfl

omit [DecidableEq ι] in
theorem queuedFor_enqueue (hq : q ≠ none) : (st.enqueue q xs).queuedFor q = xs := by
  cases q with
  | none => exact absurd rfl hq
  | some q => exact Function.update_self ..

omit [DecidableEq ι] in
theorem queuedFor_enqueue_ne {r : Option κ} (hq : q ≠ none → q ≠ r) : (st.enqueue q xs).queuedFor r = st.queuedFor r := by
  cases q with
  | none => rfl
  | some q =>
      cases r with
      | none => rfl
      | some r =>
          refine Function.update_of_ne ?_ _ _
          rintro rfl
          exact hq (by simp) rfl

omit [DecidableEq ι] in
theorem queuedFor_pass_ne {r : Option κ} (g : Given α ε) (hq : q ≠ none → q ≠ r) :
    (st.pass q g).queuedFor r = st.queuedFor r := by
  cases g with
  | item x => exact queuedFor_enqueue_ne hq
  | stop => rfl
  | raised e => rfl

omit [DecidableEq κ] in
@[simp] theorem queuedFor_call : (st.call o).queuedFor q = st.queuedFor q := rfl

end State

open State

/-- What a handle of which an item is queued does. -/
theorem next_of_cons {x : α} (hp : st.pending h = x :: xs) : next given h st = (.item x, st.enqueue h.queue xs) := by
  rw [next, hp]

theorem next_of_source (hp : st.pending h = []) (ho : h.source = some o) :
    next given h st = (given o (st.calls o), (st.call o).pass h.partner (given o (st.calls o))) := by
  rw [next, hp, ho]

theorem next_of_listed (hp : st.pending h = []) (ho : h.source = none) : next given h st = (.stop, st) := by
  rw [next, hp, ho]

omit [DecidableEq ι] [DecidableEq κ] in
theorem ahead_cons {x : α} (hp : st.pending h = x :: xs) : ahead given h st 0 = .item x := by
  rw [ahead, hp, List.getElem?_cons_zero]

omit [DecidableEq ι] [DecidableEq κ] in
theorem ahead_source (hp : st.pending h = []) (ho : h.source = some o) (n : Nat) :
    ahead given h st n = given o (st.calls o + n) := by
  rw [ahead, hp, ho]
  rfl

omit [DecidableEq ι] [DecidableEq κ] in
theorem ahead_listed (hp : st.pending h = []) (ho : h.source = none) (n : Nat) : ahead given h st n = .stop := by
  rw [ahead, hp, ho]
  rfl

theorem next_fst (h : Handle ι κ) (st : State ι κ α) : (next given h st).1 = ahead given h st 0 := by
  cases hp : st.pending h with
  | cons x xs => rw [next_of_cons hp, ahead_cons hp]
  | nil =>
      cases ho : h.source with
      | none => rw [next_of_listed hp ho, ahead_listed hp ho]
      | some o => rw [next_of_source hp ho, ahead_source hp ho, Nat.add_zero]

/-- What is queued for another handle stays. -/
theorem pending_next (hqueue : h.queue ≠ none → h.queue ≠ h'.queue) (hpartner : h.partner ≠ none → h.partner ≠ h'.queue) :
    (next given h st).2.pending h' = st.pending h' := by
  cases hp : st.pending h with
  | cons x xs =>
      rw [next_of_cons hp]
      exact queuedFor_enqueue_ne hqueue
  | nil =>
      cases ho : h.source with
      | none => rw [next_of_listed hp ho]
      | some o =>
          rw [next_of_source hp ho]
          exact queuedFor_pass_ne _ hpartner

theorem calls_next (ho : h.source ≠ some o) : (next given h st).2.calls o = st.calls o := by
  cases hp : st.pending h with
  | cons x xs => rw [next_of_cons hp, calls_enqueue]
  | nil =>
      cases hsource : h.source with
      | none => rw [next_of_listed hp hsource]
      | some o' =>
          rw [next_of_source hp hsource, calls_pass]
          refine Function.update_of_ne ?_ _ _
          rintro rfl
          exact ho hsource

theorem calls_next_of_source (hp : st.pending h = []) (ho : h.source = some o) :
    (next given h st).2.calls o = st.calls o + 1 := by
  rw [next_of_source hp ho, calls_pass]
  exact Function.update_self ..

omit [DecidableEq ι] [DecidableEq κ] in
theorem ahead_congr {st' : State ι κ α} (hp : st'.pending h = st.pending h)
    (hcalls : ∀ o, h.source = some o → st'.calls o = st.calls o) (n : Nat) : ahead given h st' n = ahead given h st n := by
  rw [ahead, ahead, hp]
  cases ho : h.source with
  | none => rfl
  | some o =>
      simp only [hcalls o ho]

theorem calls_next_or (h : Handle ι κ) (st : State ι κ α) (o : ι) :
    (next given h st).2.calls o = st.calls o ∨ (next given h st).2.calls o = st.calls o + 1 := by
  cases hp : st.pending h with
  | cons x xs => exact .inl (by rw [next_of_cons hp, calls_enqueue])
  | nil =>
      by_cases ho : h.source = some o
      · exact .inr (calls_next_of_source hp ho)
      · exact .inl (calls_next ho)

omit [DecidableEq ι] [DecidableEq κ] in
/-- After a call of its source by another, a handle has ahead what it had, or what it had one on. -/
theorem ahead_later {st' : State ι κ α} (hp : st'.pending h = st.pending h)
    (hcalls : ∀ o, st'.calls o = st.calls o ∨ st'.calls o = st.calls o + 1) (n : Nat) :
    ∃ m, ahead given h st' n = ahead given h st m := by
  by_cases hn : n < (st.pending h).length
  · refine ⟨n, ?_⟩
    rw [ahead, ahead, hp, List.getElem?_eq_getElem hn]
  have hlen : (st.pending h).length ≤ n := Nat.le_of_not_lt hn
  cases ho : h.source with
  | none => exact ⟨n, by rw [ahead, ahead, hp, List.getElem?_eq_none hlen, ho]⟩
  | some o =>
      rcases hcalls o with hsame | hone
      · exact ⟨n, ahead_congr hp (fun o' ho' => by rw [ho] at ho'; cases ho'; exact hsame) n⟩
      · refine ⟨n + 1, ?_⟩
        rw [ahead, ahead, hp, List.getElem?_eq_none hlen, List.getElem?_eq_none (Nat.le_succ_of_le hlen), ho]
        simp only [hone]
        congr 1
        omega

/-- A handle goes on with what it has ahead. -/
theorem ahead_next (hpartner : h.partner ≠ none → h.partner ≠ h.queue) (n : Nat) :
    ahead given h (next given h st).2 n = ahead given h st (n + 1) := by
  cases hp : st.pending h with
  | cons x xs =>
      have hqueue : h.queue ≠ none := by
        intro hnone
        rw [pending, hnone] at hp
        cases hp
      have hp' : (st.enqueue h.queue xs).pending h = xs := queuedFor_enqueue hqueue
      rw [next_of_cons hp, ahead, ahead, hp, hp', List.getElem?_cons_succ, List.length_cons, calls_enqueue,
        Nat.add_sub_add_right]
  | nil =>
      cases ho : h.source with
      | none => rw [next_of_listed hp ho, ahead_listed hp ho, ahead_listed hp ho]
      | some o =>
          have hp' : (next given h st).2.pending h = [] := by
            rw [next_of_source hp ho]
            exact (queuedFor_pass_ne _ hpartner).trans hp
          rw [ahead_source hp' ho, ahead_source hp ho, calls_next_of_source hp ho, Nat.add_right_comm, Nat.add_assoc]

/-! ## Readers of several slots -/

/-- Every slot gives what its source would after so many calls, and where two slots hold one source, nothing is queued
for them or the source gives one thing for ever. -/
structure Level (given : ι → Nat → Given α ε) (owner : σ → Option ι) (hs : σ → Option (Handle ι κ)) (st : State ι κ α)
    (o : ι) (k : Nat) : Prop where
  ahead : ∀ i h, owner i = some o → hs i = some h → ∀ n, ahead given h st n = given o (k + n)
  shared : Shared owner o → (∀ n, given o (k + n) = given o k) ∨
    ∀ i h, owner i = some o → hs i = some h → st.pending h = [] ∧ h.source = some o

variable (hslots : Slots owner hs)

include hslots in
omit [DecidableEq ι] [DecidableEq κ] in
theorem Slots.source_ne (hi : hs i = some h) (howner : owner i ≠ some o) : h.source ≠ some o :=
  fun hsource => howner (hslots.source i h o hi hsource)

include hslots in
theorem Slots.pending_next (hi : hs i = some h) (hj : hs j = some h') (hij : i ≠ j) :
    (next given h st).2.pending h' = st.pending h' :=
  Tee.pending_next (hslots.apart i j h h' hij hi hj) (hslots.partner i j h h' hi hj)

include hslots in
/-- A reading of one source leaves another as it is. -/
theorem Level.other {k : Nat} (hi : hs i = some h) (howner : owner i ≠ some o) (hl : Level given owner hs st o k) :
    Level given owner hs (next given h st).2 o k := by
  have hne : ∀ j, owner j = some o → i ≠ j := by
    rintro j hj rfl
    exact howner hj
  have hpending : ∀ j h', owner j = some o → hs j = some h' → (next given h st).2.pending h' = st.pending h' :=
    fun j h' hj hh' => hslots.pending_next hi hh' (hne j hj)
  constructor
  · intro j h' hj hh' n
    rw [← hl.ahead j h' hj hh' n]
    refine ahead_congr (hpending j h' hj hh') (fun o' ho' => ?_) n
    refine calls_next (hslots.source_ne hi ?_)
    have hown := hslots.source j h' o' hh' ho'
    rw [hj] at hown
    cases hown
    exact howner
  · intro hshared
    refine (hl.shared hshared).imp id fun hnone j h' hj hh' => ?_
    rw [hpending j h' hj hh']
    exact hnone j h' hj hh'

include hslots in
/-- A reading of a source is one more call. -/
theorem Level.own {k : Nat} (hi : hs i = some h) (howner : owner i = some o) (hl : Level given owner hs st o k) :
    (next given h st).1 = given o k ∧ Level given owner hs (next given h st).2 o (k + 1) := by
  have hself : ∀ n, Tee.ahead given h (next given h st).2 n = given o (k + 1 + n) := by
    intro n
    rw [ahead_next (hslots.partner i i h h hi hi), hl.ahead i h howner hi, Nat.add_comm n 1, Nat.add_assoc]
  refine ⟨by rw [next_fst, hl.ahead i h howner hi, Nat.add_zero], ?_, ?_⟩
  · intro j h' hj hh' n
    by_cases hij : i = j
    · subst hij
      rw [hi] at hh'
      cases hh'
      exact hself n
    have hp : (next given h st).2.pending h' = st.pending h' := hslots.pending_next hi hh' hij
    rcases hl.shared ⟨i, j, hij, howner, hj⟩ with hconst | hnone
    · obtain ⟨m, hm⟩ : ∃ m, Tee.ahead given h' (next given h st).2 n = Tee.ahead given h' st m :=
        ahead_later hp (calls_next_or h st) n
      rw [hm, hl.ahead j h' hj hh', Nat.add_assoc, hconst, hconst]
    · obtain ⟨hpi, hsi⟩ := hnone i h howner hi
      obtain ⟨hpj, hsj⟩ := hnone j h' hj hh'
      have hcalls := hl.ahead j h' hj hh' (n + 1)
      rw [ahead_source hpj hsj] at hcalls
      rw [ahead_source (hp.trans hpj) hsj, calls_next_of_source hpi hsi, Nat.add_right_comm, Nat.add_assoc, hcalls,
        Nat.add_comm n 1, Nat.add_assoc]
  · intro hshared
    rcases hl.shared hshared with hconst | hnone
    · refine .inl fun n => ?_
      rw [Nat.add_assoc, hconst, hconst]
    · refine .inr fun j h' hj hh' => ?_
      obtain ⟨hpj, hsj⟩ := hnone j h' hj hh'
      refine ⟨?_, hsj⟩
      by_cases hij : i = j
      · subst hij
        rw [hi] at hh'
        cases hh'
        have hq := hslots.partner i i h h hi hi
        rw [next_of_source hpj hsj]
        exact (State.queuedFor_pass_ne _ hq).trans hpj
      · rw [hslots.pending_next hi hh' hij]
        exact hpj

omit [DecidableEq ι] in
@[simp] theorem State.pass_none (g : Given α ε) : st.pass none g = st := by
  cases g with
  | item x => rfl
  | stop => rfl
  | raised e => rfl

theorem pull_none (hi : hs i = none) : pull given hs i st = (none, st) := by
  rw [pull, hi]

theorem pull_some (hi : hs i = some h) : pull given hs i st = (some (next given h st).1, (next given h st).2) := by
  rw [pull, hi]

theorem pull_plain_none (hi : owner i = none) : pull given (plain owner) i st = (none, st) :=
  pull_none (by rw [plain, hi, Option.map_none])

theorem pull_plain_some (hi : owner i = some o) :
    pull given (plain owner) i st = (some (given o (st.calls o)), st.call o) := by
  have hsome : plain owner i = some (.original o : Handle ι κ) := by rw [plain, hi, Option.map_some]
  rw [pull_some hsome, next_of_source rfl rfl]
  simp only [Handle.original, State.pass_none]

include hslots in
/-- Slots at a level of every source give what the sources do. -/
theorem pulls_eq (hl : ∀ o, Level given owner hs st o (st₀.calls o)) (is : List σ) :
    pulls given hs is st = pulls given (plain owner) is st₀ := by
  induction is generalizing st st₀ with
  | nil => rfl
  | cons i is ih =>
      rw [pulls, pulls]
      cases howner : owner i with
      | none =>
          have hi : hs i = none := by
            have hheld := hslots.held i
            rw [howner] at hheld
            exact Option.isNone_iff_eq_none.mp (by simpa using hheld)
          rw [pull_none hi, pull_plain_none howner, ih hl]
      | some o =>
          obtain ⟨h, hi⟩ : ∃ h, hs i = some h := by
            have hheld := hslots.held i
            rw [howner] at hheld
            exact Option.isSome_iff_exists.mp hheld
          obtain ⟨hgiven, hnext⟩ := (hl o).own hslots hi howner
          rw [pull_some hi, pull_plain_some howner, hgiven, ih]
          intro o'
          by_cases heq : o = o'
          · subst heq
            simp only [State.call, Function.update_self]
            exact hnext
          · simp only [State.call, Function.update_of_ne (Ne.symm heq)]
            exact (hl o').other hslots hi (by rw [howner]; simpa using heq)

/-! ## What readers tell -/

theorem pulls_append (is js : List σ) (st : State ι κ α) :
    pulls given hs (is ++ js) st = pulls given hs is st ++ pulls given hs js (after given hs is st) := by
  induction is generalizing st with
  | nil => rfl
  | cons i is ih => rw [List.cons_append, pulls, pulls, ih, List.cons_append, after]

theorem length_pulls (is : List σ) (st : State ι κ α) : (pulls given hs is st).length = is.length := by
  induction is generalizing st with
  | nil => rfl
  | cons i is ih => rw [pulls, List.length_cons, ih, List.length_cons]

/-- Where all readers are given the same, so is the next after any. -/
theorem pull_eq_of_pulls {hs' : σ → Option (Handle ι κ)} (hall : ∀ is, pulls given hs is st = pulls given hs' is st₀)
    (is : List σ) (j : σ) : (pull given hs j (after given hs is st)).1 = (pull given hs' j (after given hs' is st₀)).1 := by
  have hboth := hall (is ++ [j])
  rw [pulls_append, pulls_append] at hboth
  have hlast := (List.append_inj hboth (by rw [length_pulls, length_pulls])).2
  rw [pulls, pulls] at hlast
  exact (List.cons.inj hlast).1

/-- The state once the slot was read so often. -/
theorem ahead_after (hi : hs i = some h) (hpartner : h.partner ≠ none → h.partner ≠ h.queue) (m n : Nat) (st : State ι κ α) :
    ahead given h (after given hs (List.replicate m i) st) n = ahead given h st (m + n) := by
  induction m generalizing st with
  | zero => rw [List.replicate_zero, after, Nat.zero_add]
  | succ m ih =>
      rw [List.replicate_succ, after, ih, pull_some hi, ahead_next hpartner]
      congr 1
      omega

include hslots in
theorem pending_after (hi : hs i = some h) (hj : hs j = some h') (hij : i ≠ j) (m : Nat) (st : State ι κ α) :
    (after given hs (List.replicate m i) st).pending h' = st.pending h' := by
  induction m generalizing st with
  | zero => rfl
  | succ m ih =>
      rw [List.replicate_succ, after, ih, pull_some hi]
      exact hslots.pending_next hi hj hij

theorem calls_after_plain (howner : owner i = some o) (m : Nat) (st : State ι κ α) :
    (after given (plain owner) (List.replicate m i) st).calls o = st.calls o + m := by
  induction m generalizing st with
  | zero => rfl
  | succ m ih =>
      rw [List.replicate_succ, after, ih, pull_plain_some howner, State.call]
      simp only [Function.update_self]
      omega

include hslots in
/-- Readers of slots are given what the sources give if and only if the slots are at their level. -/
theorem pulls_eq_iff : (∀ is, pulls given hs is st = pulls given (plain owner) is st₀) ↔
    ∀ o, Level given owner hs st o (st₀.calls o) := by
  refine ⟨fun hall o => ?_, fun hl => pulls_eq hslots hl⟩
  have hread : ∀ i j h', owner i = some o → owner j = some o → hs j = some h' → ∀ m,
      ahead given h' (after given hs (List.replicate m i) st) 0 = given o (st₀.calls o + m) := by
    intro i j h' hi hj hh' m
    have hpull := pull_eq_of_pulls hall (List.replicate m i) j
    rw [pull_some hh', pull_plain_some hj, calls_after_plain hi, next_fst] at hpull
    exact Option.some.inj hpull
  constructor
  · intro i h howner hi n
    rw [← hread i i h howner howner hi n, ahead_after hi (hslots.partner i i h h hi hi), Nat.add_zero]
  · rintro ⟨i, j, hij, hi, hj⟩
    by_cases hnone : ∀ i h, owner i = some o → hs i = some h → st.pending h = [] ∧ h.source = some o
    · exact .inr hnone
    simp only [not_forall] at hnone
    obtain ⟨l, h, hl, hh, hfail⟩ := hnone
    obtain ⟨i', hi'l, hi'⟩ : ∃ i', i' ≠ l ∧ owner i' = some o := by
      by_cases hil : i = l
      · exact ⟨j, fun heq => hij (hil.trans heq.symm), hj⟩
      · exact ⟨i, hil, hi⟩
    obtain ⟨h', hh'⟩ : ∃ h', hs i' = some h' := by
      have hheld := hslots.held i'
      rw [hi'] at hheld
      exact Option.isSome_iff_exists.mp hheld
    have hpending : ∀ m st, (after given hs (List.replicate m i') st).pending h = st.pending h :=
      pending_after hslots hh' hh hi'l
    have hsame : ∀ m, ahead given h (after given hs (List.replicate m i') st) 0 = ahead given h st 0 := by
      intro m
      cases hp : st.pending h with
      | cons x xs => rw [ahead_cons ((hpending m st).trans hp), ahead_cons hp]
      | nil =>
          cases hsource : h.source with
          | none => rw [ahead_listed ((hpending m st).trans hp) hsource, ahead_listed hp hsource]
          | some o' =>
              have hown := hslots.source l h o' hh hsource
              rw [hl] at hown
              cases hown
              exact absurd ⟨hp, hsource⟩ hfail
    refine .inl fun n => ?_
    rw [← hread i' l h hi' hl hh n, hsame, ← hsame 0, hread i' l h hi' hl hh 0, Nat.add_zero]

/-! ## The items of the first calls -/

/-- The items among what the first calls give. -/
def items (given : Nat → Given α ε) : Nat → List α
  | 0 => []
  | n + 1 =>
    match given n with
    | .item x => items given n ++ [x]
    | _ => items given n

variable {calls : Nat → Given α ε} {m n : Nat}

theorem items_succ {x : α} (h : calls n = .item x) : items calls (n + 1) = items calls n ++ [x] := by
  rw [items, h]

theorem items_succ_of_ne (h : ∀ x, calls n ≠ .item x) : items calls (n + 1) = items calls n := by
  rw [items]
  split
  · rename_i x hx
    exact absurd hx (h x)
  · rfl

theorem length_items_mono (h : m ≤ n) : (items calls m).length ≤ (items calls n).length := by
  induction h with
  | refl => exact Nat.le_refl _
  | step _ ih =>
      rw [items]
      split
      · rw [List.length_append]
        exact Nat.le_add_right_of_le ih
      · exact ih

theorem length_items_le (n : Nat) : (items calls n).length ≤ n := by
  induction n with
  | zero => exact Nat.le_refl _
  | succ n ih =>
      rw [items]
      split
      · rw [List.length_append]
        exact Nat.succ_le_succ ih
      · exact Nat.le_succ_of_le ih

/-- Calls that give items only give as many. -/
theorem items_of_items (h : ∀ k < m, ∃ x, calls k = .item x) :
    (items calls m).length = m ∧ ∀ k x, (items calls m)[k]? = some x → calls k = .item x := by
  induction m with
  | zero => exact ⟨rfl, fun k x hx => by simp [items] at hx⟩
  | succ m ih =>
      obtain ⟨hlength, hitems⟩ := ih fun k hk => h k (Nat.lt_succ_of_lt hk)
      obtain ⟨y, hy⟩ := h m (Nat.lt_succ_self m)
      rw [items_succ hy, List.length_append, hlength]
      refine ⟨rfl, fun k x hx => ?_⟩
      rcases Nat.lt_or_ge k m with hk | hk
      · rw [List.getElem?_append_left (by rwa [hlength])] at hx
        exact hitems k x hx
      · rw [List.getElem?_append_right (by rwa [hlength]), hlength] at hx
        obtain ⟨hkm, hxy⟩ := List.getElem?_eq_some_iff.mp hx
        simp only [List.length_singleton] at hkm
        obtain rfl : k = m := by omega
        simp only [Nat.sub_self, List.getElem_cons_zero] at hxy
        rw [hy, hxy]

/-- Calls that give no item add none. -/
theorem items_eq_iff (h : m ≤ n) : items calls n = items calls m ↔ ∀ k, m ≤ k → k < n → ∀ x, calls k ≠ .item x := by
  constructor
  · intro hsame k hmk hkn x hx
    have hlow : (items calls m).length ≤ (items calls k).length := length_items_mono hmk
    have hhigh : (items calls (k + 1)).length ≤ (items calls n).length := length_items_mono hkn
    rw [items_succ hx, List.length_append, hsame, List.length_singleton] at hhigh
    omega
  · intro hnone
    induction h with
    | refl => rfl
    | @step n hmn ih =>
        rw [items_succ_of_ne (hnone n hmn (Nat.lt_succ_self n))]
        exact ih fun k hmk hkn => hnone k hmk (Nat.lt_succ_of_lt hkn)

/-- What was queued and then the rest is all, if and only if items came first and what came after left it as it was. -/
theorem items_ahead_iff : (∀ k, (match (items calls n)[k]? with
      | some x => .item x
      | none => calls (n + (k - (items calls n).length))) = calls k) ↔
    ∃ m ≤ n, (∀ k < m, ∃ x, calls k = .item x) ∧ (∀ k, m ≤ k → k < n → ∀ x, calls k ≠ .item x) ∧
      ∀ k, calls (n + k) = calls (m + k) := by
  constructor
  · intro hall
    have hle : (items calls n).length ≤ n := length_items_le n
    have hfirst : ∀ k < (items calls n).length, ∃ x, calls k = .item x := by
      intro k hk
      have hcall := hall k
      rw [List.getElem?_eq_getElem hk] at hcall
      exact ⟨_, hcall.symm⟩
    refine ⟨(items calls n).length, hle, hfirst, ?_, ?_⟩
    · intro k hmk hkn x hx
      have hlow : (items calls (items calls n).length).length ≤ (items calls k).length := length_items_mono hmk
      have hhigh : (items calls (k + 1)).length ≤ (items calls n).length := length_items_mono hkn
      rw [items_succ hx, List.length_append, List.length_singleton] at hhigh
      rw [(items_of_items hfirst).1] at hlow
      omega
    · intro k
      have hcall := hall ((items calls n).length + k)
      rw [List.getElem?_eq_none (Nat.le_add_right _ _)] at hcall
      simp only [Nat.add_sub_cancel_left] at hcall
      exact hcall
  · rintro ⟨m, hmn, hfirst, hnone, hrest⟩ k
    obtain ⟨hlength, hitems⟩ := items_of_items hfirst
    rw [(items_eq_iff hmn).mpr hnone, hlength]
    cases hk : (items calls m)[k]? with
    | some x => exact (hitems k x hk).symm
    | none =>
        obtain ⟨l, rfl⟩ := Nat.exists_eq_add_of_le (hlength ▸ List.getElem?_eq_none_iff.mp hk)
        simp only [Nat.add_sub_cancel_left]
        exact hrest l

end Tee
