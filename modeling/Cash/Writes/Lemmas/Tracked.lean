import Cash.Writes.Queue

/-!
# Writes, submits and the pending table
-/

namespace Cash.Writes

open Py

variable {s s' : State} {l : Label}

/-! ## Writes run in the order of their submits -/

/-- The writes that have not run yet, in the order in which they will. -/
def State.todo (s : State) : List Item :=
  match s.worker with
  | .running i => i :: s.queue
  | _ => s.queue

theorem todo_of_not_running (h : ∀ i, s.worker ≠ .running i) : s.todo = s.queue := by
  unfold State.todo
  split
  · exact absurd ‹_› (h _)
  · rfl

theorem todo_append (h : s'.worker = s.worker) {i : Item} (hq : s'.queue = s.queue ++ [i]) :
    s'.todo = s.todo ++ [i] := by
  unfold State.todo
  rw [h, hq]
  split <;> rfl

/-- The write whose submit is under way. -/
def Caller.submits : Caller → Option Item
  | .growing r f | .registering r f | .watching r f | .sizing r f => some ⟨r.key, f⟩
  | _ => none

theorem firstCaller_submits (r : Request) : (firstCaller s r).submits = none := by
  unfold firstCaller
  split <;> rfl

/-- The calling thread is about to return from `wait(key)`, or about to remove the entry. -/
def State.leaves (s : State) (key : Str) : Prop :=
  s.caller = .idle ∧ s.pending.lookup key = none ∨ (∃ f, s.caller = .waiting key f ∧ s.isDone f = true) ∨
    s.caller = .removing key

/-- What a step does to the writes that are to run, to the submit under way and to the log. -/
inductive Effect (s s' : State) : Prop
  | none : s'.todo = s.todo → s'.next = s.next → s'.log = s.log → s'.caller.submits = s.caller.submits → Effect s s'
  | put (key : Str) : s'.todo = s.todo ++ [⟨key, s.next⟩] → s'.next = s.next + 1 → s'.log = s.log →
      s.caller.submits = .none → s'.caller.submits = some ⟨key, s.next⟩ → Effect s s'
  | run (i : Item) (o : Outcome) : s.worker = .running i → s.todo = i :: s'.todo → s'.next = s.next →
      s'.log = .ran i o :: s.log → s'.caller.submits = s.caller.submits → Effect s s'
  | returned (i : Item) : s'.todo = s.todo → s'.next = s.next → s'.log = .returned i :: s.log →
      s.caller.submits = some i → s'.caller.submits = .none → Effect s s'
  | raised (r : Request) (f : Fut) : s.caller = .growing r f → s.worker = .absent → s'.todo = s.todo →
      s'.next = s.next → s'.log = .raised ⟨r.key, f⟩ :: s.log → s'.caller.submits = .none → Effect s s'
  | left (key : Str) (e : Event) : e = .waited key ∨ e = .removed key s.next → s.leaves key → s'.todo = s.todo →
      s'.next = s.next → s'.log = e :: s.log → s.caller.submits = .none → s'.caller.submits = .none → Effect s s'

theorem Step.effect (hs : Step s l s') : Effect s s' := by
  cases hs with
  | submit r hc => exact .none rfl rfl rfl ((firstCaller_submits r).trans (by simp [hc, Caller.submits]))
  | @put r prev hc hprev =>
    exact .put r.key (by apply todo_append <;> rfl) rfl rfl (by simp [hc, Caller.submits]) rfl
  | @startFails r f hc hw => exact .raised r f hc hw rfl rfl rfl rfl
  | size hc => exact .returned _ rfl rfl rfl (by simp [hc, Caller.submits]) rfl
  | waitNone key hc hpending =>
    have hidle : s.caller.submits = none := by simp [hc, Caller.submits]
    exact .left key _ (.inl rfl) (.inl ⟨hc, hpending⟩) rfl rfl rfl hidle hidle
  | @waited key f o hc hdone =>
    have hleaves : s.leaves key := .inr (.inl ⟨f, hc, by simp [State.isDone, hdone]⟩)
    exact .left key _ (.inl rfl) hleaves rfl rfl rfl (by simp [hc, Caller.submits]) rfl
  | @remove key hc => exact .left key _ (.inr rfl) (.inr (.inr hc)) rfl rfl rfl (by simp [hc, Caller.submits]) rfl
  | start hc hw => exact .none (by simp [State.todo, hw]) rfl rfl (by simp [hc, Caller.submits])
  | timeout hw | exit hw | stay hw | forget hw => exact .none (by simp [State.todo, hw]) rfl rfl rfl
  | take hw hq => exact .none (by simp [State.todo, hw, hq]) rfl rfl rfl
  | @setResult i o hw =>
    have hidle : ∀ j, (if i.fut ∈ s.watched then Worker.notifying i o else .idle) ≠ .running j := by
      intro j
      split <;> simp
    have hran : ∀ j, s.worker ≠ .running j := by simp [hw]
    exact .none ((todo_of_not_running hidle).trans (todo_of_not_running hran).symm) rfl rfl rfl
  | @run i o hw => exact .run i o hw (by simp [State.todo, hw]) rfl rfl rfl
  | drained hc => exact .none rfl rfl rfl (by split <;> simp [hc, Caller.submits])
  | drainNone key hc => exact .none rfl rfl rfl (by simp [hc, Caller.submits])
  | room hc | noRoom hc | oldestSettled hc | grown hc | register hc | watch hc | watchDone hc | wait hc | drain hc =>
    exact .none rfl rfl rfl (by simp [hc, Caller.submits])

structure Order (s : State) : Prop where
  below : ∀ i ∈ s.todo, i.fut < s.next
  sorted : s.todo.Pairwise fun i j => i.fut < j.fut
  ran : ∀ i o, .ran i o ∈ s.log → i.fut < s.next ∧ ∀ j ∈ s.todo, i.fut < j.fut
  inOrder : InOrder s.log

theorem Order.event {e : Event} (h : Order s) (he : ∀ i o, e ≠ .ran i o) (htodo : s'.todo = s.todo)
    (hnext : s'.next = s.next) (hlog : s'.log = e :: s.log) : Order s' := by
  refine ⟨?_, ?_, ?_, ?_⟩ <;> simp only [htodo, hnext, hlog]
  · exact h.below
  · exact h.sorted
  · intro i o hi
    rcases List.mem_cons.mp hi with hi | hi
    · exact absurd hi.symm (he i o)
    · exact h.ran i o hi
  · exact List.pairwise_cons.mpr ⟨fun _ _ i _ o _ hi => absurd hi (he i o), h.inOrder⟩

theorem Order.step (h : Order s) (hs : Step s l s') : Order s' := by
  cases hs.effect with
  | none htodo hnext hlog =>
    refine ⟨?_, ?_, ?_, ?_⟩ <;> simp only [htodo, hnext, hlog]
    exacts [h.below, h.sorted, h.ran, h.inOrder]
  | put key htodo hnext hlog =>
    refine ⟨?_, ?_, ?_, ?_⟩ <;> simp only [htodo, hnext, hlog]
    · intro i hi
      rcases List.mem_append.mp hi with hi | hi
      · exact Nat.lt_succ_of_lt (h.below i hi)
      · simp_all
    · refine List.pairwise_append.mpr ⟨h.sorted, by simp, fun i hi j hj => ?_⟩
      rw [List.mem_singleton.mp hj]
      exact h.below i hi
    · intro i o hi
      refine ⟨Nat.lt_succ_of_lt (h.ran i o hi).1, fun j hj => ?_⟩
      rcases List.mem_append.mp hj with hj | hj
      · exact (h.ran i o hi).2 j hj
      · rw [List.mem_singleton.mp hj]
        exact (h.ran i o hi).1
    · exact h.inOrder
  | run i o hw htodo hnext hlog =>
    have hsorted := h.sorted
    rw [htodo, List.pairwise_cons] at hsorted
    refine ⟨?_, hsorted.2, ?_, ?_⟩ <;> simp only [hnext, hlog]
    · exact fun j hj => h.below j (by rw [htodo]; exact List.mem_cons_of_mem _ hj)
    · intro j p hj
      rcases List.mem_cons.mp hj with hj | hj
      · cases hj
        exact ⟨h.below i (by simp [htodo]), hsorted.1⟩
      · exact ⟨(h.ran j p hj).1, fun k hk => (h.ran j p hj).2 k (by rw [htodo]; exact List.mem_cons_of_mem _ hk)⟩
    · refine List.pairwise_cons.mpr ⟨fun e he j k p q hj hk _ => ?_, h.inOrder⟩
      cases hj
      exact (h.ran k q (hk ▸ he)).2 i (by simp [htodo])
  | returned i htodo hnext hlog => exact h.event (by simp) htodo hnext hlog
  | raised r f hc hw htodo hnext hlog => exact h.event (by simp) htodo hnext hlog
  | left key e he hleaves htodo hnext hlog => exact h.event (by rcases he with rfl | rfl <;> simp) htodo hnext hlog

theorem Order.start : Order .start := by
  constructor <;> simp [State.start, State.todo, InOrder]

/-! ## Submits that returned and submits that raised -/

/-- How the writes stand to the submits: one under way is the latest, and each write yet to run belongs to one. -/
structure Settled (s : State) : Prop where
  latest : ∀ i, s.caller.submits = some i → i.fut + 1 = s.next
  ended : ∀ i, .returned i ∈ s.log ∨ .raised i ∈ s.log → i.fut < s.next
  under : ∀ i, .returned i ∈ s.log ∨ .raised i ∈ s.log → s.caller.submits ≠ some i
  apart : ∀ i, .returned i ∈ s.log → .raised i ∉ s.log
  kept : ∀ i, .returned i ∈ s.log ∨ s.caller.submits = some i → i ∈ s.todo ∨ ∃ o, .ran i o ∈ s.log
  known : ∀ i ∈ s.todo, .raised i ∈ s.log ∨ .returned i ∈ s.log ∨ s.caller.submits = some i

theorem Settled.step (h : Settled s) (hs : Step s l s') : Settled s' := by
  obtain ⟨hlatest, hended, hunder, hapart, hkept, hknown⟩ := h
  cases hs.effect with
  | none htodo hnext hlog hsubmits => constructor <;> grind
  | put key htodo hnext hlog hbefore hsubmits => constructor <;> grind
  | run i o hw htodo hnext hlog hsubmits => constructor <;> grind
  | returned i htodo hnext hlog hbefore hsubmits => constructor <;> grind
  | raised r f hc hw htodo hnext hlog hsubmits => constructor <;> grind [Caller.submits]
  | left key e he hleaves htodo hnext hlog hbefore hsubmits => constructor <;> grind

theorem Settled.start : Settled .start := by
  constructor <;> simp [State.start, State.todo, Caller.submits]

/-! ## The pending table knows the unfinished writes -/

/-- The writes without a result. -/
def State.unfinished (s : State) : List Item :=
  match s.worker with
  | .running i | .ran i _ => i :: s.queue
  | _ => s.queue

/-- A submit has put the write in the queue, but not yet in `_pending`. -/
def Caller.enters : Caller → Option Item
  | .growing r f | .registering r f => some ⟨r.key, f⟩
  | _ => none

structure Tracked (s : State) : Prop where
  present : s.worker ≠ .absent → ∀ i ∈ s.unfinished, .raised i ∉ s.log
  queued : ∀ r f, s.caller = .growing r f → s.worker = .absent → ⟨r.key, f⟩ ∈ s.queue
  ran : ∀ i o, s.worker = .ran i o → .ran i o ∈ s.log
  done : ∀ f o, s.done.lookup f = some o → f < s.next
  notDone : ∀ i ∈ s.unfinished, s.done.lookup i.fut = none
  notifying : ∀ i o, s.worker = .notifying i o → s.done.lookup i.fut = some o
  pend : ∀ i ∈ s.unfinished, .raised i ∉ s.log →
    s.caller.enters = some i ∨ s.caller = .draining i.key i.fut ∨ s.pending.lookup i.key = some i.fut
  submitting : ∀ r prev g, s.caller = .submitting r prev → s.pending.lookup r.key = some g → prev = some g
  waiting : ∀ key f g, s.caller = .waiting key f → s.pending.lookup key = some g → g = f
  popped : ∀ key f, s.caller = .draining key f ∨ s.caller = .removing key → s.pending.lookup key = none
  only : ∀ i j, s.caller.enters = some i → j ∈ s.unfinished → .raised j ∉ s.log → j.key = i.key → j = i

theorem mem_unfinished_of_todo {i : Item} (h : i ∈ s.todo) : i ∈ s.unfinished := by
  unfold State.todo at h
  unfold State.unfinished
  split at h <;> simp_all
  split <;> simp_all

theorem mem_unfinished_put {i j : Item} (hj : j ∈ s'.unfinished) (hw : s'.worker = s.worker)
    (hq : s'.queue = s.queue ++ [i]) : j ∈ s.unfinished ∨ j = i := by
  unfold State.unfinished at *
  rw [hw, hq] at hj
  split at hj <;> simp_all [or_assoc]

theorem lookup_forgetIfSucceeded (i : Item) (o : Outcome) (key : Str) : (s.forgetIfSucceeded i o).lookup key =
    if (o = .ok ∧ s.pending.lookup i.key = some i.fut) ∧ key = i.key then none else s.pending.lookup key := by
  unfold State.forgetIfSucceeded
  split <;> simp_all [Dict.lookup_erase']

theorem lookup_dropFailed (k key : Str) (f : Fut) (o : Outcome) : (s.dropFailed k f o).lookup key =
    if (o ≠ .ok ∧ s.pending.lookup k = some f) ∧ key = k then none else s.pending.lookup key := by
  unfold State.dropFailed
  split <;> simp_all [Dict.lookup_erase']

theorem Tracked.present_step (h : Tracked s) (hs : carefulStep s l s') (ht : Settled s) :
    s'.worker ≠ .absent → ∀ i ∈ s'.unfinished, .raised i ∉ s'.log := by
  have hpresent := h.present
  obtain ⟨hs, hcareful⟩ := hs
  have hended := ht.ended
  cases hs <;> grind [State.unfinished]

theorem Tracked.queued_step (h : Tracked s) (hs : Step s l s') :
    ∀ r f, s'.caller = .growing r f → s'.worker = .absent → ⟨r.key, f⟩ ∈ s'.queue := by
  have hqueued := h.queued
  cases hs <;> grind [Caller.holdsPool, firstCaller]

theorem Tracked.ran_step (h : Tracked s) (hs : Step s l s') : ∀ i o, s'.worker = .ran i o → .ran i o ∈ s'.log := by
  have hran := h.ran
  cases hs <;> grind

theorem Tracked.done_step (h : Tracked s) (ho : Order s) (hs : Step s l s') :
    ∀ f o, s'.done.lookup f = some o → f < s'.next := by
  have hdone := h.done
  have hran := h.ran
  have hbelow := ho.ran
  cases hs <;> grind [Dict.lookup_insert']

theorem Tracked.notDone_step (h : Tracked s) (ho : Order s) (hs : Step s l s') :
    ∀ i ∈ s'.unfinished, s'.done.lookup i.fut = none := by
  have hdone := h.done
  have hnot := h.notDone
  have hran := h.ran
  have hbelow := ho.ran
  have hsorted := ho.sorted
  cases hs with
  | @put r =>
    intro i hi
    rcases mem_unfinished_put (s := s) hi rfl rfl with hi | rfl
    · exact hnot i hi
    · exact Option.eq_none_iff_forall_ne_some.mpr fun o ho => Nat.lt_irrefl _ (hdone _ o ho)
  | _ => grind [Dict.lookup_insert', State.unfinished, State.todo]

theorem Tracked.notifying_step (h : Tracked s) (hs : Step s l s') :
    ∀ i o, s'.worker = .notifying i o → s'.done.lookup i.fut = some o := by
  have := h.notifying
  cases hs <;> grind [Dict.lookup_insert']

theorem Tracked.submitting_step (h : Tracked s) (hs : Step s l s') :
    ∀ r prev g, s'.caller = .submitting r prev → s'.pending.lookup r.key = some g → prev = some g := by
  have := h.submitting
  cases hs <;> grind [firstCaller, lookup_forgetIfSucceeded, lookup_dropFailed]

theorem Tracked.waiting_step (h : Tracked s) (hs : Step s l s') :
    ∀ key f g, s'.caller = .waiting key f → s'.pending.lookup key = some g → g = f := by
  have := h.waiting
  cases hs <;> grind [firstCaller, lookup_forgetIfSucceeded, lookup_dropFailed]

theorem Tracked.popped_step (h : Tracked s) (hs : Step s l s') :
    ∀ key f, s'.caller = .draining key f ∨ s'.caller = .removing key → s'.pending.lookup key = none := by
  have := h.popped
  cases hs <;> grind [firstCaller, Dict.lookup_erase', lookup_forgetIfSucceeded, lookup_dropFailed]

theorem Tracked.pend_step (h : Tracked s) (hs : Step s l s') :
    ∀ i ∈ s'.unfinished, .raised i ∉ s'.log →
    s'.caller.enters = some i ∨ s'.caller = .draining i.key i.fut ∨ s'.pending.lookup i.key = some i.fut := by
  have hpend := h.pend
  have honly := h.only
  have hnot := h.notDone
  have hnotifying := h.notifying
  cases hs <;> grind [firstCaller, lookup_forgetIfSucceeded, lookup_dropFailed, Dict.lookup_erase', Dict.lookup_insert', State.unfinished,
    Caller.enters]

theorem Tracked.only_step (h : Tracked s) (hs : Step s l s') :
    ∀ i j, s'.caller.enters = some i → j ∈ s'.unfinished → .raised j ∉ s'.log → j.key = i.key → j = i := by
  have honly := h.only
  have hpend := h.pend
  have hnot := h.notDone
  have hsubmitting := h.submitting
  cases hs <;> grind [firstCaller, State.unfinished, Caller.enters, State.isDone]

theorem Tracked.step (h : Tracked s) (ho : Order s) (ht : Settled s) (hs : carefulStep s l s') : Tracked s' where
  present := h.present_step hs ht
  queued := h.queued_step hs.1
  ran := h.ran_step hs.1
  done := h.done_step ho hs.1
  notDone := h.notDone_step ho hs.1
  notifying := h.notifying_step hs.1
  pend := h.pend_step hs.1
  submitting := h.submitting_step hs.1
  waiting := h.waiting_step hs.1
  popped := h.popped_step hs.1
  only := h.only_step hs.1

theorem Tracked.start : Tracked .start := by
  constructor <;> simp [State.start, State.unfinished, Caller.enters]

end Cash.Writes
