import Cash.Lib.Dict
import Cash.Lib.Py

/-!
# Background writes

The write queue of a backend (`PendingWrites`) on its pool of one worker (`_DaemonWriterPool`), and the one
thread that calls it. A step is what one of the two threads does between two moments at which the other can
act. A write is known by the number of its future, given in the order of the submits.
-/

namespace Cash.Writes

open Py

abbrev Fut := Nat

structure Item where
  key : Str
  fut : Nat
deriving DecidableEq, Repr

/-- How a write ends: it takes effect, or raises an `Exception`, or another `BaseException`. -/
inductive Outcome
  | ok | error | interrupt
deriving DecidableEq, Repr

/-- The thread of the pool, `absent` when `_threads` is empty. -/
inductive Worker
  | absent
  | idle
  | timedOut
  | running (i : Item)
  | ran (i : Item) (o : Outcome)
  | notifying (i : Item) (o : Outcome)
deriving DecidableEq, Repr

/-- What is submitted: a key, and for `submit_sized` the bytes of the write and whether it holds a copy. -/
structure Request where
  key : Str
  size : Option (Nat × Bool)
deriving DecidableEq, Repr

/-- Where the calling thread stands. -/
inductive Caller
  | idle
  | makingRoom (r : Request)
  | settlingOldest (r : Request) (f : Fut)
  | submitting (r : Request) (prev : Option Fut)
  | growing (r : Request) (f : Fut)
  | registering (r : Request) (f : Fut)
  | watching (r : Request) (f : Fut)
  | sizing (r : Request) (f : Fut)
  | waiting (key : Str) (f : Fut)
  | draining (key : Str) (f : Fut)
  | removing (key : Str)
deriving DecidableEq, Repr

/-- What has happened: a write has run, a submit has returned or raised, a `wait` has returned, an entry was
removed, when `before` submits had been made. -/
inductive Event
  | ran (i : Item) (o : Outcome)
  | returned (i : Item)
  | raised (i : Item)
  | waited (key : Str)
  | removed (key : Str) (before : Nat)
deriving DecidableEq, Repr

structure State where
  /-- The number of the next future. -/
  next : Nat
  queue : List Item
  worker : Worker
  pending : Dict Str Fut
  done : Dict Fut Outcome
  /-- The futures with `_forget_if_succeeded` among their callbacks. -/
  watched : List Fut
  sizes : List (Fut × Nat × Bool)
  caller : Caller
  /-- The latest event first. -/
  log : List Event

def State.start : State := ⟨0, [], .absent, ∅, ∅, [], [], .idle, []⟩

namespace State

def isDone (s : State) (f : Fut) : Bool := (s.done.lookup f).isSome

/-- `_forget_if_succeeded`. -/
def forgetIfSucceeded (s : State) (i : Item) (o : Outcome) : Dict Str Fut :=
  if o = .ok ∧ s.pending.lookup i.key = some i.fut then s.pending.erase i.key else s.pending

/-- `wait`, when the future of the key has raised. -/
def dropFailed (s : State) (key : Str) (f : Fut) (o : Outcome) : Dict Str Fut :=
  if o ≠ .ok ∧ s.pending.lookup key = some f then s.pending.erase key else s.pending

/-- The unfinished writes that hold copies, the oldest first (`_make_room`). -/
def live (s : State) : List (Fut × Nat) :=
  (s.sizes.filter fun e => !s.isDone e.1 && e.2.2).map fun e => (e.1, e.2.1)

end State

def maxQueuedBytes : Nat := 512 * 1024 * 1024

/-- A submit begins: `submit_sized` with a copy makes room first. -/
def firstCaller (s : State) (r : Request) : Caller :=
  match r.size with
  | some (_, true) => .makingRoom r
  | _ => .submitting r (s.pending.lookup r.key)

/-- The calling thread holds the lock of the queue. -/
def Caller.holdsLock : Caller → Bool
  | .growing _ _ | .registering _ _ => true
  | _ => false

/-- The calling thread holds the lock of the pool. -/
def Caller.holdsPool : Caller → Bool
  | .growing _ _ => true
  | _ => false

inductive Label
  | caller | worker | start | startFails
deriving DecidableEq, Repr

inductive Step (s : State) : Label → State → Prop
  -- `submit` and `submit_sized`
  | submit (r : Request) : s.caller = .idle → Step s .caller { s with caller := firstCaller s r }
  | room {r : Request} {nbytes : Nat} : s.caller = .makingRoom r → r.size = some (nbytes, true) →
      (s.live = [] ∨ (s.live.map (·.2)).sum + nbytes ≤ maxQueuedBytes) →
      Step s .caller { s with caller := .submitting r (s.pending.lookup r.key) }
  | noRoom {r : Request} {nbytes f n : Nat} {rest : List (Fut × Nat)} : s.caller = .makingRoom r →
      r.size = some (nbytes, true) → s.live = (f, n) :: rest →
      maxQueuedBytes < (s.live.map (·.2)).sum + nbytes → Step s .caller { s with caller := .settlingOldest r f }
  | oldestSettled {r : Request} {f : Fut} : s.caller = .settlingOldest r f → s.isDone f = true →
      Step s .caller { s with caller := .makingRoom r, sizes := s.sizes.filter (·.1 ≠ f) }
  | put {r : Request} {prev : Option Fut} : s.caller = .submitting r prev → (∀ f, prev = some f → s.isDone f = true) →
      Step s .caller { s with
        caller := .growing r s.next, queue := s.queue ++ [⟨r.key, s.next⟩], next := s.next + 1 }
  | grown {r : Request} {f : Fut} : s.caller = .growing r f → s.worker ≠ .absent →
      Step s .caller { s with caller := .registering r f }
  | start {r : Request} {f : Fut} : s.caller = .growing r f → s.worker = .absent →
      Step s .start { s with caller := .registering r f, worker := .idle }
  | startFails {r : Request} {f : Fut} : s.caller = .growing r f → s.worker = .absent →
      Step s .startFails { s with caller := .idle, log := .raised ⟨r.key, f⟩ :: s.log }
  | register {r : Request} {f : Fut} : s.caller = .registering r f →
      Step s .caller { s with caller := .watching r f, pending := s.pending.insert r.key f }
  | watch {r : Request} {f : Fut} : s.caller = .watching r f → s.done.lookup f = none →
      Step s .caller { s with caller := .sizing r f, watched := f :: s.watched }
  | watchDone {r : Request} {f : Fut} {o : Outcome} : s.caller = .watching r f → s.done.lookup f = some o →
      Step s .caller { s with caller := .sizing r f, pending := s.forgetIfSucceeded ⟨r.key, f⟩ o }
  | size {r : Request} {f : Fut} : s.caller = .sizing r f →
      Step s .caller { s with
        caller := .idle
        sizes := match r.size with
          | some size => if s.isDone f then s.sizes else s.sizes ++ [(f, size)]
          | none => s.sizes
        log := .returned ⟨r.key, f⟩ :: s.log }
  -- `wait`
  | waitNone (key : Str) : s.caller = .idle → s.pending.lookup key = none →
      Step s .caller { s with log := .waited key :: s.log }
  | wait {key : Str} {f : Fut} : s.caller = .idle → s.pending.lookup key = some f →
      Step s .caller { s with caller := .waiting key f }
  | waited {key : Str} {f : Fut} {o : Outcome} : s.caller = .waiting key f → s.done.lookup f = some o →
      Step s .caller { s with
        caller := .idle, pending := s.dropFailed key f o, log := .waited key :: s.log }
  -- `drain`, and the removal after it
  | drainNone (key : Str) : s.caller = .idle → s.pending.lookup key = none →
      Step s .caller { s with caller := .removing key }
  | drain {key : Str} {f : Fut} : s.caller = .idle → s.pending.lookup key = some f →
      Step s .caller { s with caller := .draining key f, pending := s.pending.erase key }
  | drained {key : Str} {f : Fut} {o : Outcome} : s.caller = .draining key f → s.done.lookup f = some o →
      Step s .caller { s with caller := if o = .interrupt then .idle else .removing key }
  | remove {key : Str} : s.caller = .removing key →
      Step s .caller { s with caller := .idle, log := .removed key s.next :: s.log }
  -- `_work`
  | take {i : Item} {queue : List Item} : s.worker = .idle → s.queue = i :: queue →
      Step s .worker { s with worker := .running i, queue := queue }
  | timeout : s.worker = .idle → s.queue = [] → Step s .worker { s with worker := .timedOut }
  | exit : s.worker = .timedOut → s.caller.holdsPool = false → s.queue = [] → Step s .worker { s with worker := .absent }
  | stay : s.worker = .timedOut → s.caller.holdsPool = false → s.queue ≠ [] → Step s .worker { s with worker := .idle }
  | run {i : Item} (o : Outcome) : s.worker = .running i →
      Step s .worker { s with worker := .ran i o, log := .ran i o :: s.log }
  | setResult {i : Item} {o : Outcome} : s.worker = .ran i o →
      Step s .worker { s with
        worker := if i.fut ∈ s.watched then .notifying i o else .idle, done := s.done.insert i.fut o }
  | forget {i : Item} {o : Outcome} : s.worker = .notifying i o → s.caller.holdsLock = false →
      Step s .worker { s with
        worker := .idle, pending := s.forgetIfSucceeded i o, sizes := s.sizes.filter (·.1 ≠ i.fut) }

/-- What the calls and the worker, in any order, reach from an empty queue. -/
def Reaches (step : State → Label → State → Prop) : State → Prop :=
  Relation.ReflTransGen (fun s s' => ∃ l, step s l s') .start

/-- No worker is started while the item of a submit that raised is in the queue. -/
def carefulStep (s : State) (l : Label) (s' : State) : Prop :=
  Step s l s' ∧ (l = .start → ∀ i ∈ s.queue, Event.raised i ∉ s.log)

/-! ## What the events say -/

/-- The writes of a key take effect in the order of their submits, each once. -/
def InOrder (log : List Event) : Prop :=
  log.Pairwise fun later earlier => ∀ i j o p, later = .ran i o → earlier = .ran j p → i.key = j.key → j.fut < i.fut

/-- After a removal no write of the key runs that was submitted before it. -/
def DeleteFinal (log : List Event) : Prop :=
  log.Pairwise fun later earlier => ∀ i o n, later = .ran i o → earlier = .removed i.key n → n ≤ i.fut

/-- A submit that raised leaves no write that runs later. -/
def RaisedGone (log : List Event) : Prop :=
  log.Pairwise fun later earlier => ∀ i o, later = .ran i o → earlier ≠ .raised i

/-- What is stored under the key: the latest write that took effect, since a removal. -/
def contents : List Event → Str → Option Fut
  | [], _ => none
  | .ran i .ok :: log, key => if i.key = key then some i.fut else contents log key
  | .removed k _ :: log, key => if k = key then none else contents log key
  | _ :: log, key => contents log key

/-- The last submit of the key that returned, since a removal. -/
def lastReturned : List Event → Str → Option Fut
  | [], _ => none
  | .returned i :: log, key => if i.key = key then some i.fut else lastReturned log key
  | .removed k _ :: log, key => if k = key then none else lastReturned log key
  | _ :: log, key => lastReturned log key

/-- `wait(key)` was called after the last submit of the key. -/
def waitedSince : List Event → Str → Prop
  | [], _ => False
  | .waited k :: log, key => k = key ∨ waitedSince log key
  | .returned i :: log, key => i.key ≠ key ∧ waitedSince log key
  | .raised i :: log, key => i.key ≠ key ∧ waitedSince log key
  | _ :: log, key => waitedSince log key

/-- A read of the key that follows `wait(key)` finds the last submit of the key that returned: it has run, and
where it took effect its write is what is stored. -/
def ReadsLast (log : List Event) : Prop :=
  ∀ key f, waitedSince log key → lastReturned log key = some f →
    ∃ o, Event.ran ⟨key, f⟩ o ∈ log ∧ (o = .ok → contents log key = some f)

end Cash.Writes
