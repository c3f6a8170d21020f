import Cash.Lib.Run
import Mathlib.Logic.Function.Basic

/-!
# Calls that miss, and the lock of their key

`decorator/runtime.py`: `CallRunner.lookup`, `_reread`, `compute_with_lock` and `finish_miss`, as far as they read and write
the store and hold the key's lock, with `CacheBackend.lock` and `_inprocess_key_lock` of `backends/_base.py`. Any number of
threads, each with its calls in progress, the innermost first: a body may make other calls. Whatever else may happen to the
store, by other processes or in time, is one event. Whether an entry is served is a parameter (`entry_verdict`).
-/

namespace Cash.Calls

/-- Where a call is whose lookup found nothing to serve. -/
inductive Place (V : Type)
  | missed
  /-- In `lock_cm.__enter__()`. -/
  | waiting
  /-- The lock is its own, and the key is to be looked up again. -/
  | holding
  | body (locked : Bool)
  /-- The lock is to be released; `none`: it raises. -/
  | leaving (out : Option V)
deriving DecidableEq

/-- A call in progress; `lock` is its `lock_cm`. -/
structure Frame (K V : Type) where
  key : K
  lock : Option Nat
  place : Place V
deriving DecidableEq

/-- The lock is held by the call. -/
def Frame.holds {K V : Type} (f : Frame K V) : Bool :=
  match f.place with
  | .missed | .waiting | .body false => false
  | .holding | .body true | .leaving _ => true

/-- The locks, and the calls in progress. -/
structure Ongoing (K V : Type) where
  /-- `_inprocess_key_locks`. -/
  locks : K → Option Nat
  /-- How many locks were made. -/
  made : Nat
  /-- Of each `RLock`: its thread, and how many times it was acquired. -/
  owner : Nat → Option (Nat × Nat)
  /-- Threads from here on made no call. -/
  threads : Nat
  frames : Nat → List (Frame K V)

structure State (K V E ω : Type) where
  /-- The clock, the files, the environment. -/
  env : ω
  store : K → Option E
  calls : Ongoing K V

inductive Event (K V E ω : Type)
  | call (thread : Nat) (key : K)
  /-- `locking()` is false, or the lock could not be acquired. -/
  | unlocked (thread : Nat)
  /-- `backend.lock(key)`. -/
  | lock (thread : Nat)
  | acquire (thread : Nat)
  /-- What is not an `Exception` ends the wait. -/
  | interrupt (thread : Nat)
  | reread (thread : Nat)
  /-- `stored`: not refused. -/
  | returns (thread : Nat) (value : V) (stored : Bool)
  | raises (thread : Nat)
  | release (thread : Nat)
  /-- A lock that no call refers to goes out of the weak dict. -/
  | collect (key : K)
  | outside (env : ω) (store : K → Option E)

/-- What `_try_get_cached` makes of an entry, and what `store` makes of a result. -/
structure World (K V E ω : Type) where
  serves : ω → K → E → Option V
  entry : ω → K → V → E

section

variable {K V E ω : Type} [DecidableEq K]

def State.served (W : World K V E ω) (s : State K V E ω) (key : K) : Option V := (s.store key).bind (W.serves s.env key)

def Ongoing.put (c : Ongoing K V) (thread : Nat) (frames : List (Frame K V)) : Ongoing K V :=
  { c with frames := Function.update c.frames thread frames }

/-- A thread makes a call of its own, or its innermost body does. -/
def Ongoing.mayCall (c : Ongoing K V) (thread : Nat) : Bool :=
  match c.frames thread with
  | [] | ⟨_, _, .body _⟩ :: _ => true
  | _ => false

/-- `RLock.acquire`: nothing while another thread has it. -/
def acquired (thread : Nat) : Option (Nat × Nat) → Option (Nat × Nat)
  | none => some (thread, 1)
  | some (thread', count) => if thread' = thread then some (thread, count + 1) else none

/-- `RLock.release`; one that is not the thread's own is left. -/
def released (thread : Nat) : Option (Nat × Nat) → Option (Nat × Nat)
  | some (thread', count + 1) =>
      if thread' = thread then if count = 0 then none else some (thread, count) else some (thread', count + 1)
  | owner => owner

/-- `compute()` is over: what is under the lock is to release it. -/
def ended (frame : Frame K V) (rest : List (Frame K V)) (out : Option V) : Bool → List (Frame K V)
  | true => { frame with place := .leaving out } :: rest
  | false => rest

/-- One step, unless it cannot be made. -/
def next (W : World K V E ω) (s : State K V E ω) : Event K V E ω → Option (State K V E ω)
  | .call thread key =>
      if s.calls.mayCall thread then
        match s.served W key with
        | some _ => some s
        | none =>
            some { s with calls :=
              { s.calls.put thread (⟨key, none, .missed⟩ :: s.calls.frames thread) with
                threads := max s.calls.threads (thread + 1) } }
      else none
  | .unlocked thread =>
      match s.calls.frames thread with
      | ⟨key, lock, .missed⟩ :: rest | ⟨key, lock, .waiting⟩ :: rest =>
          some { s with calls := s.calls.put thread (⟨key, lock, .body false⟩ :: rest) }
      | _ => none
  | .lock thread =>
      match s.calls.frames thread with
      | ⟨key, _, .missed⟩ :: rest =>
          match s.calls.locks key with
          | some lock => some { s with calls := s.calls.put thread (⟨key, some lock, .waiting⟩ :: rest) }
          | none =>
              some { s with calls :=
                { s.calls.put thread (⟨key, some s.calls.made, .waiting⟩ :: rest) with
                  locks := Function.update s.calls.locks key (some s.calls.made), made := s.calls.made + 1 } }
      | _ => none
  | .acquire thread =>
      match s.calls.frames thread with
      | ⟨key, some lock, .waiting⟩ :: rest =>
          (acquired thread (s.calls.owner lock)).map fun owner =>
            { s with calls :=
              { s.calls.put thread (⟨key, some lock, .holding⟩ :: rest) with
                owner := Function.update s.calls.owner lock (some owner) } }
      | _ => none
  | .interrupt thread =>
      match s.calls.frames thread with
      | ⟨_, _, .waiting⟩ :: rest => some { s with calls := s.calls.put thread rest }
      | _ => none
  | .reread thread =>
      match s.calls.frames thread with
      | ⟨key, lock, .holding⟩ :: rest =>
          match s.served W key with
          | some value => some { s with calls := s.calls.put thread (⟨key, lock, .leaving (some value)⟩ :: rest) }
          | none => some { s with calls := s.calls.put thread (⟨key, lock, .body true⟩ :: rest) }
      | _ => none
  | .returns thread value stored =>
      match s.calls.frames thread with
      | ⟨key, lock, .body locked⟩ :: rest =>
          some { s with
            store := if stored then Function.update s.store key (some (W.entry s.env key value)) else s.store
            calls := s.calls.put thread (ended ⟨key, lock, .body locked⟩ rest (some value) locked) }
      | _ => none
  | .raises thread =>
      match s.calls.frames thread with
      | ⟨key, lock, .body locked⟩ :: rest =>
          some { s with calls := s.calls.put thread (ended ⟨key, lock, .body locked⟩ rest none locked) }
      | _ => none
  | .release thread =>
      match s.calls.frames thread with
      | ⟨_, some lock, .leaving _⟩ :: rest =>
          some { s with calls :=
            { s.calls.put thread rest with
              owner := Function.update s.calls.owner lock (released thread (s.calls.owner lock)) } }
      | _ => none
  | .collect key =>
      if ∀ thread < s.calls.threads, ∀ frame ∈ s.calls.frames thread, frame.lock = none ∨ frame.lock ≠ s.calls.locks key then
        some { s with calls := { s.calls with locks := Function.update s.calls.locks key none } }
      else none
  | .outside env store => some { s with env := env, store := store }

/-- No call was made, and nothing was stored. -/
def State.initial (env : ω) : State K V E ω :=
  ⟨env, fun _ => none, ⟨fun _ => none, 0, fun _ => none, 0, fun _ => []⟩⟩

end

end Cash.Calls
