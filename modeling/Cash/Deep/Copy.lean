import Cash.Flat.Flatten
import Mathlib.Logic.Function.Basic

/-!
# A deep copy on a stack of its own

`deep_copy` of `backends/iterative_copy.py`. An object is known by its `id`, and those from `next` on are not made yet. A
generator is known by the `yield` it waits at, and goes on to its first one as soon as it is made. What the code of the objects
does is a parameter (`Code`): what their own `__deepcopy__` hands back, which calls raise, and which keys are found equal. What
an own `__deepcopy__` puts into the memo itself is left out, and of an object that is rebuilt the calls made on it are known.
-/

namespace Cash.Deep

open Flat (Reduce Result)

section

variable (ρ σ δ ε : Type)

/-- What `start` finds an object to be. -/
inductive Obj
  /-- One of `_SHARED`, or a class. -/
  | shared
  /-- `special` copies it, or its own `__deepcopy__`. -/
  | apart (data : δ)
  | list (items : List Nat)
  | dict (pairs : List (Nat × Nat))
  | tuple (items : List Nat)
  /-- Its reduce is a name. -/
  | named
  | reduced (r : Reduce ρ σ)
  /-- Its reduce raises. -/
  | unreduced (error : ε)

/-- A generator, waiting for the copy of a part. -/
inductive Frame
  /-- `copied.append((yield item))`, of `_list` and `_reduced`, with what comes after. -/
  | item (obj copied item : Nat) (rest : List Nat) (pairs : List (Nat × Nat)) (state : Option Nat)
  /-- `new_key = yield k`, of `_dict` and `_reduced`. -/
  | key (obj copied k v : Nat) (rest : List (Nat × Nat)) (state : Option Nat)
  /-- `copied[new_key] = yield v`. -/
  | value (obj copied newKey v : Nat) (rest : List (Nat × Nat)) (state : Option Nat)
  /-- `items.append((yield item))`, of `_tuple`. -/
  | tuple (obj : Nat) (items : List Nat) (item : Nat) (rest : List Nat)
  /-- `args = yield args`. -/
  | args (obj : Nat) (r : Reduce ρ σ)
  /-- `state = yield state`. -/
  | state (obj copied state : Nat)

end

/-- What a call comes to that is to give an object. -/
inductive Gives (α ε : Type)
  | made (a : α)
  /-- An object that was there: a pattern hands back itself, and an empty `frozenset` is rebuilt as the one there is. -/
  | found (obj : Nat)
  | raised (error : ε)

/-- The code of the objects. -/
structure Code (ρ σ δ ε : Type) where
  /-- `special`, or the object's own `__deepcopy__`. -/
  own : Nat → δ → Gives δ ε
  /-- `rebuild(*args)`. -/
  rebuild : Reduce ρ σ → Nat → Gives Unit ε
  /-- What `copied.append(item)` raises, where `copied` was rebuilt. -/
  append : Nat → Nat → Option ε
  /-- What `copied[key] = value` raises. -/
  setitem : Nat → Nat → Nat → Option ε
  /-- What `_set_state` or the setter of the reduce raises. -/
  setState : Nat → Nat → Option ε
  /-- A key is found equal to one that the dict has, when it is put into it. -/
  same : Nat → Nat → Nat → Bool

/-- What comes next: a part is started, or its copy is sent to the generator that waits for it. -/
inductive Mode
  | start (obj : Nat)
  | send (copy : Nat)

/-- The objects, and the copies made of them. -/
structure Store (ρ σ δ ε : Type) where
  heap : Nat → Obj ρ σ δ ε
  next : Nat
  memo : Nat → Option Nat

structure State (ρ σ δ ε : Type) extends Store ρ σ δ ε where
  making : List Nat
  stack : List (Frame ρ σ)
  mode : Mode

variable {ρ σ δ ε : Type}

/-- `d[key] = value`: a key that is found equal to one there leaves that one in its place. -/
def put (same : Nat → Nat → Bool) (key value : Nat) : List (Nat × Nat) → List (Nat × Nat)
  | [] => [(key, value)]
  | (k, v) :: rest => if same k key then (k, value) :: rest else (k, v) :: put same key value rest

namespace Obj

def isShared : Obj ρ σ δ ε → Bool
  | .shared => true
  | _ => false

/-- The items of a list or a tuple, or those of a reduce. -/
def items : Obj ρ σ δ ε → List Nat
  | .list items | .tuple items => items
  | .reduced r => r.items.getD []
  | _ => []

def isList : Obj ρ σ δ ε → Bool
  | .list _ => true
  | _ => false

def append (item : Nat) : Obj ρ σ δ ε → Obj ρ σ δ ε
  | .list items => .list (items ++ [item])
  | .reduced r => .reduced { r with items := r.items.map (· ++ [item]) }
  | o => o

def setitem (same : Nat → Nat → Bool) (key value : Nat) : Obj ρ σ δ ε → Obj ρ σ δ ε
  | .dict pairs => .dict (put same key value pairs)
  | .reduced r => .reduced { r with pairs := r.pairs.map (· ++ [(key, value)]) }
  | o => o

/-- `_set_state`, or the setter of the reduce. -/
def setState (state : Nat) : Obj ρ σ δ ε → Obj ρ σ δ ε
  | .reduced r => .reduced { r with state := some state }
  | o => o

end Obj

/-- `rebuild(*args)`: of what the object was made of, it has the arguments only. -/
def rebuilt (r : Reduce ρ σ) (args : Nat) : Reduce ρ σ :=
  { r with args, items := r.items.map fun _ => [], pairs := r.pairs.map fun _ => [], state := none }

namespace Store

/-- An object is made as the copy of another. -/
def new (t : Store ρ σ δ ε) (obj : Nat) (copied : Obj ρ σ δ ε) : Store ρ σ δ ε where
  heap := Function.update t.heap t.next copied
  next := t.next + 1
  memo := Function.update t.memo obj (some t.next)

def change (t : Store ρ σ δ ε) (copied : Nat) (f : Obj ρ σ δ ε → Obj ρ σ δ ε) : Store ρ σ δ ε :=
  { t with heap := Function.update t.heap copied (f (t.heap copied)) }

/-- An object that was there stands for another, or for itself. -/
def keep (t : Store ρ σ δ ε) (obj found : Nat) : Store ρ σ δ ε := { t with memo := Function.update t.memo obj (some found) }

end Store

namespace State

def new (st : State ρ σ δ ε) (obj : Nat) (copied : Obj ρ σ δ ε) : State ρ σ δ ε :=
  { st with toStore := st.toStore.new obj copied }

def keep (st : State ρ σ δ ε) (obj found : Nat) : State ρ σ δ ε := { st with toStore := st.toStore.keep obj found }

def change (st : State ρ σ δ ε) (copied : Nat) (f : Obj ρ σ δ ε → Obj ρ σ δ ε) : State ρ σ δ ε :=
  { st with toStore := st.toStore.change copied f }

def send (st : State ρ σ δ ε) (copy : Nat) : State ρ σ δ ε := { st with mode := .send copy }

/-- The generator waits for the copy of a part. -/
def ask (st : State ρ σ δ ε) (frame : Frame ρ σ) (part : Nat) : State ρ σ δ ε :=
  { st with stack := frame :: st.stack, mode := .start part }

/-- The items, the pairs and the state that are put into a copy. -/
def fill (st : State ρ σ δ ε) (obj copied : Nat) : List Nat → List (Nat × Nat) → Option Nat → State ρ σ δ ε
  | item :: rest, pairs, state => st.ask (.item obj copied item rest pairs state) item
  | [], (k, v) :: rest, state => st.ask (.key obj copied k v rest state) k
  | [], [], some state => st.ask (.state obj copied state) state
  | [], [], none => st.send copied

/-- `_tuple`. -/
def copyTuple (st : State ρ σ δ ε) (obj : Nat) (items : List Nat) : List Nat → State ρ σ δ ε
  | item :: rest => st.ask (.tuple obj items item rest) item
  | [] =>
      match st.memo obj with
      | some copied => st.send copied -- a cycle through the tuple was copied meanwhile
      | none =>
          if items = (st.heap obj).items then (st.keep obj obj).send obj
          else (st.new obj (.tuple items)).send st.next

/-- `start`, and its generator up to the first `yield`. -/
def start (code : Code ρ σ δ ε) (st : State ρ σ δ ε) (obj : Nat) : Result ε (State ρ σ δ ε) :=
  if (st.heap obj).isShared then .ok (st.send obj)
  else
    match st.memo obj with
    | some copied => .ok (st.send copied)
    | none =>
        match st.heap obj with
        | .shared | .named => .ok (st.send obj)
        | .apart data =>
            match code.own obj data with
            | .made data => .ok ((st.new obj (.apart data)).send st.next)
            | .found found => .ok ((st.keep obj found).send found)
            | .raised e => .error (.raised e)
        | .list items => .ok ((st.new obj (.list [])).fill obj st.next items [] none)
        | .dict pairs => .ok ((st.new obj (.dict [])).fill obj st.next [] pairs none)
        | .tuple items => .ok (st.copyTuple obj [] items)
        | .reduced r =>
            if obj ∈ st.making then .error (.holdsItself obj)
            else .ok ({ st with making := obj :: st.making }.ask (.args obj r) r.args)
        | .unreduced e => .error (.raised e)

/-- A call comes before what is done then. -/
def after (raised : Option ε) (st : State ρ σ δ ε) : Result ε (State ρ σ δ ε) :=
  match raised with
  | none => .ok st
  | some e => .error (.raised e)

/-- A generator is sent the copy it waits for. -/
def resume (code : Code ρ σ δ ε) (st : State ρ σ δ ε) (copy : Nat) : Frame ρ σ → Result ε (State ρ σ δ ε)
  | .item obj copied _ rest pairs state =>
      after (if (st.heap obj).isList then none else code.append copied copy)
        ((st.change copied (.append copy)).fill obj copied rest pairs state)
  | .key obj copied _ v rest state => .ok (st.ask (.value obj copied copy v rest state) v)
  | .value obj copied newKey _ rest state =>
      after (code.setitem copied newKey copy)
        ((st.change copied (.setitem (code.same copied) newKey copy)).fill obj copied [] rest state)
  | .tuple obj items _ rest => .ok (st.copyTuple obj (items ++ [copy]) rest)
  | .args obj r =>
      let made : State ρ σ δ ε := { st with making := st.making.filter (· ≠ obj) }
      match code.rebuild r copy with
      | .made () => .ok ((made.new obj (.reduced (rebuilt r copy))).fill obj st.next (r.items.getD []) (r.pairs.getD []) r.state)
      | .found found => .ok ((made.keep obj found).fill obj found (r.items.getD []) (r.pairs.getD []) r.state)
      | .raised e => .error (.raised e)
  | .state _ copied _ => after (code.setState copied copy) ((st.change copied (.setState copy)).send copied)

/-- The loop of `deep_copy`, for so many turns. -/
def run (code : Code ρ σ δ ε) : Nat → State ρ σ δ ε → Result ε (State ρ σ δ ε)
  | 0, _ => .stuck
  | fuel + 1, st =>
      match st.mode with
      | .start obj => (st.start code obj).bind (run code fuel)
      | .send copy =>
          match st.stack with
          | [] => .ok st
          | frame :: stack => ({ st with stack }.resume code copy frame).bind (run code fuel)

end State

/-- `deep_copy` of a value, with what the memo holds before. -/
def deepCopy (code : Code ρ σ δ ε) (heap : Nat → Obj ρ σ δ ε) (next : Nat) (memo : Nat → Option Nat) (fuel value : Nat) :
    Result ε (State ρ σ δ ε) :=
  State.run code fuel ⟨⟨heap, next, memo⟩, [], [], .start value⟩

end Cash.Deep
