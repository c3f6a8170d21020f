import Mathlib.Data.List.Basic
import Mathlib.Data.List.Nodup
import Mathlib.Logic.Relation
import Mathlib.Tactic.Common

/-!
# A value as a flat list of steps

`flatten` and `load_flat` of `kept_state.py`. An object is known by its `id`, and the generators on the stack are the calls
of a recursion.
-/

namespace Cash.Flat

/-- What a reducer gives of an object, less the function that sets the state. -/
structure Reduce (ρ σ : Type) where
  rebuild : ρ
  args : Nat
  items : Option (List Nat)
  pairs : Option (List (Nat × Nat))
  state : Option Nat
  setter : Option σ

/-- What the walk finds an object to be. -/
inductive Node (ρ σ ε : Type)
  /-- An atom, a function, a module, code, a bytearray, a buffer or a class. -/
  | whole
  /-- What the pickler pickles by a persistent id, an array of plain values, or a global by name. -/
  | apart
  | list (items : List Nat)
  | dict (pairs : List (Nat × Nat))
  | tuple (items : List Nat)
  | reduced (r : Reduce ρ σ)
  /-- Its reducer raises. -/
  | unreduced (error : ε)

abbrev Heap (ρ σ ε : Type) := Nat → Node ρ σ ε

/-- What stands for an object in a step: the object, or the number of the one made of it (`_Slot`). -/
inductive Part
  | itself (id : Nat)
  | slot (n : Nat)
deriving DecidableEq

inductive Step (ρ σ : Type)
  | list (slot : Nat)
  | dict (slot : Nat)
  | tuple (slot : Nat) (items : List Part)
  | new (slot : Nat) (rebuild : ρ) (args : Part)
  | extend (slot : Nat) (items : List Part)
  | setitems (slot : Nat) (pairs : List Part)
  | build (slot : Nat) (state : Part) (setter : Option σ)

inductive Error (ε : Type)
  /-- `PicklingError`: it is rebuilt from arguments that hold it. -/
  | holdsItself (id : Nat)
  /-- `RecursionError`. -/
  | tooDeep
  | raised (error : ε)

/-- How a walk ends; `stuck` where it is deeper than the fuel. -/
inductive Result (ε α : Type)
  | ok (a : α)
  | error (e : Error ε)
  | stuck

def Result.bind {ε α β : Type} : Result ε α → (α → Result ε β) → Result ε β
  | .ok a, f => f a
  | .error e, _ => .error e
  | .stuck, _ => .stuck

section

variable {ρ σ ε : Type}

/-- What `flatten` keeps. -/
structure Walk (ρ σ : Type) where
  steps : List (Step ρ σ)
  /-- The objects that have a slot, in the order of their slots. -/
  slots : List Nat
  making : List Nat
  depth : Nat

namespace Walk

def init : Walk ρ σ := ⟨[], [], [], 0⟩

/-- `made`. -/
def made (w : Walk ρ σ) (v : Nat) (step : Nat → Step ρ σ) : Walk ρ σ :=
  { w with steps := w.steps ++ [step w.slots.length], slots := w.slots ++ [v] }

def add (w : Walk ρ σ) (step : Step ρ σ) : Walk ρ σ := { w with steps := w.steps ++ [step] }

/-- A generator is put on the stack, over `frames` others. -/
def enter (w : Walk ρ σ) (deepest : Option Nat) (frames : Nat) : Result ε (Walk ρ σ) :=
  if w.depth < frames + 1 then
    match deepest with
    | some limit => if limit < frames + 1 then .error .tooDeep else .ok { w with depth := frames + 1 }
    | none => .ok { w with depth := frames + 1 }
  else .ok w

end Walk

/-- The parts one after the other. -/
def visitAll (visit : Nat → Walk ρ σ → Result ε (Part × Walk ρ σ)) : List Nat → Walk ρ σ → Result ε (List Part × Walk ρ σ)
  | [], w => .ok ([], w)
  | v :: vs, w => (visit v w).bind fun (p, w) => (visitAll visit vs w).bind fun (ps, w) => .ok (p :: ps, w)

/-- The parts, and the step that takes them, if there are any to take. -/
def visitSome (visit : Nat → Walk ρ σ → Result ε (Part × Walk ρ σ)) (step : List Part → Step ρ σ) :
    Option (List Nat) → Walk ρ σ → Result ε (Walk ρ σ)
  | none, w => .ok w
  | some vs, w => (visitAll visit vs w).bind fun (ps, w) => .ok (w.add (step ps))

def visitState (visit : Nat → Walk ρ σ → Result ε (Part × Walk ρ σ)) (slot : Nat) (setter : Option σ) :
    Option Nat → Walk ρ σ → Result ε (Walk ρ σ)
  | none, w => .ok w
  | some state, w => (visit state w).bind fun (p, w) => .ok (w.add (.build slot p setter))

/-- Keys and values in turn. -/
def inTurn (pairs : List (Nat × Nat)) : List Nat := pairs.flatMap fun (k, v) => [k, v]

variable (h : Heap ρ σ ε)

def isWhole (v : Nat) : Bool :=
  match h v with
  | .whole => true
  | _ => false

/-- `start`, and what its generator does. -/
def visit (deepest : Option Nat) : Nat → Nat → Nat → Walk ρ σ → Result ε (Part × Walk ρ σ)
  | 0, _, _, _ => .stuck
  | fuel + 1, frames, v, w =>
    match w.slots.idxOf? v with
    | some k => .ok (.slot k, w)
    | none =>
      match h v with
      | .whole | .apart => .ok (.itself v, w)
      | .list items =>
        (w.enter deepest frames).bind fun w =>
        (visitAll (visit deepest fuel (frames + 1)) items (w.made v .list)).bind fun (ps, w') =>
        .ok (.slot w.slots.length, w'.add (.extend w.slots.length ps))
      | .dict pairs =>
        (w.enter deepest frames).bind fun w =>
        (visitAll (visit deepest fuel (frames + 1)) (inTurn pairs) (w.made v .dict)).bind fun (ps, w') =>
        .ok (.slot w.slots.length, w'.add (.setitems w.slots.length ps))
      | .tuple items =>
        if items.all (isWhole h) then .ok (.itself v, w)
        else
          (w.enter deepest frames).bind fun w =>
          (visitAll (visit deepest fuel (frames + 1)) items w).bind fun (ps, w) =>
          match w.slots.idxOf? v with
          | some k => .ok (.slot k, w) -- made meanwhile, through a cycle
          | none => .ok (.slot w.slots.length, w.made v (.tuple · ps))
      | .reduced r =>
        if v ∈ w.making then .error (.holdsItself v)
        else
          (w.enter deepest frames).bind fun w =>
          (visit deepest fuel (frames + 1) r.args { w with making := v :: w.making }).bind fun (args, w) =>
          let slot := w.slots.length
          let w := { w with making := w.making.filter (· ≠ v) }.made v (.new · r.rebuild args)
          (visitSome (visit deepest fuel (frames + 1)) (.extend slot) r.items w).bind fun w =>
          (visitSome (visit deepest fuel (frames + 1)) (.setitems slot) (r.pairs.map inTurn) w).bind fun w =>
          (visitState (visit deepest fuel (frames + 1)) slot r.setter r.state w).bind fun w => .ok (.slot slot, w)
      | .unreduced e => .error (.raised e)

/-- `FlatValue`. -/
structure FlatValue (ρ σ : Type) where
  steps : List (Step ρ σ)
  root : Part
  depth : Nat

def flatten (deepest : Option Nat) (fuel : Nat) (value : Nat) : Result ε (FlatValue ρ σ) :=
  (visit h deepest fuel 0 value .init).bind fun (root, w) => .ok ⟨w.steps, root, w.depth⟩

/-! ## Loading -/

/-- An object that was made, with what was put into it. -/
inductive Made (ρ σ : Type)
  | list (items : List Part)
  | dict (pairs : List Part)
  | tuple (items : List Part)
  | new (rebuild : ρ) (args : Part) (items : List Part) (pairs : List Part) (state : Option (Part × Option σ))

/-- `get`: what the part stands for was made before. -/
def Part.ready (count : Nat) : Part → Bool
  | .itself _ => true
  | .slot n => decide (n < count)

namespace Made

/-- None where a state was set before, or to what takes no items. -/
def extend (items : List Part) : Made ρ σ → Option (Made ρ σ)
  | .list xs => some (.list (xs ++ items))
  | .new rebuild args xs pairs none => some (.new rebuild args (xs ++ items) pairs none)
  | _ => none

def setitems (pairs : List Part) : Made ρ σ → Option (Made ρ σ)
  | .dict xs => some (.dict (xs ++ pairs))
  | .new rebuild args items xs none => some (.new rebuild args items (xs ++ pairs) none)
  | _ => none

def build (state : Part) (setter : Option σ) : Made ρ σ → Option (Made ρ σ)
  | .new rebuild args items pairs _ => some (.new rebuild args items pairs (some (state, setter)))
  | _ => none

end Made

/-- The object made at a step is changed. -/
def change (made : List (Made ρ σ)) (slot : Nat) (f : Made ρ σ → Option (Made ρ σ)) : Option (List (Made ρ σ)) := do
  let obj ← made[slot]?
  let obj ← f obj
  return made.set slot obj

/-- One step of `load_flat`. None for an error: a part that was not made yet, or a value in an older step order. -/
def load (made : List (Made ρ σ)) : Step ρ σ → Option (List (Made ρ σ))
  | .list _ => some (made ++ [.list []])
  | .dict _ => some (made ++ [.dict []])
  | .tuple _ items => if items.all (Part.ready made.length) then some (made ++ [.tuple items]) else none
  | .new _ rebuild args => if args.ready made.length then some (made ++ [.new rebuild args [] [] none]) else none
  | .extend slot items => if items.all (Part.ready made.length) then change made slot (Made.extend items) else none
  | .setitems slot pairs => if pairs.all (Part.ready made.length) then change made slot (Made.setitems pairs) else none
  | .build slot state setter => if state.ready made.length then change made slot (Made.build state setter) else none

/-- `load_flat`, up to the last step. -/
def loadFlat (steps : List (Step ρ σ)) (made : List (Made ρ σ)) : Option (List (Made ρ σ)) := steps.foldlM load made

end

end Cash.Flat
