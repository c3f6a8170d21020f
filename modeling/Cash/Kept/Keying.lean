import Cash.Lib.Py
import Mathlib.Data.Finset.Card
import Mathlib.Logic.Function.Basic

/-!
# What an object leaves out of its state

`left_out_attrs` and `_picklable` of `kept_state.py`, inside one `one_keying` block. The depth of the stack is a number of
nested calls.
-/

namespace Cash.Kept

open Py

/-- What a reduce gives as the state. -/
inductive Shape (V : Type)
  | dict (items : List (Str × V))
  /-- A pair with a dict of slots; the first is a dict, or anything else. -/
  | pair (first : List (Str × V) ⊕ List V) (slots : List (Str × V))
  | other (parts : List V)

namespace Shape

variable {V : Type}

/-- The values that the state holds. -/
def parts : Shape V → List V
  | dict items => items.map (·.2)
  | pair (.inl items) slots => items.map (·.2) ++ slots.map (·.2)
  | pair (.inr parts) slots => parts ++ slots.map (·.2)
  | other parts => parts

/-- `saved.get(name)`. -/
def saved (name : Str) : Shape V → Option V
  | dict items => items.lookup name
  | pair (.inl items) slots => (slots.lookup name).or (items.lookup name)
  | pair (.inr _) slots => slots.lookup name
  | other _ => none

end Shape

inductive Node (V : Type)
  | leaf (pickles : Bool)
  | container (items : List V)
  /-- An object of a class that chooses its state, with what its reduce gives beside the state. -/
  | chooser (args : List V)

/-- The objects of a process, and the state objects that reduces give. -/
structure Heap (V S : Type) where
  node : V → Node V
  /-- `_instance_attrs`. -/
  attrs : V → List (Str × V)
  shape : S → Shape V
  /-- The state that the object's reduce gives the n-th time: one object, or made anew. -/
  reduce : V → Nat → S
  shape_reduce : ∀ x m n, shape (reduce x m) = shape (reduce x n)
  /-- `_same`. -/
  same : V → V → Bool
  /-- The name of the type. -/
  typeName : V → Str

/-- A left-out attribute: itself, or its type. -/
inductive Told (V : Type)
  | itself (v : V)
  | type (name : Str)
deriving DecidableEq

abbrev LeftOut (V : Type) := List (Str × Told V)

inductive Known (V S : Type)
  | telling
  | told (state : S) (leftOut : LeftOut V)

/-- `_Keying`, and how many reduces there were. -/
structure Keying (V S : Type) where
  leftOut : V → Option (Known V S)
  picklable : V → Option Bool
  reduces : Nat

def Keying.empty {V S : Type} : Keying V S := ⟨fun _ => none, fun _ => none, 0⟩

variable {V S : Type} [DecidableEq V] [DecidableEq S]

/-- `memo[id(x)] = ..`, for what the object leaves out. -/
def Keying.note (k : Keying V S) (x : V) (known : Known V S) : Keying V S :=
  { k with leftOut := Function.update k.leftOut x (some known) }

/-! ## Pickling -/

/-- How a pickle ends. -/
inductive Outcome (V S : Type)
  | done (seen : Finset V) (keying : Keying V S)
  | refused (keying : Keying V S)
  /-- The stack ran out. -/
  | short

/-- One value after the other. -/
def saveAll (save : V → Finset V → Keying V S → Outcome V S) : List V → Finset V → Keying V S → Outcome V S
  | [], seen, k => .done seen k
  | x :: xs, seen, k =>
    match save x seen k with
    | .done seen k => saveAll save xs seen k
    | .refused k => .refused k
    | .short => .short

/-- The left-out attributes that are pickled beside the state. -/
def LeftOut.values (left : LeftOut V) : List V := left.filterMap fun p =>
  match p.2 with
  | .itself v => some v
  | .type _ => none

section

variable (H : Heap V S)

/-- `save` of the pickler that tells whether `root` pickles: what was found to pickle stands in by a persistent id. What a
reduce gives as arguments does not lead back to its object: pickle notes the object after them, and here it is noted before. -/
def save (leftOutAttrs : V → S → Keying V S → Option (LeftOut V × Keying V S)) (root : V) :
    Nat → V → Finset V → Keying V S → Outcome V S
  | 0, _, _, _ => .short
  | depth + 1, x, seen, k =>
    if x ≠ root ∧ k.picklable x = some true then .done seen k
    else if x ∈ seen then .done seen k
    else
      match H.node x with
      | .leaf true => .done (insert x seen) k
      | .leaf false => .refused k
      | .container items => saveAll (save leftOutAttrs root depth) items (insert x seen) k
      | .chooser args =>
        let state := H.reduce x k.reduces
        match leftOutAttrs x state { k with reduces := k.reduces + 1 } with
        | none => .short
        | some (left, k) => saveAll (save leftOutAttrs root depth) (args ++ (H.shape state).parts ++ left.values) (insert x seen) k

/-- `_picklable`. -/
def picklable (depth : Nat) (leftOutAttrs : V → S → Keying V S → Option (LeftOut V × Keying V S)) (v : V)
    (k : Keying V S) : Option (Bool × Keying V S) :=
  match k.picklable v with
  | some known => some (known, k)
  | none =>
    match save H leftOutAttrs v depth v ∅ k with
    | .done _ k => some (true, { k with picklable := Function.update k.picklable v (some true) })
    | .refused k => some (false, { k with picklable := Function.update k.picklable v (some false) })
    | .short => none

/-! ## Telling -/

/-- The attributes told one after the other. -/
def tellAttrs (picklable : V → Keying V S → Option (Bool × Keying V S)) (shape : Shape V) :
    List (Str × V) → Keying V S → Option (LeftOut V × Keying V S)
  | [], k => some ([], k)
  | (name, v) :: attrs, k =>
    if (shape.saved name).any (H.same · v) then tellAttrs picklable shape attrs k
    else
      match picklable v k with
      | none => none
      | some (pickles, k) =>
        match tellAttrs picklable shape attrs k with
        | none => none
        | some (left, k) => some ((name, if pickles then .itself v else .type (H.typeName v)) :: left, k)

/-- The rest of `left_out_attrs`, when nothing is known: the object is marked while its attributes are told. -/
def tellAfresh (picklable : V → Keying V S → Option (Bool × Keying V S)) (x : V) (state : S) (k : Keying V S) :
    Option (LeftOut V × Keying V S) :=
  if H.attrs x = [] then some ([], k)
  else
    match tellAttrs H picklable (H.shape state) (H.attrs x) (k.note x .telling) with
    | none => none
    | some (left, k) => some (left, k.note x (.told state left))

/-- `left_out_attrs`, with at most so many objects being told. -/
def leftOutAttrs (depth : Nat) : Nat → V → S → Keying V S → Option (LeftOut V × Keying V S)
  | 0, _, _, _ => none
  | nested + 1, x, state, k =>
    match k.leftOut x with
    | some .telling => some ([], k)
    | some (.told known left) =>
      if known = state then some (left, k) else tellAfresh H (picklable H depth (leftOutAttrs depth nested)) x state k
    | none => tellAfresh H (picklable H depth (leftOutAttrs depth nested)) x state k

/-! ## Queries -/

inductive Query (V S : Type)
  | leftOutAttrs (x : V) (state : S)
  | picklable (v : V)

inductive Answer (V : Type)
  | leftOut (left : LeftOut V)
  | picklable (pickles : Bool)

/-- One query, with a stack for so many objects being told and so many nested saves. -/
def ask (nested depth : Nat) (q : Query V S) (k : Keying V S) : Option (Answer V × Keying V S) :=
  match q with
  | .leftOutAttrs x state => (leftOutAttrs H depth nested x state k).map fun r => (.leftOut r.1, r.2)
  | .picklable v => (picklable H depth (leftOutAttrs H depth nested) v k).map fun r => (.picklable r.1, r.2)

/-- Queries one after another. -/
def run (nested depth : Nat) : List (Query V S) → Keying V S → Option (List (Answer V))
  | [], _ => some []
  | q :: qs, k =>
    match ask H nested depth q k with
    | none => none
    | some (answer, k) => (run nested depth qs k).map (answer :: ·)

/-- The queries of one `one_keying` block. -/
def oneKeying (nested depth : Nat) (qs : List (Query V S)) : Option (List (Answer V)) := run H nested depth qs .empty

end

end Cash.Kept
