import Mathlib.Logic.Relation
import Mathlib.Logic.Function.Basic

/-!
# Plain data

Exact lists and tuples, nested, over leaves (`_plain_data.py`). An object is known by its reference, which is
what `is` compares.
-/

namespace Cash.Plain

variable {ρ : Type}

/-- The exact type of an object that is neither a list nor a tuple. -/
inductive Kind
  | str | int | float | bool | none | bytes | complex | bytearray
  | date | datetime | time | timedelta | decimal
  | named (qualname : String)
deriving DecidableEq, Repr

/-- `LEAF_TYPES`, and the dates of a loaded clock test double (`fake_clock`). -/
def Kind.isLeaf (fakes : List String) : Kind → Bool
  | .named qualname => fakes.contains qualname
  | _ => true

inductive Obj (ρ : Type)
  | list (items : List ρ)
  | tuple (items : List ρ)
  | other (kind : Kind)
deriving DecidableEq, Repr

/-- Every object there is or will be: one made later is one that nothing holds yet. -/
abbrev Heap (ρ : Type) := ρ → Obj ρ

namespace Heap

/-- What iterating over the object gives. -/
def items (h : Heap ρ) (x : ρ) : List ρ :=
  match h x with
  | .list xs | .tuple xs => xs
  | .other _ => []

def isList (h : Heap ρ) (x : ρ) : Bool :=
  match h x with
  | .list _ => true
  | _ => false

/-- `type(x) in PLAIN_SEQS`. -/
def isSeq (h : Heap ρ) (x : ρ) : Bool :=
  match h x with
  | .other _ => false
  | _ => true

def isLeaf (h : Heap ρ) (fakes : List String) (x : ρ) : Bool :=
  match h x with
  | .other kind => kind.isLeaf fakes
  | _ => false

def isBytearray (h : Heap ρ) (x : ρ) : Bool :=
  match h x with
  | .other .bytearray => true
  | _ => false

end Heap

/-! ## Levels -/

def maxLevels : Nat := 16

/-- `_levels`: the items of each level below the sequences `level`; `none` for `_NotPlain`. -/
def levelsFrom (fakes : List String) (h : Heap ρ) : Nat → List ρ → Option (List (List ρ))
  | 0, _ => none
  | n + 1, level =>
    let flat := level.flatMap h.items
    if flat.all fun x => h.isLeaf fakes x || h.isSeq x then
      if flat.all (h.isLeaf fakes) then some [flat]
      else (levelsFrom fakes h n (flat.filter h.isSeq)).map (flat :: ·)
    else none

def levels (fakes : List String) (h : Heap ρ) (value : ρ) : Option (List (List ρ)) :=
  levelsFrom fakes h maxLevels [value]

/-! ## Snapshots -/

/-- The levels as they are held: one whose parents are all tuples is not. -/
def held (h : Heap ρ) : Bool → List (List ρ) → List (Option (List ρ))
  | _, [] => []
  | parentsCanChange, flat :: rest =>
    (if parentsCanChange then some flat else none) :: held h (flat.any h.isList) rest

def identitySnapshot (fakes : List String) (h : Heap ρ) (value : ρ) : Option (List (Option (List ρ))) :=
  if h.isSeq value then
    match levels fakes h value with
    | some flats => if flats.any (·.any h.isBytearray) then none else some (held h (h.isList value) flats)
    | none => none
  else none

/-- `len(flat) != len(before) or not all(map(operator.is_, flat, before))`, for a level that is held. -/
def differs [DecidableEq ρ] (flat : List ρ) : Option (List ρ) → Bool
  | some before => flat.length != before.length || !(List.zipWith (· == ·) flat before).all id
  | none => false

/-- The loop of `identity_changed`, from a level on. -/
def changedFrom [DecidableEq ρ] (h : Heap ρ) : List ρ → List (Option (List ρ)) → Bool
  | _, [] => false
  | flat, before :: rest =>
    differs flat before || changedFrom h ((flat.filter h.isSeq).flatMap h.items) rest

def identityChanged [DecidableEq ρ] (h : Heap ρ) (value : ρ) (snapshot : List (Option (List ρ))) : Bool :=
  if !h.isSeq value || snapshot.isEmpty then true else changedFrom h (h.items value) snapshot

/-! ## Writes in place -/

/-- An item assignment, `insert`, `pop`, `append`, `del`, `sort` or `extend`: a list gets other items. -/
inductive Write [DecidableEq ρ] (h : Heap ρ) : Heap ρ → Prop
  | list {l : ρ} (before after : List ρ) : h l = .list before → Write h (Function.update h l (.list after))

abbrev Writes [DecidableEq ρ] : Heap ρ → Heap ρ → Prop := Relation.ReflTransGen Write

def Reachable (h : Heap ρ) : ρ → ρ → Prop := Relation.ReflTransGen fun x y => y ∈ h.items x

/-- A list reachable from the value holds other objects than it did. -/
def Changed (h h' : Heap ρ) (value : ρ) : Prop :=
  ∃ l, Reachable h value l ∧ h.isList l = true ∧ h'.items l ≠ h.items l

/-- The objects at a depth below the objects of a level, from left to right. -/
def objectsAt (h : Heap ρ) : List ρ → Nat → List ρ
  | level, 0 => level
  | level, depth + 1 => objectsAt h (level.flatMap h.items) depth

/-- Lists have grown or shrunk, and still the objects at each depth are, from left to right, those they were:
what a list has lost its neighbours have gained. -/
def Regrouped (h h' : Heap ρ) (value : ρ) : Prop :=
  (∃ l, Reachable h value l ∧ h.isList l = true ∧ (h'.items l).length ≠ (h.items l).length) ∧
    ∀ depth, objectsAt h' [value] depth = objectsAt h [value] depth

end Cash.Plain
