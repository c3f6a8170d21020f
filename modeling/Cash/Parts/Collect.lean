import Cash.Lib.Py
import Cash.Lib.Sweep
import Mathlib.Data.Finset.Basic

/-!
# The arrays and frames of a result

`decorator/result_parts.py`. A result is a heap of objects under their ids. `numpy.shares_memory` is exact: true when the
two areas have a byte in common.
-/

namespace Cash.Parts

open Py

/-- The memory of an array: its bytes, between the two bounds of `byte_bounds`. -/
structure Area where
  size : Nat
  start : Nat
  stop : Nat
  writeable : Bool
  bytes : Finset Nat
  bounds : ∀ b ∈ bytes, start ≤ b ∧ b < stop
  empty : size = 0 → bytes = ∅

/-- `_shares`. -/
def shares (one other : Area) : Bool := decide ((one.bytes ∩ other.bytes).Nonempty)

/-! ## Paths -/

/-- One step of a path, and with it how it is written. -/
inductive Step (K : Type)
  | index (i : Nat)
  | key (k : K)
  | attr (name : Str)

/-- `(parent path, index or name, how it is written)`, from `"result"` on. -/
inductive Path (K : Type)
  | result
  | part (parent : Path K) (step : Step K)

variable {Id K : Type} (keyRepr : K → Str)

def Step.text : Step K → Str
  | .index i => str "[" ++ (decimal i ++ str "]")
  | .key k => str "[" ++ (keyRepr k ++ str "]")
  | .attr name => str "." ++ name

/-- `_render`. -/
def render : Path K → Str
  | .result => str "result"
  | .part parent step => render parent ++ step.text keyRepr

/-! ## Objects -/

/-- A class of an object's `__mro__`: `__name__` and `__slots__`. -/
structure Cls where
  name : Str
  slots : List Str

/-- The name a class stores a slot under: a private one is mangled. -/
def Cls.stored (cls : Cls) (name : Str) : Str :=
  if (str "__").isPrefixOf name ∧ ¬(str "__").isSuffixOf name then
    str "_" ++ (cls.name.dropWhile (· = 95) ++ name)
  else name

/-- An object that is no container: its `__dict__`, when it has a plain one, the classes of its type, and what
`object.__getattribute__` gives for a name. -/
structure Holder (Id : Type) where
  own : Option (List (Str × Id))
  mro : List Cls
  getattribute : Str → Option Id

inductive Obj (Id K : Type)
  /-- Of a type of `_PLAIN`. -/
  | plain
  /-- A numpy scalar. -/
  | generic
  /-- Of the type `ndarray`; `hasobject` of its dtype. -/
  | array (hasobject : Bool) (area : Area)
  /-- The columns `to_numpy(allow_copy=False)` gives. -/
  | polars (columns : List Area)
  /-- The blocks of the type `ndarray`. -/
  | pandas (columns : List Area)
  /-- A tuple or a list; a named tuple has `_fields`. -/
  | sequence (fields : Option (List Str)) (items : List Id)
  | mapping (items : List (K × Id))
  /-- A class, a module, a function or a method. -/
  | code
  | holder (holder : Holder Id)

abbrev Heap (Id K : Type) := Id → Obj Id K

def Obj.isPlain : Obj Id K → Bool
  | .plain => true
  | _ => false

def Obj.isNumber : Obj Id K → Bool
  | .plain => true
  | .generic => true
  | _ => false

def Obj.isArray : Obj Id K → Bool
  | .array _ _ => true
  | _ => false

variable (heap : Heap Id K)

/-! ## The parts an object holds -/

def Holder.slots (o : Holder Id) : List (Str × Id) :=
  o.mro.flatMap fun cls => (cls.slots.filter fun name => name ≠ str "__dict__" ∧ name ≠ str "__weakref__").filterMap fun name =>
    (o.getattribute (cls.stored name)).map (name, ·)

def sequenceItems (path : Path K) (fields : Option (List Str)) (items : List Id) : List (Path K × Id) :=
  if items.all fun item => (heap item).isNumber then []
  else
    match fields with
    | some names =>
        if names.length = items.length then
          ((names.zip items).map fun p => (path.part (.attr p.1), p.2)).filter fun p => !(heap p.2).isPlain
        else (items.mapIdx fun i item => (path.part (.index i), item)).filter fun p => !(heap p.2).isPlain
    | none => (items.mapIdx fun i item => (path.part (.index i), item)).filter fun p => !(heap p.2).isPlain

/-- `_items`. -/
def items (path : Path K) (value : Id) : List (Path K × Id) :=
  match heap value with
  | .sequence fields items => sequenceItems heap path fields items
  | .mapping items => (items.map fun p => (path.part (.key p.1), p.2)).filter fun p => !(heap p.2).isPlain
  | .holder o => ((o.own.getD []) ++ o.slots).map fun p => (path.part (.attr p.1), p.2)
  | _ => []

/-! ## Collecting -/

/-- `_DEPTH`. -/
def depth : Nat := 4

/-- `_CONTAINERS`. -/
def containers : Nat := 1024

/-- What a level leaves. `seen` is the ids of the parts. -/
structure Walk (Id K : Type) where
  parts : List (Path K × Id)
  budget : Nat
  deeper : List (Path K × Id)

variable [DecidableEq Id]

def Walk.meet (w : Walk Id K) (part : Path K × Id) : Walk Id K :=
  if part.2 ∈ w.parts.map Prod.snd then w else { w with parts := w.parts ++ [part] }

/-- One value of a level. -/
def Walk.look (deep : Bool) (w : Walk Id K) (part : Path K × Id) : Walk Id K :=
  match heap part.2 with
  | .plain => w
  | .generic => w
  | .array hasobject _ => if hasobject then w else w.meet part
  | .polars _ => w.meet part
  | .pandas _ => w.meet part
  | _ =>
      if deep = false ∨ w.budget = 0 then w
      else { w with budget := w.budget - 1, deeper := w.deeper ++ items heap part.1 part.2 }

/-- The levels from one on, with so many below it. -/
def levels : Nat → Walk Id K → List (Path K × Id) → List (Path K × Id)
  | 0, w, level => (level.foldl (Walk.look heap false) w).parts
  | below + 1, w, level =>
      let w := level.foldl (Walk.look heap true) w
      if w.deeper.isEmpty then w.parts else levels below { w with deeper := [] } w.deeper

/-- `_collect`. -/
def collect (result : Id) : List (Path K × Id) := levels heap depth ⟨[], containers, []⟩ [(.result, result)]

/-! ## Spans -/

inductive Kind
  | array
  | polars
  | pandas
deriving DecidableEq, Repr

structure Span (Id K : Type) where
  order : Nat
  kind : Kind
  path : Path K
  area : Area
  frame : Option Id

/-- The memory areas of one part. -/
def areasOf (order : Nat) (part : Path K × Id) : List (Span Id K) :=
  match heap part.2 with
  | .array _ area => [⟨order, .array, part.1, area, none⟩]
  | .polars columns => columns.map fun area => ⟨order, .polars, part.1, area, some part.2⟩
  | .pandas columns => columns.map fun area => ⟨order, .pandas, part.1, area, some part.2⟩
  | _ => []

/-- The memory areas of the parts, in the order met and numbered from one on. -/
def areas : Nat → List (Path K × Id) → List (Span Id K)
  | _, [] => []
  | order, part :: rest => areasOf heap order part ++ areas (order + 1) rest

/-- `_add_span`: an empty array has no memory. -/
def spans (parts : List (Path K × Id)) : List (Span Id K) := (areas heap 0 parts).filter fun span => span.area.size ≠ 0

/-- `_matters`. -/
def Span.matters (pandasCopies : Bool) (one other : Span Id K) : Bool :=
  if one.kind ≠ .array ∧ other.kind ≠ .array then
    decide (one.frame ≠ other.frame) && decide (one.kind = .pandas) && decide (other.kind = .pandas) && !pandasCopies
  else if one.kind = .array ∧ other.kind = .array then one.area.writeable || other.area.writeable
  else
    let array := if one.kind = .array then one else other
    let frame := if one.kind = .array then other else one
    if array.area.writeable then true else decide (frame.kind = .pandas) && !pandasCopies

def Span.clash (pandasCopies : Bool) (one other : Span Id K) : Bool :=
  one.matters pandasCopies other && shares one.area other.area

/-- What the process has loaded: numpy, and a pandas that copies before it writes (or none). -/
structure Loaded where
  numpy : Bool
  pandasCopies : Bool

/-- The key of the sort. -/
def Span.Before (one other : Span Id K) : Prop := one.area.start ≤ other.area.start

instance decidableBefore : DecidableRel (@Span.Before Id K) := fun one other => Nat.decLe one.area.start other.area.start

def sweepSpans (loaded : Loaded) (l : List (Span Id K)) : Option (Span Id K × Span Id K) :=
  Sweep.sweep (·.area.start) (·.area.stop) (Span.clash loaded.pandasCopies) [] l

/-- `sorted((span, other), key=order)`. -/
def inOrder (pair : Span Id K × Span Id K) : Span Id K × Span Id K :=
  if pair.2.order < pair.1.order then (pair.2, pair.1) else pair

def gathered (loaded : Loaded) (result : Id) : List (Path K × Id) := if loaded.numpy then collect heap result else []

/-- The two spans `split_by_a_hit` finds, the part met first in front. -/
def splitSpans (loaded : Loaded) (result : Id) : Option (Span Id K × Span Id K) :=
  if loaded.numpy = false then none
  else
    let parts := gathered heap loaded result
    let hasArray := parts.any fun p => (heap p.2).isArray
    if hasArray = false ∧ parts.length < 2 then none
    else if hasArray = false ∧ loaded.pandasCopies = true then none
    else (sweepSpans loaded ((spans heap parts).insertionSort Span.Before)).map inOrder

/-- `split_by_a_hit`. -/
def splitByAHit (loaded : Loaded) (result : Id) : Option (Str × Str) :=
  (splitSpans heap loaded result).map fun pair => (render keyRepr pair.1.path, render keyRepr pair.2.path)

end Cash.Parts
