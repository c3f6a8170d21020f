import Cash.Lib.Bytes
import Cash.Lib.Places
import Cash.Plain.Data
import Mathlib.Algebra.GroupWithZero.Nat

/-!
# Lists, dicts and tuples on a heap

Objects are made and never dropped, so a heap is the list of them and an object is known by its index (`id`). What
holds no other object is a leaf, known by its exact type and its content.
-/

namespace Cash.Copies

section

open Plain (Kind)

/-- A leaf. As the key of a dict it is anything that hashes, and nothing that hashes holds a list or a dict. -/
structure Atom where
  kind : Kind
  bits : Bytes
deriving DecidableEq, Repr

inductive Val
  | atom (a : Atom)
  | ref (id : Nat)
deriving DecidableEq, Repr

inductive Obj
  | list (items : List Val)
  | tuple (items : List Val)
  | dict (items : List (Atom × Val))
deriving DecidableEq, Repr

/-- An exact type. -/
inductive Ty
  | leaf (kind : Kind)
  | list | tuple | dict
deriving DecidableEq, Repr

/-- `type(x) in TREE_NODES`. -/
def Ty.isNode : Ty → Bool
  | .leaf _ => false
  | _ => true

/-- `type(x) in PLAIN_SEQS`. -/
def Ty.isSeq : Ty → Bool
  | .list | .tuple => true
  | _ => false

/-- `LEAF_TYPES`, and the dates of a loaded clock test double. -/
def Ty.isLeaf (fakes : List String) : Ty → Bool
  | .leaf kind => kind.isLeaf fakes
  | _ => false

/-- `IMMUTABLE_LEAF_TYPES`, `_COPY_LEAVES`. -/
def Ty.isCopyLeaf : Ty → Bool
  | .leaf .bytearray => false
  | .leaf kind => kind.isLeaf []
  | _ => false

namespace Obj

def type : Obj → Ty
  | .list _ => .list
  | .tuple _ => .tuple
  | .dict _ => .dict

/-- What a list or tuple gives, and the values of a dict. -/
def items : Obj → List Val
  | .list xs | .tuple xs => xs
  | .dict xs => xs.map (·.2)

def keys : Obj → List Atom
  | .dict xs => xs.map (·.1)
  | _ => []

end Obj

/-- The container a value is. -/
def Val.ref? : Val → Option Nat
  | .atom _ => none
  | .ref a => some a

/-- The containers among the items. -/
def refs (flat : List Val) : List Nat := flat.filterMap Val.ref?

abbrev Heap := List Obj

namespace Heap

def obj (h : Heap) (a : Nat) : Obj := h[a]?.getD (.tuple [])

/-- `type(x)`. -/
def type (h : Heap) : Val → Ty
  | .atom a => .leaf a.kind
  | .ref a => (h.obj a).type

/-- A list or a dict. -/
def isWritable (h : Heap) (a : Nat) : Bool := (h.obj a).type != .tuple

/-- The values a value holds. -/
def kids (h : Heap) : Val → List Val
  | .atom _ => []
  | .ref a => (h.obj a).items

/-- An object is made. -/
def alloc (h : Heap) (o : Obj) : Heap × Nat := (h ++ [o], h.length)

/-- The value is a leaf or an object there is. -/
def Has (h : Heap) : Val → Prop
  | .atom _ => True
  | .ref a => a < h.length

instance (h : Heap) : (v : Val) → Decidable (h.Has v)
  | .atom _ => inferInstanceAs (Decidable True)
  | .ref a => inferInstanceAs (Decidable (a < h.length))

/-- Objects hold objects there are, and a dict has a key once. -/
structure Sound (h : Heap) : Prop where
  has : ∀ o ∈ h, ∀ v ∈ o.items, h.Has v
  keys : ∀ o ∈ h, o.keys.Nodup

/-- How often the objects hold an object. -/
def held (h : Heap) (a : Nat) : Nat := (h.map fun o => (refs o.items).count a).sum

end Heap

/-! ## A copy that is exact -/

/-- What is seen of a value without looking into what it holds: its exact type, and its content or its keys. -/
def Heap.look (h : Heap) : Val → Ty × Option Atom × List Atom
  | .atom a => (.leaf a.kind, some a, [])
  | .ref a => ((h.obj a).type, none, (h.obj a).keys)

/-- The value at a place of a value. -/
abbrev Heap.valueAt (h : Heap) (x : Val) (p : List Nat) : Option Val := place h.kids x p

/-- `y` in the later heap is an exact copy of `x`: alike at every place, no list or dict of its own shared with `x`,
and two of its places one list or dict just where those of `x` are. -/
structure ExactCopy (h h' : Heap) (x y : Val) : Prop where
  kept : h <+: h'
  alike : ∀ p, (h'.valueAt y p).map h'.look = (h.valueAt x p).map h.look
  apart : ∀ {p q a}, h'.valueAt y p = some (.ref a) → h'.isWritable a = true → h'.valueAt x q ≠ some (.ref a)
  shared : ∀ p q, (∃ b, h'.isWritable b = true ∧ h'.valueAt y p = some (.ref b) ∧ h'.valueAt y q = some (.ref b)) ↔
    ∃ a, h.isWritable a = true ∧ h.valueAt x p = some (.ref a) ∧ h.valueAt x q = some (.ref a)

/-- No list or dict of the value is reached twice. -/
def NoneTwice (h : Heap) (x : Val) : Prop :=
  ∀ p q a, h.isWritable a = true → h.valueAt x p = some (.ref a) → h.valueAt x q = some (.ref a) → p = q

/-! ## The interpreter -/

/-- What the interpreter brings: the references from outside the heap (names, frames, other modules), what
`sys.getrefcount` counts besides the holders, the dates of a loaded clock test double, and how deep a pickle goes. -/
structure Runtime where
  outside : Nat → Nat
  overhead : Nat
  fakes : List String
  recursionLimit : Nat

/-- `sys.getrefcount`, with the lists that hold objects for now. -/
def getrefcount (rt : Runtime) (h : Heap) (lists : List (List Nat)) (a : Nat) : Nat :=
  rt.overhead + rt.outside a + h.held a + (lists.map (·.count a)).sum

/-- `_shared_probe`: a list that its parent and one flat list hold. -/
def sharedProbe (rt : Runtime) : Nat :=
  getrefcount { rt with outside := fun _ => 0 } [.list [], .list [.ref 0]] [[0]] 0

/-- `_unshared_refs`. -/
def unsharedRefs (rt : Runtime) : Nat := sharedProbe rt

theorem unsharedRefs_eq (rt : Runtime) : unsharedRefs rt = rt.overhead + 2 := by
  simp [unsharedRefs, sharedProbe, getrefcount, Heap.held, refs, Obj.items, Val.ref?]

end

/-!
## Copying a level at a time

`tree_walk` and `spine_copy` (`_plain_data.py`). A set of types is the list of them: it is only asked what it holds.
-/

/-! ### The walk -/

/-- The containers at a level, what they hold, the types of that and of the dict keys. -/
structure Level where
  level : List Nat
  flat : List Val
  types : List Ty
  keyTypes : List Ty
deriving Repr

def Level.of (h : Heap) (level : List Nat) : Level where
  level := level
  flat := level.flatMap fun a => (h.obj a).items
  types := (level.flatMap fun a => (h.obj a).items).map h.type
  keyTypes := level.flatMap fun a => (h.obj a).keys.map fun k => .leaf k.kind

/-- `_tree_walk` from a level on, for at most so many levels; `none` for `_NotPlain`. -/
def treeWalkFrom (leaf : Ty → Bool) (h : Heap) : Nat → List Nat → Option (List Level)
  | 0, _ => none
  | n + 1, level =>
    let here := Level.of h level
    if !here.keyTypes.all leaf then none
    else if !here.types.all (fun t => leaf t || t.isNode) then none
    else if !here.types.any Ty.isNode then some [here]
    else (treeWalkFrom leaf h n (refs here.flat)).map (here :: ·)

/-- `tree_walk`. -/
def treeWalk (rt : Runtime) (h : Heap) : Val → Option (List Level)
  | .atom _ => none
  | .ref a => treeWalkFrom (Ty.isLeaf rt.fakes) h Plain.maxLevels [a]

/-- `_copy_levels`: the levels, if they hold only what a copy may share. -/
def copyLevels (walk : List Level) : Option (List Level) :=
  if walk.all fun l => l.types.all (fun t => t.isCopyLeaf || t.isNode) && l.keyTypes.all Ty.isCopyLeaf then some walk
  else none

/-! ### Held twice -/

/-- The lists the levels are held in: `flats`, and `nodes` where the containers are picked out of a flat list. -/
def levelLists : List Level → List (List Nat)
  | [] => []
  | [l] => [refs l.flat]
  | above :: l :: rest =>
    (if above.types.all Ty.isNode then [refs above.flat] else [refs above.flat, l.level]) ++ levelLists (l :: rest)

/-- The levels below the top in turn: the containers with more references than a parent's and the lists'. -/
def heldBelow (rt : Runtime) (h : Heap) (lists : List (List Nat)) (held : List Nat) : List Level → List Nat
  | above :: l :: rest =>
    let base := unsharedRefs rt + if above.types.all Ty.isNode then 0 else 1
    heldBelow rt h lists (held ++ l.level.filter fun a => base < getrefcount rt h (held :: lists) a) (l :: rest)
  | _ => held

/-- `held_elsewhere`. -/
def heldElsewhere (rt : Runtime) (h : Heap) (value : Nat) (levels : List Level) : List Nat :=
  heldBelow rt h ([value] :: levelLists levels) [value] levels

/-- `shared`: the lists and dicts among them. -/
def sharedIds (rt : Runtime) (h : Heap) (value : Nat) (levels : List Level) : List Nat :=
  (heldElsewhere rt h value levels).filter h.isWritable

/-! ### The copy -/

/-- `copy.deepcopy`'s table: the containers copied, and their copies. -/
abbrev Memo := List (Nat × Nat)

/-- `set(map(type, nodes))`. -/
def kinds (h : Heap) (nodes : List Nat) : List Ty := (nodes.map fun a => (h.obj a).type).dedup

/-- Tuples over tuples and immutables. -/
def Level.frozen (h : Heap) (l : Level) : Bool :=
  l.types.all (fun t => t.isCopyLeaf || t == .tuple) && kinds h l.level == [.tuple]

/-- `_of_kind`. -/
def ofKind (h : Heap) (nodes : List Nat) (kind : Ty) : List Bool := nodes.map fun a => (h.obj a).type == kind

/-- `compress`. -/
def compress {α : Type} : List α → List Bool → List α
  | x :: xs, b :: bs => if b then x :: compress xs bs else compress xs bs
  | _, _ => []

/-- `_put_at`: the values in turn, where the mask is true. -/
def putAt {α : Type} : List α → List Bool → List α → List α
  | _ :: target, true :: mask, v :: values => v :: putAt target mask values
  | x :: target, false :: mask, values => x :: putAt target mask values
  | target, _, _ => target

/-- `list(map(kind, nodes))`: each copied by its own type, over the same items. -/
def copyEach (h : Heap) (nodes : List Nat) : Heap × List Nat :=
  (h ++ nodes.map h.obj, List.range' h.length nodes.length)

/-- A level mixing kinds: the containers of one kind copied and put where they stand. -/
def copyKind (nodes : List Nat) (s : Heap × Memo × List Nat) (kind : Ty) : Heap × Memo × List Nat :=
  let mask := ofKind s.1 nodes kind
  let (h, made) := copyEach s.1 (compress nodes mask)
  (h, s.2.1 ++ (compress nodes mask).zip made, putAt s.2.2 mask made)

/-- A level over what is shared: each container is copied on its own. -/
def copyOwn (h : Heap) (memo : Memo) (nodes : List Nat) : Heap × Memo × List Nat :=
  match kinds h nodes with
  | [.list] | [.dict] =>
    let (h, made) := copyEach h nodes
    (h, memo ++ nodes.zip made, made)
  | mixed => (mixed.filter (· != .tuple)).foldl (copyKind nodes) (h, memo, nodes)

/-- A level over what is copied: each container is built of its part of the copied items, from `start` on. -/
def rebuildNodes (newFlat : List Val) (h : Heap) (memo : Memo) (start : Nat) : List Nat → Heap × Memo × List Nat
  | [] => (h, memo, [])
  | node :: nodes =>
    let stop := start + (h.obj node).items.length
    let part := newFlat.extract start stop
    let put (o : Obj) :=
      let (h, copied) := h.alloc o
      let (h, memo, rebuilt) := rebuildNodes newFlat h (memo ++ [(node, copied)]) stop nodes
      (h, memo, copied :: rebuilt)
    match h.obj node with
    | .list _ => put (.list part)
    -- The keys are those of a dict: no key is there twice.
    | .dict items => put (.dict ((items.map (·.1)).zip part))
    | .tuple items =>
      if part = items then
        let (h, memo, rebuilt) := rebuildNodes newFlat h memo stop nodes
        (h, memo, node :: rebuilt)
      else put (.tuple part)

/-- The state of the loop that goes up the levels, after a level. -/
structure Rebuild where
  heap : Heap
  memo : Memo
  rebuilt : List Nat
  newFlat : List Val
  frozen : Bool

/-- The loop from a level on, the deepest level first. What a level holds is put together where the level is copied
and no earlier, so it is left as it was by a level that is shared (`continue`). -/
def rebuild (h : Heap) (memo : Memo) : List Level → Rebuild
  | [] => { heap := h, memo := memo, rebuilt := [], newFlat := [], frozen := true }
  | l :: rest =>
    let below := rebuild h memo rest
    let newFlat :=
      if rest.isEmpty then l.flat
      else if below.frozen then below.newFlat
      else if l.flat.length = below.rebuilt.length then below.rebuilt.map .ref
      else putAt l.flat (l.flat.map fun v => (h.type v).isNode) (below.rebuilt.map .ref)
    if l.frozen h && below.frozen then
      { below with rebuilt := l.level, newFlat := newFlat }
    else
      let (heap, memo, rebuilt) :=
        if rest.isEmpty || below.frozen then copyOwn below.heap below.memo l.level
        else rebuildNodes newFlat below.heap below.memo 0 l.level
      { heap := heap, memo := memo, rebuilt := rebuilt, newFlat := newFlat, frozen := false }

/-- `_spine_copy`, with the memo as it leaves it; without one the table is dropped. -/
def spineCopyOf (rt : Runtime) (h : Heap) (value : Nat) (memo : Memo) (walk : Option (List Level)) :
    Option (Heap × Memo × Val) :=
  let levels := match walk with
    | none => treeWalkFrom Ty.isCopyLeaf h Plain.maxLevels [value]
    | some walk => copyLevels walk
  match levels with
  | none => none
  | some levels =>
    let shared := sharedIds rt h value levels
    if ¬ shared.Nodup ∨ ∃ a ∈ shared, a ∈ memo.map (·.1) then none
    else
      let s := rebuild h memo levels
      s.rebuilt.head?.map fun a => (s.heap, s.memo, .ref a)

/-- `spine_copy`. -/
def spineCopy (rt : Runtime) (h : Heap) (value : Val) (memo : Memo) (walk : Option (List Level)) :
    Option (Heap × Memo × Val) :=
  match value with
  | .atom _ => none
  | .ref a => spineCopyOf rt h a memo walk

end Cash.Copies
