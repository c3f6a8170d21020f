import Cash.Copies.Heap
import Cash.Lib.Dict
import Cash.Lib.Offsets

/-!
# The places of containers in a tree

`_ordered_levels`, `_path_to` and `tree_paths` (`_plain_data.py`).
-/

namespace Cash.Copies

/-- A step of a path: `("key", k)` or `("item", i)`. -/
inductive Step
  | key (k : Atom)
  | item (i : Nat)
deriving DecidableEq, Repr

/-- `[level, positions]`: the containers, and where each sits in the level above's `flat` (nowhere for the top). -/
structure Placed where
  here : Level
  positions : List Nat

/-- `_ordered_levels` from a level on, for at most so many levels; `none` for `_NotPlain`. -/
def orderedLevelsFrom (leaves : List Ty) (h : Heap) : Nat → List Nat → List Nat → Option (List Placed)
  | 0, _, _ => none
  | n + 1, level, positions =>
    let here := Level.of h level
    let isNode := here.types.map Ty.isNode
    if !here.keyTypes.all (· ∈ leaves) then none
    else if !here.types.all (fun t => t ∈ leaves || t.isNode) then none
    else if !isNode.any id then some [⟨here, positions⟩]
    else (orderedLevelsFrom leaves h n (refs (compress here.flat isNode))
        (compress (List.range here.flat.length) isNode)).map (⟨here, positions⟩ :: ·)

/-- The step into item `offset` of a container: a dict's key there, and the index in a list or a tuple, which has no
keys. -/
def stepTo (h : Heap) (container offset : Nat) : Step :=
  match (h.obj container).keys[offset]? with
  | some k => .key k
  | none => .item offset

/-- The steps of `_path_to` from the container at `i` of the first level up, the levels innermost first. -/
def stepsUp (h : Heap) : List Placed → Nat → List Step
  | l :: above :: rest, i =>
    let lengths := above.here.level.map fun a => (h.obj a).items.length
    let flatAt := l.positions.getD i 0
    let parent := Offsets.listAt lengths flatAt
    stepTo h (above.here.level.getD parent 0) (Offsets.offsetAt lengths flatAt) :: stepsUp h (above :: rest) parent
  | _, _ => []

/-- `_path_to`. -/
def pathTo (h : Heap) (levels : List Placed) (i : Nat) : List Step := (stepsUp h levels i).reverse

/-- `found`. -/
abbrev Found := Dict Nat (List (List Step))

/-- `found.setdefault(id, []).append(path)`. -/
def Found.append (found : Found) (id : Nat) (path : List Step) : Found := found.insert id (found.getD id [] ++ [path])

/-- The hits of a level: the wanted containers in it. -/
def Placed.hits (l : Placed) (wanted : List Nat) : List (Nat × Nat) :=
  (l.here.level.zipIdx).filter fun p => p.1 ∈ wanted

/-- The loop of `tree_paths`, with the levels before, innermost first. -/
def collect (h : Heap) (wanted : List Nat) : List Placed → List Placed → Found → Found
  | _, [], found => found
  | before, l :: levels, found =>
    collect h wanted (l :: before) levels
      ((l.hits wanted).foldl (fun found p => found.append p.1 (pathTo h (l :: before) p.2)) found)

/-- `tree_paths`. -/
def treePaths (h : Heap) (value : Val) (wanted : List Nat) (leaves : List Ty) : Option Found :=
  match value with
  | .atom _ => none
  | .ref a =>
    if (h.obj a).type = .tuple then none
    else (orderedLevelsFrom leaves h Plain.maxLevels [a] []).map fun levels => collect h wanted [] levels ∅

/-! ## Paths -/

/-- One step down: `x[k]` of a dict, `x[i]` of a list or a tuple. -/
def Heap.stepDown (h : Heap) : Val → Step → Option Val
  | .atom _, _ => none
  | .ref a, .key k =>
    match h.obj a with
    | .dict items => (items.find? fun p => p.1 = k).map (·.2)
    | _ => none
  | .ref a, .item i =>
    match h.obj a with
    | .dict _ => none
    | o => o.items[i]?

/-- What a path leads to. -/
def Heap.follow (h : Heap) : Val → List Step → Option Val
  | x, [] => some x
  | x, s :: path => (h.stepDown x s).bind fun y => h.follow y path

/-- JSON-like data over the leaves: dicts, lists and tuples within so many levels. -/
structure JsonLike (h : Heap) (leaves : List Ty) (x : Val) : Prop where
  types : ∀ path y, h.follow x path = some y → h.type y ∈ leaves ∨ (h.type y).isNode = true
  keys : ∀ path a, h.follow x path = some (.ref a) → ∀ k ∈ (h.obj a).keys, Ty.leaf k.kind ∈ leaves
  depth : ∀ path a, h.follow x path = some (.ref a) → path.length < Plain.maxLevels

end Cash.Copies
