import Cash.Copies.Heap

/-!
# Copies of plain data, and copies by a plan

`copy_plain`, `copy_plan` and `copy_by_plan` (`_plain_data.py`).
-/

namespace Cash.Copies

/-! ## Levels -/

/-- `_levels` below the sequences `level`: the items of each level and their types; `none` for `_NotPlain`. -/
def levelsFrom (fakes : List String) (h : Heap) : Nat → List Nat → Option (List (List Val × List Ty))
  | 0, _ => none
  | n + 1, level =>
    let flat := level.flatMap fun a => (h.obj a).items
    let types := flat.map h.type
    if !types.all (fun t => t.isLeaf fakes || t.isSeq) then none
    else if types.all (Ty.isLeaf fakes) then some [(flat, types)]
    else (levelsFrom fakes h n (refs flat)).map ((flat, types) :: ·)

/-- The levels of an exact list or tuple. -/
def plainLevels (rt : Runtime) (h : Heap) : Val → Option (List (List Val × List Ty))
  | .atom _ => none
  | .ref a => if (h.obj a).type.isSeq then levelsFrom rt.fakes h Plain.maxLevels [a] else none

/-- `immutable_below`. -/
def immutableBelow (rt : Runtime) (h : Heap) (value : Val) : Bool :=
  match plainLevels rt h value with
  | none => false
  | some levels => levels.all fun l => l.2.all fun t => t.isCopyLeaf || t == .tuple

/-- `level_types`. -/
def levelTypes (rt : Runtime) (h : Heap) (value : Val) : Option (List (List Ty)) :=
  (plainLevels rt h value).map (·.map (·.2))

/-! ## Pickling -/

/-- `pickle.dumps`: the containers written so far, in the order they are written. One written before is written as a
reference to it. `none` for a `RecursionError`. -/
def dumps (h : Heap) : Nat → List Nat → Val → Option (List Nat)
  | 0, _, _ => none
  | _ + 1, written, .atom _ => some written
  | n + 1, written, .ref a =>
    if a ∈ written then some written else (h.obj a).items.foldlM (dumps h n) (written ++ [a])

/-- The copy of what a container holds. -/
def reread (h : Heap) (written : List Nat) : Val → Val
  | .atom a => .atom a
  | .ref a => .ref (h.length + written.idxOf a)

def Obj.map (f : Val → Val) : Obj → Obj
  | .list xs => .list (xs.map f)
  | .tuple xs => .tuple (xs.map f)
  | .dict xs => .dict (xs.map fun p => (p.1, f p.2))

/-- `pickle.loads` of it: each container written is made once. -/
def loads (h : Heap) (written : List Nat) (value : Val) : Heap × Val :=
  (h ++ written.map fun a => (h.obj a).map (reread h written), reread h written value)

/-! ## `copy_plain` -/

/-- `_row_held_twice`. -/
def rowHeldTwice (rt : Runtime) (h : Heap) (rows : List Val) : Bool :=
  let lists := refs (rows.filter fun x => h.type x == .list)
  let refcounts :=
    if rows.all fun x => h.type x == .list then lists.map (getrefcount rt h [])
    else lists.map (getrefcount rt h [lists])
  let heldOnce := if rows.all fun x => h.type x == .list then unsharedRefs rt - 1 else unsharedRefs rt
  !lists.isEmpty && refcounts.any (heldOnce < ·) && lists.dedup.length != lists.length

/-- `[list(x) if type(x) is list else x for x in value]`. -/
def copyRows (h : Heap) : List Val → Heap × List Val
  | [] => (h, [])
  | x :: xs =>
    if h.type x == .list then
      let (h', copied) := h.alloc (.list (h.kids x))
      let (h', rows) := copyRows h' xs
      (h', .ref copied :: rows)
    else
      let (h', rows) := copyRows h xs
      (h', x :: rows)

/-- A list per row, for rows over immutables. -/
def copyTwoLevels (h : Heap) (value : Val) (top : List Ty) : Heap × Val :=
  let (h', rows) :=
    if top.dedup == [.list] then
      let (h', made) := copyEach h (refs (h.kids value))
      (h', made.map Val.ref)
    else copyRows h (h.kids value)
  let (h', copied) := h'.alloc (if h.type value == .tuple then .tuple rows else .list rows)
  (h', .ref copied)

/-- The two levels `copyTwoLevels` is for: rows and immutables over immutables. -/
def twoLevels : List (List Ty) → Option (List Ty)
  | [top, rows] => if rows.all Ty.isCopyLeaf && top.all (fun t => t.isSeq || t.isCopyLeaf) then some top else none
  | _ => none

/-- The rest of `copy_plain`: level by level, else through a pickle. -/
def copyDeep (rt : Runtime) (h : Heap) (value : Val) : Option (Heap × Val) :=
  match spineCopy rt h value [] none with
  | some (h', _, copy) => some (h', copy)
  | none => (dumps h rt.recursionLimit [] value).map fun written => loads h written value

/-- `copy_plain`: `none` for `(False, None)`, and where the pickle raises. -/
def copyPlain (rt : Runtime) (h : Heap) (value : Val) (immutable : Option Bool) (levels : Option (List (List Ty))) :
    Option (Heap × Val) :=
  if immutable.getD (immutableBelow rt h value) then
    if h.type value == .list then
      let (h', copied) := h.alloc (.list (h.kids value))
      some (h', .ref copied)
    else some (h, value)
  else
    match levels.or (levelTypes rt h value) with
    | none => none
    | some levels =>
      match twoLevels levels with
      | some top => if rowHeldTwice rt h (h.kids value) then copyDeep rt h value else some (copyTwoLevels h value top)
      | none => copyDeep rt h value

/-! ## Plans -/

def planKeys : Nat := 32

def planDepth : Nat := 3

/-- How a part is copied. -/
inductive Plan
  | parts (plans : List (Atom × Plan))
  | share | newList | rows | spine
deriving Repr

/-- `copy_plan` of what is no small dict near the top. -/
def planOf (rt : Runtime) (h : Heap) (value : Val) : Plan :=
  if (h.type value).isCopyLeaf then .share
  else if (h.type value).isSeq then
    if immutableBelow rt h value then
      if h.type value == .tuple then .share else .newList
    else if h.type value == .list && !(h.kids value).isEmpty && (h.kids value).all (fun x => h.type x == .dict) &&
        ((h.kids value).flatMap h.kids).all fun x => (h.type x).isCopyLeaf then .rows
    else .spine
  else .spine

/-- `copy_plan`, with `depth` levels of dicts left to follow. -/
def copyPlan (rt : Runtime) (h : Heap) : Nat → Val → Plan
  | 0, value => planOf rt h value
  | depth + 1, .ref a =>
    match h.obj a with
    | .dict items =>
      if items.length ≤ planKeys then .parts (items.map fun p => (p.1, copyPlan rt h depth p.2))
      else planOf rt h (.ref a)
    | _ => planOf rt h (.ref a)
  | _ + 1, value => planOf rt h value

/-- Is it `None`? -/
def isNone (h : Heap) (x : Val) : Bool := h.type x == .leaf .none

/-- The items of a dict. -/
def dictItems (h : Heap) : Val → List (Atom × Val)
  | .atom _ => []
  | .ref a => match h.obj a with
    | .dict items => items
    | _ => []

mutual

/-- `copy_by_plan`: `none` where a part could not be copied that way. -/
def copyByPlan (rt : Runtime) (h : Heap) (value : Val) : Plan → Option (Heap × Val)
  | .parts plans =>
    (copyParts rt h (dictItems h value) plans).map fun (h', copied) => (h' ++ [.dict copied], .ref h'.length)
  | .share => some (h, value)
  | .newList => some (h ++ [.list (h.kids value)], .ref h.length)
  | .rows =>
    let (h', rows) := copyEach h (refs (h.kids value))
    some (h' ++ [.list (rows.map .ref)], .ref h'.length)
  | .spine => (spineCopy rt h value [] none).map fun (h', _, copy) => (h', copy)

/-- The keys of the plan in turn, `copy_by_plan(value[key], part)` for each. -/
def copyParts (rt : Runtime) (h : Heap) (items : List (Atom × Val)) :
    List (Atom × Plan) → Option (Heap × List (Atom × Val))
  | [] => some (h, [])
  | (key, part) :: plans =>
    match items.lookup key with
    | none => none
    | some item =>
      match copyByPlan rt h item part with
      | some (h', copy) => (copyParts rt h' items plans).map fun (h', copied) => (h', (key, copy) :: copied)
      -- `None` is also what `None` is copied to.
      | none =>
        if isNone h item then (copyParts rt h items plans).map fun (h', copied) => (h', (key, item) :: copied)
        else none

end

end Cash.Copies
