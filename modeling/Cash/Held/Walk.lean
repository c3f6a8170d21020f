import Cash.Held.Kernels
import Cash.Lib.While
import Mathlib.Algebra.GroupWithZero.Nat

/-!
# The walk over what a value holds

The Python branches of `_visit_group`, `_plain_records`, `_by_type` and `_next_level`, and `_walk` with the kernels or
without. The branches of `_visit_group` for other objects than exact dicts and sequences are one parameter, which both
walks take. `none` is a `TypeError`.
-/

namespace Cash.Held

variable {O T K F : Type} [DecidableEq T] [DecidableEq K]

namespace Heap

variable (heap : Heap O T)

/-- `set(map(type, objects))`. -/
def kinds (objects : List O) : Option (List T) :=
  if objects.all fun o => heap.hashable (heap.kindOf o) then some (Grouping.distinct heap.same (objects.map heap.kindOf)) else none

/-- `kinds <= leaves`. -/
def within (kinds leaves : List T) : Bool := kinds.all (heap.member leaves)

/-! ## Exact sequences and dicts -/

/-- `_visit_group` for exact lists, tuples, sets or frozensets. -/
def sequenceChildren (group : List O) (leaves : List T) (children : List O) : Option (List O) := do
  let kinds ← heap.kinds (group.flatMap heap.items)
  return if heap.within kinds leaves then children else children ++ group.flatMap heap.items

/-- Whether the keys of exact dicts lead anywhere. -/
def keysLead (keys : List O) (leaves : List T) : Option Bool := do
  let keyKinds ← heap.kinds keys
  if heap.within keyKinds leaves then return false
  if heap.within keyKinds (Grouping.add heap.same leaves heap.tuple) then
    let kinds ← heap.kinds ((keys.filter heap.isTuple).flatMap heap.items)
    return !heap.within kinds leaves
  return true

/-- `_visit_group` for exact dicts. -/
def entryChildren (group : List O) (leaves : List T) (children : List O) : Option (List O) := do
  let keys := group.flatMap fun d => (heap.entries d).map (·.1)
  let values := group.flatMap fun d => (heap.entries d).map (·.2)
  let lead ← heap.keysLead keys leaves
  let children := if lead then children ++ keys else children
  let kinds ← heap.kinds values
  return if heap.within kinds leaves then children else children ++ values

/-- What `_plain_records` reads of a group. -/
def recordItems (mode : Mode) (group : List O) : List O :=
  if mode = .sequences then group.flatMap heap.items
  else
    (if mode.wantKeys then group.flatMap fun d => (heap.entries d).map (·.1) else []) ++
      if mode.wantValues then group.flatMap fun d => (heap.entries d).map (·.2) else []

/-- `_plain_records`, and what the other modes of `leaf_items` stand for. -/
def plainRecords (group : List O) (mode : Mode) (leaves : List T) : Option Bool := do
  let kinds ← heap.kinds (heap.recordItems mode group)
  return heap.within kinds leaves

/-! ## The next level -/

/-- `_by_type` where more than one class is counted. -/
def splitMajors (objects : List O) (counts : List (T × Nat)) : List (T × List O) :=
  let majors := (counts.filter fun kind => kind.2 * major > objects.length).map (·.1)
  let groups := majors.map fun kind => (kind, objects.filter fun o => decide (heap.kindOf o = kind))
  if majors.length < counts.length then
    Grouping.collect heap.same heap.kindOf groups (objects.filter fun o => !heap.member majors (heap.kindOf o))
  else groups

/-- `_by_type`. -/
def byType (objects : List O) (kinds : List T) : List (T × List O) :=
  match kinds with
  | [kind] => [(kind, objects)]
  | _ =>
      match Grouping.tally heap.same (objects.map heap.kindOf) with
      | [(kind, _)] => [(kind, objects)]
      | counts => heap.splitMajors objects counts

/-- What `_next_level` sorts. -/
def others (children : List O) (skipped : List T) (extra : List O) : List O :=
  children.filter (fun c => !heap.member skipped (heap.kindOf c)) ++ extra

/-- `_next_level` up to the dedup. -/
def splitByType (children : List O) (skipped : List T) (extra : List O) : Option (List (T × List O)) := do
  let childKinds ← heap.kinds children
  let extraKinds ← heap.kinds extra
  return heap.byType (heap.others children skipped extra)
    (Grouping.union heap.same (childKinds.filter fun kind => !heap.member skipped kind) extraKinds)

end Heap

/-- The dedup of `_next_level`. -/
def foundIn (key : O → K) (group : List O) (seen : List K) : List O × List K :=
  let found := Grouping.build (fun k k' => decide (k = k')) key (fun o _ => o) [] group
  let found := found.filter fun item => item.1 ∉ seen
  (found.map (·.2), seen ++ found.map (·.1))

/-! ## The walk -/

/-- What a walk reads of the program besides the objects. -/
structure Walker (O T K F : Type) where
  heap : Heap O T
  /-- `_leaves()`. -/
  leaves : List T
  /-- `_inert`. -/
  inert : T → Bool
  /-- The order a set of classes gives them in. -/
  ordered : List T → List T
  /-- The class as an object. -/
  classObject : T → O
  /-- `_identity_hashed`. -/
  identityHashed : T → Bool
  /-- The object itself, or its `id`, as a set compares them. -/
  key : Bool → O → K
  key_id : ∀ o o', key false o = key false o' → o = o'
  key_object : ∀ o o', identityHashed (heap.kindOf o) = true → heap.kindOf o' = heap.kindOf o → key true o = key true o' → o = o'
  /-- Whether a class is one of modules. -/
  isModule : T → Bool
  /-- `_visit_group` for a group that is not of exact dicts or sequences: what is found, and the children. -/
  visitOther : T → List O → F → List O → Option (F × List O)
  /-- `_plain_records` for such a group. -/
  plainOther : T → List O → Option Bool
  /-- `functions or classes or _anything_to_find(namespace)`. -/
  worth : F → Bool

/-- Objects to visit, by their class. -/
structure Group (O T : Type) where
  kind : T
  objects : List O
  objects_ne : objects ≠ []

namespace Walker

variable (walker : Walker O T K F)

/-- The branches of `_visit_group` in Python. -/
def visitPython (kind : T) (group : List O) (found : F) (children : List O) : Option (F × List O) :=
  if kind = walker.heap.dict ∧ group.all walker.heap.isDict then
    (walker.heap.entryChildren group walker.leaves children).map (found, ·)
  else if kind ∈ walker.heap.sequences ∧ group.all walker.heap.isSequence then
    (walker.heap.sequenceChildren group walker.leaves children).map (found, ·)
  else walker.visitOther kind group found children

/-- `_visit_group`. -/
def visitGroup (kernels : Bool) (group : Group O T) (found : F) (children : List O) : Option (F × List O) :=
  if walker.isModule group.kind then some (found, children)
  else
    let python := walker.visitPython group.kind group.objects found children
    if kernels then
      if group.kind = walker.heap.dict then
        match dictChildren walker.heap group.objects walker.leaves children with
        | (true, children) => some (found, children)
        | (false, _) => python
      else if walker.heap.member walker.heap.sequences group.kind then
        match seqChildren walker.heap group.objects walker.leaves children with
        | (true, children) => some (found, children)
        | (false, _) => python
      else python
    else python

/-- The groups of a level. -/
def visitLevel (kernels : Bool) (found : F) (children : List O) : List (Group O T) → Option (F × List O)
  | [] => some (found, children)
  | group :: level => do
      let (found, children) ← walker.visitGroup kernels group found children
      visitLevel kernels found children level

/-- The mode `_plain_records` passes. -/
def recordMode (kind : T) : Mode := if kind = walker.heap.dict then .records else .sequences

/-- `_plain_records`. -/
def plainRecords (kernels : Bool) (kind : T) (group : List O) : Option Bool :=
  let python :=
    if group.all ((walker.recordMode kind).exact walker.heap) then
      walker.heap.plainRecords group (walker.recordMode kind) walker.leaves
    else walker.plainOther kind group
  if kernels then
    match leafItems walker.heap group (walker.recordMode kind) walker.leaves with
    | some answer => some answer
    | none => python
  else python

/-- `_PLAIN`. -/
def plain : List T := [walker.heap.dict, walker.heap.list, walker.heap.tuple]

/-- The loop of `_next_level`. -/
def dedup (kernels : Bool) (seen : List K) : List (T × List O) → Option (List (Group O T) × List K)
  | [] => some ([], seen)
  | (kind, group) :: groups => do
      let isPlain ← if walker.heap.member walker.plain kind then walker.plainRecords kernels kind group else some false
      if isPlain then dedup kernels seen groups
      else
        let key := walker.key (walker.identityHashed kind)
        let new := if kernels then newIn key group seen else foundIn key group seen
        let (level, seen) ← dedup kernels new.2 groups
        return (if h : new.1 ≠ [] then ⟨kind, new.1, h⟩ :: level else level, seen)

/-- The classes of inert children, as objects. -/
def extra (childKinds : List T) : List O := (walker.ordered (childKinds.filter walker.inert)).map walker.classObject

/-- What is not sorted: the leaves and the inert. -/
def skipped (childKinds : List T) : List T := Grouping.union walker.heap.same walker.leaves (childKinds.filter walker.inert)

def split (kernels : Bool) (children : List O) (childKinds : List T) : Option (List (T × List O)) :=
  let python := walker.heap.splitByType children (walker.skipped childKinds) (walker.extra childKinds)
  if kernels then
    match splitLevel walker.heap children (walker.skipped childKinds) (walker.extra childKinds) with
    | some groups => some groups
    | none => python
  else python

/-- `_next_level`. -/
def nextLevel (kernels : Bool) (children : List O) (seen : List K) : Option (List (Group O T) × List K) := do
  let childKinds ← if kernels then typeSet walker.heap none [] children else walker.heap.kinds children
  let groups ← walker.split kernels children childKinds
  walker.dedup kernels seen groups

end Walker

/-- `WALK_LIMIT`. -/
def walkLimit : Nat := 2000000

/-- The locals of `_walk`. -/
structure Walk (O T K F : Type) where
  checkAt : Option Nat
  visited : Nat
  level : List (Group O T)
  seen : List K
  found : F

/-- How a walk ends: with what it found and whether it is complete, or with an exception. -/
inductive Ended (F : Type)
  | found (found : F) (complete : Bool)
  | noNotebookFunctions
  | typeError

inductive Stage (O T K F : Type)
  | walking (walk : Walk O T K F)
  | ended (result : Ended F)

/-- How many objects a level has. -/
def size (level : List (Group O T)) : Nat := (level.map fun group => group.objects.length).sum

namespace Walker

variable (walker : Walker O T K F)

/-- `check_at` is passed. -/
def checks (checkAt : Option Nat) (visited : Nat) : Bool := checkAt.any fun at' => decide (visited > at')

/-- A level of the walk. -/
def round (kernels : Bool) (walk : Walk O T K F) : Stage O T K F :=
  if walk.level.isEmpty then .ended (.found walk.found true)
  else
    let visited := walk.visited + size walk.level
    let first := checks walk.checkAt visited
    let checkAt := if first then none else walk.checkAt
    if first && !walker.worth walk.found then .ended .noNotebookFunctions
    else if visited > walkLimit then .ended (.found walk.found false)
    else
      match walker.visitLevel kernels walk.found [] walk.level with
      | none => .ended .typeError
      | some (found, children) =>
          if children.isEmpty then .ended (.found found true)
          else
            let second := checks checkAt (visited + children.length)
            let checkAt := if second then none else checkAt
            if second && !walker.worth found then .ended .noNotebookFunctions
            else
              match walker.nextLevel kernels children walk.seen with
              | none => .ended .typeError
              | some (level, seen) => .walking ⟨checkAt, visited, level, seen, found⟩

def turn (kernels : Bool) : Stage O T K F → While.Turn (Stage O T K F)
  | .walking walk =>
      match walker.round kernels walk with
      | .walking walk => .again (.walking walk)
      | .ended result => .done (.ended result)
  | .ended result => .done (.ended result)

/-- Where `_walk` starts. -/
def start (value : O) (found : F) (checkAt : Option Nat) : Stage O T K F :=
  if walker.heap.hashable (walker.heap.kindOf value) then
    .walking ⟨checkAt, 0, [⟨walker.heap.kindOf value, [value], List.cons_ne_nil value []⟩],
      [walker.key (walker.identityHashed (walker.heap.kindOf value)) value], found⟩
  else .ended .typeError

/-- `_walk`. -/
def walk (kernels : Bool) (fuel : Nat) (value : O) (found : F) (checkAt : Option Nat) : Option (Stage O T K F) :=
  While.loop (fun _ => walker.turn kernels) fuel 0 (walker.start value found checkAt)

end Walker

end Cash.Held
