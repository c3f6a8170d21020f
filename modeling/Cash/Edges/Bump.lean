import Cash.Edges.Record
import Mathlib.Data.List.Lex
import Mathlib.Data.List.Sort
import Cash.Lib.Stack

/-!
# Changes in place and shared objects
-/

namespace Cash.Edges

open Py

/-!
## A change in place and what it moves on

`text_bound_names` and `bump_derived_lineages` (`statement/derivation_edges.py`).
-/

section

/-! ### The names a text binds -/

/-- A node of a text's tree. Of the functions, classes and lambdas it defines, what is outside their bodies. -/
inductive Node
  /-- The decorators, and the defaults there are. -/
  | functionDef (name : Str) (decorators defaults kwDefaults : List Node)
  | classDef (name : Str) (decorators : List Node)
  | lambda
  | name (id : Str) (store : Bool)
  /-- `name` and `asname` of each alias. -/
  | imports (aliases : List (Str × Option Str))
  | exceptHandler (name : Option Str) (children : List Node)
  | other (children : List Node)

/-- `(alias.asname or alias.name).split(".")[0]`. -/
def importedName : Str × Option Str → Str
  | (name, asname) =>
    let bound := match asname with
      | some (c :: cs) => c :: cs
      | _ => name
    bound.takeWhile (· ≠ 46)

mutual
/-- What a node and those below it bind. -/
def Node.bound : Node → List Str
  | .functionDef name decorators defaults kwDefaults =>
    name :: boundBy decorators ++ boundBy defaults ++ boundBy kwDefaults
  | .classDef name decorators => name :: boundBy decorators
  | .lambda => []
  | .name id store => if store then [id] else []
  | .imports aliases => aliases.map importedName
  | .exceptHandler (some (c :: cs)) children => (c :: cs) :: boundBy children
  | .exceptHandler _ children => boundBy children
  | .other children => boundBy children

def boundBy : List Node → List Str
  | [] => []
  | node :: nodes => node.bound ++ boundBy nodes
end

/-- `text_bound_names` of a text that was parsed, or was not. -/
def textBoundNames (tree : Option (List Node)) : Option (List Str) := tree.map boundBy

/-! ### The arguments of a call -/

/-- What `bump_derived_lineages` is told of a statement. -/
structure Change where
  outputs : OrderedSet Str
  inputs : OrderedSet Str
  skip : OrderedSet Str
  kept : OrderedSet Str
  present : Str → Bool
  /-- The tree of the text, where one is given; no tree where it does not parse. -/
  code : Option (Option (List Node))
  before : Option EdgeMap

/-- `sorted`. -/
def sorted (names : List Str) : List Str := names.insertionSort (· ≤ ·)

/-- `sorted(derivation_edges.get(src, ()))`. -/
def EdgeMap.targets (edges : EdgeMap) (src : Str) : List Str := sorted (edges.getD src .empty).items

/-- `_linked_before`. -/
def linkedBefore (before : EdgeMap) (src target : Str) : Bool :=
  target ∈ before.getD src .empty || src ∈ before.getD target .empty

namespace Change

variable (c : Change)

/-- `frontier`, as it is to begin with: the outputs that are read, and those that the text does not bind. -/
def seeds (edges : EdgeMap) : List Str :=
  let read := sorted (c.outputs.items.filter fun o => o ∈ edges ∧ o ∈ c.inputs)
  let unread := sorted (c.outputs.items.filter fun o => o ∈ edges ∧ o ∉ c.inputs)
  read ++ match c.code.bind textBoundNames with
    | some bound => unread.filter (· ∉ bound)
    | none => []

/-- A new edge to an input is one of a creation. -/
def isCreation (src target : Str) : Bool :=
  match c.before with
  | some before => target ∈ c.inputs && !linkedBefore before src target
  | none => false

/-- The target is not passed by: it is no output and not kept, the edge is not one of a creation, and it is present. -/
def bumps (src target : Str) : Bool :=
  !(target ∈ c.outputs || target ∈ c.kept) && !c.isCreation src target && c.present target

end Change

/-! ### The walk -/

structure Walk where
  /-- The name to pop first. -/
  frontier : List Str
  visited : List Str
  lineages : Dict Str Str
  bumped : OrderedSet Str
  /-- The calls of `record`. -/
  records : List (Str × Str)

variable (sha256 : Str → Str) (edges : EdgeMap) (c : Change)

/-- `hashlib.sha256(f"{old}:{src_lineage}")`. -/
def newHash (old srcLineage : Str) : Str := sha256 (old ++ 58 :: srcLineage)

/-- A target of `src` is bumped. -/
def Walk.bump (src srcLineage : Str) (w : Walk) (target : Str) : Walk :=
  let old := w.lineages.getD target []
  if c.bumps src target = false then w
  else if newHash sha256 old srcLineage = old then w
  else
    { w with
      lineages := w.lineages.insert target (newHash sha256 old srcLineage)
      records := w.records ++ [(target, newHash sha256 old srcLineage)]
      bumped := w.bumped.add target
      frontier :=
        if target ∉ c.skip ∧ target ∉ w.visited ∧ target ∈ edges then target :: w.frontier else w.frontier }

/-- One turn of the loop. -/
def Walk.step (w : Walk) : Walk :=
  match w.frontier with
  | [] => w
  | src :: frontier =>
    if src ∈ w.visited then { w with frontier := frontier }
    else
      let w := { w with frontier := frontier, visited := src :: w.visited }
      match w.lineages.lookup src with
      | none => w
      | some srcLineage => (edges.targets src).foldl (Walk.bump sha256 edges c src srcLineage) w

/-- As many turns as the loop can take. -/
def Walk.size (w : Walk) : Nat :=
  w.frontier.length + ((edges.keys.filter (· ∉ w.visited)).map fun src => (edges.targets src).length).sum

def Change.start (lineages : Dict Str Str) : Walk where
  frontier := (c.seeds edges).reverse
  visited := []
  lineages := lineages
  bumped := .empty
  records := []

/-- `bump_derived_lineages`. Without edges there is nothing to begin with. -/
def bumpDerivedLineages (lineages : Dict Str Str) : Walk :=
  (Walk.step sha256 edges c)^[(c.start edges lineages).size edges] (c.start edges lineages)

/-! ### What is moved on -/

/-- An output that is changed in place: it is read, or the text does not bind it. -/
def Change.ChangedInPlace (o : Str) : Prop :=
  o ∈ c.outputs ∧ (o ∈ c.inputs ∨ ∃ bound, c.code.bind textBoundNames = some bound ∧ o ∉ bound)

/-- Reached along edges from an output changed in place that has a lineage, through names that are not in `skip`. -/
inductive Moved (lineages : Dict Str Str) (edge : Str → Str → Prop) : Str → Prop
  | first {src target : Str} : c.ChangedInPlace src → lineages.lookup src ≠ none → edge src target →
      Moved lineages edge target
  | next {src target : Str} : Moved lineages edge src → src ∉ c.skip → edge src target → Moved lineages edge target

/-- An edge to a target that is not passed by. -/
def Bumps (src target : Str) : Prop := edges.Edge src target ∧ c.bumps src target = true

/-- The lineages a name has had, from the first on. -/
def Walk.held (lineages : Dict Str Str) (w : Walk) (name : Str) : List Str :=
  (lineages.lookup name).toList ++ (w.records.filter (·.1 = name)).map (·.2)

/-- No chain of hashes leads back: there is a rank that a hash is above what it is made of. -/
def LeadsOn : Prop := ∃ rank : Str → Nat, ∀ old srcLineage, rank old < rank (newHash sha256 old srcLineage)

/-! ### The same in another order -/

/-- The same elements. -/
def SameElements (names names' : OrderedSet Str) : Prop := ∀ name, name ∈ names ↔ name ∈ names'

/-- The same sets under the same keys. -/
def EdgeMap.Same (edges edges' : EdgeMap) : Prop :=
  ∀ src, Option.Rel SameElements (edges.lookup src) (edges'.lookup src)

/-- The same statement, its sets and dicts in whatever order. -/
structure Change.Same (c c' : Change) : Prop where
  outputs : SameElements c.outputs c'.outputs
  inputs : SameElements c.inputs c'.inputs
  skip : SameElements c.skip c'.skip
  kept : SameElements c.kept c'.kept
  present : c.present = c'.present
  code : c.code = c'.code
  before : Option.Rel EdgeMap.Same c.before c'.before

end

/-!
## What shares an object with a rebuilt one

`shared_object_partners` (`statement/derivation_edges.py`) and `_rebuild_what_shares_a_rebuilt_object`
(`upstream/mismatch_classifier.py`).
-/

section

open Relation (ReflTransGen)

/-- `shared_object_partners`. -/
def sharedObjectPartners (edges : EdgeMap) (var : Str) : OrderedSet Str :=
  ((OrderedSet.empty.update (edges.getD var .empty).items).update
    (edges.keys.filter fun src => var ∈ edges.getD src .empty)).discard var

/-- The names that have an edge. -/
def EdgeMap.names (edges : EdgeMap) : List Str := edges.keys ++ edges.keys.flatMap fun src => (edges.getD src .empty).items

/-- What a cell's run is classified against. -/
structure Notebook where
  edges : EdgeMap
  /-- `name in user_ns`. -/
  live : Str → Bool
  /-- The outputs of the trace's entries. -/
  trace : List (Option (List Str))
  /-- `_bound_in_cells`. -/
  inCells : List Str

namespace Notebook

variable (nb : Notebook)

/-- The live partners of a name. -/
def partners (name : Str) : List Str := (sharedObjectPartners nb.edges name).items.filter nb.live

/-- `group`. -/
def group (root : Str) : OrderedSet Str :=
  .grow nb.partners (nb.edges.names.length + 1) [root] (OrderedSet.empty.add root)

/-- No statement makes the name. -/
def isOrphan (name : Str) : Bool := name ∉ nb.trace.flatMap (·.getD []) && name ∉ nb.inCells

/-- `broken_vars -= group`. -/
def without (broken group : OrderedSet Str) : OrderedSet Str :=
  ⟨broken.items.filter (· ∉ group), broken.nodup.filter _⟩

/-- One turn of the loop over the roots. -/
def turn (broken : OrderedSet Str) (root : Str) : OrderedSet Str :=
  if root ∉ broken then broken
  else
    let added := (nb.group root).items.filter (· ∉ broken)
    if added = [] then broken
    else if added.any nb.isOrphan then without broken (nb.group root)
    else broken.update added

/-- The loop over the roots in some order. -/
def rebuildInOrder (roots : List Str) (broken : OrderedSet Str) : OrderedSet Str := roots.foldl nb.turn broken

/-- `_rebuild_what_shares_a_rebuilt_object`. Without edges or broken names no turn changes anything. -/
def rebuildWhatSharesARebuiltObject (broken : OrderedSet Str) : OrderedSet Str :=
  nb.rebuildInOrder (sorted broken.items) broken

/-! ### Components -/

/-- An edge between two names, either way. -/
def Partner (a b : Str) : Prop := a ≠ b ∧ (nb.edges.Edge a b ∨ nb.edges.Edge b a)

/-- Reached through edges to live names. -/
def Reaches (a b : Str) : Prop := ReflTransGen (fun x y => nb.Partner x y ∧ nb.live y = true) a b

/-- Among the names that a broken one reaches there is an orphan that was not broken. -/
def Stuck (broken : OrderedSet Str) (root : Str) : Prop :=
  ∃ orphan, nb.Reaches root orphan ∧ orphan ∉ broken ∧ nb.isOrphan orphan = true

/-- A broken name that is not live and reaches no such orphan reaches no live name that one with such an orphan
reaches. -/
def Apart (broken : OrderedSet Str) : Prop :=
  ∀ root ∈ broken, nb.live root = false → ¬nb.Stuck broken root →
    ∀ other ∈ broken, nb.Stuck broken other → ∀ name, nb.live name = true → nb.Reaches root name → ¬nb.Reaches other name

end Notebook

end

end Cash.Edges
