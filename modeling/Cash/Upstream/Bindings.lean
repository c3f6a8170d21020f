import Cash.Lib.Search
import Cash.Lib.Stack
import Cash.Upstream.Simulation
import Mathlib.Algebra.BigOperators.Group.Finset.Basic

/-!
# Pending re-bindings

`_needs_lineage_repair` and `_repair_upstream_rerun_bindings` (`upstream/mismatch_classifier.py`). The sets of the
trace have no order of their own: what iterates them is given the orders they come out in.
-/

namespace Cash.Upstream

open Py
open Relation (ReflTransGen)

/-- What the repair reads. -/
structure Bindings where
  trace : List TraceEntry
  /-- `required_inputs`. -/
  required : Finset Str
  /-- `rerun_bindings`. -/
  pending : Finset Str
  variableLineage : Lineages
  /-- `name in user_ns`. -/
  live : Str → Bool
  /-- `is_lineage_exempt`. -/
  exempt : Str → Bool

/-- `utility_vars`. -/
def utilityVars : List Str :=
  [str "ip", str "cash_magics", str "get_ipython", str "__builtins__", str "In", str "Out"]

namespace Bindings

variable (bs : Bindings)

/-- `producers.get(name, ())`. -/
def producers (name : Str) : List (Finset Str) := (bs.trace.filter (name ∈ ·.outputs)).map (·.inputs)

/-- The names that have producers. -/
def outputs : Finset Str := bs.trace.foldr (fun entry names => entry.outputs ∪ names) ∅

/-- `_needs_lineage_repair`. -/
def needsLineageRepair (name : Str) : Bool :=
  if name ∉ bs.pending ∨ (bs.variableLineage name).isSome then false
  else if name ∈ utilityVars ∨ (str "_").isPrefixOf name then false
  else !bs.exempt name

/-- A name that is repaired when it is come to. -/
def repairs (name : Str) : Bool := name ∈ bs.pending && bs.live name && bs.needsLineageRepair name

/-! ## One run -/

/-- The orders sets come out in. -/
structure Order where
  required : List Str
  inputs : Str → List (List Str)

/-- The lists hold what the sets do. -/
structure Order.Of (bs : Bindings) (o : Order) : Prop where
  required : bs.required.toList.Perm o.required
  inputs : ∀ name, List.Forall₂ List.Perm ((bs.producers name).map Finset.toList) (o.inputs name)

/-- `seen`. -/
def seen (o : Order) : OrderedSet Str :=
  .sweep (fun name => (o.inputs name).flatten)
    (o.required.length + bs.outputs.sum fun name => (o.inputs name).flatten.length) o.required .empty

/-- `name in repaired`. -/
def isRepaired (o : Order) (name : Str) : Bool := name ∈ bs.seen o && bs.repairs name

/-- `built_from_repaired(name)`. -/
def builtFromRepaired (o : Order) (name : Str) (memo : Search.Memo Str) : Bool × Search.Memo Str :=
  Search.found o.inputs (bs.isRepaired o) (bs.outputs.card + 1) [] name memo

/-- The loop over `seen`, in some order: the names that are added to `broken_vars`. -/
def addedFrom (o : Order) : List Str → Search.Memo Str → List Str
  | [], _ => []
  | name :: names, memo =>
    if bs.live name then
      match bs.builtFromRepaired o name memo with
      | (true, memo) => name :: addedFrom o names memo
      | (false, memo) => addedFrom o names memo
    else addedFrom o names memo

/-- `_repair_upstream_rerun_bindings`, with `seen` in the order of the names. -/
def repairUpstreamRerunBindings (o : Order) (names : List Str) (broken : Finset Str) : Finset Str :=
  if bs.pending = ∅ ∨ bs.required = ∅ then broken
  else if ∀ name ∈ names, bs.isRepaired o name = false then broken
  else broken ∪ (bs.addedFrom o names fun _ => none).toFinset

/-! ## What is built from what -/

/-- The name is read to make another. -/
def Reads (a b : Str) : Prop := ∃ inputs ∈ bs.producers a, b ∈ inputs

/-- Reached from the required inputs. -/
def Reached (name : Str) : Prop := ∃ root ∈ bs.required, ReflTransGen bs.Reads root name

/-- A repaired name is reached from the name. -/
def Built (name : Str) : Prop :=
  ∃ repaired, bs.Reached repaired ∧ bs.repairs repaired = true ∧ ReflTransGen bs.Reads name repaired

/-- In every order, exactly the live names between the required inputs and a repaired name are added. -/
def Exact : Prop := ∀ o names, o.Of bs → names.Perm (bs.seen o).items → ∀ broken name,
  name ∈ bs.repairUpstreamRerunBindings o names broken ↔
    name ∈ broken ∨ bs.live name = true ∧ bs.Reached name ∧ bs.Built name

/-- Some order. -/
noncomputable def someOrder : Order where
  required := bs.required.toList
  inputs name := (bs.producers name).map Finset.toList

/-- A repaired name is reached from the name, but not without a name that is being asked when the name is come to from
a live one: asked in turn, and with nothing repaired found of any producer before. -/
def CutOff (name : Str) : Prop :=
  Search.CutOff bs.someOrder.inputs (bs.isRepaired bs.someOrder) (fun top => bs.Reached top ∧ bs.live top = true) name

end Bindings

end Cash.Upstream
