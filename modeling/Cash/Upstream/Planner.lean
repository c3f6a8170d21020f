import Cash.Upstream.CellRun

/-!
# The re-execution planner

`ReexecutionPlanner.plan` over a trace of plain assignments: the backward scan and the completions that follow
it. The passes for consumables, carriers, file writes, figures, process state, closures, import paths and
loops find nothing in such a trace.
-/

namespace Cash.Upstream

open Py

variable {n : Nat}

namespace Repair

variable (r : Repair n)

/-! ## Shadowed names -/

def producers (v : Str) : Finset (Fin n) := Finset.univ.filter fun p => v ∈ (r.node p).outputs

/-- `_complete_shadowed_var_producers` for the input `v` of `i`: whether it schedules `p`. A name with one
producer is left to `_schedule_unshadowed_producer`. -/
def shadowSchedules (i : Fin n) (v : Str) (p : Fin n) : Bool :=
  if (r.producers v).card ≤ 1 then
    match r.trace.before i v, r.live.variableLineage v with
    | some consumed, some live =>
      consumed ≠ live ∧ r.trace.latestProducer v i = some p ∧ r.trace.producedLineages p v = consumed
    | _, _ => false
  else
    match r.trace.before i v, r.trace.virtualLineage v with
    | some consumed, some final =>
      consumed ≠ final ∧ v ∈ (r.node p).outputs ∧
        (r.trace.producedLineages p v = consumed ∨ r.trace.producedLineages p v = final)
    | _, _ => false

/-- One turn of its loop. -/
def addShadowed (run : Finset (Fin n)) : Finset (Fin n) :=
  run ∪ Finset.univ.filter fun p => ∃ i ∈ run, ∃ v ∈ (r.node i).inputs, r.shadowSchedules i v p

def completeShadowedVarProducers (run : Finset (Fin n)) : Finset (Fin n) :=
  Finset.saturate r.addShadowed (n + 1) run

/-! ## Names changed in place -/

/-- The statement binds `v` afresh. -/
def inits (v : Str) (p : Fin n) : Bool :=
  v ∈ (r.node p).outputs ∧ v ∈ (r.node p).topLevelAssignedNames

/-- `_schedule_conditional_producer_inits`: the initialiser of a broken name that a scheduled statement
changes in place, unless one before it is scheduled. -/
def scheduleConditionalProducerInits (broken : Finset Str) (run : Finset (Fin n)) : Finset (Fin n) :=
  run ∪ Finset.univ.filter fun p => ∃ i ∈ run, ∃ v ∈ (r.node i).outputs,
    v ∈ broken ∧ v ∉ (r.node i).topLevelAssignedNames ∧ (∀ q ∈ run, q < i → r.inits v q = false) ∧
      latest (r.inits v) i = some p

/-! ## Inputs that are not there -/

/-- `_live_is_behind_producer`. -/
def liveIsBehindProducer (v : Str) (i : Fin n) : Bool :=
  match r.trace.latestProducer v i, r.live.variableLineage v with
  | some p, some live =>
    r.trace.producedLineages p v ≠ live ∧
      ∃ q < p, v ∈ (r.node q).outputs ∧ r.trace.producedLineages q v = live
  | _, _ => false

/-- The input needs its producer before `i`: it is not bound and no builtin, or bound to what an earlier
producer made. -/
def lacks (v : Str) (i : Fin n) : Bool :=
  if v ∈ r.live.userNs then r.liveIsBehindProducer v i else v ∉ r.builtinNames

def inputProducers (i : Fin n) : List (Fin n) :=
  (List.finRange n).filter fun p => ∃ v ∈ (r.node i).inputs, r.lacks v i ∧ r.trace.latestProducer v i = some p

/-- `_complete_inputs_produced_before`. -/
def completeInputsProducedBefore (run : Finset (Fin n)) : Finset (Fin n) :=
  Finset.worklist r.inputProducers n ((List.finRange n).filter (· ∈ run)) run

/-! ## The plan -/

/-- Inputs back, later producers forward, until neither adds anything. -/
def completeBothWays (run : Finset (Fin n)) : Finset (Fin n) :=
  Finset.saturate (fun run => r.completeLaterProducers (r.completeInputsProducedBefore run)) (n + 1) run

/-- `ReexecutionPlanner.plan`: the statements to run again, in the order of the trace. -/
def plan (broken : Finset Str) : Finset (Fin n) :=
  let run := (r.backwardScanPass broken).run
  let run := r.completeShadowedVarProducers run
  let run := r.scheduleConditionalProducerInits broken run
  let run := r.completeInputsProducedBefore run
  r.completeBothWays run

end Repair

/-- A trace to repair from, of which nothing can be restored. -/
structure Notebook (n : Nat) extends Repair n where
  restores_nothing : ∀ i, entry i = none

/-- The name holds the version of lineage `l`; of no lineage, it need not be bound. -/
def Kernel.Holds (ns : Kernel) (v : Str) (l : Option Str) : Prop :=
  ns.variableLineage v = l ∧ (l ≠ none → v ∈ ns.userNs)

namespace Notebook

variable (r : Notebook n) (broken : Finset Str)

/-- The kernel before statement `k`, when the plan runs. -/
def planned (k : Nat) : Kernel := r.runTo (r.plan broken) (r.backwardScanPass broken).kernel k

/-- The statement writes `v` and does not read it. -/
def Rebinds (k : Fin n) (v : Str) : Prop := v ∈ (r.node k).outputs ∧ v ∉ (r.node k).inputs

/-- The statement writes a broken name, or one the kernel does not hold as the trace leaves it that a wanted statement
after it reads; and none rebinds the name between. -/
def Wanted (i : Fin n) : Prop :=
  ∃ v ∈ (r.node i).outputs,
    if v ∈ broken then ∀ k, i < k → ¬r.Rebinds k v
    else r.shouldAddInputToNeeded r.live v = true ∧
      (∃ j, ∃ _ : i < j, Wanted j ∧ v ∈ (r.node j).inputs) ∧
      ∀ j, ∀ _ : i < j, Wanted j → v ∈ (r.node j).inputs → ∀ k, i < k → k < j → ¬r.Rebinds k v
termination_by n - i

/-- Of a name with one producer, `p` makes the version `j` reads where another is live; of a name with more, the version
`j` reads or the last, where these differ. -/
def Shadows (j : Fin n) (v : Str) (p : Fin n) : Prop :=
  ((∀ q, v ∈ (r.node q).outputs → q = p) ∧ r.trace.latestProducer v j = some p ∧
    ∃ l, r.live.variableLineage v = some l ∧ l ≠ r.trace.producedLineages p v) ∨
  ((∃ q q', q ≠ q' ∧ v ∈ (r.node q).outputs ∧ v ∈ (r.node q').outputs) ∧ v ∈ (r.node p).outputs ∧
    ∃ consumed, r.trace.before j v = some consumed ∧ some consumed ≠ r.trace.virtualLineage v ∧
      (r.trace.producedLineages p v = consumed ∨ some (r.trace.producedLineages p v) = r.trace.virtualLineage v))

def Scheduled (i : Fin n) : Prop :=
  ∃ j, r.Wanted broken j ∧ Relation.ReflTransGen (fun j i => ∃ v ∈ (r.node j).inputs, r.Shadows j v i) j i

/-- The statement binds `v` afresh, before it may be changed in place. -/
def Begins (v : Str) (i : Fin n) : Prop := v ∈ (r.node i).outputs ∧ v ∈ (r.node i).topLevelAssignedNames

/-- The last statement that begins a broken name before a scheduled one changes it in place, where none scheduled
begins it. -/
def Initialises (i : Fin n) : Prop :=
  ∃ j, r.Scheduled broken j ∧ ∃ v ∈ (r.node j).outputs, v ∈ broken ∧ v ∉ (r.node j).topLevelAssignedNames ∧
    (∀ q, r.Scheduled broken q → q < j → ¬r.Begins v q) ∧
    i < j ∧ r.Begins v i ∧ ∀ q, i < q → q < j → ¬r.Begins v q

/-- `p` is the latest producer of the input `v` of `k`, and `v` is not bound and no builtin, or is bound to the version
of an earlier producer. -/
def Lacks (k : Fin n) (v : Str) (p : Fin n) : Prop :=
  r.trace.latestProducer v k = some p ∧
    (v ∉ r.live.userNs ∧ v ∉ r.builtinNames ∨
      v ∈ r.live.userNs ∧ ∃ q < p, v ∈ (r.node q).outputs ∧
        r.live.variableLineage v = some (r.trace.producedLineages q v) ∧
        r.trace.producedLineages q v ≠ r.trace.producedLineages p v)

/-- `i` runs if `j` does: it makes what `j` lacks, or continues what `j` writes. -/
def Completes (j i : Fin n) : Prop :=
  (∃ v ∈ (r.node j).inputs, r.Lacks j v i) ∨
    j < i ∧ ∃ v ∈ (r.node j).outputs, v ∈ (r.node i).outputs ∧ v ∈ (r.node i).inputs

def Rerun (i : Fin n) : Prop :=
  ∃ j, (r.Scheduled broken j ∨ r.Initialises broken j) ∧ Relation.ReflTransGen r.Completes j i

/-- `i` is the last statement run again before the `k`-th that writes `v`. -/
def LastToBind (k : Nat) (i : Fin n) (v : Str) : Prop :=
  r.Rerun broken i ∧ i.val < k ∧ v ∈ (r.node i).outputs ∧
    ∀ q, r.Rerun broken q → i < q → q.val < k → v ∉ (r.node q).outputs

/-- The statement runs again and reads `v` as it is live: nothing run again before it writes `v`. -/
def ReadsLive (k : Fin n) (v : Str) : Prop :=
  r.Rerun broken k ∧ v ∈ (r.node k).inputs ∧ ∀ q, r.Rerun broken q → q < k → v ∉ (r.node q).outputs

/-- A statement run again reads `v` there, or the trace ends there and one writes `v`. -/
def LookedAt (k : Nat) (v : Str) : Prop :=
  (∃ j : Fin n, j.val = k ∧ r.Rerun broken j ∧ v ∈ (r.node j).inputs) ∨
    k = n ∧ ∃ j, r.Rerun broken j ∧ v ∈ (r.node j).outputs

/-- What the completions leave open. -/
structure Sound : Prop where
  /-- A statement that rebinds a name last, after the last that runs again, gives it the same lineage. -/
  rebound : ∀ k v i p, r.LookedAt broken k v → r.LastToBind broken k i v → r.trace.latestProducer v k = some p →
    i < p → v ∉ (r.node p).inputs → r.trace.producedLineages i v = r.trace.producedLineages p v
  /-- A builtin name that the trace binds is bound. -/
  bound : ∀ k v, r.ReadsLive broken k v → v ∈ r.builtinNames → r.trace.latestProducer v k ≠ none →
    v ∈ r.live.userNs
  /-- A bound name has the version of a producer. -/
  version : ∀ k v p, r.ReadsLive broken k v → v ∈ r.live.userNs → r.trace.latestProducer v k = some p →
    ∃ q ≤ p, v ∈ (r.node q).outputs ∧ r.live.variableLineage v = some (r.trace.producedLineages q v)
  /-- A name read before the trace binds it is as the simulation started from it. -/
  started : ∀ k v, r.ReadsLive broken k v → r.trace.latestProducer v k = none → r.live.Holds v (r.trace.start v)
  /-- A broken name no statement writes cannot be rebuilt. -/
  unwritten : ∀ v ∈ broken, v ∉ r.trace.written → r.live.Holds v (r.trace.start v)

end Notebook

end Cash.Upstream
