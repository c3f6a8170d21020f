import Cash.Lib.Closure
import Cash.Upstream.Simulation
import Mathlib.Data.Finset.Option
import Mathlib.Data.Fintype.List

/-!
# Repairing names from the trace

`MismatchClassifier.backward_scan_pass`, which restores as it goes, and `complete_later_producers`. The
statements are plain assignments whose trace entries are exact: what the analyser finds a text to read and
bind is what the entry lists, no name is a module, and no input comes from a loop. What restores and runs do
is recorded under the lineages.
-/

namespace Cash.Upstream

open Py

variable {n : Nat}

/-! ## The trace -/

/-- The last statement before `k` that is `p`. -/
def latest (p : Fin n → Bool) : Nat → Option (Fin n)
  | 0 => none
  | k + 1 =>
    if h : k < n then
      if p ⟨k, h⟩ then some ⟨k, h⟩ else latest p k
    else latest p k

/-- An assignment is a function of the lineages of its inputs. -/
structure Assignment where
  stmtCode : Str
  inputs : Finset Str
  outputs : Finset Str
  produces : Lineages → Str → Str
  of_inputs : ∀ {l l' : Lineages}, (∀ v ∈ inputs, l v = l' v) → produces l = produces l'
  /-- `top_level_assigned_names`: the outputs bound afresh, not changed in place. -/
  topLevelAssignedNames : Finset Str := outputs
  /-- A file it reads changed. -/
  filesStale : Bool := false

/-- The assignment whose lineages are of its text and the lineages of its inputs. -/
def Assignment.ofText (code : Str) (inputs : List Str) (outputs : Finset Str) : Assignment where
  stmtCode := code
  inputs := inputs.toFinset
  outputs
  produces l v := code ++ v ++ inputs.flatMap fun w => (l w).getD []
  of_inputs {l l'} h := by
    have hmap : (inputs.map fun w => (l w).getD []) = inputs.map fun w => (l' w).getD [] := by
      refine List.map_congr_left fun w hw => ?_
      rw [h w (List.mem_toFinset.mpr hw)]
    funext v
    simp only [List.flatMap, hmap]

/-- `_named_in`: the names of the text. -/
def Assignment.namedIn (s : Assignment) : Finset Str := s.inputs ∪ s.outputs

/-- The statements simulated, and the lineages the simulation starts from. -/
structure Trace (n : Nat) where
  nodes : Fin n → Assignment
  start : Lineages

namespace Trace

variable (t : Trace n)

/-- The lineages before statement `k`. -/
def before : Nat → Lineages
  | 0 => t.start
  | k + 1 => fun v =>
    if h : k < n then
      if v ∈ (t.nodes ⟨k, h⟩).outputs then some ((t.nodes ⟨k, h⟩).produces (before k) v) else before k v
    else before k v

/-- `sim.virtual_lineage`. -/
def virtualLineage : Lineages := t.before n

/-- An entry's `produced_lineages`. -/
def producedLineages (i : Fin n) : Str → Str := (t.nodes i).produces (t.before i)

def written : Finset Str := Finset.univ.biUnion fun i => (t.nodes i).outputs

/-- `latest_producer`: the last statement before `k` that outputs `v`. -/
def latestProducer (v : Str) : Nat → Option (Fin n) := latest fun p => v ∈ (t.nodes p).outputs

/-- `stmt_positions`: the last statement of the same text. -/
def position (i : Fin n) : Fin n :=
  (Finset.univ.filter fun j => (t.nodes j).stmtCode = (t.nodes i).stmtCode).max' ⟨i, by simp⟩

end Trace

/-! ## The kernel -/

/-- The live namespace, and what the tracker recorded of its names. -/
structure Kernel where
  userNs : Finset Str
  variableLineage : Lineages
  executedCellCodes : Str → Option Str
  /-- The hashes of the statements that ever bound the name here. -/
  executedCellHashes : Str → Finset Str

/-- A statement's outputs are bound and recorded, whether it ran or was restored. -/
def Kernel.record (ns : Kernel) (s : Assignment) (lineages : Str → Str) (sourceHash : Str) : Kernel where
  userNs := ns.userNs ∪ s.outputs
  variableLineage v := if v ∈ s.outputs then some (lineages v) else ns.variableLineage v
  executedCellCodes v := if v ∈ s.outputs then some s.stmtCode else ns.executedCellCodes v
  executedCellHashes v :=
    if v ∈ s.outputs then insert sourceHash (ns.executedCellHashes v) else ns.executedCellHashes v

/-- What a statement showed when it ran. -/
structure Shown where
  stdout : Str
  stderr : Str
  richOutputs : List Str

/-- `capture.replay_record`. -/
structure Replay where
  complete : Bool
  shown : Shown

/-- What a repair works on: the trace, the kernel, and what the backend keeps of the statements. -/
structure Repair (n : Nat) where
  trace : Trace n
  live : Kernel
  /-- The entry the statement is restored from, if it can be. -/
  entry : Fin n → Option Shown
  builtinNames : Finset Str
  magicLineages : Finset Str
  statementSourceHash : Str → Str
  /-- `strip_markers`, and the blanks around. -/
  strip : Str → Str

namespace Repair

variable (r : Repair n)

def node (i : Fin n) : Assignment := r.trace.nodes i

/-- Run a statement. -/
def exec (i : Fin n) (ns : Kernel) : Kernel :=
  ns.record (r.node i) ((r.node i).produces ns.variableLineage) (r.statementSourceHash (r.node i).stmtCode)

/-- Run the statements of `run` among the first `k`, in order. -/
def runTo (run : Finset (Fin n)) (ns : Kernel) : Nat → Kernel
  | 0 => ns
  | k + 1 =>
    if h : k < n then
      if ⟨k, h⟩ ∈ run then r.exec ⟨k, h⟩ (runTo run ns k) else runTo run ns k
    else runTo run ns k

/-! ## The backward scan -/

/-- What the scan reports of a statement it restored. -/
structure RestoredInfo (n : Nat) where
  code : Str
  restoredVars : Finset Str
  position : Fin n
  shown : Shown

/-- `_BackwardScan`, with the kernel its restores changed and what it reports of them. -/
structure BackwardScan (n : Nat) where
  needed : Finset Str
  resolved : Finset Str
  run : Finset (Fin n)
  kernel : Kernel
  restored : List (RestoredInfo n)

/-- The kernel after the attempt, and the names restored. The entry's lineages are the expected ones, or it
would be refused. -/
def tryVirtualRestore (i : Fin n) (ns : Kernel) : Kernel × Finset Str :=
  match r.entry i with
  | none => (ns, ∅)
  | some _ =>
    (ns.record (r.node i) (r.trace.producedLineages i) (r.statementSourceHash (r.node i).stmtCode),
      (r.node i).outputs)

/-- `_ran_the_notebook_version`. -/
def ranTheNotebookVersion (ns : Kernel) (inp : Str) : Bool :=
  ∃ i, r.statementSourceHash (r.node i).stmtCode ∈ ns.executedCellHashes inp

/-- `_check_inp_lineage_skip`. -/
def checkInpLineageSkip (ns : Kernel) (inp : Str) : Bool :=
  match ns.variableLineage inp, r.trace.virtualLineage inp with
  | some lineage, some virtual =>
    if lineage = virtual then inp ∈ ns.userNs
    else if inp ∉ ns.userNs then false
    else match ns.executedCellCodes inp with
      | none => false
      | some code => (∀ i, (r.node i).stmtCode ≠ r.strip code) && r.ranTheNotebookVersion ns inp
  | _, _ => false

/-- `_should_add_input_to_needed`. -/
def shouldAddInputToNeeded (ns : Kernel) (inp : Str) : Bool :=
  if inp ∈ r.builtinNames ∧ ns.variableLineage inp = none then false
  else if ∃ l ∈ r.trace.virtualLineage inp, l ∈ r.magicLineages then false
  else !r.checkInpLineageSkip ns inp

/-- `_cascade_failed_restore_inputs`. -/
def cascadeFailedRestoreInputs (i : Fin n) (scan : BackwardScan n) : BackwardScan n :=
  let needed := scan.needed ∪
    (r.node i).inputs.filter fun inp => inp ∉ scan.resolved ∧ r.shouldAddInputToNeeded scan.kernel inp
  let removed := ((r.node i).outputs \ (r.node i).inputs) ∩ needed
  { scan with run := insert i scan.run, needed := needed \ removed, resolved := scan.resolved ∪ removed }

/-- One statement of `backward_scan_pass`. -/
def scanStatement (i : Fin n) (scan : BackwardScan n) : BackwardScan n :=
  let neededOutputs := (r.node i).outputs ∩ scan.needed
  if neededOutputs = ∅ then scan
  else
    let (kernel, restoredVars) := r.tryVirtualRestore i scan.kernel
    match r.entry i with
    | some shown =>
      if neededOutputs ⊆ restoredVars then
        { scan with
          kernel
          needed := scan.needed \ restoredVars
          resolved := scan.resolved ∪ restoredVars
          restored := scan.restored ++
            [⟨(r.node i).stmtCode, restoredVars, r.trace.position i, shown⟩] }
      else r.cascadeFailedRestoreInputs i { scan with kernel }
    | none => r.cascadeFailedRestoreInputs i { scan with kernel }

/-- The scan after the last `k` statements. -/
def scanFrom (broken : Finset Str) : Nat → BackwardScan n
  | 0 => ⟨broken, ∅, ∅, r.live, []⟩
  | k + 1 => if h : k < n then r.scanStatement (Fin.rev ⟨k, h⟩) (scanFrom broken k) else scanFrom broken k

/-- `backward_scan_pass`. -/
def backwardScanPass (broken : Finset Str) : BackwardScan n := r.scanFrom broken n

/-! ## Completing the run -/

/-- The statements after `i` that continue what it wrote: they read a name it writes as they write it. -/
def laterProducers (i : Fin n) : List (Fin n) :=
  (List.finRange n).filter fun p =>
    i < p ∧ ∃ v ∈ (r.node i).outputs, v ∈ (r.node p).outputs ∧ v ∈ (r.node p).inputs

/-- `complete_later_producers`. -/
def completeLaterProducers (run : Finset (Fin n)) : Finset (Fin n) :=
  Finset.worklist r.laterProducers n ((List.finRange n).filter (· ∈ run)) run

end Repair

/-!
## Runs of assignments in the cell being run

`NotebookSimulator.plan_cell_run`: the backward scan, the completion of the statements to run, and the last
check.
-/

/-- A run of assignments of the cell about to run, simulated from the lineages recorded. -/
structure CellRun (n : Nat) extends Repair n where
  start_eq : trace.start = live.variableLineage
  /-- What the metadata of a statement's entry keeps of what it showed. -/
  recordedReplay : Fin n → Option Replay
  /-- `jumpable_runs`: no statement reads a name the run writes before the run has written it. -/
  ordered : ∀ i, ∀ v ∈ (trace.nodes i).inputs, ∀ j, v ∈ (trace.nodes j).outputs →
    ∃ k < i, v ∈ (trace.nodes k).outputs

inductive CacheStatus where
  | restored
  | skipped
  deriving DecidableEq

/-- What the badge and the output show of a statement that need not run. -/
structure Metric where
  code : Str
  status : CacheStatus
  isUpstream : Bool
  restoredVars : Finset Str
  shown : Option Shown

namespace CellRun

variable (r : CellRun n)

/-- The names that do not hold what the run leaves them. -/
def broken : Finset Str :=
  r.trace.written.filter fun v => v ∉ r.live.userNs ∨ r.live.variableLineage v ≠ r.trace.virtualLineage v

/-- The scan is not made when nothing is broken. -/
def scan : Repair.BackwardScan n :=
  if r.broken = ∅ then ⟨∅, ∅, ∅, r.live, []⟩ else r.backwardScanPass r.broken

/-- A dict filled in the order of the scan. -/
def restoredByIndex (i : Fin n) : Option (Repair.RestoredInfo n) :=
  (r.scan.restored.filter fun info => info.position = i).getLast?

/-- The producers of what the statements of `run` read are added. -/
def addProducers (run : Finset (Fin n)) : Finset (Fin n) :=
  run ∪ run.biUnion fun i => (r.node i).inputs.biUnion fun v => (r.trace.latestProducer v i).toFinset

/-- The inner loop: producers before, later producers after, until neither adds one. -/
def complete (run : Finset (Fin n)) : Finset (Fin n) :=
  Finset.saturate (fun run => r.completeLaterProducers (r.addProducers run)) (n + 1) run

/-- The statements neither run nor restored nor looked at before. -/
def unseen (run : Finset (Fin n)) (replays : Fin n → Option Shown) (i : Fin n) : Bool :=
  i ∉ run ∧ r.restoredByIndex i = none ∧ (replays i).isNone

/-- The outer loop: a statement whose output its entry could not keep runs. -/
def completeKept : Nat → Finset (Fin n) → (Fin n → Option Shown) → Finset (Fin n) × (Fin n → Option Shown)
  | 0, run, replays => (run, replays)
  | fuel + 1, run, replays =>
    let run := r.complete run
    let unkept := Finset.univ.filter fun i =>
      r.unseen run replays i ∧ ∃ record ∈ r.recordedReplay i, record.complete = false
    let replays := fun i =>
      if r.unseen run replays i then
        match r.recordedReplay i with
        | some ⟨true, shown⟩ => some shown
        | _ => none
      else replays i
    if unkept = ∅ then (run, replays) else completeKept fuel (run ∪ unkept) replays

/-- The last statement that writes `name` and whose text names it, or the last that writes it. -/
def maker (name : Str) : Option (Fin n) :=
  let writers := (List.finRange n).filter fun i => name ∈ (r.node i).outputs
  let named := writers.filter fun i => name ∈ (r.node i).namedIn
  (if named = [] then writers else named).getLast?

/-- `_plan_makes_each_name`. -/
def planMakesEachName (run : Finset (Fin n)) : Bool :=
  (∀ maker, ∀ info ∈ r.restoredByIndex maker, ∀ name ∈ info.restoredVars,
    ∀ i ∈ run, ¬(i < maker ∧ name ∈ (r.node i).outputs)) ∧
  ∀ name ∈ r.broken, ∀ maker ∈ r.maker name,
    maker ∈ run ∨ ∃ info ∈ r.restoredByIndex maker, name ∈ info.restoredVars

/-- The metric of a statement that need not run. -/
def metric (replays : Fin n → Option Shown) (i : Fin n) : Metric :=
  match r.restoredByIndex i with
  | some info => ⟨info.code, .restored, false, info.restoredVars, some info.shown⟩
  | none => ⟨(r.node i).stmtCode, .skipped, false, ∅, replays i⟩

/-- `plan_cell_run`: the kernel its restores leave, and the statements that need not run; `none` to run them
all. -/
def planCellRun : Kernel × Option (Fin n → Option Metric) :=
  if ∃ i, (r.node i).filesStale = true then (r.live, none)
  else
    let (run, replays) := r.completeKept (n + 2) r.scan.run fun _ => none
    if r.broken ≠ ∅ ∧ r.scan.restored = [] then (r.scan.kernel, none)
    else if r.planMakesEachName run = false then (r.scan.kernel, none)
    else (r.scan.kernel, some fun i => if i ∈ run then none else some (r.metric replays i))

/-! ### What comes back, from the texts and the entries -/

/-- `i` writes the broken name `v`, and every later statement that writes it continues it and cannot be
restored. -/
def Wanted (i : Fin n) (v : Str) : Prop :=
  v ∈ (r.node i).outputs ∧ v ∈ r.broken ∧
    ∀ k, i < k → v ∈ (r.node k).outputs → r.entry k = none ∧ v ∈ (r.node k).inputs

def Restored (i : Fin n) : Prop := r.entry i ≠ none ∧ ∃ v, r.Wanted i v

/-- What `i` showed is not kept, and no statement is restored in its place. -/
def Unkept (i : Fin n) : Prop :=
  (∃ record ∈ r.recordedReplay i, record.complete = false) ∧ ∀ j, r.Restored j → r.trace.position j ≠ i

/-- `i` runs if `j` does: it is the latest producer of what `j` reads, or continues what `j` writes. -/
def Pulls (j i : Fin n) : Prop :=
  (∃ v ∈ (r.node j).inputs, r.trace.latestProducer v j = some i) ∨ i ∈ r.laterProducers j

def Rerun (i : Fin n) : Prop :=
  ∃ j, ((r.entry j = none ∧ ∃ v, r.Wanted j v) ∨ r.Unkept j) ∧ Relation.ReflTransGen r.Pulls j i

/-- `i` is the last to bind `v`: the last statement run again that writes it or, where none does, the first
of those restored, since the scan restores from the end. -/
def LastToBind (i : Fin n) (v : Str) : Prop :=
  v ∈ (r.node i).outputs ∧
    ((r.Rerun i ∧ ∀ k, i < k → r.Rerun k → v ∉ (r.node k).outputs) ∨
      (r.Restored i ∧ (∀ k, r.Rerun k → v ∉ (r.node k).outputs) ∧
        ∀ k, k < i → r.Restored k → v ∉ (r.node k).outputs))

/-- The statements a plan leaves to run. -/
def toRun (planned : Fin n → Option Metric) : Finset (Fin n) := Finset.univ.filter fun i => (planned i).isNone

/-- After the restores, the statements left to run read what a run of all the statements gives them, and
every name written ends as that run leaves it. -/
def AsFullRun (planned : Fin n → Option Metric) : Prop :=
  (∀ i ∈ toRun planned, ∀ v ∈ (r.node i).inputs,
    (r.runTo (toRun planned) r.planCellRun.1 i).variableLineage v =
      (r.runTo Finset.univ r.live i).variableLineage v) ∧
  ∀ v ∈ r.trace.written,
    v ∈ (r.runTo (toRun planned) r.planCellRun.1 n).userNs ∧
      (r.runTo (toRun planned) r.planCellRun.1 n).variableLineage v =
        (r.runTo Finset.univ r.live n).variableLineage v

end CellRun

end Cash.Upstream
