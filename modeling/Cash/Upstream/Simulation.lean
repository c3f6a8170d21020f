import Cash.Lib.Py
import Mathlib.Data.Finset.Lattice.Fold
import Mathlib.Data.Finset.Max
import Mathlib.Data.Finset.Union

/-!
# What the upstream simulation hands on

`upstream/_types.py`: the trace, the state of the forward simulation and the snapshots it leaves for the
next one. A dict is the function of its lookups, so that two are equal as Python's are.
-/

namespace Cash.Upstream

open Py

/-- `{name: lineage}`. -/
abbrev Lineages := Str → Option Str

/-- Derivation edges: the names each name's object is shared with. -/
abbrev Edges := Str → Option (Finset Str)

/-- `{path: (size, mtime_ns, ctime_ns)}`. -/
abbrev FileDeps := Str → Option (Nat × Nat × Nat)

structure TraceEntry where
  stmtCode : Str
  outputs : Finset Str
  inputs : Finset Str
  inputHashes : Lineages
  producedLineages : Lineages
  filesStale : Bool
  /-- The cell the statement belongs to; `none` for -1. -/
  cell : Option Nat

/-- `SimulationResult`, without what the later phases add and the times of lookups. -/
@[ext]
structure SimulationResult where
  virtualLineage : Lineages
  virtualModules : Finset Str
  trace : List TraceEntry
  varsMutatedByLoops : Finset Str
  varsWithStaleFiles : Finset Str
  varsMaybeChangedByLoops : Finset Str
  loopTargetVars : Finset Str
  /-- `none` until the first statement. -/
  shareEdges : Option Edges
  varsLeftByFailedRuns : Str → Option Nat

def SimulationResult.empty : SimulationResult where
  virtualLineage _ := none
  virtualModules := ∅
  trace := []
  varsMutatedByLoops := ∅
  varsWithStaleFiles := ∅
  varsMaybeChangedByLoops := ∅
  loopTargetVars := ∅
  shareEdges := none
  varsLeftByFailedRuns _ := none

/-- The snapshot of one cell. -/
structure SimulationCacheEntry where
  cellCodeHash : Str
  virtualLineage : Lineages
  virtualModules : Finset Str
  traceSegment : List TraceEntry
  varsMutatedByLoops : Finset Str
  varsWithStaleFiles : Finset Str
  cellFileDeps : FileDeps
  cellEnvironment : Str := []
  stoppedAt : Option Nat := none
  magicGeneration : Option Nat := none
  varsLeftByFailedRuns : Option (Str → Option Nat) := none
  shareEdges : Option Edges := none
  shareEdgeGeneration : Nat := 0
  statementHashes : Finset Str := ∅
  varsMaybeChangedByLoops : Option (Finset Str) := none
  fileEventSeq : Nat := 0

structure SimulationCache where
  entries : List SimulationCacheEntry
  /-- The digest of every cell seen so far, by index. -/
  cellHashes : Nat → Option Str

def SimulationCache.empty : SimulationCache := ⟨[], fun _ => none⟩

/-!
## The forward simulation

`VirtualLineage.simulate` of `upstream/virtual_lineage.py`: where it starts (`find_incremental_start`), the
cells it simulates (`simulate_cells_pass1`) and the snapshots it keeps. What simulating one statement does is
left open, and the session around the calls is fixed: no module is reloaded.
-/

/-! ### Texts -/

/-- `str.replace("\r\n", "\n")`. -/
def crlf : Str → Str
  | 13 :: 10 :: rest => 10 :: crlf rest
  | c :: rest => c :: crlf rest
  | [] => []

/-- `str.isspace` of a character. -/
def isSpace (c : Nat) : Bool :=
  (9 ≤ c && c ≤ 13) || (28 ≤ c && c ≤ 32) || c == 0x85 || c == 0xa0 || c == 0x1680 || (0x2000 ≤ c && c ≤ 0x200a) ||
    c == 0x2028 || c == 0x2029 || c == 0x202f || c == 0x205f || c == 0x3000

/-- `not code.strip()`. -/
def isBlank (code : Str) : Bool := code.all isSpace

/-! ### The session -/

/-- A line that deletes variables (`reset_magic_deletes`): all of them, or the names a pattern finds. -/
inductive Reset
  | all
  | matching (dropped : Str → Bool)

/-- How the simulation of a statement ends. -/
inductive Ends
  | done
  | syntaxError
  /-- Any other error, which ends the simulation. -/
  | raised

/-- What the statements of one cell share. -/
structure CellState where
  sim : SimulationResult
  /-- `cell_stmt_occurrence_counts`. -/
  occurrences : Str → Nat
  fileDeps : FileDeps

/-- The state a cell's first statement finds. -/
def CellState.start (sim : SimulationResult) : CellState := ⟨sim, fun _ => 0, fun _ => none⟩

/-- A cell is simulated: the cell to run next and the notebook's cells. -/
structure Call where
  currentCellIdx : Nat
  notebookCells : List Str
  above : currentCellIdx ≤ notebookCells.length

/-- The cells above, as they are read. -/
def Call.codes (call : Call) : List Str := (call.notebookCells.take call.currentCellIdx).map crlf

/-- What the calls of `simulate` find: the tracking state, the files, the environment, the text of cells and the
simulation of one statement. A statement may read and change the simulation in any way, except that it only
appends to the trace and only adds to the variables that loops change. -/
structure Session (ν : Type) where
  /-- `exact_source_digest`. -/
  digest : Str → Str
  digest_injective : Function.Injective digest
  /-- `statement_source_hash`. -/
  statementSourceHash : Str → Str
  failedCells : Str → Option Nat
  failedCellNames : Str → Finset Str
  userNs : Finset Str
  variableLineage : Lineages
  derivationEdges : Edges
  magicGeneration : Nat
  shareEdgeChanges : List Str
  fileEventSeq : Nat
  /-- `_cell_environment`. -/
  cellEnvironment : Str → Str
  /-- `_check_cell_file_deps`. -/
  checkCellFileDeps : FileDeps → Nat → Nat → Bool
  outsideChanges : Call → Bool
  /-- The lines of a cell that `reset_magic_deletes` gives names for. -/
  resets : Str → List Reset
  simulationCell : Str → Option (Str × List ν)
  cleanCellSource : Str → Str
  parseCellSource : Str → Option (List ν)
  isRaise : ν → Bool
  /-- `_rebound_names`. -/
  reboundNames : Str → Finset Str
  /-- `_simulate_one_node`, with the text the statement was parsed from. -/
  simulateNode : ν → Str → CellState → CellState × Ends
  simulateNode_trace : ∀ node raw st, st.sim.trace <+: (simulateNode node raw st).1.sim.trace
  simulateNode_loops : ∀ node raw st,
    st.sim.varsMutatedByLoops ⊆ (simulateNode node raw st).1.sim.varsMutatedByLoops

variable {ν : Type}

/-! ### One cell -/

/-- `_hold_what_a_failed_run_left`. -/
def holdWhatAFailedRunLeft (s : Session ν) (sim : SimulationResult) (i : Nat) (cellHash : Str) : SimulationResult :=
  { sim with varsLeftByFailedRuns := fun name =>
      if name ∈ s.failedCellNames cellHash ∧ name ∈ s.userNs ∧ s.variableLineage name = none then some i
      else sim.varsLeftByFailedRuns name }

/-- `_carry_what_a_failed_run_left`, for one entry of the trace. -/
def carryEntry (s : Session ν) (left : Str → Option Nat) (entry : TraceEntry) : Str → Option Nat :=
  let sources : Finset Nat := entry.inputs.biUnion fun name => (left name).elim ∅ ({·})
  fun name =>
    if name ∈ entry.outputs then
      match sources.min with
      | some least => some least
      | none => if name ∈ s.reboundNames entry.stmtCode then none else left name
    else left name

def carryWhatAFailedRunLeft (s : Session ν) (left : Str → Option Nat) (entries : List TraceEntry) : Str → Option Nat :=
  entries.foldl (carryEntry s) left

/-- The first statement starts from a copy of the runtime's edges. -/
def CellState.linked (s : Session ν) (st : CellState) : CellState :=
  { st with sim := { st.sim with shareEdges := some (st.sim.shareEdges.getD s.derivationEdges) } }

def simulateOneNode (s : Session ν) (node : ν) (raw : Str) (st : CellState) : CellState × Ends :=
  s.simulateNode node raw (st.linked s)

/-- What the entries of the trace from `before` on carry. -/
def CellState.carried (s : Session ν) (before : Nat) (st : CellState) : CellState :=
  { st with sim := { st.sim with
      varsLeftByFailedRuns := carryWhatAFailedRunLeft s st.sim.varsLeftByFailedRuns (st.sim.trace.drop before) } }

/-- The loop over the statements of cell `i`, from the one at `index`. -/
def simulateBody (s : Session ν) (i : Nat) (cellHash raw : Str) (stoppedAt : Option Nat) :
    Nat → List ν → CellState → CellState × Ends
  | _, [], st => (st, .done)
  | index, node :: nodes, st =>
    if stoppedAt = some index then ({ st with sim := holdWhatAFailedRunLeft s st.sim i cellHash }, .done)
    -- what follows a top-level `raise` never runs
    else if s.isRaise node then (st, .done)
    else
      match simulateOneNode s node raw st with
      | (st', .done) =>
        simulateBody s i cellHash raw stoppedAt (index + 1) nodes (st'.carried s st.sim.trace.length)
      | (st', ends) => (st', ends)

/-- A line of a reset or `%xdel`. -/
def reset (sim : SimulationResult) : Reset → SimulationResult
  | .all => { sim with virtualLineage := fun _ => none, virtualModules := ∅ }
  | .matching dropped =>
    { sim with
      virtualLineage := fun name => if dropped name then none else sim.virtualLineage name
      virtualModules := sim.virtualModules.filter (¬ dropped ·) }

def resetCell (s : Session ν) (sim : SimulationResult) (code : Str) : SimulationResult := (s.resets code).foldl reset sim

/-- The snapshot of a cell with no statements. -/
def emptySnapshot (s : Session ν) (code : Str) (sim : SimulationResult) : SimulationCacheEntry where
  cellCodeHash := s.digest code
  virtualLineage := sim.virtualLineage
  virtualModules := sim.virtualModules
  traceSegment := []
  varsMutatedByLoops := ∅
  varsWithStaleFiles := ∅
  cellFileDeps _ := none
  varsLeftByFailedRuns := some sim.varsLeftByFailedRuns
  shareEdges := sim.shareEdges
  shareEdgeGeneration := s.shareEdgeChanges.length

/-- The snapshot of any other cell, with the entries it added to the trace. -/
def snapshot (s : Session ν) (code : Str) (st : CellState) (segment : List TraceEntry) : SimulationCacheEntry where
  cellCodeHash := s.digest code
  virtualLineage := st.sim.virtualLineage
  virtualModules := st.sim.virtualModules
  traceSegment := segment
  varsMutatedByLoops := st.sim.varsMutatedByLoops
  varsWithStaleFiles := st.sim.varsWithStaleFiles
  cellFileDeps := st.fileDeps
  cellEnvironment := s.cellEnvironment code
  stoppedAt := s.failedCells (s.digest code)
  magicGeneration := (s.simulationCell code).map fun _ => s.magicGeneration
  varsLeftByFailedRuns := some st.sim.varsLeftByFailedRuns
  shareEdges := st.sim.shareEdges
  shareEdgeGeneration := s.shareEdgeChanges.length
  statementHashes := (segment.map fun entry => s.statementSourceHash entry.stmtCode).toFinset
  varsMaybeChangedByLoops := some st.sim.varsMaybeChangedByLoops
  fileEventSeq := s.fileEventSeq

/-- The text and the statements of a cell; `none` for one that cannot be parsed. -/
def parsed (s : Session ν) (code : Str) : Option (Str × List ν) :=
  match s.simulationCell code with
  | some cell => some cell
  | none => (s.parseCellSource code).map (s.cleanCellSource code, ·)

/-- The shortcut for a cell with no statements is taken. -/
def isEmptyCell (s : Session ν) (code : Str) : Bool :=
  (s.simulationCell code).isNone && isBlank (s.cleanCellSource code)

/-- `simulate_one_cell`; `none` when it raises. -/
def simulateOneCell (s : Session ν) (i : Nat) (code : Str) (sim : SimulationResult) :
    Option (SimulationResult × SimulationCacheEntry) :=
  let start := resetCell s sim code
  if isEmptyCell s code then some (start, emptySnapshot s code start)
  else
    let cellHash := s.digest code
    let st := CellState.start start
    let run :=
      match parsed s code with
      | some (raw, body) => simulateBody s i cellHash raw (s.failedCells cellHash) 0 body st
      -- a cell that cannot be parsed changes nothing
      | none => (st, .syntaxError)
    match run with
    | (_, .raised) => none
    | (st', _) =>
      let segment := (st'.sim.trace.drop sim.trace.length).map ({ · with cell := some i })
      let sim' := { st'.sim with trace := st'.sim.trace.take sim.trace.length ++ segment }
      some (sim', snapshot s code { st' with sim := sim' } segment)

/-- The loop of `simulate_cells_pass1`, from cell `i`. -/
def simulateCells (s : Session ν) : Nat → List Str → SimulationResult →
    Option (SimulationResult × List SimulationCacheEntry)
  | _, [], sim => some (sim, [])
  | i, code :: codes, sim =>
    match simulateOneCell s i code sim with
    | none => none
    | some (sim', entry) => (simulateCells s (i + 1) codes sim').map fun r => (r.1, entry :: r.2)

/-! ### Where to start -/

/-- `_share_records_changed`. -/
def shareRecordsChanged (s : Session ν) (cached : SimulationCacheEntry) : Bool :=
  if cached.shareEdgeGeneration > s.shareEdgeChanges.length then true
  else if cached.shareEdgeGeneration = s.shareEdgeChanges.length then false
  else (s.shareEdgeChanges.drop cached.shareEdgeGeneration).any (· ∈ cached.statementHashes)

/-- A cell whose code is unchanged must be simulated again. -/
def outdated (s : Session ν) (cached : SimulationCacheEntry) (idx : Nat) (code : Str) : Bool :=
  cached.magicGeneration ∉ [none, some s.magicGeneration] ||
    cached.stoppedAt != s.failedCells (s.digest code) ||
    cached.cellEnvironment != s.cellEnvironment code ||
    s.checkCellFileDeps cached.cellFileDeps idx cached.fileEventSeq ||
    shareRecordsChanged s cached ||
    cached.varsWithStaleFiles ≠ ∅

/-- The loop of `_scan_main_cache_for_changes`, from the cell at `idx`: the first changed cell, and whether its
code changed. -/
def scanMainCache (s : Session ν) : Nat → List SimulationCacheEntry → List Str → Nat × Bool
  | idx, cached :: entries, code :: codes =>
    if cached.cellCodeHash ≠ s.digest code then (idx, true)
    else if outdated s cached idx code then (idx, false)
    else scanMainCache s (idx + 1) entries codes
  | idx, _, _ => (idx, false)

/-- `_scan_main_cache_for_changes`. -/
def scanMainCacheForChanges (s : Session ν) (cache : SimulationCache) (call : Call) : Nat × Bool :=
  if s.outsideChanges call then (0, false) else scanMainCache s 0 cache.entries call.codes

/-- `first_changed_cell`: as many cells a call keeps from the cache. -/
def firstChangedCell (s : Session ν) (cache : SimulationCache) (call : Call) : Nat :=
  (scanMainCacheForChanges s cache call).1

/-- `_check_lightweight_hash_cache`. -/
def checkLightweightHashCache (s : Session ν) (cache : SimulationCache) (call : Call) : Bool :=
  (call.codes.zipIdx.drop cache.entries.length).any fun p =>
    match cache.cellHashes p.2 with
    | none => false
    | some cellHash => cellHash != s.digest p.1

/-- `_restore_cached_state`, from the entries kept; with none, where a simulation starts. -/
def restoreCachedState (kept : List SimulationCacheEntry) : SimulationResult :=
  match kept.getLast? with
  | none => .empty
  | some cached =>
    { virtualLineage := cached.virtualLineage
      virtualModules := cached.virtualModules
      trace := kept.flatMap (·.traceSegment)
      varsMutatedByLoops := kept.foldl (fun looped entry => looped ∪ entry.varsMutatedByLoops) ∅
      varsWithStaleFiles := kept.foldl (fun stale entry => stale ∪ entry.varsWithStaleFiles) ∅
      varsMaybeChangedByLoops := cached.varsMaybeChangedByLoops.getD ∅
      loopTargetVars := ∅
      shareEdges := cached.shareEdges
      varsLeftByFailedRuns := cached.varsLeftByFailedRuns.getD fun _ => none }

/-- The entries a call keeps: those of the cells before the first changed one. -/
def keptEntries (s : Session ν) (cache : SimulationCache) (call : Call) : List SimulationCacheEntry :=
  cache.entries.take (firstChangedCell s cache call)

/-! ### The call -/

/-- `cell_hashes` after a simulation: the digests of the cells above and of the cell itself. -/
def recordCellHashes (s : Session ν) (cache : SimulationCache) (call : Call) (entries : List SimulationCacheEntry) :
    Nat → Option Str := fun idx =>
  if idx = call.currentCellIdx ∧ idx < call.notebookCells.length then
    (call.notebookCells[idx]?).map fun code => s.digest (crlf code)
  else
    match entries[idx]? with
    | some entry => some entry.cellCodeHash
    | none => cache.cellHashes idx

/-- `simulate`: the simulation and `upstream_has_modifications`, and the cache it leaves; an error leaves the
cache as it is. -/
def simulate (s : Session ν) (cache : SimulationCache) (call : Call) :
    Option (SimulationResult × Bool) × SimulationCache :=
  let first := firstChangedCell s cache call
  let kept := keptEntries s cache call
  let edited := (scanMainCacheForChanges s cache call).2 || checkLightweightHashCache s cache call
  match simulateCells s first (call.codes.drop first) (restoreCachedState kept) with
  | none => (none, cache)
  | some (sim, entries) =>
    (some (sim, !cache.entries.isEmpty && edited), ⟨kept ++ entries, recordCellHashes s cache call (kept ++ entries)⟩)

/-- The cache after calls one after the other. -/
def simulateAll (s : Session ν) (calls : List Call) : SimulationCache :=
  calls.foldl (fun cache call => (simulate s cache call).2) .empty

/-- The `SimulationResult` of a call; `none` when it raises. -/
def simulated (s : Session ν) (cache : SimulationCache) (call : Call) : Option SimulationResult :=
  (simulate s cache call).1.map (·.1)

end Cash.Upstream
