import Cash.Upstream.Simulation

/-!
# The forward simulation
-/

namespace Cash.Upstream

open Py

variable {ν : Type} {s : Session ν}

/-! ## What the snapshots hold -/

/-! ### The statements of a cell -/

/-- The statements of a cell that are simulated. -/
def reached (s : Session ν) (stoppedAt : Option Nat) : Nat → List ν → List ν
  | _, [] => []
  | index, node :: nodes =>
    if stoppedAt = some index then [] else if s.isRaise node then [] else node :: reached s stoppedAt (index + 1) nodes

/-- Whatever the state, simulating the statement leaves the loop targets as they are: it is no `for` loop. -/
def LeavesLoopTargets (s : Session ν) (node : ν) : Prop :=
  ∀ raw st, (s.simulateNode node raw st).1.sim.loopTargetVars = st.sim.loopTargetVars

theorem simulateOneNode_trace (node : ν) (raw : Str) (st : CellState) :
    st.sim.trace <+: (simulateOneNode s node raw st).1.sim.trace := by
  exact s.simulateNode_trace node raw (st.linked s)

theorem simulateOneNode_loops (node : ν) (raw : Str) (st : CellState) :
    st.sim.varsMutatedByLoops ⊆ (simulateOneNode s node raw st).1.sim.varsMutatedByLoops := by
  exact s.simulateNode_loops node raw (st.linked s)

/-- What every statement keeps, the loop over a cell's statements keeps. -/
theorem simulateBody_keeps {P : SimulationResult → SimulationResult → Prop} (hrefl : ∀ sim, P sim sim)
    (htrans : ∀ {a b c}, P a b → P b c → P a c)
    (hleft : ∀ sim left, P sim { sim with varsLeftByFailedRuns := left })
    {i : Nat} {cellHash raw : Str} {stoppedAt : Option Nat} {index : Nat} {nodes : List ν}
    (hnode : ∀ node ∈ reached s stoppedAt index nodes, ∀ st, P st.sim (simulateOneNode s node raw st).1.sim)
    (st : CellState) : P st.sim (simulateBody s i cellHash raw stoppedAt index nodes st).1.sim := by
  induction nodes generalizing index st with
  | nil => exact hrefl _
  | cons node nodes ih =>
    simp only [reached] at hnode
    simp only [simulateBody]
    split
    · exact hleft _ _
    · rename_i hstop
      rw [if_neg hstop] at hnode
      split
      · exact hrefl _
      · rename_i hraise
        rw [if_neg hraise] at hnode
        have hfirst := hnode node List.mem_cons_self st
        split
        · rename_i st' heq
          rw [heq] at hfirst
          have hrest := ih (fun n hn => hnode n (List.mem_cons_of_mem _ hn))
          exact htrans hfirst (htrans (hleft _ _) (hrest (st'.carried s st.sim.trace.length)))
        · rename_i heq
          rw [heq] at hfirst
          exact hfirst

/-! ### One cell -/

@[simp] theorem reset_trace (sim : SimulationResult) (r : Reset) : (reset sim r).trace = sim.trace := by
  cases r <;> rfl

@[simp] theorem reset_loops (sim : SimulationResult) (r : Reset) :
    (reset sim r).varsMutatedByLoops = sim.varsMutatedByLoops := by
  cases r <;> rfl

@[simp] theorem reset_stale (sim : SimulationResult) (r : Reset) :
    (reset sim r).varsWithStaleFiles = sim.varsWithStaleFiles := by
  cases r <;> rfl

@[simp] theorem reset_maybe (sim : SimulationResult) (r : Reset) :
    (reset sim r).varsMaybeChangedByLoops = sim.varsMaybeChangedByLoops := by
  cases r <;> rfl

@[simp] theorem reset_targets (sim : SimulationResult) (r : Reset) :
    (reset sim r).loopTargetVars = sim.loopTargetVars := by
  cases r <;> rfl

theorem resetCell_keeps {α : Type} {f : SimulationResult → α} (h : ∀ sim r, f (reset sim r) = f sim)
    (sim : SimulationResult) (code : Str) : f (resetCell s sim code) = f sim := by
  unfold resetCell
  induction s.resets code generalizing sim with
  | nil => rfl
  | cons r rs ih => rw [List.foldl_cons, ih, h]

/-- What the snapshot of a cell says of the simulation before and after it. -/
structure SnapshotOf (s : Session ν) (code : Str) (sim sim' : SimulationResult) (entry : SimulationCacheEntry) :
    Prop where
  hash : entry.cellCodeHash = s.digest code
  lineage : entry.virtualLineage = sim'.virtualLineage
  modules : entry.virtualModules = sim'.virtualModules
  edges : entry.shareEdges = sim'.shareEdges
  left : entry.varsLeftByFailedRuns = some sim'.varsLeftByFailedRuns
  trace : sim'.trace = sim.trace ++ entry.traceSegment
  loops : sim'.varsMutatedByLoops = sim.varsMutatedByLoops ∪ entry.varsMutatedByLoops
  stale : sim.varsWithStaleFiles = ∅ → entry.varsWithStaleFiles = sim'.varsWithStaleFiles
  maybe : sim'.varsMaybeChangedByLoops = entry.varsMaybeChangedByLoops.getD sim.varsMaybeChangedByLoops

/-- The statements of the cell that are simulated are no `for` loops. -/
def NoLoopTargets (s : Session ν) (code : Str) : Prop :=
  isEmptyCell s code = false → ∀ raw body, parsed s code = some (raw, body) →
    ∀ node ∈ reached s (s.failedCells (s.digest code)) 0 body, LeavesLoopTargets s node

/-- The statements of a cell are simulated to `st'`. -/
theorem simulateOneCell_cases {i : Nat} {code : Str} {sim sim' : SimulationResult} {entry : SimulationCacheEntry}
    (h : simulateOneCell s i code sim = some (sim', entry)) :
    (isEmptyCell s code = true ∧ sim' = resetCell s sim code ∧ entry = emptySnapshot s code sim') ∨
    (isEmptyCell s code = false ∧ ∃ st' segment,
      (st' = .start (resetCell s sim code) ∨ ∃ raw body, parsed s code = some (raw, body) ∧
        st' = (simulateBody s i (s.digest code) raw (s.failedCells (s.digest code)) 0 body
          (.start (resetCell s sim code))).1) ∧
      sim' = { st'.sim with trace := st'.sim.trace.take sim.trace.length ++ segment } ∧
      entry = snapshot s code { st' with sim := sim' } segment) := by
  unfold simulateOneCell at h
  split at h
  · rename_i hempty
    cases h
    exact .inl ⟨hempty, rfl, rfl⟩
  · rename_i hempty
    refine .inr ⟨by simpa using hempty, ?_⟩
    simp only at h
    split at h
    · cases h
    · rename_i st' ends _ hrun
      cases h
      refine ⟨st', _, ?_, rfl, rfl⟩
      cases hparsed : parsed s code with
      | none =>
        rw [hparsed] at hrun
        cases hrun
        exact .inl rfl
      | some cell =>
        rw [hparsed] at hrun
        exact .inr ⟨cell.1, cell.2, rfl, (congrArg Prod.fst hrun).symm⟩

theorem simulateOneCell_snapshot {i : Nat} {code : Str} {sim sim' : SimulationResult} {entry : SimulationCacheEntry}
    (h : simulateOneCell s i code sim = some (sim', entry)) : SnapshotOf s code sim sim' entry := by
  have hstart : (resetCell s sim code).trace = sim.trace := resetCell_keeps reset_trace sim code
  have hloops : (resetCell s sim code).varsMutatedByLoops = sim.varsMutatedByLoops := resetCell_keeps reset_loops sim code
  rcases simulateOneCell_cases h with ⟨-, rfl, rfl⟩ | ⟨-, st', segment, hst, rfl, rfl⟩
  · refine ⟨rfl, rfl, rfl, rfl, rfl, ?_, ?_, ?_, ?_⟩
    · simp [emptySnapshot, hstart]
    · simp [emptySnapshot, hloops]
    · intro hstale
      simp [emptySnapshot, resetCell_keeps reset_stale, hstale]
    · simp [emptySnapshot, resetCell_keeps reset_maybe]
  · have htrace : sim.trace <+: st'.sim.trace := by
      rcases hst with rfl | ⟨raw, body, -, rfl⟩
      · exact hstart ▸ List.prefix_rfl
      · rw [← hstart]
        exact simulateBody_keeps (P := fun a b => a.trace <+: b.trace) (fun _ => List.prefix_rfl)
          (fun hab hbc => hab.trans hbc) (fun _ _ => List.prefix_rfl) (fun node _ st => simulateOneNode_trace node raw st) (.start _)
    have hgrow : sim.varsMutatedByLoops ⊆ st'.sim.varsMutatedByLoops := by
      rcases hst with rfl | ⟨raw, body, -, rfl⟩
      · exact hloops.ge
      · rw [← hloops]
        exact simulateBody_keeps (P := fun a b => a.varsMutatedByLoops ⊆ b.varsMutatedByLoops) (fun _ => subset_rfl)
          (fun hab hbc => hab.trans hbc) (fun _ _ => subset_rfl) (fun node _ st => simulateOneNode_loops node raw st) (.start _)
    refine ⟨rfl, rfl, rfl, rfl, rfl, ?_, ?_, fun _ => rfl, rfl⟩
    · rw [← List.prefix_iff_eq_take.mp htrace]
      rfl
    · simpa [snapshot] using (Finset.union_eq_right.mpr hgrow).symm

theorem simulateOneCell_targets {i : Nat} {code : Str} {sim sim' : SimulationResult} {entry : SimulationCacheEntry}
    (h : simulateOneCell s i code sim = some (sim', entry)) (hcode : NoLoopTargets s code) :
    sim'.loopTargetVars = sim.loopTargetVars := by
  have hstart : (resetCell s sim code).loopTargetVars = sim.loopTargetVars := resetCell_keeps reset_targets sim code
  rcases simulateOneCell_cases h with ⟨-, rfl, -⟩ | ⟨hempty, st', segment, hst, rfl, -⟩
  · exact hstart
  · rcases hst with rfl | ⟨raw, body, hparsed, rfl⟩
    · exact hstart
    · rw [← hstart]
      exact simulateBody_keeps (P := fun a b => b.loopTargetVars = a.loopTargetVars) (fun _ => rfl)
        (fun hab hbc => hbc.trans hab) (fun _ _ => rfl) (fun node hn st => hcode hempty raw body hparsed node hn raw _)
        (.start _)

/-! ## The state restored from the snapshots -/

section

/-! ### The cells one after the other -/

/-- The cells are simulated one after the other, from the empty state. -/
inductive Simulates (s : Session ν) : List Str → SimulationResult → List SimulationCacheEntry → Prop
  | nil : Simulates s [] .empty []
  | snoc {codes : List Str} {sim : SimulationResult} {entries : List SimulationCacheEntry} {code : Str}
      {sim' : SimulationResult} {entry : SimulationCacheEntry} : Simulates s codes sim entries →
      simulateOneCell s codes.length code sim = some (sim', entry) → Simulates s (codes ++ [code]) sim' (entries ++ [entry])

variable {codes : List Str} {sim : SimulationResult} {entries : List SimulationCacheEntry}

/-- The cells that follow are simulated from where the first of them led. -/
theorem Simulates.append (h : Simulates s codes sim entries) (rest : List Str) :
    simulateCells s 0 (codes ++ rest) .empty =
      (simulateCells s codes.length rest sim).map fun r => (r.1, entries ++ r.2) := by
  induction h generalizing rest with
  | nil => simp
  | @snoc codes sim entries code sim' entry _ hcell ih =>
    rw [List.append_assoc, ih]
    simp [simulateCells, hcell, Function.comp_def]

theorem Simulates.simulateCells {rest : List Str} {sim' : SimulationResult} {more : List SimulationCacheEntry}
    (h : Simulates s codes sim entries) (hrest : simulateCells s codes.length rest sim = some (sim', more)) :
    Simulates s (codes ++ rest) sim' (entries ++ more) := by
  induction rest generalizing codes sim entries more with
  | nil =>
    cases hrest
    simpa using h
  | cons code rest ih =>
    simp only [Upstream.simulateCells] at hrest
    split at hrest
    · cases hrest
    · rename_i sim₁ entry hcell
      obtain ⟨r, hr, heq⟩ := Option.map_eq_some_iff.mp hrest
      cases heq
      have hnext := ih (h.snoc hcell) (by simpa using hr)
      simpa using hnext

theorem Simulates.hashes (h : Simulates s codes sim entries) : entries.map (·.cellCodeHash) = codes.map s.digest := by
  induction h with
  | nil => rfl
  | snoc _ hcell ih => simp [ih, (simulateOneCell_snapshot hcell).hash]

theorem Simulates.length_eq (h : Simulates s codes sim entries) : entries.length = codes.length := by
  simpa using congrArg List.length h.hashes

/-- The first cells alone lead to the first snapshots. -/
theorem Simulates.take (h : Simulates s codes sim entries) (n : Nat) :
    ∃ sim', Simulates s (codes.take n) sim' (entries.take n) := by
  induction h with
  | nil => exact ⟨_, by simpa using .nil⟩
  | @snoc codes sim entries code sim' entry h hcell ih =>
    have hlength := h.length_eq
    by_cases hn : n ≤ codes.length
    · rwa [List.take_append_of_le_length hn, List.take_append_of_le_length (hlength ▸ hn)]
    · rw [List.take_of_length_le (by simp; omega), List.take_of_length_le (by simp; omega)]
      exact ⟨sim', h.snoc hcell⟩

/-! ### What the snapshots restore -/

/-- The last snapshot of the variables that loops may change. -/
def lastMaybe (entries : List SimulationCacheEntry) : Finset Str :=
  ((entries.filterMap (·.varsMaybeChangedByLoops)).getLast?).getD ∅

theorem Simulates.restored (h : Simulates s codes sim entries) (hstale : ∀ entry ∈ entries, entry.varsWithStaleFiles = ∅) :
    sim.trace = entries.flatMap (·.traceSegment) ∧
      sim.varsMutatedByLoops = entries.foldl (fun looped entry => looped ∪ entry.varsMutatedByLoops) ∅ ∧
      sim.varsWithStaleFiles = ∅ ∧
      entries.foldl (fun stale entry => stale ∪ entry.varsWithStaleFiles) ∅ = ∅ ∧
      sim.varsMaybeChangedByLoops = lastMaybe entries := by
  induction h with
  | nil => exact ⟨rfl, rfl, rfl, rfl, rfl⟩
  | @snoc codes sim entries code sim' entry _ hcell ih =>
    obtain ⟨htrace, hloops, hnone, hfold, hmaybe⟩ := ih fun e he => hstale e (List.mem_append_left _ he)
    have hentry : entry.varsWithStaleFiles = ∅ := hstale entry (by simp)
    have hsnap := simulateOneCell_snapshot hcell
    refine ⟨?_, ?_, ?_, ?_, ?_⟩
    · simp [hsnap.trace, htrace]
    · simp [hsnap.loops, hloops]
    · rw [← hsnap.stale hnone, hentry]
    · simp [hfold, hentry]
    · rw [hsnap.maybe, hmaybe, lastMaybe, lastMaybe, List.filterMap_append]
      cases hentry : entry.varsMaybeChangedByLoops with
      | none => simp [hentry]
      | some changed => simp [hentry]

theorem Simulates.targets (h : Simulates s codes sim entries) (hcodes : ∀ code ∈ codes, NoLoopTargets s code) : sim.loopTargetVars = ∅ := by
  induction h with
  | nil => rfl
  | @snoc codes sim entries code sim' entry _ hcell ih =>
    rw [simulateOneCell_targets hcell (hcodes code (by simp))]
    exact ih fun c hc => hcodes c (List.mem_append_left _ hc)

/-- The snapshots restore all of the simulation but the loop targets and, past a last cell with no statements,
what loops may change. -/
theorem Simulates.restoreCachedState_eq (h : Simulates s codes sim entries) (hstale : ∀ entry ∈ entries, entry.varsWithStaleFiles = ∅) :
    restoreCachedState entries = { sim with
      loopTargetVars := ∅
      varsMaybeChangedByLoops := (entries.getLast?.bind (·.varsMaybeChangedByLoops)).getD ∅ } := by
  obtain ⟨htrace, hloops, hnone, hfold, -⟩ := h.restored hstale
  induction h with
  | nil => rfl
  | @snoc codes sim entries code sim' entry _ hcell _ =>
    have hsnap := simulateOneCell_snapshot hcell
    unfold restoreCachedState
    simp only [List.getLast?_concat, Option.bind_some]
    rw [hsnap.lineage, hsnap.modules, hsnap.edges, hsnap.left, ← htrace, ← hloops, hfold, hnone]
    rfl

end

/-! ## Incremental simulation -/

/-! ### The cells kept -/

theorem scanMainCache_le (idx : Nat) (entries : List SimulationCacheEntry) (codes : List Str) :
    idx ≤ (scanMainCache s idx entries codes).1 ∧ (scanMainCache s idx entries codes).1 ≤ idx + entries.length ∧
      (scanMainCache s idx entries codes).1 ≤ idx + codes.length := by
  induction entries generalizing idx codes with
  | nil => simp [scanMainCache]
  | cons cached entries ih =>
    cases codes with
    | nil => simp [scanMainCache]
    | cons code codes =>
      simp only [scanMainCache, List.length_cons]
      split
      · omega
      · split
        · omega
        · have := ih (idx + 1) codes
          omega

/-- The entries kept are of the cells there are, and of none with stale files. -/
theorem scanMainCache_kept {idx n : Nat} {entries : List SimulationCacheEntry} {codes : List Str}
    (h : (scanMainCache s idx entries codes).1 = idx + n) :
    (entries.take n).map (·.cellCodeHash) = (codes.take n).map s.digest ∧
      ∀ entry ∈ entries.take n, entry.varsWithStaleFiles = ∅ := by
  induction entries generalizing idx n codes with
  | nil =>
    simp only [scanMainCache] at h
    obtain rfl : n = 0 := by omega
    simp
  | cons cached entries ih =>
    cases codes with
    | nil =>
      simp only [scanMainCache] at h
      obtain rfl : n = 0 := by omega
      simp
    | cons code codes =>
      simp only [scanMainCache] at h
      split at h
      · obtain rfl : n = 0 := by omega
        simp
      · rename_i hhash
        split at h
        · obtain rfl : n = 0 := by omega
          simp
        · rename_i houtdated
          have hle := (scanMainCache_le (s := s) (idx + 1) entries codes).1
          obtain ⟨m, rfl⟩ : ∃ m, n = m + 1 := ⟨n - 1, by omega⟩
          obtain ⟨hhashes, hstale⟩ := ih (n := m) (h.trans (by omega))
          simp only [not_not] at hhash
          simp only [outdated, Bool.or_eq_true, not_or, decide_eq_true_eq, not_not] at houtdated
          refine ⟨by simp [hhash, hhashes], ?_⟩
          intro entry hentry
          rcases List.mem_cons.mp hentry with rfl | hentry
          · exact houtdated.2
          · exact hstale entry hentry

theorem firstChangedCell_le (cache : SimulationCache) (call : Call) : firstChangedCell s cache call ≤ call.codes.length := by
  unfold firstChangedCell scanMainCacheForChanges
  split
  · exact Nat.zero_le _
  · simpa using (scanMainCache_le (s := s) 0 cache.entries call.codes).2.2

theorem keptEntries_spec (cache : SimulationCache) (call : Call) :
    (keptEntries s cache call).map (·.cellCodeHash) = (call.codes.take (firstChangedCell s cache call)).map s.digest ∧
      ∀ entry ∈ keptEntries s cache call, entry.varsWithStaleFiles = ∅ := by
  unfold keptEntries firstChangedCell scanMainCacheForChanges
  split
  · simp
  · exact scanMainCache_kept (Nat.zero_add _).symm

/-! ### Calls -/

/-- The cache is what simulating some cells leaves. -/
def Snapshots (s : Session ν) (cache : SimulationCache) : Prop := ∃ codes sim, Simulates s codes sim cache.entries

/-- The cells a call keeps have no `for` loop, and the last of their snapshots knows what loops may change. -/
structure LosesNothing (s : Session ν) (cache : SimulationCache) (call : Call) : Prop where
  targets : ∀ code ∈ call.codes.take (firstChangedCell s cache call), NoLoopTargets s code
  maybe : ((keptEntries s cache call).getLast?.bind (·.varsMaybeChangedByLoops)).getD ∅ =
    lastMaybe (keptEntries s cache call)

theorem kept_simulates {cache : SimulationCache} (hcache : Snapshots s cache) (call : Call) :
    ∃ sim, Simulates s (call.codes.take (firstChangedCell s cache call)) sim (keptEntries s cache call) := by
  obtain ⟨codes, sim, hsim⟩ := hcache
  obtain ⟨sim', hkept⟩ := hsim.take (firstChangedCell s cache call)
  have hcodes : codes.take (firstChangedCell s cache call) = call.codes.take (firstChangedCell s cache call) :=
    List.map_injective_iff.mpr s.digest_injective (hkept.hashes.symm.trans (keptEntries_spec cache call).1)
  exact ⟨sim', hcodes ▸ hkept⟩

/-- What a call restores is the simulation of the cells it keeps exactly when it loses nothing. -/
theorem restoreCachedState_of_losesNothing {cache : SimulationCache} {call : Call} {sim : SimulationResult}
    (hsim : Simulates s (call.codes.take (firstChangedCell s cache call)) sim (keptEntries s cache call))
    (hloses : LosesNothing s cache call) : restoreCachedState (keptEntries s cache call) = sim := by
  have hstale := (keptEntries_spec (s := s) cache call).2
  rw [hsim.restoreCachedState_eq hstale, hloses.maybe, ← (hsim.restored hstale).2.2.2.2,
    ← hsim.targets hloses.targets]

/-- A call that loses nothing simulates as from the start, and leaves a cache of snapshots. -/
theorem simulate_spec {cache : SimulationCache} {call : Call} (hcache : Snapshots s cache)
    (hloses : LosesNothing s cache call) :
    simulated s cache call = (simulateCells s 0 call.codes .empty).map (·.1) ∧
      Snapshots s (simulate s cache call).2 := by
  obtain ⟨sim, hsim⟩ := kept_simulates hcache call
  have hrestored := restoreCachedState_of_losesNothing hsim hloses
  have hlength : (call.codes.take (firstChangedCell s cache call)).length = firstChangedCell s cache call :=
    List.length_take_of_le (firstChangedCell_le cache call)
  have hcells : simulateCells s 0 call.codes .empty = (simulateCells s (firstChangedCell s cache call)
      (call.codes.drop (firstChangedCell s cache call)) sim).map fun r => (r.1, keptEntries s cache call ++ r.2) := by
    rw [← hlength, ← hsim.append, hlength, List.take_append_drop]
  simp only [simulated, simulate, hrestored, hcells]
  cases hrest : simulateCells s (firstChangedCell s cache call) (call.codes.drop (firstChangedCell s cache call)) sim with
  | none => exact ⟨rfl, hcache⟩
  | some r => exact ⟨rfl, _, r.1, hsim.simulateCells (hlength.symm ▸ hrest)⟩

theorem simulated_empty (call : Call) :
    simulated s .empty call = (simulateCells s 0 call.codes .empty).map (·.1) := by
  have hkept : keptEntries s .empty call = [] := by simp [keptEntries, SimulationCache.empty]
  refine (simulate_spec ⟨[], .empty, .nil⟩ ⟨?_, by rw [hkept]; rfl⟩).1
  have hfirst : firstChangedCell s .empty call = 0 := by
    unfold firstChangedCell scanMainCacheForChanges
    split <;> rfl
  simp [hfirst]

theorem simulateAll_snapshots {calls : List Call}
    (h : ∀ before call, before ++ [call] <+: calls → LosesNothing s (simulateAll s before) call) :
    Snapshots s (simulateAll s calls) := by
  induction calls using List.reverseRecOn with
  | nil => exact ⟨[], .empty, .nil⟩
  | append_singleton calls call ih =>
    have hbefore := ih fun before c hc => h before c (hc.trans (List.prefix_append _ _))
    unfold simulateAll
    rw [List.foldl_concat]
    exact (simulate_spec hbefore (h calls call List.prefix_rfl)).2

/-- In a run of calls that lose nothing, the last one simulates as one with an empty cache does. -/
theorem simulate_incremental {calls : List Call} {last : Call}
    (h : ∀ before call, before ++ [call] <+: calls ++ [last] → LosesNothing s (simulateAll s before) call) :
    simulated s (simulateAll s calls) last = simulated s .empty last := by
  have hcache : Snapshots s (simulateAll s calls) :=
    simulateAll_snapshots fun before call hbefore => h before call (hbefore.trans (List.prefix_append _ _))
  rw [simulated_empty, (simulate_spec hcache (h calls last List.prefix_rfl)).1]

/-! ### A loop above the cell -/

/-- A statement that binds `name` from nothing. -/
def binding (code name : String) : TraceEntry where
  stmtCode := str code
  outputs := {str name}
  inputs := ∅
  inputHashes _ := none
  producedLineages := fun n => if n = str name then some (str code) else none
  filesStale := false
  cell := none

def SimulationResult.bind (sim : SimulationResult) (code name : String) : SimulationResult :=
  { sim with
    virtualLineage := fun n => if n = str name then some (str code) else sim.virtualLineage n
    trace := sim.trace ++ [binding code name] }

/-- The simulation of `for i in []: pass`, and of `x = 1` for any other text. -/
def loopOrAssignment (node : Str) (sim : SimulationResult) : SimulationResult :=
  if node = str "for i in []: pass" then
    { sim.bind "for i in []: pass" "i" with loopTargetVars := insert (str "i") sim.loopTargetVars }
  else sim.bind "x = 1" "x"

theorem loopOrAssignment_trace (node : Str) (sim : SimulationResult) : sim.trace <+: (loopOrAssignment node sim).trace := by
  unfold loopOrAssignment
  split <;> exact List.prefix_append _ _

theorem loopOrAssignment_loops (node : Str) (sim : SimulationResult) :
    (loopOrAssignment node sim).varsMutatedByLoops = sim.varsMutatedByLoops := by
  unfold loopOrAssignment
  split <;> rfl

/-- A session in which nothing has run, of cells that hold one statement each. -/
def oneStatementCells : Session Str where
  digest := id
  digest_injective _ _ h := h
  statementSourceHash := id
  failedCells _ := none
  failedCellNames _ := ∅
  userNs := ∅
  variableLineage _ := none
  derivationEdges _ := none
  magicGeneration := 0
  shareEdgeChanges := []
  fileEventSeq := 0
  cellEnvironment _ := []
  checkCellFileDeps _ _ _ := false
  outsideChanges _ := false
  resets _ := []
  simulationCell _ := none
  cleanCellSource := id
  parseCellSource code := some [code]
  isRaise _ := false
  reboundNames _ := ∅
  simulateNode node _ st := ({ st with sim := loopOrAssignment node st.sim }, .done)
  simulateNode_trace node _ st := loopOrAssignment_trace node st.sim
  simulateNode_loops node _ st := (loopOrAssignment_loops node st.sim).ge

/-- The second cell of a notebook is run. -/
def secondCell (first : String) : Call := ⟨1, [str first, str "print(1)"], by simp⟩

theorem simulate_loses_loop_targets :
    simulated oneStatementCells (simulateAll oneStatementCells [secondCell "for i in []: pass"])
      (secondCell "for i in []: pass") ≠ simulated oneStatementCells .empty (secondCell "for i in []: pass") := by
  intro h
  have htargets := congrArg (Option.map (·.loopTargetVars)) h
  revert htargets
  decide

theorem assignment_noLoopTargets : NoLoopTargets oneStatementCells (str "x = 1") := by
  intro _ raw body hparsed node hnode raw' st
  obtain ⟨-, rfl⟩ := Prod.mk.inj (Option.some.inj hparsed)
  rw [List.mem_singleton.mp hnode]
  rfl

theorem secondCell_codes {code : Str} {n : Nat} (h : code ∈ (secondCell "x = 1").codes.take n) : code = str "x = 1" :=
  List.mem_singleton.mp (List.mem_of_mem_take h)

theorem simulate_incremental_assignment :
    simulated oneStatementCells (simulateAll oneStatementCells [secondCell "x = 1"]) (secondCell "x = 1") =
      simulated oneStatementCells .empty (secondCell "x = 1") := by
  apply simulate_incremental
  intro before call hbefore
  have hcases : (before = [] ∨ before = [secondCell "x = 1"]) ∧ call = secondCell "x = 1" := by
    match before, hbefore with
    | [], h => exact ⟨.inl rfl, (List.cons_prefix_cons.mp h).1⟩
    | [_], h =>
      obtain ⟨rfl, hcall⟩ := List.cons_prefix_cons.mp h
      exact ⟨.inr rfl, (List.cons_prefix_cons.mp hcall).1⟩
    | _ :: _ :: _, h => exact absurd h.length_le (by simp)
  obtain ⟨rfl | rfl, rfl⟩ := hcases
  · exact ⟨fun code hcode => secondCell_codes hcode ▸ assignment_noLoopTargets, rfl⟩
  · exact ⟨fun code hcode => secondCell_codes hcode ▸ assignment_noLoopTargets, by decide⟩

end Cash.Upstream
