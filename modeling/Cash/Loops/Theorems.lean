import Cash.Loops.Lemmas

/-!
# A re-run loop fills an empty container, an extended one keeps its items
-/

namespace Cash.Loops

open Py

namespace LoopRules

variable {r : LoopRules} {schedule : List r.Idx} {idx : r.Idx} {acc : Str}

/-- An empty-container initialisation of the name, and of nothing else. -/
def Initialises (r : LoopRules) (acc : Str) (idx : r.Idx) : Prop :=
  (r.simulationTrace.get idx).outputs = [acc] ∧
    emptyInit r.classes acc (r.classes.strip (r.simulationTrace.get idx).stmtCode) = true

/-- A scheduled statement, of no iteration, writes the name and changes it in place in a form that is recognised. -/
def Rerun (r : LoopRules) (schedule : List r.Idx) (acc : Str) : Prop :=
  ∃ idx ∈ schedule, r.marked idx = false ∧ acc ∈ (r.simulationTrace.get idx).outputs ∧
    ChangesInPlace r.classes acc (r.simulationTrace.get idx).stmtCode

/-- Loops update the name: one of the trace's loops, or a scheduled iteration. -/
def LoopUpdated (r : LoopRules) (schedule : List r.Idx) (acc : Str) : Prop :=
  acc ∈ r.varsMutatedByLoops ∨ ∃ idx ∈ schedule, r.marked idx = true ∧ acc ∈ (r.simulationTrace.get idx).outputs

/-- An initialisation that runs only where an accumulator is extended. -/
def OverExtended (r : LoopRules) (schedule : List r.Idx) (acc : Str) (idx : r.Idx) : Prop :=
  r.Initialises acc idx ∧ r.marked idx = false ∧ r.LoopUpdated schedule acc ∧
    ¬ (acc ∈ r.varsMutatedByLoops ∧ r.Rerun schedule acc)

/-! ## What the rules read -/

theorem mem_loopVarsFullyRescheduled :
    acc ∈ r.loopVarsFullyRescheduled schedule ↔ acc ∈ r.varsMutatedByLoops ∧ r.Rerun schedule acc := by
  simp only [loopVarsFullyRescheduled, List.mem_filter, List.any_eq_true, Bool.and_eq_true, Bool.not_eq_true',
    List.contains_iff_mem, search_iff, Rerun, and_assoc]

theorem mem_scheduledIterationOutputs :
    acc ∈ r.scheduledIterationOutputs schedule ↔
      ∃ idx ∈ schedule, r.marked idx = true ∧ acc ∈ (r.simulationTrace.get idx).outputs := by
  simp only [scheduledIterationOutputs, List.mem_flatMap, List.mem_filter, and_assoc]

theorem initialises_iff {names : List Str} : r.initialises names idx = true ↔ ∃ acc ∈ names, r.Initialises acc idx := by
  unfold initialises Initialises
  split
  · rename_i outVar houtputs
    rw [decide_eq_true_eq]
    constructor
    · rintro ⟨hmem, hinit⟩
      exact ⟨outVar, hmem, houtputs, hinit⟩
    · rintro ⟨acc, hmem, heq, hinit⟩
      obtain ⟨rfl, -⟩ := List.cons.inj (houtputs.symm.trans heq)
      exact ⟨hmem, hinit⟩
  · rename_i hne
    simp only [Bool.false_eq_true, false_iff]
    rintro ⟨acc, -, heq, -⟩
    exact hne acc heq

/-- What `_is_reinit_to_skip` says, with what it reads of the schedule. -/
theorem isReinitToSkip_eq (schedule : List r.Idx) (idx : r.Idx) :
    (∃ acc live, r.OverExtended schedule acc idx ∧ r.userNs acc = some live ∧
        r.isReinitToSkip (r.scheduledIterationOutputs schedule) (r.loopVarsFullyRescheduled schedule) idx =
          match live.truth with
          | .is true => live.len.map fun _ => true
          | .is false | .refused => some false
          | .raised => none) ∨
      ((∀ acc, r.OverExtended schedule acc idx → r.userNs acc = none) ∧
        r.isReinitToSkip (r.scheduledIterationOutputs schedule) (r.loopVarsFullyRescheduled schedule) idx = some false) := by
  unfold isReinitToSkip
  split
  · rename_i hmarked
    refine .inr ⟨fun acc hover => ?_, rfl⟩
    rw [hover.2.1] at hmarked
    cases hmarked
  · rename_i hmarked
    split
    · rename_i outVar houtputs
      have hname : ∀ acc, r.OverExtended schedule acc idx → outVar = acc := fun acc hover =>
        (List.cons.inj (houtputs.symm.trans hover.1.1)).1
      split
      · rename_i hrerun
        refine .inr ⟨fun acc hover => ?_, rfl⟩
        obtain rfl := hname acc hover
        exact absurd (mem_loopVarsFullyRescheduled.mp hrerun) hover.2.2.2
      · rename_i hrerun
        split
        · rename_i hloop
          refine .inr ⟨fun acc hover => ?_, rfl⟩
          obtain rfl := hname acc hover
          rcases hover.2.2.1 with hmem | hmem
          · exact absurd hmem hloop.2
          · exact absurd (mem_scheduledIterationOutputs.mpr hmem) hloop.1
        · rename_i hloop
          split
          · rename_i hinit
            refine .inr ⟨fun acc hover => ?_, rfl⟩
            obtain rfl := hname acc hover
            rw [hover.1.2] at hinit
            cases hinit
          · rename_i hinit
            have hover : r.OverExtended schedule outVar idx := by
              refine ⟨⟨houtputs, by simpa using hinit⟩, by simpa using hmarked, ?_, fun h =>
                hrerun (mem_loopVarsFullyRescheduled.mpr h)⟩
              by_cases hmem : outVar ∈ r.varsMutatedByLoops
              · exact .inl hmem
              · by_contra hnot
                exact hloop ⟨fun h => hnot (.inr (mem_scheduledIterationOutputs.mp h)), hmem⟩
            cases hlive : r.userNs outVar with
            | none =>
                refine .inr ⟨fun acc h => ?_, rfl⟩
                obtain rfl := hname acc h
                exact hlive
            | some live => exact .inl ⟨outVar, live, hover, hlive, rfl⟩
    · rename_i hne
      exact .inr ⟨fun acc hover => absurd hover.1.1 (hne acc), rfl⟩

/-! ## What is removed -/

theorem indicesToRemove_eq_none {scheduled rerun : List Str} {idxs : List r.Idx} :
    r.indicesToRemove scheduled rerun idxs = none ↔ ∃ idx ∈ idxs, r.isReinitToSkip scheduled rerun idx = none := by
  induction idxs with
  | nil => simp [indicesToRemove]
  | cons i rest ih =>
      rw [indicesToRemove]
      cases hskip : r.isReinitToSkip scheduled rerun i with
      | none => simp [hskip]
      | some skip => simp [hskip, ih]

theorem mem_indicesToRemove {scheduled rerun : List Str} {idxs removed : List r.Idx}
    (h : r.indicesToRemove scheduled rerun idxs = some removed) :
    idx ∈ removed ↔ idx ∈ idxs ∧ r.isReinitToSkip scheduled rerun idx = some true := by
  induction idxs generalizing removed with
  | nil =>
      cases h
      simp
  | cons i rest ih =>
      rw [indicesToRemove, Option.bind_eq_some_iff] at h
      obtain ⟨skip, hskip, h⟩ := h
      rw [Option.map_eq_some_iff] at h
      obtain ⟨tail, htail, rfl⟩ := h
      cases skip with
      | true =>
          rw [if_pos rfl, List.mem_cons, ih htail, List.mem_cons]
          constructor
          · rintro (rfl | ⟨hmem, hidx⟩)
            · exact ⟨.inl rfl, hskip⟩
            · exact ⟨.inr hmem, hidx⟩
          · rintro ⟨rfl | hmem, hidx⟩
            · exact .inl rfl
            · exact .inr ⟨hmem, hidx⟩
      | false =>
          rw [if_neg Bool.false_ne_true, ih htail, List.mem_cons]
          constructor
          · exact fun ⟨hmem, hidx⟩ => ⟨.inr hmem, hidx⟩
          · rintro ⟨rfl | hmem, hidx⟩
            · rw [hskip] at hidx
              cases hidx
            · exact ⟨hmem, hidx⟩

theorem skip_iff : r.isReinitToSkip (r.scheduledIterationOutputs schedule) (r.loopVarsFullyRescheduled schedule) idx = some true ↔
    ∃ acc live, r.OverExtended schedule acc idx ∧ r.userNs acc = some live ∧ live.truth = .is true ∧ live.len ≠ none := by
  rcases r.isReinitToSkip_eq schedule idx with ⟨acc, live, hover, hlive, heq⟩ | ⟨hnone, heq⟩
  · have honly : ∀ acc' live', r.OverExtended schedule acc' idx → r.userNs acc' = some live' → live' = live := by
      intro acc' live' hover' hlive'
      obtain ⟨rfl, -⟩ := List.cons.inj (hover'.1.1.symm.trans hover.1.1)
      exact Option.some.inj (hlive'.symm.trans hlive)
    rw [heq]
    constructor
    · intro h
      refine ⟨acc, live, hover, hlive, ?_⟩
      revert h
      cases live.truth with
      | is b => cases b <;> cases live.len <;> simp
      | refused => simp
      | raised => simp
    · rintro ⟨acc', live', hover', hlive', htruth, hlen⟩
      obtain rfl := honly acc' live' hover' hlive'
      obtain ⟨n, hn⟩ := Option.ne_none_iff_exists'.mp hlen
      rw [htruth, hn]
      rfl
  · rw [heq]
    simp only [Option.some.injEq, Bool.false_eq_true, false_iff]
    rintro ⟨acc, live, hover, hlive, -⟩
    rw [hnone acc hover] at hlive
    cases hlive

theorem raises_iff : r.isReinitToSkip (r.scheduledIterationOutputs schedule) (r.loopVarsFullyRescheduled schedule) idx = none ↔
    ∃ acc live, r.OverExtended schedule acc idx ∧ r.userNs acc = some live ∧
      (live.truth = .raised ∨ live.truth = .is true ∧ live.len = none) := by
  rcases r.isReinitToSkip_eq schedule idx with ⟨acc, live, hover, hlive, heq⟩ | ⟨hnone, heq⟩
  · rw [heq]
    constructor
    · intro h
      refine ⟨acc, live, hover, hlive, ?_⟩
      revert h
      cases live.truth with
      | is b => cases b <;> cases live.len <;> simp
      | refused => simp
      | raised => simp
    · rintro ⟨acc', live', hover', hlive', htruth⟩
      obtain ⟨rfl, -⟩ := List.cons.inj (hover'.1.1.symm.trans hover.1.1)
      obtain rfl := Option.some.inj (hlive'.symm.trans hlive)
      rcases htruth with htruth | ⟨htruth, hlen⟩
      · rw [htruth]
      · rw [htruth, hlen]
        rfl
  · rw [heq]
    simp only [reduceCtorEq, false_iff]
    rintro ⟨acc, live, hover, hlive, -⟩
    rw [hnone acc hover] at hlive
    cases hlive

/-- An initialisation is added only where the accumulator's loop is re-run, and is then never one of an extended one. -/
theorem not_overExtended_of_added (hadded : r.initialises (r.loopVarsFullyRescheduled schedule) idx = true) :
    ∀ acc, ¬ r.OverExtended schedule acc idx := by
  intro acc hover
  obtain ⟨acc', hmem, hinit⟩ := initialises_iff.mp hadded
  obtain ⟨rfl, -⟩ := List.cons.inj (hover.1.1.symm.trans hinit.1)
  exact hover.2.2.2 (mem_loopVarsFullyRescheduled.mp hmem)

/-- `filter_accumulator_reinits` raises where an initialisation would be skipped over a live value that is true but has no
length. Otherwise an initialisation runs with the loop that fills its accumulator, where the change is of a form that is
recognised; it does not run where nothing else that writes the accumulator does and there are live items; and nothing but
initialisations is added or removed. -/
theorem filter_spec (hnames : ∀ acc ∈ r.varsMutatedByLoops, Identifier acc) (schedule : List r.Idx) :
    (r.filterAccumulatorReinits schedule = none ↔ ∃ idx ∈ schedule, ∃ acc live, r.OverExtended schedule acc idx ∧
      r.userNs acc = some live ∧ (live.truth = .raised ∨ live.truth = .is true ∧ live.len = none)) ∧
    ∀ result, r.filterAccumulatorReinits schedule = some result →
      (∀ acc ∈ r.varsMutatedByLoops, ∀ idx, r.Initialises acc idx → r.Rerun schedule acc → idx ∈ result) ∧
      (∀ acc ∈ r.varsMutatedByLoops, ∀ idx, r.Initialises acc idx →
        (∀ j ∈ schedule, acc ∈ (r.simulationTrace.get j).outputs → j = idx) →
          (∃ live, r.userNs acc = some live ∧ live.truth = .is true) → idx ∉ result) ∧
      ∃ added kept, result = (schedule ++ added).filter kept ∧
        (∀ idx ∈ added, ∃ acc ∈ r.varsMutatedByLoops, r.Initialises acc idx) ∧
        ∀ idx, kept idx = false → ∃ acc, r.Initialises acc idx ∧ r.LoopUpdated schedule acc := by
  constructor
  · rw [filterAccumulatorReinits, Option.map_eq_none_iff, indicesToRemove_eq_none]
    constructor
    · rintro ⟨idx, hmem, hnone⟩
      obtain ⟨acc, live, hover, hrest⟩ := raises_iff.mp hnone
      rcases List.mem_append.mp hmem with hmem | hmem
      · exact ⟨idx, hmem, acc, live, hover, hrest⟩
      · rw [List.mem_filter, decide_eq_true_eq] at hmem
        exact absurd hover (not_overExtended_of_added hmem.2.2 acc)
    · rintro ⟨idx, hmem, hraises⟩
      exact ⟨idx, List.mem_append_left _ hmem, raises_iff.mpr hraises⟩
  · intro result hresult
    rw [filterAccumulatorReinits, Option.map_eq_some_iff] at hresult
    obtain ⟨removed, hremoved, rfl⟩ := hresult
    have hskipped : ∀ idx, idx ∈ removed → ∃ acc live, r.OverExtended schedule acc idx ∧ r.userNs acc = some live ∧
        live.truth = .is true ∧ live.len ≠ none := fun idx hidx => skip_iff.mp ((mem_indicesToRemove hremoved).mp hidx).2
    refine ⟨?_, ?_, _, _, rfl, ?_, ?_⟩
    · intro acc hacc idx hinit hrerun
      rw [List.mem_filter, decide_eq_true_eq]
      have hfull : acc ∈ r.loopVarsFullyRescheduled schedule := mem_loopVarsFullyRescheduled.mpr ⟨hacc, hrerun⟩
      constructor
      · by_cases hmem : idx ∈ schedule
        · exact List.mem_append_left _ hmem
        · refine List.mem_append_right _ (List.mem_filter.mpr ⟨List.mem_finRange idx, ?_⟩)
          rw [decide_eq_true_eq]
          exact ⟨hmem, initialises_iff.mpr ⟨acc, hfull, hinit⟩⟩
      · intro hidx
        obtain ⟨acc', live, hover, -⟩ := hskipped idx hidx
        obtain ⟨rfl, -⟩ := List.cons.inj (hover.1.1.symm.trans hinit.1)
        exact hover.2.2.2 ⟨hacc, hrerun⟩
    · rintro acc hacc idx hinit honly ⟨live, hlive, htruth⟩ hidx
      rw [List.mem_filter, decide_eq_true_eq] at hidx
      obtain ⟨hmem, hkept⟩ := hidx
      have hrerun : ¬ r.Rerun schedule acc := by
        rintro ⟨j, hj, -, houtput, hchange⟩
        obtain rfl := honly j hj houtput
        exact init_unchanged (hnames acc hacc) hinit.2 hchange
      have hunmarked : r.marked idx = false := by
        rw [marked, init_unmarked (hnames acc hacc) hinit.2]
        rfl
      have hover : r.OverExtended schedule acc idx := ⟨hinit, hunmarked, .inl hacc, fun h => hrerun h.2⟩
      have hskip : ¬ r.isReinitToSkip (r.scheduledIterationOutputs schedule) (r.loopVarsFullyRescheduled schedule) idx = some true :=
        fun hskip => hkept ((mem_indicesToRemove hremoved).mpr ⟨hmem, hskip⟩)
      have hlen : live.len = none := by
        by_contra hlen
        exact hskip (skip_iff.mpr ⟨acc, live, hover, hlive, htruth, hlen⟩)
      have hraises := indicesToRemove_eq_none.mpr ⟨idx, hmem, raises_iff.mpr ⟨acc, live, hover, hlive, .inr ⟨htruth, hlen⟩⟩⟩
      rw [hremoved] at hraises
      cases hraises
    · intro idx hidx
      rw [List.mem_filter, decide_eq_true_eq] at hidx
      obtain ⟨acc, hmem, hinit⟩ := initialises_iff.mp hidx.2.2
      exact ⟨acc, (mem_loopVarsFullyRescheduled.mp hmem).1, hinit⟩
    · intro idx hidx
      have hmem : idx ∈ removed := by simpa using hidx
      obtain ⟨acc, live, hover, -⟩ := hskipped idx hmem
      exact ⟨acc, hover.1, hover.2.2.1⟩

/-! ## Changes that are not recognised -/

/-- The classes over ASCII. -/
def ascii : Classes where
  word c := 48 ≤ c ∧ c ≤ 57 ∨ 65 ≤ c ∧ c ≤ 90 ∨ c = 95 ∨ 97 ≤ c ∧ c ≤ 122
  space c := 9 ≤ c ∧ c ≤ 13 ∨ 28 ≤ c ∧ c ≤ 32
  disjoint c h := by
    rw [decide_eq_true_eq] at h
    rw [decide_eq_false_iff_not]
    omega
  marks := by decide

/-- An accumulator with items, its initialisation, and a loop. -/
def accumulator (init body : String) : LoopRules where
  classes := ascii
  simulationTrace := [⟨str init, [str "acc"]⟩, ⟨str body, [str "k", str "acc"]⟩]
  varsMutatedByLoops := [str "acc"]
  userNs name := if name = str "acc" then some ⟨.is true, some 2⟩ else none

/-- Two accumulators of one loop; the live value of one is a number. -/
def withNumber : LoopRules where
  classes := ascii
  simulationTrace := [⟨str "acc = []", [str "acc"]⟩, ⟨str "last = []", [str "last"]⟩,
    ⟨str "for k in ks:\n    acc.append(k)\n    last = last or k", [str "k", str "acc", str "last"]⟩]
  varsMutatedByLoops := [str "acc", str "last"]
  userNs name := if name = str "acc" then some ⟨.is true, some 2⟩ else if name = str "last" then some ⟨.is true, none⟩ else none

/-- The places of the trace in what is returned. -/
def places (r : LoopRules) (schedule : List r.Idx) : Option (List Nat) :=
  (r.filterAccumulatorReinits schedule).map (List.map Fin.val)

/-- An augmented store, an augmented assignment, a `del` and a store at an index that is a subscript are not recognised; an
empty `frozenset()` is added too; and a number that is live raises. -/
theorem unrecognised :
    (∀ body ∈ ["for k in ks:\n    acc[k] += 1", "for k in ks:\n    acc += [k]", "for k in ks:\n    del acc[k]",
        "for k in ks:\n    acc[d[k]] = k"], places (accumulator "acc = {}" body) [(1 : Fin 2)] = some [1]) ∧
    places (accumulator "acc = frozenset()" "for k in ks:\n    acc = acc.union([k])") [(1 : Fin 2)] = some [1, 0] ∧
    places withNumber [(1 : Fin 3), (2 : Fin 3)] = none := by
  refine ⟨by decide, by decide, by decide⟩

/-- A loop that appends. -/
def appends : LoopRules := accumulator "acc = []" "for k in ks:\n    acc.append(k)"

theorem appends_names : ∀ acc ∈ appends.varsMutatedByLoops, Identifier acc := by
  intro acc hacc
  rw [List.mem_singleton.mp hacc]
  unfold Identifier
  decide

/-- The initialisation runs with the loop. -/
theorem filter_spec_appends : ∃ result, appends.filterAccumulatorReinits [(1 : Fin 2)] = some result ∧ (0 : Fin 2) ∈ result := by
  have hresult : appends.filterAccumulatorReinits [(1 : Fin 2)] = some [(1 : Fin 2), (0 : Fin 2)] := rfl
  have hinit : appends.Initialises (str "acc") (0 : Fin 2) := ⟨rfl, by decide⟩
  have hrerun : appends.Rerun [(1 : Fin 2)] (str "acc") :=
    ⟨(1 : Fin 2), List.mem_cons_self, by decide, by decide, search_iff.mp (by decide)⟩
  exact ⟨_, hresult, ((filter_spec appends_names [(1 : Fin 2)]).2 _ hresult).1 _ List.mem_cons_self _ hinit hrerun⟩

end LoopRules

end Cash.Loops
