import Cash.Upstream.Lemmas.Schedule
import Cash.Upstream.Planner
import Cash.Upstream.Lemmas.Scan
import Mathlib.Data.Fin.VecNotation
import Mathlib.Data.Fintype.Order
import Mathlib.Tactic.FinCases

/-!
# Repair plans
-/

namespace Cash.Upstream

open Py

variable {n : Nat}

/-! ## What the planner schedules -/

/-! ### The scan -/

namespace Repair

variable {r : Repair n} {broken : Finset Str}

theorem scanStatement_eq {i : Fin n} {scan : BackwardScan n} (h : r.entry i = none) : r.scanStatement i scan =
    if (r.node i).outputs ∩ scan.needed = ∅ then scan else r.cascadeFailedRestoreInputs i scan := by
  simp only [scanStatement, h, tryVirtualRestore]

/-! ### The completions -/

theorem mem_completeShadowedVarProducers {run : Finset (Fin n)} {i : Fin n} :
    i ∈ r.completeShadowedVarProducers run ↔
      run.Reaches (fun j i => ∃ v ∈ (r.node j).inputs, r.shadowSchedules j v i) i := by
  have hspec := Finset.mem_saturate (f := r.addShadowed) (s := run) (b := i)
    (r := fun j i => ∃ v ∈ (r.node j).inputs, r.shadowSchedules j v i) (fun s => Finset.subset_union_left) ?_ ?_
  · rwa [Fintype.card_fin] at hspec
  · intro s j hj
    rcases Finset.mem_union.mp hj with hj | hj
    · exact .mem hj
    · obtain ⟨k, hk, hkj⟩ := (Finset.mem_filter.mp hj).2
      exact (Finset.Reaches.mem hk).step hkj
  · intro s hs j hj k hjk
    rw [← hs]
    exact Finset.mem_union_right _ (Finset.mem_filter.mpr ⟨Finset.mem_univ k, j, hj, hjk⟩)

theorem mem_completeInputsProducedBefore {run : Finset (Fin n)} {i : Fin n} :
    i ∈ r.completeInputsProducedBefore run ↔ run.Reaches (fun j i => i ∈ r.inputProducers j) i :=
  Finset.mem_worklist_finRange fun _ => (List.nodup_finRange n).filter _

theorem mem_completeBothWays {run : Finset (Fin n)} {i : Fin n} : i ∈ r.completeBothWays run ↔
    run.Reaches (fun j i => i ∈ r.inputProducers j ∨ i ∈ r.laterProducers j) i := by
  have hspec := Finset.mem_saturate_comp (s := run) (b := i)
    (fun j k => Iff.rfl (a := k ∈ r.inputProducers j ∨ k ∈ r.laterProducers j))
    (fun s j => mem_completeLaterProducers)
    (fun s j hj => mem_completeInputsProducedBefore.mpr (.mem hj))
    (fun s j hj k hjk => mem_completeInputsProducedBefore.mpr ((Finset.Reaches.mem hj).step hjk))
    (fun s j hj => mem_completeInputsProducedBefore.mp hj)
  rwa [Fintype.card_fin] at hspec

end Repair

namespace Notebook

variable {r : Notebook n} {broken : Finset Str} {i : Fin n} {v : Str} {b : Nat} {s : Repair.BackwardScan n}

/-! ### What the scan finds -/

/-- A broken name, or one that a wanted statement from `b` on reads and that is to be made. -/
def AskedFrom (r : Notebook n) (broken : Finset Str) (b : Nat) (v : Str) : Prop :=
  v ∈ broken ∨ r.shouldAddInputToNeeded r.live v = true ∧
    ∃ j : Fin n, b ≤ j ∧ r.Wanted broken j ∧ v ∈ (r.node j).inputs

/-- The name is still to be made before the statements from `b` on. -/
def NeededFrom (r : Notebook n) (broken : Finset Str) (b : Nat) (v : Str) : Prop :=
  if v ∈ broken then ∀ k : Fin n, b ≤ k → ¬r.Rebinds k v
  else r.shouldAddInputToNeeded r.live v = true ∧
    (∃ j : Fin n, b ≤ j ∧ r.Wanted broken j ∧ v ∈ (r.node j).inputs) ∧
    ∀ j : Fin n, b ≤ j → r.Wanted broken j → v ∈ (r.node j).inputs → ∀ k : Fin n, b ≤ k → k < j → ¬r.Rebinds k v

theorem wanted_iff : r.Wanted broken i ↔ ∃ v ∈ (r.node i).outputs, r.NeededFrom broken (i + 1) v := by
  rw [Wanted]
  simp only [NeededFrom, Nat.succ_le_iff, Fin.val_fin_lt, exists_prop]

theorem NeededFrom.asked (h : r.NeededFrom broken b v) : r.AskedFrom broken b v := by
  unfold NeededFrom at h
  split at h
  · rename_i hv
    exact .inl hv
  · exact .inr ⟨h.1, h.2.1⟩

/-- The statements from `i` on are `i` and those after it. -/
theorem eq_or_succ_le {i k : Fin n} (h : i.val ≤ k) : k = i ∨ i.val + 1 ≤ k := by
  rcases Nat.lt_or_eq_of_le h with h | h
  · exact .inr h
  · exact .inl (Fin.ext h.symm)

theorem askedFrom_skip (h : ¬r.Wanted broken i) : r.AskedFrom broken i v ↔ r.AskedFrom broken (i + 1) v := by
  refine or_congr_right (and_congr_right fun _ => ⟨?_, ?_⟩)
  · rintro ⟨j, hij, hj, hv⟩
    rcases eq_or_succ_le hij with rfl | hij
    · exact absurd hj h
    · exact ⟨j, hij, hj, hv⟩
  · rintro ⟨j, hij, hj, hv⟩
    exact ⟨j, by omega, hj, hv⟩

theorem neededFrom_skip (h : ¬r.Wanted broken i) : r.NeededFrom broken i v ↔ r.NeededFrom broken (i + 1) v := by
  -- A needed name that `i` rebinds would make it wanted.
  have hrebinds : r.NeededFrom broken (i + 1) v → ¬r.Rebinds i v :=
    fun hn hr => h (wanted_iff.mpr ⟨v, hr.1, hn⟩)
  constructor
  · intro hn
    unfold NeededFrom at hn ⊢
    split
    · rename_i hv
      rw [if_pos hv] at hn
      exact fun k hk => hn k (by omega)
    · rename_i hv
      rw [if_neg hv] at hn
      obtain ⟨hadd, ⟨j, hij, hj, hjv⟩, hbetween⟩ := hn
      refine ⟨hadd, ⟨j, ?_, hj, hjv⟩, fun j hij hj hjv k hik => hbetween j (by omega) hj hjv k (by omega)⟩
      rcases eq_or_succ_le hij with rfl | hij
      · exact absurd hj h
      · exact hij
  · intro hn
    have hi := hrebinds hn
    unfold NeededFrom at hn ⊢
    split
    · rename_i hv
      rw [if_pos hv] at hn
      intro k hk
      rcases eq_or_succ_le hk with rfl | hk
      · exact hi
      · exact hn k hk
    · rename_i hv
      rw [if_neg hv] at hn
      obtain ⟨hadd, ⟨j, hij, hj, hjv⟩, hbetween⟩ := hn
      refine ⟨hadd, ⟨j, by omega, hj, hjv⟩, fun j hij hj hjv k hik hkj => ?_⟩
      rcases eq_or_succ_le hik with rfl | hik
      · exact hi
      · exact hbetween j (by have := Fin.lt_def.mp hkj; omega) hj hjv k hik hkj

theorem askedFrom_wanted (h : r.Wanted broken i) : r.AskedFrom broken i v ↔
    r.AskedFrom broken (i + 1) v ∨ r.shouldAddInputToNeeded r.live v = true ∧ v ∈ (r.node i).inputs := by
  constructor
  · rintro (hv | ⟨hadd, j, hij, hj, hjv⟩)
    · exact .inl (.inl hv)
    · rcases eq_or_succ_le hij with rfl | hij
      · exact .inr ⟨hadd, hjv⟩
      · exact .inl (.inr ⟨hadd, j, hij, hj, hjv⟩)
  · rintro ((hv | ⟨hadd, j, hij, hj, hjv⟩) | ⟨hadd, hv⟩)
    · exact .inl hv
    · exact .inr ⟨hadd, j, by omega, hj, hjv⟩
    · exact .inr ⟨hadd, i, le_rfl, h, hv⟩

/-- A wanted statement asks for the inputs that were not asked for before, and makes what it rebinds. -/
theorem neededFrom_wanted (h : r.Wanted broken i) : r.NeededFrom broken i v ↔
    (r.NeededFrom broken (i + 1) v ∨
      v ∈ (r.node i).inputs ∧ ¬r.AskedFrom broken (i + 1) v ∧ r.shouldAddInputToNeeded r.live v = true) ∧
    ¬r.Rebinds i v := by
  by_cases hv : v ∈ broken
  · have hasked : r.AskedFrom broken (i + 1) v := .inl hv
    simp only [hasked, not_true_eq_false, false_and, and_false, or_false]
    simp only [NeededFrom, if_pos hv]
    constructor
    · exact fun hn => ⟨fun k hk => hn k (by omega), hn i le_rfl⟩
    · rintro ⟨hn, hi⟩ k hk
      rcases eq_or_succ_le hk with rfl | hk
      · exact hi
      · exact hn k hk
  · simp only [NeededFrom, AskedFrom, hv, false_or]
    constructor
    · rintro ⟨hadd, ⟨j, hij, hj, hjv⟩, hbetween⟩
      by_cases hlater : ∃ j : Fin n, i.val + 1 ≤ j ∧ r.Wanted broken j ∧ v ∈ (r.node j).inputs
      · refine ⟨.inl ⟨hadd, hlater, fun j hij hj hjv k hik => hbetween j (by omega) hj hjv k (by omega)⟩, ?_⟩
        obtain ⟨j, hij, hj, hjv⟩ := hlater
        exact hbetween j (by omega) hj hjv i le_rfl (Fin.lt_def.mpr (by omega))
      · rcases eq_or_succ_le hij with rfl | hij
        · exact ⟨.inr ⟨hjv, fun ha => hlater ha.2, hadd⟩, fun hr => hr.2 hjv⟩
        · exact absurd ⟨j, hij, hj, hjv⟩ hlater
    · rintro ⟨⟨hadd, ⟨j, hij, hj, hjv⟩, hbetween⟩ | ⟨hiv, hasked, hadd⟩, hi⟩
      · refine ⟨hadd, ⟨j, by omega, hj, hjv⟩, fun j hij hj hjv k hik hkj => ?_⟩
        rcases eq_or_succ_le hik with rfl | hik
        · exact hi
        · exact hbetween j (by have := Fin.lt_def.mp hkj; omega) hj hjv k hik hkj
      · refine ⟨hadd, ⟨i, le_rfl, h, hiv⟩, fun j hij hj hjv k hik hkj => ?_⟩
        rcases eq_or_succ_le hij with rfl | hij
        · have := Fin.lt_def.mp hkj
          omega
        · exact absurd ⟨hadd, j, hij, hj, hjv⟩ hasked

/-- What the scan of the statements from `b` on has found. -/
structure Scanned (r : Notebook n) (broken : Finset Str) (b : Nat) (s : Repair.BackwardScan n) : Prop where
  kernel : s.kernel = r.live
  run : ∀ i : Fin n, i ∈ s.run ↔ b ≤ i ∧ r.Wanted broken i
  needed : ∀ v, v ∈ s.needed ↔ r.NeededFrom broken b v
  resolved : ∀ v, v ∈ s.resolved ↔ r.AskedFrom broken b v ∧ ¬r.NeededFrom broken b v

theorem Scanned.init (r : Notebook n) (broken : Finset Str) : r.Scanned broken n ⟨broken, ∅, ∅, r.live, []⟩ := by
  have hasked : ∀ v, r.AskedFrom broken n v ↔ v ∈ broken := by
    intro v
    constructor
    · rintro (hv | ⟨_, j, hj, _⟩)
      · exact hv
      · exact absurd j.isLt (by omega)
    · exact .inl
  have hneeded : ∀ v, r.NeededFrom broken n v ↔ v ∈ broken := by
    intro v
    refine ⟨fun h => (hasked v).mp h.asked, fun hv => ?_⟩
    rw [NeededFrom, if_pos hv]
    exact fun k hk => absurd k.isLt (by omega)
  refine ⟨rfl, fun i => ⟨fun hi => ?_, fun ⟨hi, _⟩ => absurd i.isLt (by omega)⟩, fun v => (hneeded v).symm, fun v => ?_⟩
  · simp at hi
  · rw [hasked, hneeded]
    simp

/-- A wanted statement is scheduled, and its inputs are asked for. -/
theorem Scanned.schedule (hs : r.Scanned broken (i + 1) s) (h : r.Wanted broken i) :
    r.Scanned broken i (r.cascadeFailedRestoreInputs i s) := by
  have hneeded : ∀ v, v ∈ s.needed ∪ (r.node i).inputs.filter
      (fun inp => inp ∉ s.resolved ∧ r.shouldAddInputToNeeded s.kernel inp) ↔
      r.NeededFrom broken (i + 1) v ∨ v ∈ (r.node i).inputs ∧ ¬r.AskedFrom broken (i + 1) v ∧
        r.shouldAddInputToNeeded r.live v = true := by
    intro v
    simp only [Finset.mem_union, Finset.mem_filter, hs.needed, hs.resolved, hs.kernel]
    constructor
    · rintro (hn | ⟨hv, hres, hadd⟩)
      · exact .inl hn
      · by_cases hn : r.NeededFrom broken (i + 1) v
        · exact .inl hn
        · exact .inr ⟨hv, fun ha => hres ⟨ha, hn⟩, hadd⟩
    · rintro (hn | ⟨hv, ha, hadd⟩)
      · exact .inl hn
      · exact .inr ⟨hv, fun hres => ha hres.1, hadd⟩
  have hremoved : ∀ v, v ∈ ((r.node i).outputs \ (r.node i).inputs) ∩ (s.needed ∪ (r.node i).inputs.filter
      (fun inp => inp ∉ s.resolved ∧ r.shouldAddInputToNeeded s.kernel inp)) ↔
      r.Rebinds i v ∧ r.NeededFrom broken (i + 1) v := by
    intro v
    rw [Finset.mem_inter, hneeded, Finset.mem_sdiff, ← Rebinds]
    refine and_congr_right fun hr => ⟨?_, .inl⟩
    rintro (hn | ⟨hv, _⟩)
    · exact hn
    · exact absurd hv hr.2
  refine ⟨hs.kernel, fun j => ?_, fun v => ?_, fun v => ?_⟩
  · simp only [Repair.cascadeFailedRestoreInputs, Finset.mem_insert, hs.run]
    constructor
    · rintro (rfl | ⟨hij, hj⟩)
      · exact ⟨le_rfl, h⟩
      · exact ⟨by omega, hj⟩
    · rintro ⟨hij, hj⟩
      exact (eq_or_succ_le hij).imp id fun hij => ⟨hij, hj⟩
  · simp only [Repair.cascadeFailedRestoreInputs]
    rw [Finset.mem_sdiff, hremoved, hneeded, neededFrom_wanted h]
    constructor
    · rintro ⟨hn, hr⟩
      exact ⟨hn, fun hri => hn.elim (fun hn => hr ⟨hri, hn⟩) fun hn => hri.2 hn.1⟩
    · rintro ⟨hn, hr⟩
      exact ⟨hn, fun hri => hr hri.1⟩
  · simp only [Repair.cascadeFailedRestoreInputs]
    rw [Finset.mem_union, hremoved, hs.resolved, neededFrom_wanted h, askedFrom_wanted h]
    by_cases hn : r.NeededFrom broken (i + 1) v
    · have ha := hn.asked
      simp [hn, ha]
    · by_cases ha : r.AskedFrom broken (i + 1) v
      · simp [hn, ha]
      · constructor
        · rintro (⟨ha', -⟩ | ⟨-, hn'⟩)
          · exact absurd ha' ha
          · exact absurd hn' hn
        · rintro ⟨ha' | ⟨hadd, hv⟩, hno⟩
          · exact absurd ha' ha
          · exact absurd ⟨.inr ⟨hv, ha, hadd⟩, fun hr => hr.2 hv⟩ hno

/-- Any other is passed. -/
theorem Scanned.pass (hs : r.Scanned broken (i + 1) s) (h : ¬r.Wanted broken i) : r.Scanned broken i s := by
  refine ⟨hs.kernel, fun j => ?_, fun v => ?_, fun v => ?_⟩
  · rw [hs.run]
    constructor
    · rintro ⟨hij, hj⟩
      exact ⟨by omega, hj⟩
    · rintro ⟨hij, hj⟩
      rcases eq_or_succ_le hij with rfl | hij
      · exact absurd hj h
      · exact ⟨hij, hj⟩
  · rw [hs.needed, neededFrom_skip h]
  · rw [hs.resolved, neededFrom_skip h, askedFrom_skip h]

theorem Scanned.step (hs : r.Scanned broken (i + 1) s) : r.Scanned broken i (r.scanStatement i s) := by
  have hvisited : (r.node i).outputs ∩ s.needed = ∅ ↔ ¬r.Wanted broken i := by
    rw [wanted_iff, Finset.eq_empty_iff_forall_notMem]
    simp only [Finset.mem_inter, hs.needed, not_and, not_exists]
  rw [Repair.scanStatement_eq (r.restores_nothing i)]
  by_cases h : r.Wanted broken i
  · rw [if_neg (hvisited.not.mpr (not_not.mpr h))]
    exact hs.schedule h
  · rw [if_pos (hvisited.mpr h)]
    exact hs.pass h

theorem scanFrom_scanned {k : Nat} (hk : k ≤ n) : r.Scanned broken (n - k) (r.scanFrom broken k) := by
  induction k with
  | zero => exact .init r broken
  | succ k ih =>
    rw [Repair.scanFrom, dif_pos (by omega : k < n)]
    have hrev : (Fin.rev ⟨k, by omega⟩ : Fin n).val = n - (k + 1) := by simp [Fin.val_rev]
    rw [← hrev]
    refine Scanned.step ?_
    rw [hrev, show n - (k + 1) + 1 = n - k by omega]
    exact ih (by omega)

theorem backwardScanPass_scanned (r : Notebook n) (broken : Finset Str) :
    r.Scanned broken 0 (r.backwardScanPass broken) := by
  rw [Repair.backwardScanPass]
  simpa using (scanFrom_scanned le_rfl : r.Scanned broken (n - n) (r.scanFrom broken n))

theorem mem_run : i ∈ (r.backwardScanPass broken).run ↔ r.Wanted broken i := by
  rw [(r.backwardScanPass_scanned broken).run, and_iff_right (Nat.zero_le _)]

/-! ### What the passes add -/

theorem shadowSchedules_iff {j p : Fin n} : r.shadowSchedules j v p = true ↔ r.Shadows j v p := by
  unfold Repair.shadowSchedules Shadows
  have hproducers : ∀ q, q ∈ r.producers v ↔ v ∈ (r.node q).outputs := by simp [Repair.producers]
  by_cases hcard : (r.producers v).card ≤ 1
  · have hone : ¬∃ q q', q ≠ q' ∧ v ∈ (r.node q).outputs ∧ v ∈ (r.node q').outputs := by
      rintro ⟨q, q', hne, hq, hq'⟩
      exact hne (Finset.card_le_one.mp hcard q ((hproducers q).mpr hq) q' ((hproducers q').mpr hq'))
    rw [if_pos hcard]
    simp only [hone, false_and, or_false]
    constructor
    · intro h
      split at h
      · rename_i consumed live hconsumed hlive
        obtain ⟨hne, hlatest, rfl⟩ := of_decide_eq_true h
        have hp := (Trace.latestProducer_eq_some hlatest).2.1
        refine ⟨fun q hq => ?_, hlatest, live, hlive, hne.symm⟩
        exact Finset.card_le_one.mp hcard q ((hproducers q).mpr hq) p ((hproducers p).mpr hp)
      · cases h
    · rintro ⟨-, hlatest, live, hlive, hne⟩
      obtain ⟨hpj, hp, hlast⟩ := Trace.latestProducer_eq_some hlatest
      rw [Trace.before_last hpj hp hlast, hlive]
      simp [hlatest, hne.symm]
  · obtain ⟨q, hq, q', hq', hne⟩ := Finset.one_lt_card.mp (Nat.lt_of_not_le hcard)
    have hmany : ∃ q q', q ≠ q' ∧ v ∈ (r.node q).outputs ∧ v ∈ (r.node q').outputs :=
      ⟨q, q', hne, (hproducers q).mp hq, (hproducers q').mp hq'⟩
    have hnone : ¬∀ q, v ∈ (r.node q).outputs → q = p := by
      intro hall
      exact hne ((hall q ((hproducers q).mp hq)).trans (hall q' ((hproducers q').mp hq')).symm)
    rw [if_neg hcard]
    simp only [hnone, false_and, false_or, hmany, true_and]
    obtain ⟨final, hfinal⟩ := Trace.virtualLineage_of_mem (Trace.mem_written.mpr ⟨q, (hproducers q).mp hq⟩)
    rw [hfinal]
    cases r.trace.before j v with
    | none => simp
    | some consumed => simp [and_left_comm]

theorem mem_completeShadowed :
    i ∈ r.completeShadowedVarProducers (r.backwardScanPass broken).run ↔ r.Scheduled broken i := by
  rw [Repair.mem_completeShadowedVarProducers]
  simp only [Finset.Reaches, mem_run, shadowSchedules_iff, Scheduled]

theorem latest_inits_iff {j : Fin n} : latest (r.inits v) j = some i ↔
    i < j ∧ r.Begins v i ∧ ∀ q, i < q → q < j → ¬r.Begins v q := by
  have hinits : ∀ q, r.inits v q = true ↔ r.Begins v q := by simp [Repair.inits, Begins]
  simp only [← hinits]
  constructor
  · intro h
    obtain ⟨hij, hi, hlast⟩ := latest_eq_some h
    exact ⟨hij, hi, hlast⟩
  · rintro ⟨hij, hi, hlast⟩
    cases hq : latest (r.inits v) j with
    | none => exact absurd hi (latest_eq_none hq i hij)
    | some q =>
      obtain ⟨hqj, hqv, hafter⟩ := latest_eq_some hq
      rcases lt_trichotomy q i with hlt | rfl | hlt
      · exact absurd hi (hafter i hlt hij)
      · rfl
      · exact absurd hqv (hlast q hlt hqj)

theorem mem_scheduleInits :
    i ∈ r.scheduleConditionalProducerInits broken (r.completeShadowedVarProducers (r.backwardScanPass broken).run) ↔
      r.Scheduled broken i ∨ r.Initialises broken i := by
  have hinits : ∀ v q, r.inits v q = false ↔ ¬r.Begins v q := by
    intro v q
    rw [← Bool.not_eq_true]
    simp [Repair.inits, Begins]
  simp only [Repair.scheduleConditionalProducerInits, Finset.mem_union, Finset.mem_filter, Finset.mem_univ, true_and,
    mem_completeShadowed, Initialises, latest_inits_iff, hinits]

theorem completes_iff {j : Fin n} : r.Completes j i ↔ i ∈ r.inputProducers j ∨ i ∈ r.laterProducers j := by
  have hbehind : ∀ v p, r.trace.latestProducer v j = some p →
      (r.liveIsBehindProducer v j = true ↔ ∃ q < p, v ∈ (r.node q).outputs ∧
        r.live.variableLineage v = some (r.trace.producedLineages q v) ∧
        r.trace.producedLineages q v ≠ r.trace.producedLineages p v) := by
    intro v p hp
    cases hlive : r.live.variableLineage v with
    | none => simp [Repair.liveIsBehindProducer, hp, hlive]
    | some live =>
      simp only [Repair.liveIsBehindProducer, hp, hlive, decide_eq_true_eq, Option.some.injEq]
      constructor
      · rintro ⟨hne, q, hqp, hq, rfl⟩
        exact ⟨q, hqp, hq, rfl, hne.symm⟩
      · rintro ⟨q, hqp, hq, rfl, hne⟩
        exact ⟨hne.symm, q, hqp, hq, rfl⟩
  have hlacks : ∀ v, r.Lacks j v i ↔ r.lacks v j = true ∧ r.trace.latestProducer v j = some i := by
    intro v
    rw [Lacks, and_comm]
    refine and_congr_left fun hp => ?_
    unfold Repair.lacks
    split
    · rename_i hbound
      simp [hbound, hbehind v i hp]
    · rename_i hbound
      simp [hbound]
  unfold Completes Repair.inputProducers Repair.laterProducers
  simp only [hlacks, List.mem_filter, List.mem_finRange, true_and, decide_eq_true_eq]

theorem mem_plan : i ∈ r.plan broken ↔ r.Rerun broken i := by
  have hcompletes : r.Completes = fun j i => i ∈ r.inputProducers j ∨ i ∈ r.laterProducers j := by
    funext j i
    exact propext completes_iff
  simp only [Repair.plan, Repair.mem_completeBothWays, Rerun, hcompletes]
  constructor
  · intro h
    obtain ⟨j, hj, hji⟩ := h.trans fun k hk =>
      (Repair.mem_completeInputsProducedBefore.mp hk).mono fun _ _ hcd => .inl hcd
    exact ⟨j, mem_scheduleInits.mp hj, hji⟩
  · rintro ⟨j, hj, hji⟩
    exact ⟨j, Repair.mem_completeInputsProducedBefore.mpr (.mem (mem_scheduleInits.mpr hj)), hji⟩

end Notebook

/-! ## Cell run plans -/

namespace CellRun

variable {r : CellRun n} {planned : Fin n → Option Metric}

theorem Rerun.pulls {i j : Fin n} (h : r.Rerun j) (hji : r.Pulls j i) : r.Rerun i := by
  obtain ⟨k, hk, hkj⟩ := h
  exact ⟨k, hk, hkj.tail hji⟩

/-- The statements left to run read what the trace has. -/
theorem toRun_reads (h : r.planCellRun.2 = some planned) (i : Fin n) (hi : i ∈ toRun planned) (v : Str)
    (hv : v ∈ (r.node i).inputs) :
    (r.runTo (toRun planned) r.planCellRun.1 i).variableLineage v = r.trace.before i v := by
  obtain ⟨hkernel, hrun⟩ := planCellRun_eq_some h
  refine Repair.runTo_reads ?_ ?_ i hi v hv
  · intro j hj w hw p hp
    exact (hrun p).mpr (((hrun j).mp hj).pulls (.inl ⟨w, hw, hp⟩))
  · intro j _ w hw hp
    have hwritten : ∀ k, w ∉ (r.node k).outputs := by
      intro k hk
      obtain ⟨l, hlj, hl⟩ := r.ordered j w hw k hk
      exact Trace.latestProducer_eq_none hp l hlj hl
    refine ⟨?_, fun hmem => ?_⟩
    · rw [hkernel, r.start_eq]
      exact (r.scan_scanned.untouched w (fun k _ _ => hwritten k)).2
    · obtain ⟨k, hk⟩ := Trace.mem_written.mp hmem
      exact hwritten k hk

/-! ### What a name ends with -/

theorem lastToBind_or_untouched (r : CellRun n) (v : Str) :
    (∃ i, r.LastToBind i v) ∨ ∀ i, v ∈ (r.node i).outputs → ¬r.Rerun i ∧ ¬r.Restored i := by
  by_cases hrerun : ∃ i, r.Rerun i ∧ v ∈ (r.node i).outputs
  · obtain ⟨i, ⟨hi, hv⟩, hlast⟩ := wellFounded_gt.has_min {i | r.Rerun i ∧ v ∈ (r.node i).outputs} hrerun
    exact .inl ⟨i, hv, .inl ⟨hi, fun k hik hk hkv => hlast k ⟨hk, hkv⟩ hik⟩⟩
  · by_cases hrestored : ∃ i, r.Restored i ∧ v ∈ (r.node i).outputs
    · obtain ⟨i, ⟨hi, hv⟩, hfirst⟩ := wellFounded_lt.has_min {i | r.Restored i ∧ v ∈ (r.node i).outputs} hrestored
      exact .inl ⟨i, hv, .inr ⟨hi, fun k hk hkv => hrerun ⟨k, hk, hkv⟩,
        fun k hki hk hkv => hfirst k ⟨hk, hkv⟩ hki⟩⟩
    · exact .inr fun i hv => ⟨fun hi => hrerun ⟨i, hi, hv⟩, fun hi => hrestored ⟨i, hi, hv⟩⟩

theorem ends_of_lastToBind (h : r.planCellRun.2 = some planned) {i : Fin n} {v : Str} (hi : r.LastToBind i v) :
    v ∈ (r.runTo (toRun planned) r.planCellRun.1 n).userNs ∧
      (r.runTo (toRun planned) r.planCellRun.1 n).variableLineage v = some (r.trace.producedLineages i v) := by
  obtain ⟨hkernel, hrun⟩ := planCellRun_eq_some h
  obtain ⟨hv, ⟨hrerun, hlast⟩ | ⟨hrestored, hnone, hfirst⟩⟩ := hi
  · have hmem := (hrun i).mpr hrerun
    have hreads : ∀ w ∈ (r.node i).inputs,
        (r.runTo (toRun planned) r.planCellRun.1 i).variableLineage w = r.trace.before i w :=
      toRun_reads h i hmem
    obtain ⟨hbound, hlineage⟩ := Repair.runTo_last r.planCellRun.1 hmem i.isLt hv
      (fun q hq hiq _ => hlast q hiq ((hrun q).mp hq))
    rw [(r.node i).of_inputs hreads] at hlineage
    exact ⟨hbound, hlineage⟩
  · obtain ⟨hbound, hlineage⟩ := Repair.runTo_untouched r.planCellRun.1 (k := n)
      (fun q hq _ => hnone q ((hrun q).mp hq))
    rw [hbound, hlineage, hkernel]
    exact r.scan_scanned.first v i (Nat.zero_le _) hrestored hv (fun k _ => hfirst k)

/-- A name nothing run again or restored writes is not broken: its last writer would be wanted. -/
theorem ends_of_untouched (h : r.planCellRun.2 = some planned) {v : Str} (hv : v ∈ r.trace.written)
    (hno : ∀ i, v ∈ (r.node i).outputs → ¬r.Rerun i ∧ ¬r.Restored i) :
    v ∈ (r.runTo (toRun planned) r.planCellRun.1 n).userNs ∧
      (r.runTo (toRun planned) r.planCellRun.1 n).variableLineage v = r.trace.virtualLineage v := by
  obtain ⟨hkernel, hrun⟩ := planCellRun_eq_some h
  have hok : v ∉ r.broken := by
    intro hbroken
    obtain ⟨i, hi⟩ := Trace.mem_written.mp hv
    obtain ⟨m, hm, hlast⟩ := wellFounded_gt.has_min {i | v ∈ (r.node i).outputs} ⟨i, hi⟩
    have hwanted : r.Wanted m v := ⟨hm, hbroken, fun k hmk hk => absurd hmk (hlast k hk)⟩
    by_cases hentry : r.entry m = none
    · exact (hno m hm).1 ⟨m, .inl ⟨hentry, v, hwanted⟩, .refl⟩
    · exact (hno m hm).2 ⟨hentry, v, hwanted⟩
  obtain ⟨hbound, hlineage⟩ := Repair.runTo_untouched r.planCellRun.1 (k := n)
    (fun q hq _ hqv => (hno q hqv).1 ((hrun q).mp hq))
  obtain ⟨hbound', hlineage'⟩ := r.scan_scanned.untouched v (fun i _ hi hiv => (hno i hiv).2 hi)
  simp only [mem_broken, hv, true_and, not_or, not_not] at hok
  rw [hbound, hlineage, hkernel]
  exact ⟨hbound'.mpr hok.1, hlineage'.trans hok.2⟩

/-- A plan is as good as a run of all the statements exactly when each name is left to a statement that
gives it the lineage it ends with. -/
theorem planCellRun_asFullRun (h : r.planCellRun.2 = some planned) :
    r.AsFullRun planned ↔
      ∀ i v, r.LastToBind i v → some (r.trace.producedLineages i v) = r.trace.virtualLineage v := by
  have hfull : ∀ k, (r.runTo Finset.univ r.live k).variableLineage = r.trace.before k :=
    Repair.runTo_univ r.start_eq.symm
  constructor
  · rintro ⟨-, hends⟩ i v hi
    have hend := (hends v (mem_written hi.1)).2
    rw [(ends_of_lastToBind h hi).2, hfull n] at hend
    exact hend
  · intro hcond
    refine ⟨fun i hi v hv => ?_, fun v hv => ?_⟩
    · rw [hfull i, toRun_reads h i hi v hv]
    · rw [hfull n]
      rcases r.lastToBind_or_untouched v with ⟨i, hi⟩ | hno
      · obtain ⟨hbound, hlineage⟩ := ends_of_lastToBind h hi
        exact ⟨hbound, hlineage.trans (hcond i v hi)⟩
      · exact ends_of_untouched h hv hno

/-! ### Two runs -/

/-- The run of `nodes` on a kernel that binds the names of `live`, where the statements of `kept` can be
restored. -/
def ofNodes (nodes : Fin n → Assignment) (live : Lineages) (bound : Finset Str) (kept : Finset (Fin n))
    (ordered : ∀ i, ∀ v ∈ (nodes i).inputs, ∀ j, v ∈ (nodes j).outputs → ∃ k < i, v ∈ (nodes k).outputs) :
    CellRun n where
  trace := ⟨nodes, live⟩
  live := ⟨bound, live, fun _ => none, fun _ => ∅⟩
  entry i := if i ∈ kept then some ⟨[], [], []⟩ else none
  builtinNames := ∅
  magicLineages := ∅
  statementSourceHash code := code
  strip code := code
  start_eq := rfl
  recordedReplay _ := none
  ordered

/-- `a = f()`, `a = g(a)`, `b = h(a)` after a restart, where the last two can be restored. -/
def rebuilt : CellRun 3 :=
  ofNodes ![.ofText [102] [] {[97]}, .ofText [103] [[97]] {[97]}, .ofText [104] [[97]] {[98]}] (fun _ => none) ∅
    {Fin.castSucc (Fin.last 1), Fin.last 2} (by decide +kernel)

/-- `a = f()` is not run for the version the restore jumps to. -/
theorem rebuilt_not_rerun (i : Fin 3) : ¬rebuilt.Rerun i := by
  rintro ⟨j, ⟨hentry, v, hv, -, hlater⟩ | ⟨⟨record, hrecord, -⟩, -⟩, -⟩
  · fin_cases j
    · obtain rfl : v = [97] := by simpa [rebuilt, ofNodes, Repair.node, Assignment.ofText] using hv
      exact absurd (hlater 1 (by decide) (by decide +kernel)).1 (by decide +kernel)
    · exact absurd hentry (by decide +kernel)
    · exact absurd hentry (by decide +kernel)
  · cases hrecord

theorem planCellRun_asFullRun_rebuilt : ∃ planned, rebuilt.planCellRun.2 = some planned ∧ rebuilt.AsFullRun planned := by
  have hplanned : rebuilt.planCellRun.2 = some (rebuilt.planCellRun.2.get (by decide +kernel)) :=
    (Option.some_get _).symm
  refine ⟨_, hplanned, (planCellRun_asFullRun hplanned).mpr ?_⟩
  rintro i v ⟨hv, ⟨hrerun, -⟩ | ⟨⟨hentry, -⟩, -⟩⟩
  · exact absurd hrerun (rebuilt_not_rerun i)
  · fin_cases i
    · exact absurd (by decide +kernel) hentry
    · obtain rfl : v = [97] := by simpa [rebuilt, ofNodes, Repair.node, Assignment.ofText] using hv
      decide +kernel
    · obtain rfl : v = [98] := by simpa [rebuilt, ofNodes, Repair.node, Assignment.ofText] using hv
      decide +kernel

/-- `a = f()`, `b = g(a)`, `a = h()`, `c = k()` where `a` is as the run leaves it and `c` can be restored. -/
def rebound : CellRun 4 :=
  ofNodes ![.ofText [102] [] {[97]}, .ofText [103] [[97]] {[98]}, .ofText [104] [] {[97]}, .ofText [107] [] {[99]}]
    (fun v => if v = [97] then some [104, 97] else none) {[97]} {Fin.last 3} (by decide +kernel)

/-- `b` runs again, `a = f()` runs for it, and `a` is left as that makes it. -/
theorem planCellRun_rebinds : ∃ planned, rebound.planCellRun.2 = some planned ∧ ¬rebound.AsFullRun planned := by
  refine ⟨rebound.planCellRun.2.get (by decide +kernel), (Option.some_get _).symm, ?_⟩
  rintro ⟨-, hends⟩
  have ha := (hends [97] (by decide +kernel)).2
  revert ha
  decide +kernel

end CellRun

/-! ## Plans for broken names -/

namespace Notebook

variable {r : Notebook n} {broken : Finset Str}

theorem planned_eq : r.planned broken = r.runTo (r.plan broken) r.live := by
  funext k
  rw [planned, (r.backwardScanPass_scanned broken).kernel]

/-- The statements of the plan before `k` read what the trace has. -/
def ReadsTo (r : Notebook n) (broken : Finset Str) (k : Nat) : Prop :=
  ∀ i ∈ r.plan broken, i.val < k → ∀ v ∈ (r.node i).inputs,
    (r.planned broken i).variableLineage v = r.trace.before i v

/-- A name holds what the last statement of the plan that writes it has in the trace. -/
theorem planned_last {k : Nat} {p : Fin n} {v : Str} (hreads : r.ReadsTo broken k) (hp : p ∈ r.plan broken)
    (hpk : p.val < k) (hv : v ∈ (r.node p).outputs)
    (hlast : ∀ q ∈ r.plan broken, p < q → q.val < k → v ∉ (r.node q).outputs) :
    (r.planned broken k).Holds v (some (r.trace.producedLineages p v)) := by
  rw [planned_eq]
  obtain ⟨hbound, hlineage⟩ := Repair.runTo_last r.live hp hpk hv hlast
  have hinputs := hreads p hp hpk
  rw [planned_eq] at hinputs
  rw [(r.node p).of_inputs hinputs] at hlineage
  exact ⟨hlineage, fun _ => hbound⟩

theorem planned_untouched {k : Nat} {v : Str} {l : Option Str}
    (h : ∀ q ∈ r.plan broken, q.val < k → v ∉ (r.node q).outputs) :
    (r.planned broken k).Holds v l ↔ r.live.Holds v l := by
  rw [planned_eq]
  obtain ⟨hbound, hlineage⟩ := Repair.runTo_untouched r.live h
  rw [Kernel.Holds, Kernel.Holds, hbound, hlineage]

/-- Where the latest producer of a name runs again, the name is at its version. -/
theorem planned_latest {k : Nat} {p : Fin n} {v : Str} (hreads : r.ReadsTo broken k)
    (hp : r.trace.latestProducer v k = some p) (hrun : r.Rerun broken p) :
    (r.planned broken k).Holds v (r.trace.before k v) := by
  obtain ⟨hpk, hv, hlast⟩ := Trace.latestProducer_eq_some hp
  rw [Trace.before_last hpk hv hlast]
  exact planned_last hreads (mem_plan.mpr hrun) hpk hv (fun q _ => hlast q)

theorem LastToBind.planned {k : Nat} {i : Fin n} {v : Str} (h : r.LastToBind broken k i v)
    (hreads : r.ReadsTo broken k) : (r.planned broken k).Holds v (some (r.trace.producedLineages i v)) :=
  planned_last hreads (mem_plan.mpr h.1) h.2.1 h.2.2.1 fun q hq => h.2.2.2 q (mem_plan.mp hq)

theorem lastToBind_or_live (r : Notebook n) (broken : Finset Str) (k : Nat) (v : Str) :
    (∃ i, r.LastToBind broken k i v) ∨ ∀ q : Fin n, r.Rerun broken q → q.val < k → v ∉ (r.node q).outputs := by
  by_cases hw : ∃ i : Fin n, r.Rerun broken i ∧ i.val < k ∧ v ∈ (r.node i).outputs
  · obtain ⟨i, ⟨hi, hik, hv⟩, hmax⟩ := wellFounded_gt.has_min
      {i : Fin n | r.Rerun broken i ∧ i.val < k ∧ v ∈ (r.node i).outputs} hw
    exact .inl ⟨i, hi, hik, hv, fun q hq hiq hqk hqv => hmax q ⟨hq, hqk, hqv⟩ hiq⟩
  · exact .inr fun q hq hqk hqv => hw ⟨q, hq, hqk, hqv⟩

theorem planned_live {k : Nat} {v : Str} {l : Option Str}
    (h : ∀ q : Fin n, r.Rerun broken q → q.val < k → v ∉ (r.node q).outputs) :
    (r.planned broken k).Holds v l ↔ r.live.Holds v l :=
  planned_untouched fun q hq => h q (mem_plan.mp hq)

theorem Rerun.completes {j i : Fin n} (h : r.Rerun broken j) (hji : r.Completes j i) : r.Rerun broken i := by
  obtain ⟨k, hk, hkj⟩ := h
  exact ⟨k, hk, hkj.tail hji⟩

/-! ### Sound plans -/

/-- What a statement run again left holds, also where one that does not run again rebinds it. -/
theorem Sound.last (h : r.Sound broken) {k : Nat} {i : Fin n} {v : Str} (hreads : r.ReadsTo broken k)
    (hlooked : r.LookedAt broken k v) (hi : r.LastToBind broken k i v) :
    (r.planned broken k).Holds v (r.trace.before k v) := by
  cases hp : r.trace.latestProducer v k with
  | none => exact absurd hi.2.2.1 (Trace.latestProducer_eq_none hp i hi.2.1)
  | some p =>
    obtain ⟨hpk, hpv, hlast⟩ := Trace.latestProducer_eq_some hp
    by_cases hrun : r.Rerun broken p
    · exact planned_latest hreads hp hrun
    · have hip : i < p := by
        rcases lt_trichotomy i p with hlt | rfl | hlt
        · exact hlt
        · exact absurd hi.1 hrun
        · exact absurd hi.2.2.1 (hlast i hlt hi.2.1)
      -- A producer that read what `i` wrote would run again.
      have hpin : v ∉ (r.node p).inputs :=
        fun hpin => hrun (hi.1.completes (.inr ⟨hip, v, hi.2.2.1, hpv, hpin⟩))
      rw [Trace.before_last hpk hpv hlast, ← h.rebound k v i p hlooked hi hp hip hpin]
      exact hi.planned hreads

/-- What is live holds, where nothing run again writes it: else the completions would run its producer. -/
theorem Sound.live (h : r.Sound broken) {k : Fin n} {v : Str} (hk : r.ReadsLive broken k v) :
    r.live.Holds v (r.trace.before k v) := by
  cases hp : r.trace.latestProducer v k with
  | none =>
    rw [Trace.before_untouched (Trace.latestProducer_eq_none hp)]
    exact h.started k v hk hp
  | some p =>
    obtain ⟨hpk, hpv, hlast⟩ := Trace.latestProducer_eq_some hp
    have hlacks : ¬r.Lacks k v p :=
      fun hlacks => hk.2.2 p (hk.1.completes (.inl ⟨v, hk.2.1, hlacks⟩)) hpk hpv
    have hbound : v ∈ r.live.userNs := by
      by_contra hunbound
      by_cases hbuiltin : v ∈ r.builtinNames
      · exact hunbound (h.bound k v hk hbuiltin (by simp [hp]))
      · exact hlacks ⟨hp, .inl ⟨hunbound, hbuiltin⟩⟩
    obtain ⟨q, hqp, hqv, hlive⟩ := h.version k v p hk hbound hp
    rw [Trace.before_last hpk hpv hlast]
    refine ⟨?_, fun _ => hbound⟩
    rcases eq_or_lt_of_le hqp with rfl | hqp
    · exact hlive
    · by_cases heq : r.trace.producedLineages q v = r.trace.producedLineages p v
      · rw [hlive, heq]
      · exact absurd ⟨hp, .inr ⟨hbound, q, hqp, hqv, hlive, heq⟩⟩ hlacks

/-- A sound plan that has read what the trace has so far goes on to. -/
theorem Sound.reads_next (h : r.Sound broken) {i : Fin n} (hreads : r.ReadsTo broken i) (hi : i ∈ r.plan broken)
    {v : Str} (hv : v ∈ (r.node i).inputs) : (r.planned broken i).Holds v (r.trace.before i v) := by
  have hrun := mem_plan.mp hi
  rcases r.lastToBind_or_live broken i v with ⟨j, hj⟩ | hnone
  · exact h.last hreads (.inl ⟨i, rfl, hrun, hv⟩) hj
  · exact (planned_live hnone).mpr (h.live ⟨hrun, hv, hnone⟩)

theorem Sound.reads (h : r.Sound broken) (k : Nat) : r.ReadsTo broken k := by
  induction k with
  | zero => exact fun i _ hi => absurd hi (Nat.not_lt_zero _)
  | succ k ih =>
    intro i hi hik v hv
    rcases Nat.lt_succ_iff_lt_or_eq.mp hik with hik | rfl
    · exact ih i hi hik v hv
    · exact (h.reads_next ih hi hv).1

/-- The names written by the plan end as the trace leaves them. -/
theorem Sound.writes (h : r.Sound broken) {i : Fin n} (hi : i ∈ r.plan broken) {v : Str}
    (hv : v ∈ (r.node i).outputs) : (r.planned broken n).Holds v (r.trace.virtualLineage v) := by
  have hrun := mem_plan.mp hi
  rcases r.lastToBind_or_live broken n v with ⟨j, hj⟩ | hnone
  · exact h.last (h.reads n) (.inr ⟨rfl, i, hrun, hv⟩) hj
  · exact absurd hv (hnone i hrun i.isLt)

end Notebook

end Cash.Upstream
