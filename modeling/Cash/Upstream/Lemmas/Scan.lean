import Cash.Upstream.CellRun
import Cash.Upstream.Lemmas.Schedule

/-!
# The backward scan of a cell run, and its plan
-/

namespace Cash.Upstream

open Py

variable {n : Nat}

/-! ## What the backward scan of a cell run finds -/

namespace CellRun

open Repair

variable {r : CellRun n} {b : Nat} {s : BackwardScan n}

theorem mem_broken {v : Str} : v ∈ r.broken ↔ v ∈ r.trace.written ∧
    (v ∉ r.live.userNs ∨ r.live.variableLineage v ≠ r.trace.virtualLineage v) := by
  simp [broken]

theorem mem_written {i : Fin n} {v : Str} (h : v ∈ (r.node i).outputs) : v ∈ r.trace.written :=
  Trace.mem_written.mpr ⟨i, h⟩

/-- What the scan of the statements from `b` on has found. -/
structure Scanned (r : CellRun n) (b : Nat) (s : BackwardScan n) : Prop where
  needed : ∀ v ∈ r.trace.written, v ∈ s.needed ↔ v ∈ r.broken ∧
    ∀ k : Fin n, b ≤ k → v ∈ (r.node k).outputs → r.entry k = none ∧ v ∈ (r.node k).inputs
  resolved : ∀ v ∈ r.broken, v ∈ s.needed ∨ v ∈ s.resolved
  run : ∀ i : Fin n, i ∈ s.run ↔ b ≤ i ∧ r.entry i = none ∧ ∃ v, r.Wanted i v
  positions : ∀ p, (∃ info ∈ s.restored, info.position = p) ↔
    ∃ j : Fin n, b ≤ j ∧ r.Restored j ∧ r.trace.position j = p
  covered : ∀ i : Fin n, b ≤ i → r.Restored i → (r.node i).outputs ⊆ s.resolved
  untouched : ∀ v, (∀ i : Fin n, b ≤ i → r.Restored i → v ∉ (r.node i).outputs) →
    (v ∈ s.kernel.userNs ↔ v ∈ r.live.userNs) ∧ s.kernel.variableLineage v = r.live.variableLineage v
  first : ∀ v, ∀ i : Fin n, b ≤ i → r.Restored i → v ∈ (r.node i).outputs →
    (∀ k : Fin n, b ≤ k → k < i → r.Restored k → v ∉ (r.node k).outputs) →
    v ∈ s.kernel.userNs ∧ s.kernel.variableLineage v = some (r.trace.producedLineages i v)

theorem Scanned.init (r : CellRun n) : r.Scanned n ⟨r.broken, ∅, ∅, r.live, []⟩ where
  needed v _ := by
    constructor
    · intro hv
      exact ⟨hv, fun k hk => absurd k.isLt (by omega)⟩
    · exact fun h => h.1
  resolved v hv := .inl hv
  run i := by
    constructor
    · intro hi
      simp at hi
    · rintro ⟨hi, _⟩
      exact absurd i.isLt (by omega)
  positions p := by
    constructor
    · rintro ⟨info, hinfo, _⟩
      cases hinfo
    · rintro ⟨j, hj, _⟩
      exact absurd j.isLt (by omega)
  covered i hi := absurd i.isLt (by omega)
  untouched v _ := ⟨Iff.rfl, rfl⟩
  first v i hi := absurd i.isLt (by omega)

/-- The statements from `i` on are `i` and those after it. -/
theorem eq_or_succ_le {i k : Fin n} (h : i.val ≤ k) : k = i ∨ i.val + 1 ≤ k := by
  rcases Nat.lt_or_eq_of_le h with h | h
  · exact .inr h
  · exact .inl (Fin.ext h.symm)

/-! ### One statement -/

section

variable {i : Fin n} (hs : r.Scanned (i + 1) s)

include hs

/-- The scan stops at the statements that are wanted. -/
theorem Scanned.visited : (r.node i).outputs ∩ s.needed ≠ ∅ ↔ ∃ v, r.Wanted i v := by
  rw [← Finset.nonempty_iff_ne_empty]
  constructor
  · rintro ⟨v, hv⟩
    obtain ⟨hout, hneed⟩ := Finset.mem_inter.mp hv
    obtain ⟨hbroken, hlater⟩ := (hs.needed v (mem_written hout)).mp hneed
    exact ⟨v, hout, hbroken, fun k hik => hlater k hik⟩
  · rintro ⟨v, hout, hbroken, hlater⟩
    exact ⟨v, Finset.mem_inter.mpr ⟨hout, (hs.needed v (mem_written hout)).mpr ⟨hbroken, fun k hik => hlater k hik⟩⟩⟩

theorem Scanned.skip (h : ¬∃ v, r.Wanted i v) : r.Scanned i s where
  needed v hv := by
    rw [hs.needed v hv]
    constructor
    · rintro ⟨hbroken, hlater⟩
      refine ⟨hbroken, fun k hik hk => ?_⟩
      rcases eq_or_succ_le hik with rfl | hik
      · exact absurd ⟨v, hk, hbroken, fun j hj => hlater j hj⟩ h
      · exact hlater k hik hk
    · rintro ⟨hbroken, hlater⟩
      exact ⟨hbroken, fun k hik => hlater k (by omega)⟩
  resolved := hs.resolved
  run j := by
    rw [hs.run j]
    constructor
    · rintro ⟨hij, hj⟩
      exact ⟨by omega, hj⟩
    · rintro ⟨hij, hentry, hj⟩
      rcases eq_or_succ_le hij with rfl | hij
      · exact absurd hj h
      · exact ⟨hij, hentry, hj⟩
  positions p := by
    rw [hs.positions p]
    constructor
    · rintro ⟨j, hij, hj⟩
      exact ⟨j, by omega, hj⟩
    · rintro ⟨j, hij, hj, hp⟩
      rcases eq_or_succ_le hij with rfl | hij
      · exact absurd hj.2 h
      · exact ⟨j, hij, hj, hp⟩
  covered j hij hj := by
    rcases eq_or_succ_le hij with rfl | hij
    · exact absurd hj.2 h
    · exact hs.covered j hij hj
  untouched v hv := hs.untouched v (fun j hij => hv j (by omega))
  first v j hij hj hv hfirst := by
    rcases eq_or_succ_le hij with rfl | hij
    · exact absurd hj.2 h
    · exact hs.first v j hij hj hv (fun k hik => hfirst k (by omega))

theorem Scanned.restore (h : r.Restored i) (hash : Str) {restored : List (RestoredInfo n)} {info : RestoredInfo n}
    (hinfo : info.position = r.trace.position i) (hrestored : restored = s.restored ++ [info]) :
    r.Scanned i
      { s with
        kernel := s.kernel.record (r.node i) (r.trace.producedLineages i) hash
        needed := s.needed \ (r.node i).outputs
        resolved := s.resolved ∪ (r.node i).outputs
        restored } where
  needed v hv := by
    rw [Finset.mem_sdiff, hs.needed v hv]
    constructor
    · rintro ⟨⟨hbroken, hlater⟩, hi⟩
      refine ⟨hbroken, fun k hik hk => ?_⟩
      rcases eq_or_succ_le hik with rfl | hik
      · exact absurd hk hi
      · exact hlater k hik hk
    · rintro ⟨hbroken, hlater⟩
      exact ⟨⟨hbroken, fun k hik => hlater k (by omega)⟩, fun hi => h.1 (hlater i le_rfl hi).1⟩
  resolved v hv := by
    by_cases hi : v ∈ (r.node i).outputs
    · exact .inr (Finset.mem_union_right _ hi)
    · rcases hs.resolved v hv with hneed | hres
      · exact .inl (Finset.mem_sdiff.mpr ⟨hneed, hi⟩)
      · exact .inr (Finset.mem_union_left _ hres)
  run j := by
    rw [hs.run j]
    constructor
    · rintro ⟨hij, hj⟩
      exact ⟨by omega, hj⟩
    · rintro ⟨hij, hentry, hj⟩
      rcases eq_or_succ_le hij with rfl | hij
      · exact absurd hentry h.1
      · exact ⟨hij, hentry, hj⟩
  positions p := by
    subst hrestored
    constructor
    · rintro ⟨info', hmem, rfl⟩
      rcases List.mem_append.mp hmem with hmem | hmem
      · obtain ⟨j, hij, hj⟩ := (hs.positions _).mp ⟨info', hmem, rfl⟩
        exact ⟨j, by omega, hj⟩
      · obtain rfl := List.mem_singleton.mp hmem
        exact ⟨i, le_rfl, h, hinfo.symm⟩
    · rintro ⟨j, hij, hj, rfl⟩
      rcases eq_or_succ_le hij with rfl | hij
      · exact ⟨info, by simp, hinfo⟩
      · obtain ⟨info', hmem, hp⟩ := (hs.positions _).mpr ⟨j, hij, hj, rfl⟩
        exact ⟨info', by simp [hmem], hp⟩
  covered j hij hj := by
    rcases eq_or_succ_le hij with rfl | hij
    · exact Finset.subset_union_right
    · exact (hs.covered j hij hj).trans Finset.subset_union_left
  untouched v hv := by
    obtain ⟨hbound, hlineage⟩ := hs.untouched v (fun j hij => hv j (by omega))
    obtain ⟨hbound', hlineage'⟩ := Kernel.record_of_notMem (hv i le_rfl h)
    exact ⟨hbound'.trans hbound, hlineage'.trans hlineage⟩
  first v j hij hj hv hfirst := by
    rcases eq_or_succ_le hij with rfl | hij
    · exact Kernel.record_of_mem hv
    · obtain ⟨hbound, hlineage⟩ := hs.first v j hij hj hv (fun k hik => hfirst k (by omega))
      obtain ⟨hbound', hlineage'⟩ := Kernel.record_of_notMem (hfirst i le_rfl (Fin.lt_def.mpr hij) h)
      exact ⟨hbound'.mpr hbound, hlineage'.trans hlineage⟩

/-- A cascade asks for no name the run writes: one that is broken is needed or resolved already, and any
other holds its last version unless a restore of the scan put it back. -/
theorem Scanned.not_added {v : Str} (hv : v ∈ r.trace.written) (hneed : v ∉ s.needed) (hres : v ∉ s.resolved) :
    r.shouldAddInputToNeeded s.kernel v = false := by
  have hok : v ∉ r.broken := by
    intro hbroken
    rcases hs.resolved v hbroken with h | h
    · exact hneed h
    · exact hres h
  obtain ⟨hbound, hlineage⟩ := hs.untouched v (fun j hij hj hvj => hres (hs.covered j hij hj hvj))
  simp only [mem_broken, hv, true_and, not_or, not_not] at hok
  obtain ⟨l, hl⟩ := Trace.virtualLineage_of_mem hv
  have hskip : r.checkInpLineageSkip s.kernel v = true := by
    simp [checkInpLineageSkip, hlineage, hok.2, hl, hbound, hok.1]
  simp [shouldAddInputToNeeded, hskip]

theorem Scanned.cascade (hentry : r.entry i = none) (h : ∃ v, r.Wanted i v) :
    r.Scanned i (r.cascadeFailedRestoreInputs i s) where
  needed v hv := by
    have hadd : v ∈ s.needed ∪ (r.node i).inputs.filter
        (fun inp => inp ∉ s.resolved ∧ r.shouldAddInputToNeeded s.kernel inp) ↔ v ∈ s.needed := by
      refine ⟨fun hmem => ?_, fun hmem => Finset.mem_union_left _ hmem⟩
      by_contra hneed
      rcases Finset.mem_union.mp hmem with hmem | hmem
      · exact hneed hmem
      · obtain ⟨_, hres, hadd⟩ := Finset.mem_filter.mp hmem
        rw [hs.not_added hv hneed hres] at hadd
        cases hadd
    simp only [cascadeFailedRestoreInputs, Finset.mem_sdiff, Finset.mem_inter, hadd, hs.needed v hv]
    constructor
    · rintro ⟨⟨hbroken, hlater⟩, hi⟩
      refine ⟨hbroken, fun k hik hk => ?_⟩
      rcases eq_or_succ_le hik with rfl | hik
      · refine ⟨hentry, ?_⟩
        by_contra hin
        exact hi ⟨⟨hk, hin⟩, hbroken, hlater⟩
      · exact hlater k hik hk
    · rintro ⟨hbroken, hlater⟩
      exact ⟨⟨hbroken, fun k hik => hlater k (by omega)⟩, fun hi => hi.1.2 (hlater i le_rfl hi.1.1).2⟩
  resolved v hv := by
    simp only [cascadeFailedRestoreInputs, Finset.mem_sdiff, Finset.mem_union]
    rcases hs.resolved v hv with hneed | hres
    · by_cases hrem : v ∈ ((r.node i).outputs \ (r.node i).inputs) ∩ (s.needed ∪ (r.node i).inputs.filter
        (fun inp => inp ∉ s.resolved ∧ r.shouldAddInputToNeeded s.kernel inp))
      · exact .inr (.inr hrem)
      · exact .inl ⟨.inl hneed, hrem⟩
    · exact .inr (.inl hres)
  run j := by
    simp only [cascadeFailedRestoreInputs, Finset.mem_insert, hs.run j]
    constructor
    · rintro (rfl | ⟨hij, hj⟩)
      · exact ⟨le_rfl, hentry, h⟩
      · exact ⟨by omega, hj⟩
    · rintro ⟨hij, hj⟩
      rcases eq_or_succ_le hij with rfl | hij
      · exact .inl rfl
      · exact .inr ⟨hij, hj⟩
  positions p := by
    refine (hs.positions p).trans ?_
    constructor
    · rintro ⟨j, hij, hj⟩
      exact ⟨j, by omega, hj⟩
    · rintro ⟨j, hij, hj, hp⟩
      rcases eq_or_succ_le hij with rfl | hij
      · exact absurd hentry hj.1
      · exact ⟨j, hij, hj, hp⟩
  covered j hij hj := by
    rcases eq_or_succ_le hij with rfl | hij
    · exact absurd hentry hj.1
    · exact (hs.covered j hij hj).trans Finset.subset_union_left
  untouched v hv := hs.untouched v (fun j hij => hv j (by omega))
  first v j hij hj hv hfirst := by
    rcases eq_or_succ_le hij with rfl | hij
    · exact absurd hentry hj.1
    · exact hs.first v j hij hj hv (fun k hik => hfirst k (by omega))

theorem Scanned.step : r.Scanned i (r.scanStatement i s) := by
  rw [scanStatement]
  by_cases hv : ∃ v, r.Wanted i v
  · rw [if_neg (hs.visited.mpr hv)]
    cases hentry : r.entry i with
    | none =>
      simp only [tryVirtualRestore, hentry]
      exact hs.cascade hentry hv
    | some shown =>
      simp only [tryVirtualRestore, hentry, if_pos Finset.inter_subset_left]
      exact hs.restore ⟨by simp [hentry], hv⟩ _ rfl rfl
  · rw [if_pos (not_not.mp (hs.visited.not.mpr hv))]
    exact hs.skip hv

end

/-! ### The scan -/

theorem scanFrom_scanned (r : CellRun n) {k : Nat} (hk : k ≤ n) : r.Scanned (n - k) (r.scanFrom r.broken k) := by
  induction k with
  | zero => exact .init r
  | succ k ih =>
    rw [scanFrom, dif_pos (by omega : k < n)]
    have hrev : (Fin.rev ⟨k, by omega⟩ : Fin n).val = n - (k + 1) := by simp [Fin.val_rev]
    rw [← hrev]
    refine Scanned.step ?_
    rw [hrev, show n - (k + 1) + 1 = n - k by omega]
    exact ih (by omega)

theorem Scanned.skips (h : ∀ i v, ¬r.Wanted i v) (hb : b ≤ n) (hs : r.Scanned b s) : r.Scanned 0 s := by
  induction b with
  | zero => exact hs
  | succ b ih => exact ih (by omega) (Scanned.skip (i := ⟨b, hb⟩) hs (fun ⟨v, hv⟩ => h _ v hv))

/-- Where nothing is broken, nothing is wanted, and the scan left out would have found nothing. -/
theorem scan_scanned (r : CellRun n) : r.Scanned 0 r.scan := by
  rw [scan]
  split
  · rename_i hbroken
    have hinit := Scanned.init r
    rw [hbroken] at hinit
    refine hinit.skips ?_ le_rfl
    intro i v hv
    simpa [hbroken] using hv.2.1
  · rw [backwardScanPass]
    simpa using scanFrom_scanned r le_rfl

end CellRun

/-! ## The statements a cell run plan leaves to run -/

namespace CellRun

variable {r : CellRun n} {run : Finset (Fin n)} {i : Fin n}

theorem mem_addProducers : i ∈ r.addProducers run ↔
    i ∈ run ∨ ∃ j ∈ run, ∃ v ∈ (r.node j).inputs, r.trace.latestProducer v j = some i := by
  simp [addProducers, Option.mem_toFinset]

theorem mem_complete : i ∈ r.complete run ↔ run.Reaches r.Pulls i := by
  have hspec := Finset.mem_saturate_comp (s := run) (b := i) (fun j k => Iff.rfl (a := r.Pulls j k))
    (fun s j => Repair.mem_completeLaterProducers) (fun s j hj => mem_addProducers.mpr (.inl hj))
    (fun s j hj k hjk => mem_addProducers.mpr (.inr ⟨j, hj, hjk⟩)) ?_
  · rwa [Fintype.card_fin] at hspec
  · intro s j hj
    rcases mem_addProducers.mp hj with hj | ⟨k, hk, hv⟩
    · exact .mem hj
    · exact (Finset.Reaches.mem hk).step hv

theorem restoredByIndex_eq_none : r.restoredByIndex i = none ↔ ∀ j, r.Restored j → r.trace.position j ≠ i := by
  rw [restoredByIndex, List.getLast?_eq_none_iff, List.filter_eq_nil_iff]
  constructor
  · rintro h j hj rfl
    obtain ⟨info, hmem, hp⟩ := (r.scan_scanned.positions _).mpr ⟨j, Nat.zero_le _, hj, rfl⟩
    exact h info hmem (by simpa using hp)
  · intro h info hmem hp
    obtain ⟨j, _, hj, hpos⟩ := (r.scan_scanned.positions _).mp ⟨info, hmem, rfl⟩
    exact h j hj (hpos.trans (by simpa using hp))

/-- The statements that run because what they showed is not kept, as the loop finds them. -/
def unkept (r : CellRun n) : Finset (Fin n) :=
  Finset.univ.filter fun i => r.restoredByIndex i = none ∧ ∃ record ∈ r.recordedReplay i, record.complete = false

theorem mem_unkept : i ∈ r.unkept ↔ r.Unkept i := by
  simp [unkept, Unkept, restoredByIndex_eq_none, and_comm]

/-- The outer loop ends once every such statement runs. -/
theorem completeKept_of_subset {fuel : Nat} {replays : Fin n → Option Shown} (h : r.unkept ⊆ r.complete run) :
    (r.completeKept (fuel + 1) run replays).1 = r.complete run := by
  rw [completeKept, if_pos]
  refine Finset.filter_eq_empty_iff.mpr ?_
  rintro i - ⟨hunseen, hrecord⟩
  simp only [unseen, decide_eq_true_eq] at hunseen
  exact hunseen.1 (h (Finset.mem_filter.mpr ⟨Finset.mem_univ i, hunseen.2.1, hrecord⟩))

theorem unseen_unkept : (Finset.univ.filter fun i => r.unseen run (fun _ => none) i ∧
    ∃ record ∈ r.recordedReplay i, record.complete = false) = r.unkept \ run := by
  ext i
  simp only [unkept, unseen, Finset.mem_filter, Finset.mem_sdiff, Finset.mem_univ, true_and, decide_eq_true_eq,
    Option.isNone_none, and_true]
  tauto

/-- Two turns of the outer loop suffice, and end with what the scan's statements and the unkept ones pull in. -/
theorem mem_completeKept {fuel : Nat} : i ∈ (r.completeKept (fuel + 2) run fun _ => none).1 ↔
    (run ∪ r.unkept).Reaches r.Pulls i := by
  by_cases h : r.unkept ⊆ r.complete run
  · rw [completeKept_of_subset h, mem_complete]
    constructor
    · intro hi
      exact hi.trans fun j hj => .mem (Finset.mem_union_left _ hj)
    · intro hi
      refine hi.trans fun j hj => ?_
      rcases Finset.mem_union.mp hj with hj | hj
      · exact .mem hj
      · exact mem_complete.mp (h hj)
  · have hnext : r.unkept ⊆ r.complete (r.complete run ∪ r.unkept \ r.complete run) := by
      intro j hj
      refine mem_complete.mpr (.mem ?_)
      simpa using .inr hj
    rw [completeKept, unseen_unkept, if_neg (by rwa [Finset.sdiff_eq_empty_iff_subset]), completeKept_of_subset hnext,
      mem_complete, Finset.union_sdiff_self_eq_union]
    constructor
    · intro hi
      refine hi.trans fun j hj => ?_
      rcases Finset.mem_union.mp hj with hj | hj
      · exact (mem_complete.mp hj).trans fun k hk => .mem (Finset.mem_union_left _ hk)
      · exact .mem (Finset.mem_union_right _ hj)
    · intro hi
      refine hi.trans fun j hj => .mem ?_
      rcases Finset.mem_union.mp hj with hj | hj
      · exact Finset.mem_union_left _ (mem_complete.mpr (.mem hj))
      · exact Finset.mem_union_right _ hj

theorem mem_completeKept_scan : i ∈ (r.completeKept (n + 2) r.scan.run fun _ => none).1 ↔ r.Rerun i := by
  rw [mem_completeKept]
  constructor
  · rintro ⟨j, hj, hji⟩
    refine ⟨j, ?_, hji⟩
    rcases Finset.mem_union.mp hj with hj | hj
    · exact .inl ((r.scan_scanned.run j).mp hj).2
    · exact .inr (mem_unkept.mp hj)
  · rintro ⟨j, hj, hji⟩
    refine ⟨j, ?_, hji⟩
    rcases hj with hj | hj
    · exact Finset.mem_union_left _ ((r.scan_scanned.run j).mpr ⟨Nat.zero_le _, hj⟩)
    · exact Finset.mem_union_right _ (mem_unkept.mpr hj)

/-- A plan leaves to run the statements run again, on the kernel the scan left. -/
theorem planCellRun_eq_some {planned : Fin n → Option Metric} (h : r.planCellRun.2 = some planned) :
    r.planCellRun.1 = r.scan.kernel ∧ ∀ i, i ∈ toRun planned ↔ r.Rerun i := by
  simp only [planCellRun] at h ⊢
  split at h
  · cases h
  · rename_i hstale
    rw [if_neg hstale]
    split at h
    · cases h
    · rename_i hnothing
      rw [if_neg hnothing]
      split at h
      · cases h
      · rename_i hmakes
        rw [if_neg hmakes]
        cases h
        refine ⟨rfl, fun i => ?_⟩
        rw [← mem_completeKept_scan]
        simp only [toRun, Finset.mem_filter, Finset.mem_univ, true_and]
        split
        · simp [*]
        · simp [*]

end CellRun

end Cash.Upstream
