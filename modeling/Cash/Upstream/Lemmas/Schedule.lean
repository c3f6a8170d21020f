import Cash.Upstream.CellRun

/-!
# Running some of the statements
-/

namespace Cash.Upstream

open Py

variable {n : Nat}

/-! ## The kernel -/

theorem Kernel.record_of_mem {ns : Kernel} {s : Assignment} {lineages : Str → Str} {hash v : Str} (h : v ∈ s.outputs) :
    v ∈ (ns.record s lineages hash).userNs ∧ (ns.record s lineages hash).variableLineage v = some (lineages v) := by
  simp [Kernel.record, h]

theorem Kernel.record_of_notMem {ns : Kernel} {s : Assignment} {lineages : Str → Str} {hash v : Str}
    (h : v ∉ s.outputs) : (v ∈ (ns.record s lineages hash).userNs ↔ v ∈ ns.userNs) ∧
      (ns.record s lineages hash).variableLineage v = ns.variableLineage v := by
  simp [Kernel.record, h]

/-! ## The trace -/

theorem latest_eq_some {P : Fin n → Bool} {k : Nat} {p : Fin n} (h : latest P k = some p) :
    p.val < k ∧ P p ∧ ∀ q : Fin n, p < q → q.val < k → ¬P q := by
  induction k with
  | zero => cases h
  | succ k ih =>
    rw [latest] at h
    split at h
    · split at h
      · rename_i hk hv
        cases h
        refine ⟨Nat.lt_succ_self k, hv, ?_⟩
        intro q hpq hq
        have : k < q.val := hpq
        omega
      · rename_i hk hv
        obtain ⟨hpk, hp, hlast⟩ := ih h
        refine ⟨by omega, hp, ?_⟩
        intro q hpq hq
        rcases Nat.lt_succ_iff_lt_or_eq.mp hq with hq | hq
        · exact hlast q hpq hq
        · obtain rfl : q = ⟨k, hk⟩ := Fin.ext hq
          exact hv
    · rename_i hk
      obtain ⟨hpk, hp, hlast⟩ := ih h
      refine ⟨by omega, hp, ?_⟩
      intro q hpq hq
      exact hlast q hpq (by omega)

theorem latest_eq_none {P : Fin n → Bool} {k : Nat} (h : latest P k = none) (q : Fin n) (hq : q.val < k) : ¬P q := by
  induction k with
  | zero => omega
  | succ k ih =>
    rw [latest] at h
    split at h
    · split at h
      · cases h
      · rename_i hk hv
        rcases Nat.lt_succ_iff_lt_or_eq.mp hq with hq | hq
        · exact ih h hq
        · obtain rfl : q = ⟨k, hk⟩ := Fin.ext hq
          exact hv
    · exact ih h (by omega)

namespace Trace

variable {t : Trace n} {v : Str}

theorem mem_written : v ∈ t.written ↔ ∃ i, v ∈ (t.nodes i).outputs := by simp [written]

theorem latestProducer_eq_some {k : Nat} {p : Fin n} (h : t.latestProducer v k = some p) :
    p.val < k ∧ v ∈ (t.nodes p).outputs ∧ ∀ q : Fin n, p < q → q.val < k → v ∉ (t.nodes q).outputs := by
  simpa using latest_eq_some h

theorem latestProducer_eq_none {k : Nat} (h : t.latestProducer v k = none) (q : Fin n) (hq : q.val < k) :
    v ∉ (t.nodes q).outputs := by
  simpa using latest_eq_none h q hq

end Trace

/-! ## The statements run -/

namespace Repair

variable {r : Repair n} {run : Finset (Fin n)} {ns : Kernel} {v : Str}

theorem runTo_of_mem {i : Fin n} (h : i ∈ run) : r.runTo run ns (i + 1) = r.exec i (r.runTo run ns i) := by
  simp [runTo, h]

theorem runTo_of_le {k : Nat} (h : n ≤ k) : r.runTo run ns (k + 1) = r.runTo run ns k := by
  rw [runTo, dif_neg (by omega)]

/-- The `k`-th statement leaves a name it does not write, or does not run to write. -/
theorem runTo_succ_of_notMem {k : Nat} (h : ∀ hk : k < n, ⟨k, hk⟩ ∈ run → v ∉ (r.node ⟨k, hk⟩).outputs) :
    (v ∈ (r.runTo run ns (k + 1)).userNs ↔ v ∈ (r.runTo run ns k).userNs) ∧
      (r.runTo run ns (k + 1)).variableLineage v = (r.runTo run ns k).variableLineage v := by
  rw [runTo]
  split
  · rename_i hk
    split
    · rename_i hrun
      exact Kernel.record_of_notMem (h hk hrun)
    · exact ⟨Iff.rfl, rfl⟩
  · exact ⟨Iff.rfl, rfl⟩

/-- A name nothing run writes stays. -/
theorem runTo_untouched (ns : Kernel) {k : Nat} (h : ∀ q ∈ run, q.val < k → v ∉ (r.node q).outputs) :
    (v ∈ (r.runTo run ns k).userNs ↔ v ∈ ns.userNs) ∧
      (r.runTo run ns k).variableLineage v = ns.variableLineage v := by
  induction k with
  | zero => exact ⟨Iff.rfl, rfl⟩
  | succ k ih =>
    obtain ⟨hbound, hlineage⟩ := ih (fun q hq hlt => h q hq (by omega))
    obtain ⟨hbound', hlineage'⟩ := runTo_succ_of_notMem
      (fun hk hrun => h ⟨k, hk⟩ hrun (Nat.lt_succ_self k))
    exact ⟨hbound'.trans hbound, hlineage'.trans hlineage⟩

/-- A name holds what the last statement run that writes it made of what it read. -/
theorem runTo_last (ns : Kernel) {k : Nat} {p : Fin n} (hp : p ∈ run) (hpk : p.val < k) (hv : v ∈ (r.node p).outputs)
    (hlast : ∀ q ∈ run, p < q → q.val < k → v ∉ (r.node q).outputs) :
    v ∈ (r.runTo run ns k).userNs ∧ (r.runTo run ns k).variableLineage v =
      some ((r.node p).produces (r.runTo run ns p).variableLineage v) := by
  induction k with
  | zero => omega
  | succ k ih =>
    rcases Nat.lt_succ_iff_lt_or_eq.mp hpk with hlt | rfl
    · obtain ⟨hbound, hlineage⟩ := ih hlt (fun q hq hpq hqk => hlast q hq hpq (by omega))
      obtain ⟨hbound', hlineage'⟩ := runTo_succ_of_notMem
        (fun hk hrun => hlast ⟨k, hk⟩ hrun hlt (Nat.lt_succ_self k))
      exact ⟨hbound'.mpr hbound, hlineage'.trans hlineage⟩
    · rw [runTo_of_mem hp]
      exact Kernel.record_of_mem hv

/-- The simulation gives the lineages a run of all the statements gives. -/
theorem runTo_univ (h : ns.variableLineage = r.trace.start) (k : Nat) :
    (r.runTo Finset.univ ns k).variableLineage = r.trace.before k := by
  induction k with
  | zero => exact h
  | succ k ih =>
    rcases Nat.lt_or_ge k n with hk | hk
    · rw [runTo_of_mem (i := ⟨k, hk⟩) (Finset.mem_univ _)]
      funext v
      simp only [exec, Kernel.record, Trace.before, dif_pos hk, ih, node]
    · rw [runTo_of_le hk, ih]
      funext v
      simp only [Trace.before, dif_neg (Nat.not_lt.mpr hk)]

end Repair

namespace Trace

variable {t : Trace n} {v : Str}

theorem before_untouched {k : Nat} (h : ∀ q : Fin n, q.val < k → v ∉ (t.nodes q).outputs) :
    t.before k v = t.start v := by
  induction k with
  | zero => rfl
  | succ k ih =>
    have hprev := ih (fun q hq => h q (by omega))
    simp only [before]
    split
    · rename_i hk
      rw [if_neg (h ⟨k, hk⟩ (Nat.lt_succ_self k)), hprev]
    · exact hprev

theorem before_last {k : Nat} {p : Fin n} (hpk : p.val < k) (hv : v ∈ (t.nodes p).outputs)
    (hlast : ∀ q : Fin n, p < q → q.val < k → v ∉ (t.nodes q).outputs) :
    t.before k v = some (t.producedLineages p v) := by
  induction k with
  | zero => omega
  | succ k ih =>
    simp only [before]
    rcases Nat.lt_succ_iff_lt_or_eq.mp hpk with hlt | rfl
    · have hprev := ih hlt (fun q hpq hqk => hlast q hpq (by omega))
      split
      · rename_i hk
        rw [if_neg (hlast ⟨k, hk⟩ hlt (Nat.lt_succ_self k)), hprev]
      · exact hprev
    · rw [dif_pos p.isLt, if_pos hv]
      rfl

/-- A name the statements write has a lineage in the end: what its last writer gives it. -/
theorem virtualLineage_of_mem (h : v ∈ t.written) : ∃ l, t.virtualLineage v = some l := by
  obtain ⟨i, hi⟩ := mem_written.mp h
  cases hp : t.latestProducer v n with
  | none => exact absurd hi (latestProducer_eq_none hp i i.isLt)
  | some p =>
    obtain ⟨hpn, hv, hlast⟩ := latestProducer_eq_some hp
    exact ⟨_, before_last hpn hv hlast⟩

end Trace

/-! ## What the statements read -/

namespace Repair

variable {r : Repair n} {run : Finset (Fin n)} {ns : Kernel}

/-- Statements run with the producers of what they read, on a kernel that holds what the simulation started
from for the names nothing writes, read what the trace has. -/
theorem runTo_reads
    (hproducers : ∀ i ∈ run, ∀ v ∈ (r.node i).inputs, ∀ p, r.trace.latestProducer v i = some p → p ∈ run)
    (hstart : ∀ i ∈ run, ∀ v ∈ (r.node i).inputs, r.trace.latestProducer v i = none →
      ns.variableLineage v = r.trace.start v ∧ v ∉ r.trace.written)
    (i : Fin n) (hi : i ∈ run) (v : Str) (hv : v ∈ (r.node i).inputs) :
    (r.runTo run ns i).variableLineage v = r.trace.before i v := by
  induction i using WellFoundedLT.induction generalizing v with
  | _ i ih =>
    cases hp : r.trace.latestProducer v i with
    | some p =>
      obtain ⟨hpi, hvp, hlast⟩ := Trace.latestProducer_eq_some hp
      have hprun : p ∈ run := hproducers i hi v hv p hp
      have hreads : ∀ w ∈ (r.node p).inputs, (r.runTo run ns p).variableLineage w = r.trace.before p w :=
        fun w hw => ih p hpi hprun w hw
      rw [(runTo_last ns hprun hpi hvp (fun q _ => hlast q)).2, Trace.before_last hpi hvp hlast]
      exact congrArg (fun l => some (l v)) ((r.node p).of_inputs hreads)
    | none =>
      obtain ⟨hns, hv'⟩ := hstart i hi v hv hp
      have huntouched : ∀ q : Fin n, v ∉ (r.trace.nodes q).outputs :=
        fun q hq => hv' (Trace.mem_written.mpr ⟨q, hq⟩)
      rw [(runTo_untouched ns (fun q _ _ => huntouched q)).2, hns, Trace.before_untouched (fun q _ => huntouched q)]

/-! ## Completing the run -/

theorem mem_completeLaterProducers {i : Fin n} :
    i ∈ r.completeLaterProducers run ↔ run.Reaches (fun a b => b ∈ r.laterProducers a) i :=
  Finset.mem_worklist_finRange fun _ => (List.nodup_finRange n).filter _

end Repair

end Cash.Upstream
