import Cash.Evict.Lemmas

/-!
# A pass ends, and reaches its target unless nothing may go
-/

namespace Cash.Evict

open Py

variable {C : Type} {cfg : Config C} {given : Given C}

/-! ## What becomes of a candidate -/

namespace Outcome

def key (o : Outcome C) : Option Str := o.shared.keyFor o.candidate.path

/-- Neither read nor written since it was ranked: neither stamp is later. -/
def Untouched (o : Outcome C) : Prop :=
  (∀ m last, o.shared.metadataOf o.key = some m → m.lastAccess = some last → last ≤ o.candidate.rankedAt) ∧
    ∀ file, o.shared.folder.lookup o.candidate.path = some file → file.mtime ≤ o.candidate.rankedAt

/-- A key this process touched, other than that of the running write, has a write in flight. -/
def Pending (given : Given C) (o : Outcome C) : Prop :=
  ∃ k, o.key = some k ∧ some k ≠ given.ownKey ∧ 0 < o.shared.inFlight k

/-- What each verdict says. -/
def Fits (cfg : Config C) (given : Given C) (o : Outcome C) : Prop :=
  match o.verdict with
  | .touched => ¬o.Untouched
  | .pending => o.Pending given
  | .failed => given.stuck o.candidate.path = true
  | .removed =>
      o.Untouched ∧ ¬o.Pending given ∧
        (o.shared.removed cfg o.candidate.path o.key).1.folder.lookup o.candidate.path = none

end Outcome

theorem touchedSince_iff (o : Outcome C) :
    o.shared.touchedSince o.candidate.path o.key o.candidate.rankedAt = true ↔ ¬o.Untouched := by
  unfold Shared.touchedSince Outcome.Untouched
  rw [Bool.or_eq_true, Option.any_eq_true, Option.any_eq_true, not_and_or]
  apply or_congr
  · constructor
    · rintro ⟨last, hlast, hlt⟩ h
      obtain ⟨m, hm, hlast⟩ := Option.bind_eq_some_iff.mp hlast
      exact absurd (of_decide_eq_true hlt) (not_lt.mpr (h m last hm hlast))
    · intro h
      push Not at h
      obtain ⟨m, last, hm, hlast, hlt⟩ := h
      exact ⟨last, Option.bind_eq_some_iff.mpr ⟨m, hm, hlast⟩, decide_eq_true hlt⟩
  · constructor
    · rintro ⟨file, hfile, hlt⟩ h
      exact absurd (of_decide_eq_true hlt) (not_lt.mpr (h file hfile))
    · intro h
      push Not at h
      obtain ⟨file, hfile, hlt⟩ := h
      exact ⟨file, hfile, decide_eq_true hlt⟩

theorem pending_iff (o : Outcome C) :
    (o.key.any fun k => decide (some k ≠ given.ownKey) && o.shared.hasPending k) = true ↔ o.Pending given := by
  unfold Outcome.Pending Shared.hasPending
  simp only [Option.any_eq_true, Bool.and_eq_true, decide_eq_true_eq]

theorem folder_removed (sh : Shared C) (path : Str) (key : Option Str) :
    (sh.removed cfg path key).1.folder.lookup path = none := by
  cases key with
  | none => exact AList.lookup_erase path sh.folder
  | some k => exact AList.lookup_erase path sh.folder

theorem verdict_eq (o : Outcome C) : Pass.verdict given o.shared o.candidate =
    if o.shared.touchedSince o.candidate.path o.key o.candidate.rankedAt then .touched
    else if o.key.any fun k => decide (some k ≠ given.ownKey) && o.shared.hasPending k then .pending
    else if (o.shared.folder.lookup o.candidate.path).isSome && given.stuck o.candidate.path then .failed
    else .removed := rfl

theorem fits_of_verdict (o : Outcome C) (h : o.verdict = Pass.verdict given o.shared o.candidate) : o.Fits cfg given := by
  unfold Outcome.Fits
  rw [h, verdict_eq]
  by_cases htouched : o.shared.touchedSince o.candidate.path o.key o.candidate.rankedAt = true
  · rw [if_pos htouched]
    exact (touchedSince_iff o).mp htouched
  · rw [if_neg htouched]
    by_cases hpending : (o.key.any fun k => decide (some k ≠ given.ownKey) && o.shared.hasPending k) = true
    · rw [if_pos hpending]
      exact (pending_iff o).mp hpending
    · rw [if_neg hpending]
      by_cases hstuck : ((o.shared.folder.lookup o.candidate.path).isSome && given.stuck o.candidate.path) = true
      · rw [if_pos hstuck]
        exact (Bool.and_eq_true_iff.mp hstuck).2
      · rw [if_neg hstuck]
        refine ⟨not_not.mp (mt (touchedSince_iff o).mpr htouched), mt (pending_iff o).mpr hpending, ?_⟩
        exact folder_removed o.shared o.candidate.path o.key

/-! ## One turn -/

namespace Pass

variable {p p' : Pass C}

def outcome (given : Given C) (p : Pass C) (c : Candidate) (priority : ℚ) : Outcome C :=
  ⟨c, priority, p.shared, verdict given p.shared c⟩

/-- A turn of a candidate writes it down, and moves nothing else of the ranking than the clock. -/
structure Considered (p p' : Pass C) (o : Outcome C) : Prop where
  ranking : ∃ clock, p'.ranking = { p.ranking with clock := clock }
  rebuilt : p'.rebuilt = p.rebuilt
  seen : p'.seen = p.seen
  stale : p'.stale = if p.rebuilt then p.stale else p.stale ++ [o]
  current : p'.current = if p.rebuilt then p.current ++ [o] else p.current

theorem considered_log {o : Outcome C} (hranking : ∃ clock, p'.ranking = { p.ranking with clock := clock })
    (hrebuilt : p'.rebuilt = p.rebuilt) (hseen : p'.seen = p.seen)
    (hstale : p'.stale = p.stale) (hcurrent : p'.current = p.current) : p.Considered (p'.log o) o := by
  unfold log
  cases hcases : p.rebuilt with
  | true =>
      rw [hrebuilt, hcases, if_pos rfl]
      refine ⟨hranking, hcases.symm, hseen, ?_, ?_⟩
      · rw [hcases, if_pos rfl]
        exact hstale
      · rw [hcases, if_pos rfl, ← hcurrent]
  | false =>
      rw [hrebuilt, hcases, if_neg Bool.false_ne_true]
      refine ⟨hranking, hcases.symm, hseen, ?_, ?_⟩
      · rw [hcases, if_neg Bool.false_ne_true, ← hstale]
      · rw [hcases, if_neg Bool.false_ne_true]
        exact hcurrent

theorem considered (cfg : Config C) (given : Given C) (p : Pass C) (c : Candidate) (priority : ℚ) :
    p.Considered (p.consider cfg given c priority) (p.outcome given c priority) := by
  have hsame : ∃ clock, p.ranking = { p.ranking with clock := clock } := ⟨p.ranking.clock, rfl⟩
  unfold consider outcome
  dsimp only
  cases verdict given p.shared c with
  | touched => exact considered_log hsame rfl rfl rfl rfl
  | pending => exact considered_log hsame rfl rfl rfl rfl
  | failed => exact considered_log hsame rfl rfl rfl rfl
  | removed =>
      unfold remove
      dsimp only
      split
      · exact considered_log hsame rfl rfl rfl rfl
      · exact considered_log ⟨_, rfl⟩ rfl rfl rfl rfl

/-- What was considered of the ranking that the pass takes its candidates from. -/
def taken (p : Pass C) : List (Outcome C) := if p.rebuilt then p.current else p.stale

/-- What a pass keeps from turn to turn. -/
structure Inv (cfg : Config C) (given : Given C) (p : Pass C) : Prop where
  ranking : p.ranking.Ordered
  stale : (p.stale.map Outcome.priority).Pairwise (· ≤ ·)
  current : (p.current.map Outcome.priority).Pairwise (· ≤ ·)
  ahead : ∀ o ∈ p.taken, ∀ q ∈ p.ranking.waiting, o.priority ≤ q
  fits : ∀ o ∈ p.stale ++ p.current, o.Fits cfg given
  start : p.rebuilt = false → p.current = []
  seen : p.rebuilt = true → ∀ path ∈ p.seen,
    (∃ o ∈ p.current, o.candidate.path = path) ∨ ∃ c ∈ p.ranking.queue, c.path = path

theorem Inv.met (h : p.Inv cfg given) (sh : Shared C) : (p.met sh).Inv cfg given :=
  ⟨h.ranking, h.stale, h.current, h.ahead, h.fits, h.start, h.seen⟩

theorem Considered.taken {o : Outcome C} (h : p.Considered p' o) : p'.taken = p.taken ++ [o] := by
  unfold Pass.taken
  rw [h.rebuilt, h.stale, h.current]
  cases p.rebuilt with
  | true => rfl
  | false => rfl

theorem Considered.mem {o : Outcome C} (h : p.Considered p' o) {o' : Outcome C} (hmem : o' ∈ p'.stale ++ p'.current) :
    o' ∈ p.stale ++ p.current ∨ o' = o := by
  rw [h.stale, h.current] at hmem
  cases hcases : p.rebuilt with
  | true =>
      rw [hcases, if_pos rfl, if_pos rfl, ← List.append_assoc] at hmem
      exact (List.mem_append.mp hmem).imp_right List.mem_singleton.mp
  | false =>
      rw [hcases, if_neg Bool.false_ne_true, if_neg Bool.false_ne_true, List.append_assoc] at hmem
      rcases List.mem_append.mp hmem with hmem | hmem
      · exact .inl (List.mem_append_left _ hmem)
      · rcases List.mem_append.mp hmem with hmem | hmem
        · exact .inr (List.mem_singleton.mp hmem)
        · exact .inl (List.mem_append_right _ hmem)

theorem pairwise_concat {l : List (Outcome C)} {o : Outcome C} (h : (l.map Outcome.priority).Pairwise (· ≤ ·))
    (hlast : ∀ o' ∈ l, o'.priority ≤ o.priority) : ((l ++ [o]).map Outcome.priority).Pairwise (· ≤ ·) := by
  rw [List.map_append, List.pairwise_append]
  refine ⟨h, List.pairwise_singleton _ _, ?_⟩
  intro q hq q' hq'
  obtain ⟨o', ho', rfl⟩ := List.mem_map.mp hq
  rw [List.mem_singleton.mp hq']
  exact hlast o' ho'

theorem Considered.stale_sorted {o : Outcome C} (h : p.Considered p' o)
    (hsorted : (p.stale.map Outcome.priority).Pairwise (· ≤ ·)) (hlast : ∀ o' ∈ p.taken, o'.priority ≤ o.priority) :
    (p'.stale.map Outcome.priority).Pairwise (· ≤ ·) := by
  rw [h.stale]
  unfold Pass.taken at hlast
  cases hcases : p.rebuilt with
  | true => exact hsorted
  | false =>
      rw [hcases] at hlast
      exact pairwise_concat hsorted hlast

theorem Considered.current_sorted {o : Outcome C} (h : p.Considered p' o)
    (hsorted : (p.current.map Outcome.priority).Pairwise (· ≤ ·)) (hlast : ∀ o' ∈ p.taken, o'.priority ≤ o.priority) :
    (p'.current.map Outcome.priority).Pairwise (· ≤ ·) := by
  rw [h.current]
  unfold Pass.taken at hlast
  cases hcases : p.rebuilt with
  | true =>
      rw [hcases] at hlast
      exact pairwise_concat hsorted hlast
  | false => exact hsorted

/-- A candidate popped is behind none that waits, and not before one taken. -/
theorem Inv.consider (h : p.Inv cfg given) {x : (Candidate × ℚ) × Ranking} (hpop : p.ranking.popCandidate = some x) :
    ((p.rankedBy x.2).consider cfg given x.1.1 x.1.2).Inv cfg given := by
  obtain ⟨hordered, hahead⟩ := h.ranking.popCandidate hpop
  have hstep := considered cfg given (p.rankedBy x.2) x.1.1 x.1.2
  obtain ⟨clock, hranking⟩ := hstep.ranking
  have hlast : ∀ o ∈ p.taken, o.priority ≤ x.1.2 := fun o ho => h.ahead o ho x.1.2 (Ranking.mem_waiting_popCandidate hpop)
  constructor
  · rw [hranking]
    exact hordered.clock clock
  · exact hstep.stale_sorted h.stale hlast
  · exact hstep.current_sorted h.current hlast
  · intro o ho q hq
    rw [hranking] at hq
    rw [hstep.taken] at ho
    rcases List.mem_append.mp ho with ho | ho
    · exact (hlast o ho).trans (hahead q hq)
    · rw [List.mem_singleton.mp ho]
      exact hahead q hq
  · intro o ho
    rcases hstep.mem ho with ho | rfl
    · exact h.fits o ho
    · exact fits_of_verdict _ rfl
  · intro hrebuilt
    rw [hstep.rebuilt] at hrebuilt
    rw [hstep.current, hrebuilt, if_neg Bool.false_ne_true]
    exact h.start hrebuilt
  · intro hrebuilt path hpath
    rw [hstep.rebuilt] at hrebuilt
    rw [hstep.seen] at hpath
    rw [hstep.current, hranking, hrebuilt, if_pos rfl]
    rcases h.seen hrebuilt path hpath with ⟨o, ho, heq⟩ | ⟨c, hc, heq⟩
    · exact .inl ⟨o, List.mem_append_left _ ho, heq⟩
    · rcases Ranking.mem_queue_popCandidate hpop hc with rfl | hc
      · exact .inl ⟨_, List.mem_append_right _ (List.mem_singleton_self _), heq⟩
      · exact .inr ⟨c, hc, heq⟩

theorem Inv.rebuild (h : p.Inv cfg given) (hrebuilt : p.rebuilt = false) : Inv cfg given (p.rebuild cfg given) := by
  have hcurrent : p.current = [] := h.start hrebuilt
  constructor
  · exact rebuildQueue_ordered p.toEvictor
  · exact h.stale
  · exact h.current
  · intro o ho
    change o ∈ p.current at ho
    rw [hcurrent] at ho
    cases ho
  · exact h.fits
  · intro hfalse
    cases hfalse
  · intro _ path hpath
    obtain ⟨w, hw, rfl⟩ := List.mem_map.mp hpath
    have hqueue := List.mem_map_of_mem (f := fun w : Walked => w.candidate p.shared)
      ((ordered_perm cfg given p.toEvictor).mem_iff.mpr hw)
    exact .inr ⟨_, hqueue, rfl⟩

/-- What a turn leaves. -/
def next : While.Turn (Pass C) → Pass C
  | .again p => p
  | .done p => p

theorem Inv.step (h : p.Inv cfg given) : (next (p.step cfg given)).Inv cfg given := by
  unfold Pass.step
  split
  · split
    · rename_i hpop
      exact h.consider hpop
    · split
      · exact h
      · rename_i hnot
        have hrebuild := h.rebuild (Bool.eq_false_iff.mpr hnot)
        split
        · exact hrebuild
        · exact hrebuild
  · exact h

theorem Inv.turn (h : p.Inv cfg given) (n : Nat) : (next (p.turn cfg given n)).Inv cfg given :=
  (h.met (given.outside n p.shared)).step

/-- The loop is left at the target, or with nothing left of a ranking taken in this pass. -/
theorem done_cases (h : p.step cfg given = .done p') :
    p'.aboveTarget = false ∨ p'.rebuilt = true ∧ p'.ranking.queue = [] := by
  unfold Pass.step at h
  split at h
  · split at h
    · cases h
    · rename_i hnone
      split at h
      · rename_i hrebuilt
        cases h
        exact .inr ⟨hrebuilt, (Ranking.popCandidate_none hnone).1⟩
      · split at h
        · rename_i hempty
          cases h
          exact .inr ⟨rfl, List.isEmpty_iff.mp (Bool.and_eq_true_iff.mp hempty).1⟩
        · cases h
  · rename_i hnot
    cases h
    exact .inl (Bool.eq_false_iff.mpr hnot)

/-! ## Termination -/

/-- What is left to do: whether a ranking may still be taken, and the candidates. -/
def left (p : Pass C) : ℕ ×ₗ ℕ := toLex (if p.rebuilt then 0 else 1, p.ranking.size)

theorem left_consider {x : (Candidate × ℚ) × Ranking} (hpop : p.ranking.popCandidate = some x) :
    ((p.rankedBy x.2).consider cfg given x.1.1 x.1.2).left < p.left := by
  have hstep := considered cfg given (p.rankedBy x.2) x.1.1 x.1.2
  obtain ⟨clock, hranking⟩ := hstep.ranking
  rw [left, left, hstep.rebuilt, hranking]
  exact Prod.Lex.toLex_lt_toLex.mpr (.inr ⟨rfl, Ranking.size_popCandidate hpop⟩)

theorem left_rebuild (h : p.rebuilt = false) : (p.rebuild cfg given).left < p.left := by
  rw [left, left, h]
  exact Prod.Lex.toLex_lt_toLex.mpr (.inl Nat.one_pos)

theorem left_step (h : p.step cfg given = .again p') : p'.left < p.left := by
  unfold Pass.step at h
  split at h
  · split at h
    · rename_i hpop
      cases h
      exact left_consider hpop
    · split at h
      · cases h
      · rename_i hnot
        split at h
        · cases h
        · cases h
          exact left_rebuild (Bool.eq_false_iff.mpr hnot)
  · cases h

theorem left_turn (n : Nat) (h : p.turn cfg given n = .again p') : p'.left < p.left :=
  left_step (p := p.met (given.outside n p.shared)) h

end Pass

/-! ## A whole pass -/

theorem ensureSizeScanned_ranking (given : Given C) (e : Evictor C) : (ensureSizeScanned given e).ranking = e.ranking := by
  unfold ensureSizeScanned
  split
  · rfl
  · rfl

theorem opened_ranking (given : Given C) (e : Evictor C) : (opened given e).ranking = e.ranking := by
  rw [opened, refreshAdaptiveCap]
  split
  · exact ensureSizeScanned_ranking given e
  · exact ensureSizeScanned_ranking given e

/-- The pass is over the cap when it starts. -/
def Starts (given : Given C) (e : Evictor C) : Prop :=
  e.maxSizeBytes ≠ 0 ∧ ((opened given e).maxSizeBytes : Int) < (opened given e).shared.currentBytes

instance (given : Given C) (e : Evictor C) : Decidable (Starts given e) := inferInstanceAs (Decidable (_ ∧ _))

theorem evict_starts {e : Evictor C} (h : Starts given e) (fuel : Nat) :
    evict cfg given fuel e = While.loop (Pass.turn cfg given) fuel 0 (indexed cfg (opened given e)).pass := by
  rw [evict, if_neg h.1, if_neg (not_le.mpr h.2)]

theorem evict_not_starts (cfg : Config C) {e : Evictor C} (h : ¬Starts given e) :
    ∃ e' : Evictor C, e'.ranking = e.ranking ∧ ∀ fuel, evict cfg given fuel e = some e'.pass := by
  by_cases hcap : e.maxSizeBytes = 0
  · exact ⟨e, rfl, fun fuel => by rw [evict, if_pos hcap]⟩
  · have hle := not_lt.mp (not_and.mp h hcap)
    exact ⟨opened given e, opened_ranking given e, fun fuel => by rw [evict, if_neg hcap, if_pos hle]⟩

theorem inv_pass {e : Evictor C} (h : e.ranking.Ordered) : e.pass.Inv cfg given := by
  have hnone : ∀ o ∈ ([] : List (Outcome C)), ∀ q ∈ e.ranking.waiting, o.priority ≤ q := by
    intro o ho
    cases ho
  refine ⟨h, List.Pairwise.nil, List.Pairwise.nil, hnone, ?_, fun _ => rfl, ?_⟩
  · intro o ho
    cases ho
  · intro hfalse
    cases hfalse

/-- A pass ends. -/
theorem evict_total (cfg : Config C) (given : Given C) (e : Evictor C) : ∃ fuel p, evict cfg given fuel e = some p := by
  by_cases hstarts : Starts given e
  · obtain ⟨fuel, p, hp⟩ := While.loop_total (InvImage.wf Pass.left wellFounded_lt)
      (fun n _ _ h => Pass.left_turn n h) 0 (indexed cfg (opened given e)).pass
    exact ⟨fuel, p, (evict_starts hstarts fuel).trans hp⟩
  · obtain ⟨e', -, hevict⟩ := evict_not_starts cfg hstarts
    exact ⟨0, e'.pass, hevict 0⟩

theorem evict_unique {e : Evictor C} {fuel fuel' : Nat} {p p' : Pass C} (h : evict cfg given fuel e = some p)
    (h' : evict cfg given fuel' e = some p') : p = p' := by
  by_cases hstarts : Starts given e
  · rw [evict_starts hstarts] at h h'
    exact While.loop_unique h h'
  · obtain ⟨e', -, hevict⟩ := evict_not_starts cfg hstarts
    rw [hevict] at h h'
    exact Option.some.inj (h.symm.trans h')

/-- What holds when a pass that started over the cap ends. -/
theorem evict_inv {e : Evictor C} (h : e.ranking.Ordered) (hstarts : Starts given e) {fuel : Nat} {p : Pass C}
    (hevict : evict cfg given fuel e = some p) :
    p.Inv cfg given ∧ (p.aboveTarget = false ∨ p.rebuilt = true ∧ p.ranking.queue = []) := by
  rw [evict_starts hstarts] at hevict
  have hstart : (indexed cfg (opened given e)).pass.Inv cfg given := inv_pass (opened_ranking given e ▸ h)
  have hkeep : ∀ n (q q' : Pass C), q.Inv cfg given → q.turn cfg given n = .again q' → q'.Inv cfg given := by
    intro n q q' hq hturn
    have hnext := hq.turn n
    rw [hturn] at hnext
    exact hnext
  obtain ⟨n, q, hq, hdone⟩ := While.loop_invariant hkeep hevict hstart
  have hnext := hq.turn n
  rw [hdone] at hnext
  exact ⟨hnext, Pass.done_cases hdone⟩

/-! ## Over all passes -/

/-- The rankings that writes, clears and earlier passes leave. -/
inductive Left (cfg : Config C) : Ranking → Prop
  | start : Left cfg ⟨[], ∅, [], false, 0, false⟩
  | clear {r : Ranking} : Left cfg r → Left cfg r.clear
  | clock {r : Ranking} (indexClock : ℚ) : Left cfg r → Left cfg (r.ensureClock indexClock)
  | write {e : Evictor C} (indexClock written : ℚ) (key path : Str) (m : Meta) (size : Nat) :
      Left cfg e.ranking → Left cfg (recordRank cfg indexClock written key path m size e).ranking
  | pass {e : Evictor C} {given : Given C} {fuel : Nat} {p : Pass C} :
      Left cfg e.ranking → evict cfg given fuel e = some p → Left cfg p.ranking

theorem Left.ordered {r : Ranking} (h : Left cfg r) : r.Ordered := by
  induction h with
  | start => exact ⟨List.nodup_nil, List.Pairwise.nil, List.Pairwise.nil⟩
  | clear _ _ => exact Ranking.Ordered.clear
  | clock indexClock _ ih => exact ih.ensureClock indexClock
  | write indexClock written key path m size _ ih => exact recordRank_ordered ih indexClock written key path m size
  | @pass e given fuel p _ hevict ih =>
      by_cases hstarts : Starts given e
      · exact (evict_inv ih hstarts hevict).1.ranking
      · obtain ⟨e', hranking, hall⟩ := evict_not_starts cfg hstarts
        rw [hall] at hevict
        cases hevict
        exact hranking ▸ ih

/-- A pass ends. It removes by priority, of the ranking it found and of the one it takes; nothing that was read or
rewritten since it was ranked goes, and no key in use elsewhere. A pass that starts over the cap reaches its target, or
has considered every entry file that it saw; any other considers none. -/
theorem evict_done (cfg : Config C) (given : Given C) (e : Evictor C) (h : Left cfg e.ranking) :
    ∃ p : Pass C, (∃ fuel, evict cfg given fuel e = some p) ∧
      (∀ fuel p', evict cfg given fuel e = some p' → p' = p) ∧
      (p.stale.map Outcome.priority).Pairwise (· ≤ ·) ∧ (p.current.map Outcome.priority).Pairwise (· ≤ ·) ∧
      (∀ o ∈ p.stale ++ p.current, o.Fits cfg given) ∧
      (Starts given e → 10 * p.shared.currentBytes ≤ 9 * (p.maxSizeBytes : Int) ∨
        p.rebuilt = true ∧ ∀ path ∈ p.seen, ∃ o ∈ p.current, o.candidate.path = path) ∧
      (¬Starts given e → p.stale = [] ∧ p.current = []) := by
  obtain ⟨fuel, p, hp⟩ := evict_total cfg given e
  have hunique : ∀ fuel' p', evict cfg given fuel' e = some p' → p' = p := fun _ _ hp' => evict_unique hp' hp
  refine ⟨p, ⟨fuel, hp⟩, hunique, ?_⟩
  by_cases hstarts : Starts given e
  · obtain ⟨hinv, hend⟩ := evict_inv h.ordered hstarts hp
    refine ⟨hinv.stale, hinv.current, hinv.fits, fun _ => ?_, fun hnot => absurd hstarts hnot⟩
    rcases hend with hover | ⟨hrebuilt, hempty⟩
    · exact .inl (not_lt.mp (of_decide_eq_false hover))
    · refine .inr ⟨hrebuilt, fun path hpath => ?_⟩
      rcases hinv.seen hrebuilt path hpath with hdone | ⟨c, hc, -⟩
      · exact hdone
      · rw [hempty] at hc
        cases hc
  · obtain ⟨e', -, hall⟩ := evict_not_starts cfg hstarts
    rw [hall] at hp
    cases hp
    have hinv : e'.pass.stale ++ e'.pass.current = [] := rfl
    refine ⟨List.Pairwise.nil, List.Pairwise.nil, fun o ho => ?_, fun hs => absurd hs hstarts, fun _ => ⟨rfl, rfl⟩⟩
    rw [hinv] at ho
    cases ho

/-! ## Two entries -/

def noChunks : Config Unit where
  share _ _ := 0
  release chunks _ := (chunks, 0)
  ensureIndex chunks := (chunks, 0)
  gdsfValue _ _ := 0

/-- A pass that meets nothing, on the worker of a key. -/
def calm (ownKey : Option Str) : Given Unit where
  ownKey := ownKey
  stuck _ := false
  sees _ := true
  index := ⟨[], 0⟩
  scannedBytes := 110
  capDue := false
  adaptiveCap _ := 0
  outside _ sh := sh

/-- Entries `a` and `b` of 20 and 90 bytes, with so many writes of `a` in flight. -/
def twoShared (keys : Dict Str Str) (inFlight : Nat) : Shared Unit where
  folder := Dict.update ∅ [(str "a.entry", ⟨1, 20⟩), (str "b.entry", ⟨2, 90⟩)]
  metadata := ∅
  keys := keys
  unflushed := []
  base := ∅
  writeSeq := 0
  writeSeqByKey := ∅
  currentBytes := 110
  inFlight k := if k = str "a" then inFlight else 0
  chunks := ()

/-- The two entries under a cap of 100 bytes. -/
def twoEntries (keys : Dict Str Str) (inFlight : Nat) : Evictor Unit :=
  ⟨⟨[], ∅, [], false, 0, false⟩, twoShared keys inFlight, 100, false, true⟩

/-- After the pass, entry `c` of 30 bytes is written. -/
def written (p : Pass Unit) : Evictor Unit :=
  recordRank noChunks 0 3 (str "c") (str "c.entry") .nothing 30
    { p.toEvictor with
      shared := { p.shared with folder := p.shared.folder.insert (str "c.entry") ⟨3, 30⟩, currentBytes := 120 } }

/-- A pass over what the pass before left in the queue, and the entry written since. -/
theorem evict_done_again : ∃ p₀ p : Pass Unit, evict noChunks (calm none) 9 (twoEntries ∅ 1) = some p₀ ∧
    (∃ fuel, evict noChunks (calm none) fuel (written p₀) = some p) ∧
    (10 * p.shared.currentBytes ≤ 9 * (p.maxSizeBytes : Int) ∨
      p.rebuilt = true ∧ ∀ path ∈ p.seen, ∃ o ∈ p.current, o.candidate.path = path) := by
  obtain ⟨p₀, hp₀⟩ : ∃ p₀, evict noChunks (calm none) 9 (twoEntries ∅ 1) = some p₀ :=
    Option.isSome_iff_exists.mp (by decide +kernel)
  have hstarts : ((evict noChunks (calm none) 9 (twoEntries ∅ 1)).all fun p => decide (Starts (calm none) (written p))) = true := by
    decide +kernel
  rw [hp₀] at hstarts
  obtain ⟨p, hp, -, -, -, -, hend, -⟩ := evict_done noChunks (calm none) (written p₀) (.write _ _ _ _ _ _ (.pass .start hp₀))
  exact ⟨p₀, p, hp₀, hp, hend (of_decide_eq_true hstarts)⟩

/-- After the pass, a write of 5 bytes. -/
def grown (p : Pass Unit) : Evictor Unit := { p.toEvictor with shared := { p.shared with currentBytes := 95 } }

def considered (p : Pass Unit) : List (Str × Verdict × Nat) :=
  p.current.map fun o => (o.candidate.path, o.verdict, o.shared.inFlight (str "a"))

/-- The files in the queue, and which were touched since. -/
def queued (p : Pass Unit) : List (Str × Bool) :=
  p.ranking.queue.map fun c => (c.path, p.shared.touchedSince c.path (p.shared.keyFor c.path) c.rankedAt)

/-- A second pass, after the write. -/
def secondPass : Option (Pass Unit) :=
  (evict noChunks (calm none) 9 (twoEntries ∅ 1)).bind fun p => evict noChunks (calm none) 9 (grown p)

/-- An entry goes with a write in flight, of a key this process has not touched or behind the running write. Within the
cap, a pass leaves the folder over its target and an entry it ranked alone. -/
theorem within_cap_and_in_flight :
    (evict noChunks (calm none) 9 (twoEntries ∅ 1)).map considered = some [(str "a.entry", .removed, 1)] ∧
      (evict noChunks (calm (some (str "a"))) 9 (twoEntries (Dict.update ∅ [(str "a.entry", str "a")]) 2)).map considered =
        some [(str "a.entry", .removed, 2)] ∧
      (∀ p, evict noChunks (calm none) 9 (twoEntries ∅ 1) = some p → Left noChunks (grown p).ranking) ∧
      secondPass.map Pass.aboveTarget = some true ∧ secondPass.map considered = some [] ∧
        secondPass.map queued = some [(str "b.entry", false)] := by
  refine ⟨by decide +kernel, by decide +kernel, fun p hp => .pass .start hp, ?_⟩
  exact ⟨by decide +kernel, by decide +kernel, by decide +kernel⟩

end Cash.Evict
