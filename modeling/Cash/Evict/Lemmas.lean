import Cash.Evict.Evictor

/-!
# The ranking gives its candidates by priority
-/

namespace Cash.Evict

open Py

variable {C : Type} {cfg : Config C} {given : Given C}

theorem fst_le_of_toLex {β : Type} [LinearOrder β] {a b : ℚ × β} (h : toLex a ≤ toLex b) : a.1 ≤ b.1 :=
  Prod.Lex.monotone_fst _ _ h

namespace Ranking

variable {r r' : Ranking}

/-- The queue and the heap are in order of priority, and a path is in the queue once. -/
structure Ordered (r : Ranking) : Prop where
  paths : (r.queue.map Candidate.path).Nodup
  queue : (r.queue.map r.headPriority).Pairwise (· ≤ ·)
  fresh : r.fresh.Pairwise (· ≤ ·)

/-- The priorities of the candidates. -/
def waiting (r : Ranking) : List ℚ := r.queue.map r.headPriority ++ r.fresh.map Fresh.priority

def size (r : Ranking) : Nat := r.queue.length + r.fresh.length

/-! ## Pops -/

theorem popCandidate_none (h : r.popCandidate = none) : r.queue = [] ∧ r.fresh = [] := by
  unfold popCandidate at h
  split at h
  · rename_i hqueue hfresh
    exact ⟨hqueue, hfresh⟩
  · cases h
  · cases h
  · split at h
    · cases h
    · cases h

/-- A pop is of the queue, if its head is not behind that of the heap, or else of the heap. -/
theorem popCandidate_cases {x : (Candidate × ℚ) × Ranking} (h : r.popCandidate = some x) :
    (∃ c rest, r.queue = c :: rest ∧ x = r.popleft c rest ∧ ∀ f ∈ r.fresh.head?, r.headFirst c f = true) ∨
      ∃ f rest, r.fresh = f :: rest ∧ x = r.heappop f rest ∧ ∀ c ∈ r.queue.head?, r.headFirst c f = false := by
  unfold popCandidate at h
  split at h
  · cases h
  · rename_i c rest hqueue hfresh
    cases h
    refine .inl ⟨c, rest, hqueue, rfl, fun f hf => ?_⟩
    rw [hfresh] at hf
    cases hf
  · rename_i f rest hqueue hfresh
    cases h
    refine .inr ⟨f, rest, hfresh, rfl, fun c hc => ?_⟩
    rw [hqueue] at hc
    cases hc
  · rename_i c queue f fresh hqueue hfresh
    split at h
    · rename_i hfirst
      cases h
      refine .inl ⟨c, queue, hqueue, rfl, fun f' hf => ?_⟩
      rw [hfresh] at hf
      cases hf
      exact hfirst
    · rename_i hlast
      cases h
      refine .inr ⟨f, fresh, hfresh, rfl, fun c' hc => ?_⟩
      rw [hqueue] at hc
      cases hc
      exact Bool.eq_false_iff.mpr hlast

theorem size_popCandidate {x : (Candidate × ℚ) × Ranking} (h : r.popCandidate = some x) : x.2.size < r.size := by
  rcases popCandidate_cases h with ⟨c, rest, hqueue, rfl, -⟩ | ⟨f, rest, hfresh, rfl, -⟩
  · rw [size, size, hqueue]
    exact Nat.add_lt_add_right (Nat.lt_succ_self rest.length) _
  · rw [size, size, hfresh]
    exact Nat.add_lt_add_left (Nat.lt_succ_self rest.length) _

theorem mem_waiting_popCandidate {x : (Candidate × ℚ) × Ranking} (h : r.popCandidate = some x) : x.1.2 ∈ r.waiting := by
  rcases popCandidate_cases h with ⟨c, rest, hqueue, rfl, -⟩ | ⟨f, rest, hfresh, rfl, -⟩
  · rw [waiting, hqueue]
    exact List.mem_append_left _ List.mem_cons_self
  · rw [waiting, hfresh]
    exact List.mem_append_right _ List.mem_cons_self

/-- What a pop does not give stays in the queue. -/
theorem mem_queue_popCandidate {x : (Candidate × ℚ) × Ranking} (h : r.popCandidate = some x) {c : Candidate}
    (hc : c ∈ r.queue) : c = x.1.1 ∨ c ∈ x.2.queue := by
  rcases popCandidate_cases h with ⟨d, rest, hqueue, rfl, -⟩ | ⟨f, rest, -, rfl, -⟩
  · rw [hqueue] at hc
    exact List.mem_cons.mp hc
  · exact .inr hc

/-! ## In order -/

theorem Ordered.headPriority_popleft (h : r.Ordered) {c d : Candidate} {rest : List Candidate} (hqueue : r.queue = c :: rest)
    (hd : d ∈ rest) : (r.popleft c rest).2.headPriority d = r.headPriority d := by
  have hpaths := h.paths
  rw [hqueue, List.map_cons, List.nodup_cons] at hpaths
  have hne : d.path ≠ c.path := by
    intro heq
    apply hpaths.1
    rw [← heq]
    exact List.mem_map_of_mem hd
  change ((r.rankH.erase c.path).lookup d.path).getD 0 = _
  rw [Dict.lookup_erase', if_neg hne]
  rfl

theorem Ordered.map_popleft (h : r.Ordered) {c : Candidate} {rest : List Candidate} (hqueue : r.queue = c :: rest) :
    rest.map (r.popleft c rest).2.headPriority = rest.map r.headPriority :=
  List.map_congr_left fun _ hd => h.headPriority_popleft hqueue hd

theorem Ordered.popleft (h : r.Ordered) {c : Candidate} {rest : List Candidate} (hqueue : r.queue = c :: rest)
    (hfirst : ∀ f ∈ r.fresh.head?, r.headFirst c f = true) :
    (r.popleft c rest).2.Ordered ∧ ∀ q ∈ (r.popleft c rest).2.waiting, r.headPriority c ≤ q := by
  have hpaths := h.paths
  have hpriorities := h.queue
  rw [hqueue, List.map_cons, List.nodup_cons] at hpaths
  rw [hqueue, List.map_cons, List.pairwise_cons] at hpriorities
  have hmap := h.map_popleft hqueue
  refine ⟨⟨hpaths.2, ?_, h.fresh⟩, ?_⟩
  · change (rest.map (r.popleft c rest).2.headPriority).Pairwise (· ≤ ·)
    rw [hmap]
    exact hpriorities.2
  · intro q hq
    rcases List.mem_append.mp hq with hq | hq
    · change q ∈ rest.map (r.popleft c rest).2.headPriority at hq
      rw [hmap] at hq
      exact hpriorities.1 q hq
    · obtain ⟨f, hf, rfl⟩ := List.mem_map.mp hq
      change f ∈ r.fresh at hf
      have hfresh := h.fresh
      cases hcases : r.fresh with
      | nil =>
          rw [hcases] at hf
          cases hf
      | cons g fresh =>
          rw [hcases] at hf hfirst hfresh
          have hle : r.headPriority c ≤ g.priority := fst_le_of_toLex (of_decide_eq_true (hfirst g rfl))
          rcases List.mem_cons.mp hf with rfl | hf
          · exact hle
          · exact hle.trans (fst_le_of_toLex ((List.pairwise_cons.mp hfresh).1 f hf))

theorem Ordered.heappop (h : r.Ordered) {f : Fresh} {rest : List Fresh} (hfresh : r.fresh = f :: rest)
    (hlast : ∀ c ∈ r.queue.head?, r.headFirst c f = false) :
    (r.heappop f rest).2.Ordered ∧ ∀ q ∈ (r.heappop f rest).2.waiting, f.priority ≤ q := by
  have hheap := h.fresh
  rw [hfresh, List.pairwise_cons] at hheap
  refine ⟨⟨h.paths, h.queue, hheap.2⟩, ?_⟩
  intro q hq
  rcases List.mem_append.mp hq with hq | hq
  · change q ∈ r.queue.map r.headPriority at hq
    have hpriorities := h.queue
    cases hcases : r.queue with
    | nil =>
        rw [hcases] at hq
        cases hq
    | cons c queue =>
        rw [hcases] at hq hlast hpriorities
        rw [List.map_cons, List.pairwise_cons] at hpriorities
        have hlt := not_le.mp (of_decide_eq_false (hlast c rfl))
        have hle : f.priority ≤ r.headPriority c := fst_le_of_toLex hlt.le
        rcases List.mem_cons.mp hq with rfl | hq
        · exact hle
        · exact hle.trans (hpriorities.1 q hq)
  · obtain ⟨g, hg, rfl⟩ := List.mem_map.mp hq
    exact fst_le_of_toLex (hheap.1 g hg)

/-- What a pop gives is behind no candidate that stays. -/
theorem Ordered.popCandidate (h : r.Ordered) {x : (Candidate × ℚ) × Ranking} (hpop : r.popCandidate = some x) :
    x.2.Ordered ∧ ∀ q ∈ x.2.waiting, x.1.2 ≤ q := by
  rcases popCandidate_cases hpop with ⟨c, rest, hqueue, rfl, hfirst⟩ | ⟨f, rest, hfresh, rfl, hlast⟩
  · exact h.popleft hqueue hfirst
  · exact h.heappop hfresh hlast

theorem Ordered.clear : r.clear.Ordered := ⟨List.nodup_nil, List.Pairwise.nil, List.Pairwise.nil⟩

theorem Ordered.ensureClock (h : r.Ordered) (indexClock : ℚ) : (r.ensureClock indexClock).Ordered := by
  rw [Ranking.ensureClock]
  split
  · exact h
  · exact ⟨h.paths, h.queue, h.fresh⟩

theorem Ordered.push (h : r.Ordered) (f : Fresh) : (r.push f).Ordered := ⟨h.paths, h.queue, h.fresh.orderedInsert f _⟩

theorem Ordered.clock (h : r.Ordered) (clock : ℚ) : Ordered { r with clock := clock } := ⟨h.paths, h.queue, h.fresh⟩

end Ranking

theorem recordRank_ordered {e : Evictor C} (h : e.ranking.Ordered) (indexClock written : ℚ) (key path : Str) (m : Meta)
    (size : Nat) : (recordRank cfg indexClock written key path m size e).ranking.Ordered := by
  have hclock := h.ensureClock indexClock
  unfold recordRank
  dsimp only
  split
  · exact hclock.push _
  · exact hclock

/-! ## A ranking taken -/

theorem nodup_walk (sh : Shared C) : ((walk cfg given sh).map Walked.path).Nodup := by
  have hkeys : (sh.folder.entries.map Sigma.fst).Nodup := sh.folder.nodupKeys
  rw [walk, List.map_map]
  exact hkeys.sublist (List.filter_sublist.map _)

theorem ordered_perm (cfg : Config C) (given : Given C) (e : Evictor C) : (ordered cfg given e).Perm (walk cfg given e.shared) := List.perm_insertionSort _ _

theorem ordered_sorted (e : Evictor C) : (ordered cfg given e).Pairwise fun v w =>
    v.sortKey e.shared cfg given.index (rebuildClock given e) ≤
      w.sortKey e.shared cfg given.index (rebuildClock given e) := by
  have hmap := List.map_insertionSort (r := fun v w : Walked =>
    v.sortKey e.shared cfg given.index (rebuildClock given e) ≤ w.sortKey e.shared cfg given.index (rebuildClock given e))
    (s := (· ≤ ·)) (fun w => w.sortKey e.shared cfg given.index (rebuildClock given e)) (walk cfg given e.shared)
    fun _ _ _ _ => Iff.rfl
  have hsorted := List.pairwise_insertionSort (· ≤ ·)
    ((walk cfg given e.shared).map fun w => w.sortKey e.shared cfg given.index (rebuildClock given e))
  rw [← hmap] at hsorted
  exact List.pairwise_map.mp hsorted

theorem lookup_update_walk {sh : Shared C} {f : Walked → ℚ} {w : Walked} (hw : w ∈ walk cfg given sh) :
    (Dict.update ∅ ((walk cfg given sh).map fun v => (v.path, f v))).lookup w.path = some (f w) := by
  have hmem : w.path ∈ Dict.update ∅ ((walk cfg given sh).map fun v => (v.path, f v)) := by
    rw [Dict.mem_update, List.map_map]
    exact .inl (List.mem_map_of_mem hw)
  obtain ⟨p, hp⟩ := Dict.mem_iff_lookup.mp hmem
  rcases Dict.lookup_update hp with hitem | ⟨_, hnone⟩
  · obtain ⟨v, hv, heq⟩ := List.mem_map.mp hitem
    obtain ⟨hpath, hprio⟩ := Prod.mk.inj heq
    -- a path is walked once
    have hvw : v = w := List.inj_on_of_nodup_map (nodup_walk sh) hv hw hpath
    rw [hp, ← hprio, hvw]
  · cases hnone

theorem headPriority_rebuild {e : Evictor C} {w : Walked} (hw : w ∈ walk cfg given e.shared) :
    (rebuildQueue cfg given e).ranking.headPriority (w.candidate e.shared) =
      w.prio e.shared cfg given.index (rebuildClock given e) := by
  have hlookup := lookup_update_walk (f := fun v => v.prio e.shared cfg given.index (rebuildClock given e)) hw
  exact congrArg (Option.getD · 0) hlookup

theorem rebuildQueue_ordered (e : Evictor C) : (rebuildQueue cfg given e).ranking.Ordered := by
  have hperm := ordered_perm cfg given e
  refine ⟨?_, ?_, List.Pairwise.nil⟩
  · change (((ordered cfg given e).map fun w => w.candidate e.shared).map Candidate.path).Nodup
    rw [List.map_map]
    exact (hperm.map Walked.path).nodup_iff.mpr (nodup_walk e.shared)
  · change (((ordered cfg given e).map fun w => w.candidate e.shared).map
      (rebuildQueue cfg given e).ranking.headPriority).Pairwise (· ≤ ·)
    rw [List.map_map, List.pairwise_map]
    apply (ordered_sorted e).imp_of_mem
    intro v w hv hw hle
    rw [Function.comp_apply, Function.comp_apply, headPriority_rebuild (hperm.mem_iff.mp hv),
      headPriority_rebuild (hperm.mem_iff.mp hw)]
    exact fst_le_of_toLex hle

end Cash.Evict
