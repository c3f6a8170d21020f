import Cash.Edges.Record

/-! What each operation leaves of the edges and of the open logs. -/

namespace Cash.Edges

open Py

/-! ## Edges -/

theorem edge_add {edges : EdgeMap} {src dst a b : Str} :
    (edges.add src dst).Edge a b ↔ a = src ∧ b = dst ∨ edges.Edge a b := by
  unfold EdgeMap.Edge EdgeMap.add Dict.getD
  rw [Dict.lookup_insert']
  by_cases ha : a = src
  · subst ha
    cases h : edges.lookup a with
    | none => simp
    | some targets => simp
  · simp [ha]

theorem EdgeMap.Edge.ne_of_none {edges : EdgeMap} {src a b : Str} (he : edges.Edge a b)
    (h : edges.lookup src = none) : a ≠ src := by
  rintro rfl
  obtain ⟨targets, ht, _⟩ := he
  rw [h] at ht
  cases ht

theorem edge_discard {edges : EdgeMap} {src dst a b : Str} :
    (edges.discard src dst).Edge a b ↔ edges.Edge a b ∧ ¬ (a = src ∧ b = dst) := by
  unfold EdgeMap.discard
  cases h : edges.lookup src with
  | none =>
      constructor
      · intro he
        exact ⟨he, fun heq => he.ne_of_none h heq.1⟩
      · exact And.left
  | some targets =>
      by_cases ha : a = src
      · subst ha
        have hleft : b ∈ targets.discard dst ↔ edges.Edge a b ∧ ¬ (a = a ∧ b = dst) := by
          simp [EdgeMap.Edge, h]
        rw [← hleft]
        dsimp only
        split
        · rename_i hnil
          simp [EdgeMap.Edge, OrderedSet.mem_iff, hnil]
        · simp [EdgeMap.Edge]
      · dsimp only
        split
        · simp [EdgeMap.Edge, ha]
        · simp [EdgeMap.Edge, ha]

theorem edge_erase {edges : EdgeMap} {var a b : Str} :
    EdgeMap.Edge (edges.erase var) a b ↔ edges.Edge a b ∧ a ≠ var := by
  unfold EdgeMap.Edge
  rw [Dict.lookup_erase']
  by_cases ha : a = var
  · simp [ha]
  · simp [ha]

theorem edge_clearSource {edges : EdgeMap} {var src a b : Str} :
    (clearSource var edges src).Edge a b ↔ edges.Edge a b ∧ ¬ (a = src ∧ b = var) := by
  unfold clearSource
  cases h : edges.lookup src with
  | none =>
      constructor
      · intro he
        exact ⟨he, fun heq => he.ne_of_none h heq.1⟩
      · exact And.left
  | some targets =>
      dsimp only
      split
      · exact edge_discard
      · rename_i hvar
        constructor
        · rintro ⟨ts, ht, hb⟩
          refine ⟨⟨ts, ht, hb⟩, ?_⟩
          rintro ⟨rfl, rfl⟩
          rw [h] at ht
          cases ht
          exact hvar hb
        · exact And.left

theorem edge_foldl_clearSource {edges : EdgeMap} {var a b : Str} {srcs : List Str} :
    (srcs.foldl (clearSource var) edges).Edge a b ↔ edges.Edge a b ∧ ¬ (a ∈ srcs ∧ b = var) := by
  induction srcs generalizing edges with
  | nil => simp
  | cons src srcs ih =>
      rw [List.foldl_cons, ih, edge_clearSource, List.mem_cons]
      tauto

theorem EdgeMap.Edge.mem_keys {edges : EdgeMap} {a b : Str} (h : edges.Edge a b) : a ∈ edges.keys := by
  obtain ⟨targets, ht, _⟩ := h
  exact Dict.mem_of_lookup ht

theorem edge_clearEdgesFor {edges : EdgeMap} {var a b : Str} :
    (clearEdgesFor edges var).Edge a b ↔ edges.Edge a b ∧ a ≠ var ∧ b ≠ var := by
  unfold clearEdgesFor
  rw [edge_foldl_clearSource]
  constructor
  · rintro ⟨he, hnot⟩
    have hkey := he.mem_keys
    obtain ⟨he, ha⟩ := edge_erase.mp he
    exact ⟨he, ha, fun hb => hnot ⟨hkey, hb⟩⟩
  · rintro ⟨he, ha, hb⟩
    exact ⟨edge_erase.mpr ⟨he, ha⟩, fun h => hb h.2⟩

theorem edge_foldl_clearEdgesFor {edges : EdgeMap} {a b : Str} {vars : List Str} :
    (vars.foldl clearEdgesFor edges).Edge a b ↔ edges.Edge a b ∧ a ∉ vars ∧ b ∉ vars := by
  induction vars generalizing edges with
  | nil => simp
  | cons var vars ih =>
      rw [List.foldl_cons, ih, edge_clearEdgesFor]
      simp only [List.mem_cons, not_or]
      tauto

/-! ## Marked pairs -/

@[simp] theorem startsUnlinked_mark (s : Str) : startsUnlinked (UNLINKED ++ s) = true := by
  simp [startsUnlinked]

@[simp] theorem afterUnlinked_mark (s : Str) : afterUnlinked (UNLINKED ++ s) = s := by
  simp [afterUnlinked]

/-! ## Runs -/

namespace Op

/-- What it logs. -/
def pair : Op → Option (Str × Str)
  | .link src dst _ => some (src.1, dst.1)
  | .unlink a b => some (UNLINKED ++ a.1, b.1)
  | .clear _ => none

/-- What it does to the edges. -/
def apply (edges : EdgeMap) : Op → EdgeMap
  | .link src dst _ => edges.add src.1 dst.1
  | .unlink a b => (edges.discard a.1 b.1).discard b.1 a.1
  | .clear var => clearEdgesFor edges var.1

end Op

mutual

/-- The calls, without the blocks around them. -/
def Call.ops : Call → List Op
  | .op o => [o]
  | .logging body => Call.allOps body

def Call.allOps : List Call → List Op
  | [] => []
  | call :: calls => call.ops ++ Call.allOps calls

end

/-- A log with more pairs. -/
def Log.update (log : Log) (pairs : List (Str × Str)) : Log := { log with pairs := log.pairs.update pairs }

@[simp] theorem Log.update_nil (log : Log) : log.update [] = log := rfl

@[simp] theorem Log.update_id (log : Log) (pairs : List (Str × Str)) : (log.update pairs).id = log.id := rfl

theorem Log.update_append (log : Log) (pairs more : List (Str × Str)) :
    log.update (pairs ++ more) = (log.update pairs).update more := by
  simp [Log.update, OrderedSet.update, List.foldl_append]

/-- The calls, without their blocks, lead from one session to the other. -/
structure Ran (s : Session) (ops : List Op) (s' : Session) : Prop where
  edges : s'.edges = ops.foldl Op.apply s.edges
  edgeLogs : s'.edgeLogs = s.edgeLogs.map (·.update (ops.filterMap Op.pair))
  made : s.made ≤ s'.made

namespace Ran

variable {s s' s'' : Session} {ops ops' : List Op}

theorem nil (s : Session) : Ran s [] s := ⟨rfl, by simp, le_rfl⟩

theorem op (s : Session) (o : Op) : Ran s [o] (o.run s) := by
  cases o with
  | link src dst ne => exact ⟨rfl, rfl, le_rfl⟩
  | unlink a b => exact ⟨rfl, rfl, le_rfl⟩
  | clear var =>
      refine ⟨rfl, ?_, le_rfl⟩
      rw [List.filterMap_cons_none rfl, List.filterMap_nil]
      simp [Op.run]

theorem append (h : Ran s ops s') (h' : Ran s' ops' s'') : Ran s (ops ++ ops') s'' := by
  refine ⟨?_, ?_, h.made.trans h'.made⟩
  · rw [h'.edges, h.edges, List.foldl_append]
  · rw [h'.edgeLogs, h.edgeLogs, List.map_map, List.filterMap_append]
    apply List.map_congr_left
    intro log _
    exact (log.update_append _ _).symm

/-- The log of a block is the last one when it ends. -/
theorem last (h : Ran s.openLog ops s') :
    s'.edgeLogs = s.edgeLogs.map (·.update (ops.filterMap Op.pair)) ++
      [⟨s.made, OrderedSet.empty.update (ops.filterMap Op.pair)⟩] := by
  rw [h.edgeLogs]
  simp [Session.openLog, Log.update]

theorem closed (h : Ran s.openLog ops s') : Ran s ops (s'.closeLog s.made) := by
  refine ⟨h.edges, ?_, Nat.le_of_succ_le h.made⟩
  simp [Session.closeLog, h.last]

theorem pairsOf (h : Ran s.openLog ops s') :
    s'.pairsOf s.made = OrderedSet.empty.update (ops.filterMap Op.pair) := by
  have hnone : (s.edgeLogs.map (·.update (ops.filterMap Op.pair))).find? (fun log => log.id = s.made) = none := by
    rw [List.find?_eq_none]
    intro log hlog
    obtain ⟨log', hlog', rfl⟩ := List.mem_map.mp hlog
    intro heq
    exact (s.opened log' hlog').ne (of_decide_eq_true heq)
  simp [Session.pairsOf, h.last, List.find?_append, hnone]

end Ran

mutual

theorem Call.ran (s : Session) : (call : Call) → Ran s call.ops (call.run s)
  | .op o => by
      rw [Call.ops, Call.run]
      exact Ran.op s o
  | .logging body => by
      rw [Call.ops, Call.run]
      exact (Call.allRan s.openLog body).closed

theorem Call.allRan (s : Session) : (calls : List Call) → Ran s (Call.allOps calls) (Call.runAll s calls)
  | [] => by
      rw [Call.allOps, Call.runAll]
      exact Ran.nil s
  | call :: calls => by
      rw [Call.allOps, Call.runAll]
      exact (Call.ran s call).append (Call.allRan (call.run s) calls)

end

/-- The block as a whole: what it does to the edges and to the logs around it, and what its log holds. -/
theorem loggingEdges_spec (s : Session) (body : List Call) :
    Ran s (Call.allOps body) (loggingEdges s body).1 ∧
      ∀ pair, pair ∈ (loggingEdges s body).2 ↔ pair ∈ (Call.allOps body).filterMap Op.pair := by
  have hran := Call.allRan s.openLog body
  refine ⟨hran.closed, ?_⟩
  intro pair
  simp only [loggingEdges, hran.pairsOf, OrderedSet.mem_update, OrderedSet.not_mem_empty, false_or]

/-! ## The edges a run leaves -/

theorem edge_foldl_apply {edges : EdgeMap} {ops : List Op} {a b : Str} (h : (ops.foldl Op.apply edges).Edge a b) :
    (∃ src dst ne, Op.link src dst ne ∈ ops ∧ src.1 = a ∧ dst.1 = b) ∨
      edges.Edge a b ∧
        ∀ o ∈ ops, (∀ x y, o = .unlink x y → ¬ (a = x.1 ∧ b = y.1) ∧ ¬ (a = y.1 ∧ b = x.1)) ∧
          ∀ var, o = .clear var → a ≠ var.1 ∧ b ≠ var.1 := by
  induction ops generalizing edges with
  | nil => exact .inr ⟨h, by simp⟩
  | cons o ops ih =>
      rcases ih h with ⟨src, dst, ne, hmem, hab⟩ | ⟨he, hops⟩
      · exact .inl ⟨src, dst, ne, List.mem_cons_of_mem _ hmem, hab⟩
      · cases o with
        | link src dst ne =>
            rcases edge_add.mp he with ⟨rfl, rfl⟩ | he
            · exact .inl ⟨src, dst, ne, List.mem_cons_self, rfl, rfl⟩
            · refine .inr ⟨he, ?_⟩
              intro o ho
              rcases List.mem_cons.mp ho with rfl | ho
              · simp
              · exact hops o ho
        | unlink x y =>
            obtain ⟨he, hyx⟩ := edge_discard.mp he
            obtain ⟨he, hxy⟩ := edge_discard.mp he
            refine .inr ⟨he, ?_⟩
            intro o ho
            rcases List.mem_cons.mp ho with rfl | ho
            · refine ⟨?_, by simp⟩
              intro x' y' heq
              cases heq
              exact ⟨hxy, hyx⟩
            · exact hops o ho
        | clear var =>
            obtain ⟨he, ha, hb⟩ := edge_clearEdgesFor.mp he
            refine .inr ⟨he, ?_⟩
            intro o ho
            rcases List.mem_cons.mp ho with rfl | ho
            · refine ⟨by simp, ?_⟩
              intro var' heq
              cases heq
              exact ⟨ha, hb⟩
            · exact hops o ho

/-! ## The replay -/

theorem mem_linkedPairs {record : List (Str × Str)} {a b : Str} :
    (a, b) ∈ linkedPairs record ↔
      (a, b) ∈ record ∧ startsUnlinked a = false ∨ (b, a) ∈ record ∧ startsUnlinked b = false := by
  simp only [linkedPairs, List.mem_flatMap, List.mem_filter, List.mem_cons, List.not_mem_nil, or_false,
    Bool.not_eq_true']
  constructor
  · rintro ⟨p, ⟨hp, hs⟩, rfl | heq⟩
    · exact .inl ⟨hp, hs⟩
    · cases heq
      exact .inr ⟨hp, hs⟩
  · rintro (h | h)
    · exact ⟨(a, b), h, .inl rfl⟩
    · exact ⟨(b, a), h, .inr rfl⟩

theorem edge_foldl_linkRecorded {s : Session} {record : List (Str × Str)} {a b : Str} :
    (record.foldl (linkRecorded none) s).edges.Edge a b ↔
      s.edges.Edge a b ∨ (a, b) ∈ record ∧ startsUnlinked a = false ∧ a ≠ b := by
  induction record generalizing s with
  | nil => simp
  | cons p record ih =>
      have hone : (linkRecorded none s p).edges.Edge a b ↔
          s.edges.Edge a b ∨ (a, b) = p ∧ startsUnlinked a = false ∧ a ≠ b := by
        obtain ⟨x, y⟩ := p
        unfold linkRecorded
        by_cases hx : startsUnlinked x = true
        · rw [if_pos hx]
          constructor
          · exact .inl
          · rintro (h | ⟨heq, hstart, _⟩)
            · exact h
            · cases heq
              simp [hx] at hstart
        · by_cases hxy : x = y
          · subst hxy
            simp only [hx, Bool.false_eq_true, if_false, ne_eq, not_true, decide_false, Bool.false_and]
            constructor
            · exact .inl
            · rintro (h | ⟨heq, _, hne⟩)
              · exact h
              · cases heq
                exact absurd rfl hne
          · simp only [hx, Bool.false_eq_true, if_false, ne_eq, hxy, not_false_eq_true, decide_true, inBound,
              Bool.and_true, if_true]
            change (s.edges.add x y).Edge a b ↔ _
            rw [edge_add, Prod.mk.injEq]
            constructor
            · rintro (⟨rfl, rfl⟩ | h)
              · exact .inr ⟨⟨rfl, rfl⟩, by simpa using hx, hxy⟩
              · exact .inl h
            · rintro (h | ⟨h, _⟩)
              · exact .inr h
              · exact .inl h
      rw [List.foldl_cons, ih, hone, List.mem_cons]
      tauto

/-- The record drops the edge from `a` to `b` after it has linked what it links. -/
def Unlinks (linked record : List (Str × Str)) (a b : Str) : Prop :=
  ∃ p ∈ record, startsUnlinked p.1 = true ∧ (afterUnlinked p.1, p.2) ∉ linked ∧
    (a = afterUnlinked p.1 ∧ b = p.2 ∨ a = p.2 ∧ b = afterUnlinked p.1)

theorem edge_foldl_unlinkRecorded {s : Session} {linked record : List (Str × Str)} {a b : Str} :
    (record.foldl (unlinkRecorded linked) s).edges.Edge a b ↔ s.edges.Edge a b ∧ ¬ Unlinks linked record a b := by
  induction record generalizing s with
  | nil => simp [Unlinks]
  | cons p record ih =>
      have hcons : Unlinks linked (p :: record) a b ↔ Unlinks linked [p] a b ∨ Unlinks linked record a b := by
        simp only [Unlinks, List.mem_cons, List.not_mem_nil, or_false, exists_eq_or_imp, exists_eq_left]
      have hone : (unlinkRecorded linked s p).edges.Edge a b ↔ s.edges.Edge a b ∧ ¬ Unlinks linked [p] a b := by
        unfold unlinkRecorded
        simp only [Unlinks, List.mem_singleton, exists_eq_left]
        by_cases hp : startsUnlinked p.1 = true ∧ (afterUnlinked p.1, p.2) ∉ linked
        · rw [if_pos (by simpa using hp)]
          change ((s.edges.discard (afterUnlinked p.1) p.2).discard p.2 (afterUnlinked p.1)).Edge a b ↔ _
          rw [edge_discard, edge_discard]
          tauto
        · rw [if_neg (by simpa using hp)]
          tauto
      rw [List.foldl_cons, ih, hone, hcons]
      tauto

/-- The edges after a replay. -/
theorem edge_applyShareRecord {s : Session} {rebound : List Str} {record : List (Str × Str)} {a b : Str} :
    (applyShareRecord s rebound record none).edges.Edge a b ↔
      (s.edges.Edge a b ∧ a ∉ rebound ∧ b ∉ rebound ∨ (a, b) ∈ record ∧ startsUnlinked a = false ∧ a ≠ b) ∧
        ¬ Unlinks (linkedPairs record) record a b := by
  rw [applyShareRecord, edge_foldl_unlinkRecorded, edge_foldl_linkRecorded, edge_foldl_clearEdgesFor]

end Cash.Edges
