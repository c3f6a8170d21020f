import Cash.Lib.Dict
import Cash.Lib.OrderedSet
import Cash.Lib.Py

/-!
# Derivation edges

The edge store of `statement/derivation_edges.py`, the logs of what a run links, and the replay of a log.
-/

namespace Cash.Edges

open Py

/-- `derivation_edges`. -/
abbrev EdgeMap := Dict Str (OrderedSet Str)

/-- The edge from `src` to `dst` is there. -/
def EdgeMap.Edge (edges : EdgeMap) (src dst : Str) : Prop := ∃ targets, edges.lookup src = some targets ∧ dst ∈ targets

/-- `derivation_edges.setdefault(src, set()).add(dst)`. -/
def EdgeMap.add (edges : EdgeMap) (src dst : Str) : EdgeMap :=
  edges.insert src ((edges.getD src .empty).add dst)

/-- `targets.discard(dst)`, for `src`'s targets; without any left, `src` is no key. -/
def EdgeMap.discard (edges : EdgeMap) (src dst : Str) : EdgeMap :=
  match edges.lookup src with
  | none => edges
  | some targets =>
    if (targets.discard dst).items = [] then edges.erase src else edges.insert src (targets.discard dst)

/-- `UNLINKED`. -/
def UNLINKED : Str := str "!"

/-- `s.startswith(UNLINKED)`. -/
def startsUnlinked (s : Str) : Bool := UNLINKED.isPrefixOf s

/-- `s[len(UNLINKED):]`. -/
def afterUnlinked (s : Str) : Str := s.drop UNLINKED.length

/-- A name of the notebook: none starts with `!`. -/
abbrev Name := { s : Str // startsUnlinked s = false }

/-! ## Logs -/

/-- A log of `logging_edges`. -/
structure Log where
  /-- Which object it is. -/
  id : Nat
  pairs : OrderedSet (Str × Str)

structure Session where
  edges : EdgeMap
  /-- `_EDGE_LOGS`. -/
  edgeLogs : List Log
  /-- How many logs there have been. -/
  made : Nat
  opened : ∀ log ∈ edgeLogs, log.id < made

theorem opened_log {logs : List Log} {made : Nat} (h : ∀ log ∈ logs, log.id < made) (pair : Str × Str) :
    ∀ log ∈ logs.map fun log => { log with pairs := log.pairs.add pair }, log.id < made := by
  intro log hlog
  obtain ⟨log', hlog', rfl⟩ := List.mem_map.mp hlog
  exact h log' hlog'

/-- `for log in _EDGE_LOGS: log.add(pair)`. -/
def Session.log (s : Session) (pair : Str × Str) : Session :=
  { s with
    edgeLogs := s.edgeLogs.map fun log => { log with pairs := log.pairs.add pair }
    opened := opened_log s.opened pair }

def link (s : Session) (src dst : Str) : Session := { s with edges := s.edges.add src dst }.log (src, dst)

def unlink (s : Session) (a b : Str) : Session :=
  { s with edges := (s.edges.discard a b).discard b a }.log (UNLINKED ++ a, b)

/-- One turn of the loop of `clear_edges_for`. -/
def clearSource (var : Str) (edges : EdgeMap) (src : Str) : EdgeMap :=
  match edges.lookup src with
  | none => edges
  | some targets => if var ∈ targets then edges.discard src var else edges

def clearEdgesFor (edges : EdgeMap) (var : Str) : EdgeMap :=
  (edges.erase var).keys.foldl (clearSource var) (edges.erase var)

/-- A call of a run. What it links are two names: every caller of `link` asks that first. -/
inductive Op
  | link (src dst : Name) (ne : src ≠ dst)
  | unlink (a b : Name)
  | clear (var : Name)

def Op.run (s : Session) : Op → Session
  | .link src dst _ => Edges.link s src.1 dst.1
  | .unlink a b => Edges.unlink s a.1 b.1
  | .clear var => { s with edges := clearEdgesFor s.edges var.1 }

/-- What runs: a call, or a block `with logging_edges()`. -/
inductive Call
  | op (o : Op)
  | logging (body : List Call)

theorem opened_openLog {logs : List Log} {made : Nat} (h : ∀ log ∈ logs, log.id < made) :
    ∀ log ∈ logs ++ [⟨made, .empty⟩], log.id < made + 1 := by
  intro log hlog
  rcases List.mem_append.mp hlog with hlog | hlog
  · exact Nat.lt_succ_of_lt (h log hlog)
  · cases List.mem_singleton.mp hlog
    exact Nat.lt_succ_self _

/-- `_EDGE_LOGS.append(set())`. -/
def Session.openLog (s : Session) : Session :=
  { s with
    edgeLogs := s.edgeLogs ++ [⟨s.made, .empty⟩]
    made := s.made + 1
    opened := opened_openLog s.opened }

/-- The log with the identity. -/
def Session.pairsOf (s : Session) (id : Nat) : OrderedSet (Str × Str) :=
  ((s.edgeLogs.find? fun log => log.id = id).map Log.pairs).getD .empty

theorem opened_closeLog {logs : List Log} {made : Nat} (h : ∀ log ∈ logs, log.id < made) (id : Nat) :
    ∀ log ∈ (logs.reverse.eraseP fun log => log.id = id).reverse, log.id < made := by
  intro log hlog
  exact h log (List.mem_reverse.mp (List.mem_of_mem_eraseP (List.mem_reverse.mp hlog)))

/-- Its last place in `_EDGE_LOGS` is deleted. -/
def Session.closeLog (s : Session) (id : Nat) : Session :=
  { s with
    edgeLogs := (s.edgeLogs.reverse.eraseP fun log => log.id = id).reverse
    opened := opened_closeLog s.opened id }

mutual

def Call.run (s : Session) : Call → Session
  | .op o => o.run s
  | .logging body => (Call.runAll s.openLog body).closeLog s.made

def Call.runAll (s : Session) : List Call → Session
  | [] => s
  | call :: calls => Call.runAll (call.run s) calls

end

/-- `logging_edges` around the calls, and the log it collects. -/
def loggingEdges (s : Session) (body : List Call) : Session × OrderedSet (Str × Str) :=
  let ran := Call.runAll s.openLog body
  (ran.closeLog s.made, ran.pairsOf s.made)

/-! ## The replay -/

/-- `linked` of `apply_share_record`. -/
def linkedPairs (record : List (Str × Str)) : List (Str × Str) :=
  (record.filter fun p => !startsUnlinked p.1).flatMap fun p => [p, (p.2, p.1)]

/-- `src in bound and dst in bound`, with a *bound*. -/
def inBound (bound : Option (List Str)) (p : Str × Str) : Bool :=
  match bound with
  | none => true
  | some names => p.1 ∈ names && p.2 ∈ names

def linkRecorded (bound : Option (List Str)) (s : Session) (p : Str × Str) : Session :=
  if startsUnlinked p.1 then s
  else if p.1 ≠ p.2 && inBound bound p then link s p.1 p.2 else s

def unlinkRecorded (linked : List (Str × Str)) (s : Session) (p : Str × Str) : Session :=
  if startsUnlinked p.1 && (afterUnlinked p.1, p.2) ∉ linked then unlink s (afterUnlinked p.1) p.2 else s

def applyShareRecord (s : Session) (rebound : List Str) (record : List (Str × Str)) (bound : Option (List Str)) :
    Session :=
  let cleared := { s with edges := rebound.foldl clearEdgesFor s.edges }
  record.foldl (unlinkRecorded (linkedPairs record)) (record.foldl (linkRecorded bound) cleared)

end Cash.Edges
