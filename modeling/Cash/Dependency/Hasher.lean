import Cash.Lib.Visit
import Cash.Lineage.Formula

/-!
# The state hash of a dependency

`DependencyStateHasher` of `dependency_state.py`, over a `DependencyGraph` of `graph.py`. The ledger it writes for a miss
is left out.
-/

namespace Cash.Dependency

open Py Lineage

/-- What `compute` reads of a `PurityReport`. -/
structure Report where
  /-- `helper_source_hashes`, a dict. -/
  helperSourceHashes : List (Str × Str)

/-- `DependencyGraph`: a dict of sets. -/
structure DependencyGraph where
  dependencies : List (Str × List Str)
deriving DecidableEq

/-- `get_dependencies`. -/
def DependencyGraph.getDependencies (g : DependencyGraph) (node : Str) : List Str :=
  ((g.dependencies.lookup node).getD []).dedup

/-- The nodes the graph names. -/
def DependencyGraph.nodes (g : DependencyGraph) : List Str := g.dependencies.flatMap fun entry => entry.1 :: entry.2

/-- `DependencyStateHasher`. -/
structure Hasher where
  /-- The names in `functions`. -/
  functions : Str → Bool
  sourceHashes : Str → Option Str
  /-- `state_token_of` of each data source. -/
  dataSources : Str → Option Str
  declaredDepSnapshots : Str → Option Str
  declaredDepResolver : Option (Str → Option Str)
  purityReports : Str → Option Report
  /-- `helper_resolver.current_hashes`. -/
  currentHashes : Report → Str → Option Str
  graph : DependencyGraph
  /-- `_cash_state` of the wrapper that `reached_callee` finds. -/
  reachedCallee : Option (Str → Str → Option Str)

namespace Hasher

variable (h : Hasher) (sha256 : Str → Str)

/-- The node's own state. -/
def own (override : Option Str) (node : Str) : List Str :=
  if h.functions node then
    match override with
    | some source => [source]
    | none => [(h.sourceHashes node).getD []]
  else
    match h.dataSources node with
    | some token => [token]
    | none =>
        match h.declaredDepSnapshots node with
        | some snapshot => [((h.declaredDepResolver.bind fun resolve => resolve node).getD snapshot)]
        | none => []

/-- The dependencies, in the order they are folded. -/
def sortedDependencies (node : Str) : List Str := (h.graph.getDependencies node).insertionSort (· ≤ ·)

/-- The state of the cached function that the node reaches under the dependency's name. -/
def reached (node dep : Str) : Option Str := h.reachedCallee.bind fun find => find node dep

/-- The report the node's helpers are read from. -/
def report (ownReport : Option Report) (node : Str) : Option Report := ownReport <|> h.purityReports node

/-- The hash of a helper: the live one, or the recorded one. -/
def helper (r : Report) (qual : Str) : Str := (h.currentHashes r qual).getD ((r.helperSourceHashes.lookup qual).getD [])

/-- The names of the helpers that are folded, in order. -/
def helperNames (r : Report) (node : Str) : List Str :=
  ((r.helperSourceHashes.map (·.1)).insertionSort (· ≤ ·)).filter (· ≠ node)

/-- The helpers' source hashes. -/
def helpers (ownReport : Option Report) (node : Str) : List Str :=
  match h.report ownReport node with
  | some r => (helperNames r node).map fun qual => str "helper:" ++ qual ++ 58 :: h.helper r qual
  | none => []

/-- The text a node's state is the hash of. -/
def text (override : Option Str) (ownReport : Option Report) (node : Str) (states : List Str) : Str :=
  join (h.own override node ++ states ++ h.helpers ownReport node)

/-- The loop of `compute` over the dependencies. -/
def states (compute : Str → List Str → Option (Str × List Str)) (node : Str) :
    List Str → List Str → Option (List Str × List Str)
  | [], visited => some ([], visited)
  | dep :: deps, visited =>
    match h.reached node dep with
    | some state => (states compute node deps visited).map fun r => ((str "reached:" ++ state) :: r.1, r.2)
    | none => (compute dep visited).bind fun r => (states compute node deps r.2).map fun s => (r.1 :: s.1, s.2)

/-- `compute`, with the nodes visited in the order they were added; `none` where the recursion is deeper than the fuel. -/
def compute : ℕ → Str → List Str → Option Str → Option Report → Option (Str × List Str)
  | 0, _, _, _, _ => none
  | fuel + 1, node, visited, override, ownReport =>
    if node ∈ visited then some ([], visited)
    else
      (h.states (fun dep visited => compute fuel dep visited none none) node (h.sortedDependencies node)
        (visited ++ [node])).map fun r => (sha256 (h.text override ownReport node r.1), r.2)

end Hasher

end Cash.Dependency
