import Cash.Dependency.Hasher
import Mathlib.Data.List.Dedup
import Mathlib.Data.List.Forall2

/-!
# State hashes and what they are made of
-/

namespace Cash.Dependency

open Py Lineage

/-!
## The text of a state gives back its parts

The parts are joined by a colon that some of them contain; a part stands at one place in both texts, and only the first
may have more colons in one than in the other.
-/

/-- The two have as many colons. -/
def Alike (s s' : Str) : Prop := s.count 58 = s'.count 58

theorem cut_alike {x y r r' : Str} (hx : Alike x y) (h : x ++ 58 :: r = y ++ 58 :: r') : x = y ∧ r = r' := by
  rcases List.append_eq_append_iff.mp h with ⟨a, rfl, ha⟩ | ⟨a, rfl, ha⟩
  · cases a with
    | nil => simpa using ha
    | cons c a =>
        obtain ⟨rfl, -⟩ := List.cons.inj ha
        simp [Alike] at hx
  · cases a with
    | nil => simpa using ha.symm
    | cons c a =>
        obtain ⟨rfl, -⟩ := List.cons.inj ha
        simp [Alike] at hx

theorem join_cons_cons (x y : Str) (xs : List Str) : join (x :: y :: xs) = x ++ 58 :: join (y :: xs) := rfl

theorem join_count {xs ys : List Str} (h : List.Forall₂ Alike xs ys) : Alike (join xs) (join ys) := by
  induction h with
  | nil => rfl
  | @cons x y xs ys hxy hrest ih =>
      cases hrest with
      | nil => exact hxy
      | cons _ _ =>
          rw [join_cons_cons, join_cons_cons]
          simp only [Alike, List.count_append, List.count_cons] at hxy ih ⊢
          omega

theorem join_alike {xs ys : List Str} (h : List.Forall₂ Alike xs ys) (heq : join xs = join ys) : xs = ys := by
  induction h with
  | nil => rfl
  | @cons x y xs ys hxy hrest ih =>
      cases hrest with
      | nil => exact congrArg (fun s => [s]) heq
      | cons _ _ =>
          rw [join_cons_cons, join_cons_cons] at heq
          obtain ⟨rfl, hjoin⟩ := cut_alike hxy heq
          rw [ih hjoin]

/-- Behind a first part that is anything at all. -/
theorem join_own {own own' rest rest' : List Str} (hlen : own.length = own'.length) (hone : own.length ≤ 1)
    (hrest : List.Forall₂ Alike rest rest') : join (own ++ rest) = join (own' ++ rest') ↔ own = own' ∧ rest = rest' := by
  refine ⟨fun heq => ?_, fun ⟨h, h'⟩ => by rw [h, h']⟩
  match own, own', hlen, hone with
  | [], [], _, _ => exact ⟨rfl, join_alike hrest heq⟩
  | [x], [y], _, _ =>
      rw [List.singleton_append, List.singleton_append] at heq
      cases hrest with
      | nil => exact ⟨congrArg (fun s => [s]) heq, rfl⟩
      | @cons a b as bs hab htail =>
          have hcount : Alike (join (a :: as)) (join (b :: bs)) := join_count (.cons hab htail)
          rw [join_cons_cons, join_cons_cons] at heq
          have hxy : Alike x y := by
            have htotal := congrArg (List.count 58) heq
            simp only [Alike, List.count_append, List.count_cons] at hcount htotal ⊢
            omega
          obtain ⟨rfl, hjoin⟩ := cut_alike hxy heq
          exact ⟨rfl, join_alike (.cons hab htail) hjoin⟩

/-!
## The state hash as a walk

`compute` is the walk that enters each node once, over the edges that no other instance answers.
-/

namespace Hasher

variable {h h' : Hasher} {sha256 : Str → Str}

/-! ### The walk -/

/-- What is folded for a dependency: the node, or the state of the function that is reached. -/
def edge (h : Hasher) (node dep : Str) : Str ⊕ Str :=
  match h.reached node dep with
  | some state => .inr (str "reached:" ++ state)
  | none => .inl dep

def edges (h : Hasher) (node : Str) : List (Str ⊕ Str) := (h.sortedDependencies node).map (h.edge node)

/-- What is made of a node below the root. -/
def digest (h : Hasher) (sha256 : Str → Str) (node : Str) (states : List Str) : Str :=
  sha256 (h.text none none node states)

theorem states_eq (f : Str → List Str → Option (Str × List Str)) (node : Str) (deps visited : List Str) :
    h.states f node deps visited = Visit.all f (deps.map (h.edge node)) visited := by
  induction deps generalizing visited with
  | nil => rfl
  | cons dep deps ih =>
      rw [states, List.map_cons, edge]
      cases h.reached node dep with
      | some state => simp only [Visit.all, ih]
      | none => simp only [Visit.all, ih]

theorem compute_eq_fold (fuel : ℕ) (node : Str) (visited : List Str) :
    h.compute sha256 fuel node visited none none = Visit.fold h.edges (h.digest sha256) [] fuel node visited := by
  induction fuel generalizing node visited with
  | zero => rfl
  | succ fuel ih =>
      have hrest : (fun dep visited => h.compute sha256 fuel dep visited none none) =
          Visit.fold h.edges (h.digest sha256) [] fuel := funext fun dep => funext fun visited => ih dep visited
      rw [compute, Visit.fold, hrest, states_eq]
      by_cases hx : node ∈ visited
      · rw [if_pos hx, if_pos hx]
      · rw [if_neg hx, if_neg hx]
        rfl

/-- The root's own part and report are its own; below it, the walk is the registries'. -/
theorem compute_root (fuel : ℕ) (root : Str) (override : Option Str) (ownReport : Option Report) :
    h.compute sha256 (fuel + 1) root [] override ownReport =
      (Visit.all (Visit.fold h.edges (h.digest sha256) [] fuel) (h.edges root) [root]).map fun r =>
        (sha256 (h.text override ownReport root r.1), r.2) := by
  have hrest : (fun dep visited => h.compute sha256 fuel dep visited none none) =
      Visit.fold h.edges (h.digest sha256) [] fuel := funext fun dep => funext fun visited => compute_eq_fold fuel dep visited
  rw [compute, if_neg List.not_mem_nil, hrest, states_eq]
  rfl

/-! ### The nodes -/

/-- The node depends on the other, and no other instance answers for it. -/
def Edge (h : Hasher) (node dep : Str) : Prop := dep ∈ h.graph.getDependencies node ∧ h.reached node dep = none

/-- The dependencies of dependencies. -/
def Reaches (h : Hasher) : Str → Str → Prop := Relation.ReflTransGen h.Edge

theorem mem_sortedDependencies {node dep : Str} :
    dep ∈ h.sortedDependencies node ↔ dep ∈ h.graph.getDependencies node := List.mem_insertionSort _

theorem step_iff {node dep : Str} : Visit.Step h.edges node dep ↔ h.Edge node dep := by
  rw [Visit.Step, edges, List.mem_map, Edge, ← mem_sortedDependencies]
  constructor
  · rintro ⟨d, hd, heq⟩
    cases hreached : h.reached node d with
    | some state => simp only [edge, hreached, reduceCtorEq] at heq
    | none =>
        simp only [edge, hreached, Sum.inl.injEq] at heq
        exact heq ▸ ⟨hd, hreached⟩
  · rintro ⟨hd, hreached⟩
    exact ⟨dep, hd, by simp only [edge, hreached]⟩

theorem reaches_iff {node dep : Str} : Relation.ReflTransGen (Visit.Step h.edges) node dep ↔ h.Reaches node dep := by
  have heq : Visit.Step h.edges = h.Edge := funext fun x => funext fun y => propext step_iff
  rw [heq, Reaches]

theorem dependency_mem {node dep : Str} (hdep : dep ∈ h.graph.getDependencies node) : dep ∈ h.graph.nodes := by
  rw [DependencyGraph.getDependencies, List.mem_dedup] at hdep
  cases hlookup : h.graph.dependencies.lookup node with
  | none => simp [hlookup] at hdep
  | some deps =>
      rw [hlookup, Option.getD_some] at hdep
      have hentry : (node, deps) ∈ h.graph.dependencies := by
        obtain ⟨before, after, hentries, -⟩ := List.lookup_eq_some_iff.mp hlookup
        rw [hentries]
        exact List.mem_append_right _ List.mem_cons_self
      exact List.mem_flatMap.mpr ⟨_, hentry, List.mem_cons_of_mem _ hdep⟩

/-- With fuel for the nodes of the graph and the root, `compute` ends. -/
theorem walk_ends (root : Str) {fuel : ℕ} (hfuel : h.graph.nodes.length < fuel) :
    ∃ r, Visit.all (Visit.fold h.edges (h.digest sha256) [] fuel) (h.edges root) [root] = some r := by
  have hclosed : ∀ x ∈ root :: h.graph.nodes, ∀ y, Visit.Step h.edges x y → y ∈ root :: h.graph.nodes :=
    fun x _ y hy => List.mem_cons_of_mem _ (dependency_mem (step_iff.mp hy).1)
  exact Visit.ends hclosed List.mem_cons_self hfuel

end Hasher

/-! ## Two assignments of states to one graph -/

namespace Hasher

/-- The two reports name the same helpers. -/
def SameNames (r r' : Report) : Prop := (r.helperSourceHashes.map (·.1)).Perm (r'.helperSourceHashes.map (·.1))

/-- The two have one graph, and nodes of the same kinds with the same helper names; only the states may differ. -/
structure SameGraph (h h' : Hasher) (ownReport ownReport' : Option Report) : Prop where
  functions : h.functions = h'.functions
  dataSources : ∀ node, (h.dataSources node).isSome = (h'.dataSources node).isSome
  declared : ∀ node, (h.declaredDepSnapshots node).isSome = (h'.declaredDepSnapshots node).isSome
  graph : h.graph = h'.graph
  reached : ∀ node dep, Option.Rel Alike (h.reached node dep) (h'.reached node dep)
  reports : ∀ node, Option.Rel SameNames (h.purityReports node) (h'.purityReports node)
  ownReport : Option.Rel SameNames ownReport ownReport'

/-- No hash of a helper has a colon. -/
def Hexadecimal (h : Hasher) (ownReport : Option Report) : Prop :=
  ∀ r, (ownReport = some r ∨ ∃ node, h.purityReports node = some r) → ∀ qual, 58 ∉ h.helper r qual

/-- The two agree on the node: on its own part, on the functions it reaches in other instances, and on every helper but
one under its own name. -/
structure Agree (h h' : Hasher) (override override' : Option Str) (ownReport ownReport' : Option Report) (node : Str) :
    Prop where
  own : h.own override node = h'.own override' node
  reached : ∀ dep ∈ h.graph.getDependencies node, h.reached node dep = h'.reached node dep
  helpers : ∀ r r', h.report ownReport node = some r → h'.report ownReport' node = some r' →
    ∀ qual ∈ r.helperSourceHashes.map (·.1), qual ≠ node → h.helper r qual = h'.helper r' qual

variable {h h' : Hasher} {sha256 : Str → Str} {override override' : Option Str} {ownReport ownReport' : Option Report}

theorem SameGraph.reports_rel (same : SameGraph h h' ownReport ownReport') (node : Str) :
    Option.Rel SameNames (h.report ownReport node) (h'.report ownReport' node) := by
  have hown := same.ownReport
  have hnode := same.reports node
  cases hown with
  | none => exact hnode
  | some hnames => exact .some hnames

theorem SameGraph.below (same : SameGraph h h' ownReport ownReport') : SameGraph h h' none none :=
  ⟨same.functions, same.dataSources, same.declared, same.graph, same.reached, same.reports, .none⟩

theorem Hexadecimal.below (hex : Hexadecimal h ownReport) : Hexadecimal h none :=
  fun r hr => hex r (.inr (hr.resolve_left nofun))

theorem Hexadecimal.report {node qual : Str} {r : Report} (hex : Hexadecimal h ownReport)
    (hr : h.report ownReport node = some r) : 58 ∉ h.helper r qual := by
  cases ownReport with
  | none => exact hex r (.inr ⟨node, hr⟩) qual
  | some own => exact hex r (.inl hr) qual

/-! ### The own part -/

theorem own_length (override : Option Str) (node : Str) : (h.own override node).length ≤ 1 := by
  unfold own
  split
  · split <;> simp
  · split
    · simp
    · split <;> simp

theorem SameGraph.own_length (same : SameGraph h h' ownReport ownReport') (node : Str) :
    (h.own override node).length = (h'.own override' node).length := by
  have hsource := same.dataSources node
  have hdeclared := same.declared node
  unfold own
  rw [← same.functions]
  by_cases hfunction : h.functions node
  · rw [if_pos hfunction, if_pos hfunction]
    cases override <;> cases override' <;> rfl
  · rw [if_neg hfunction, if_neg hfunction]
    cases hs : h.dataSources node <;> cases hs' : h'.dataSources node <;> rw [hs, hs'] at hsource
    · cases hd : h.declaredDepSnapshots node <;> cases hd' : h'.declaredDepSnapshots node <;> rw [hd, hd'] at hdeclared
      · cases hdeclared
      · cases hdeclared
      · rfl
    · cases hsource
    · cases hsource
    · rfl

/-! ### The helpers -/

theorem helperNames_eq {r r' : Report} (hnames : SameNames r r') (node : Str) : helperNames r node = helperNames r' node := by
  have hsorted : (r.helperSourceHashes.map (·.1)).insertionSort (· ≤ ·) =
      (r'.helperSourceHashes.map (·.1)).insertionSort (· ≤ ·) := by
    apply List.Perm.eq_of_sortedLE List.sortedLE_insertionSort List.sortedLE_insertionSort
    exact (List.perm_insertionSort _ _).trans (hnames.trans (List.perm_insertionSort _ _).symm)
  rw [helperNames, hsorted, helperNames]

theorem mem_helperNames {r : Report} {node qual : Str} :
    qual ∈ helperNames r node ↔ qual ∈ r.helperSourceHashes.map (·.1) ∧ qual ≠ node := by
  rw [helperNames, List.mem_filter, List.mem_insertionSort, decide_eq_true_eq]

theorem helper_alike {a b : Str} (qual : Str) (ha : 58 ∉ a) (hb : 58 ∉ b) :
    Alike (str "helper:" ++ qual ++ 58 :: a) (str "helper:" ++ qual ++ 58 :: b) := by
  simp only [Alike, List.count_append, List.count_cons, List.count_eq_zero_of_not_mem ha, List.count_eq_zero_of_not_mem hb]

theorem helpers_alike (same : SameGraph h h' ownReport ownReport') (hex : Hexadecimal h ownReport)
    (hex' : Hexadecimal h' ownReport') (node : Str) :
    List.Forall₂ Alike (h.helpers ownReport node) (h'.helpers ownReport' node) := by
  have hreport := same.reports_rel node
  unfold helpers
  cases hr : h.report ownReport node <;> cases hr' : h'.report ownReport' node <;> rw [hr, hr'] at hreport
  · exact .nil
  · cases hreport
  · cases hreport
  · rename_i r r'
    cases hreport with
    | some hnames =>
        dsimp only
        rw [← helperNames_eq hnames, List.forall₂_map_left_iff, List.forall₂_map_right_iff, List.forall₂_same]
        exact fun qual _ => helper_alike qual (hex.report hr) (hex'.report hr')

theorem helpers_eq_iff (same : SameGraph h h' ownReport ownReport') (node : Str) :
    h.helpers ownReport node = h'.helpers ownReport' node ↔
      ∀ r r', h.report ownReport node = some r → h'.report ownReport' node = some r' →
        ∀ qual ∈ r.helperSourceHashes.map (·.1), qual ≠ node → h.helper r qual = h'.helper r' qual := by
  have hreport := same.reports_rel node
  unfold helpers
  cases hr : h.report ownReport node <;> cases hr' : h'.report ownReport' node <;> rw [hr, hr'] at hreport
  · simp
  · cases hreport
  · cases hreport
  · rename_i r r'
    cases hreport with
    | some hnames =>
        simp only [Option.some.injEq]
        rw [← helperNames_eq hnames, List.map_inj_left]
        constructor
        · rintro heq _ _ rfl rfl qual hqual hne
          have htext := heq qual (mem_helperNames.mpr ⟨hqual, hne⟩)
          exact (List.cons.inj (List.append_cancel_left htext)).2
        · intro hagree qual hqual
          obtain ⟨hmem, hne⟩ := mem_helperNames.mp hqual
          rw [hagree r r' rfl rfl qual hmem hne]

/-! ### The parts -/

theorem edges_alike (same : SameGraph h h' ownReport ownReport') (node : Str) :
    List.Forall₂ (Sum.LiftRel Eq Alike) (h.edges node) (h'.edges node) := by
  have hdeps : h'.sortedDependencies node = h.sortedDependencies node := by
    rw [sortedDependencies, ← same.graph, sortedDependencies]
  rw [edges, edges, hdeps, List.forall₂_map_left_iff, List.forall₂_map_right_iff, List.forall₂_same]
  intro dep _
  have hreached := same.reached node dep
  unfold edge
  cases hs : h.reached node dep <;> cases hs' : h'.reached node dep <;> rw [hs, hs'] at hreached
  · exact .inl rfl
  · cases hreached
  · cases hreached
  · cases hreached with
    | some hstate =>
        refine .inr ?_
        simp only [Alike, List.count_append] at hstate ⊢
        rw [hstate]

theorem edges_eq_iff (same : SameGraph h h' ownReport ownReport') (node : Str) :
    h.edges node = h'.edges node ↔ ∀ dep ∈ h.graph.getDependencies node, h.reached node dep = h'.reached node dep := by
  have hdeps : h'.sortedDependencies node = h.sortedDependencies node := by
    rw [sortedDependencies, ← same.graph, sortedDependencies]
  rw [edges, edges, hdeps, List.map_inj_left]
  refine forall_congr' fun dep => ?_
  rw [mem_sortedDependencies]
  refine imp_congr_right fun _ => ?_
  unfold edge
  cases h.reached node dep <;> cases h'.reached node dep <;> simp

/-- The root's own part taken from the override. -/
theorem text_eq_iff (same : SameGraph h h' ownReport ownReport') (hex : Hexadecimal h ownReport)
    (hex' : Hexadecimal h' ownReport') (node : Str) {states states' : List Str} (hstates : List.Forall₂ Alike states states') :
    h.text override ownReport node states = h'.text override' ownReport' node states' ↔
      h.own override node = h'.own override' node ∧ states = states' ∧
        h.helpers ownReport node = h'.helpers ownReport' node := by
  have hhelpers := helpers_alike same hex hex' node
  rw [text, text, List.append_assoc, List.append_assoc,
    join_own (same.own_length node) (own_length override node) (List.rel_append hstates hhelpers)]
  refine and_congr_right fun _ => ⟨fun heq => ?_, fun ⟨hs, hh⟩ => by rw [hs, hh]⟩
  exact List.append_inj heq hstates.length_eq

end Hasher

/-! ## The state hash sees every dependency that can be reached -/

namespace Hasher

variable {h h' : Hasher} {sha256 : Str → Str} {ownReport ownReport' : Option Report}

/-- What the caller passed for the root. -/
def atRoot {α : Type} (root node : Str) (given : Option α) : Option α := if node = root then given else none

/-- What is made of a node below the root tells its dependencies' states and all that the node's own text is made of. -/
theorem digest_eq_iff (hinjective : Function.Injective sha256) (hhex : ∀ s, 58 ∉ sha256 s) (same : SameGraph h h' none none)
    (hex : Hexadecimal h none) (hex' : Hexadecimal h' none) (node : Str) {states states' : List Str}
    (hstates : List.Forall₂ Alike states states') :
    Alike (h.digest sha256 node states) (h'.digest sha256 node states') ∧
      (h.digest sha256 node states = h'.digest sha256 node states' ↔
        states = states' ∧ h.own none node = h'.own none node ∧ h.helpers none node = h'.helpers none node) := by
  constructor
  · rw [Alike, digest, digest, List.count_eq_zero_of_not_mem (hhex _), List.count_eq_zero_of_not_mem (hhex _)]
  · rw [digest, digest, hinjective.eq_iff, text_eq_iff same hex hex' node hstates]
    exact and_left_comm

/-- `compute` ends on every graph, expands each node that is reached once, and gives the same for two assignments of
states if and only if they agree on every node reached. -/
theorem compute_eq_iff (hinjective : Function.Injective sha256) (hhex : ∀ s, 58 ∉ sha256 s)
    (same : SameGraph h h' ownReport ownReport') (hex : Hexadecimal h ownReport) (hex' : Hexadecimal h' ownReport')
    (root : Str) (override override' : Option Str) {fuel : ℕ} (hfuel : h.graph.nodes.length + 1 < fuel) :
    ∃ state state' visited, h.compute sha256 fuel root [] override ownReport = some (state, visited) ∧
      h'.compute sha256 fuel root [] override' ownReport' = some (state', visited) ∧
      visited.Nodup ∧ (∀ node, node ∈ visited ↔ h.Reaches root node) ∧
      (state = state' ↔ ∀ node, h.Reaches root node →
        Agree h h' (atRoot root node override) (atRoot root node override') (atRoot root node ownReport)
          (atRoot root node ownReport') node) := by
  obtain ⟨fuel, rfl⟩ : ∃ n, fuel = n + 1 := ⟨fuel - 1, by omega⟩
  have hdepth : h.graph.nodes.length < fuel := by omega
  obtain ⟨⟨states, visited⟩, hwalk⟩ := @walk_ends h sha256 root fuel hdepth
  obtain ⟨⟨states', visited'⟩, hwalk'⟩ := @walk_ends h' sha256 root fuel (same.graph ▸ hdepth)
  obtain ⟨hnodup, hreached⟩ := Visit.all_reached hwalk
  obtain ⟨hvisited, hstates, hiff⟩ := Visit.all_eq_iff (edges_alike same) rfl
    (fun node states states' => digest_eq_iff hinjective hhex same.below hex.below hex'.below node) hwalk hwalk'
  subst hvisited
  have hmem : ∀ node, node ∈ visited ↔ h.Reaches root node := fun node => (hreached node).trans reaches_iff
  refine ⟨_, _, visited, by rw [compute_root, hwalk]; rfl, by rw [compute_root, hwalk']; rfl, hnodup, hmem, ?_⟩
  rw [hinjective.eq_iff, text_eq_iff same hex hex' root hstates, hiff]
  constructor
  · rintro ⟨hown, ⟨hedges, hrest⟩, hhelpers⟩ node hnode
    by_cases hroot : node = root
    · subst hroot
      simp only [atRoot, if_true]
      exact ⟨hown, (edges_eq_iff same node).mp hedges, (helpers_eq_iff same node).mp hhelpers⟩
    · simp only [atRoot, if_neg hroot]
      obtain ⟨hedges, hown, hhelpers⟩ := hrest node ((hmem node).mpr hnode) hroot
      exact ⟨hown, (edges_eq_iff same node).mp hedges, (helpers_eq_iff same.below node).mp hhelpers⟩
  · intro hagree
    have hroot := hagree root .refl
    simp only [atRoot, if_true] at hroot
    refine ⟨hroot.own, ⟨(edges_eq_iff same root).mpr hroot.reached, fun node hnode hne => ?_⟩,
      (helpers_eq_iff same root).mpr hroot.helpers⟩
    have hbelow := hagree node ((hmem node).mp hnode)
    simp only [atRoot, if_neg hne] at hbelow
    exact ⟨(edges_eq_iff same node).mpr hbelow.reached, hbelow.own, (helpers_eq_iff same.below node).mpr hbelow.helpers⟩

/-! ### A helper under the node's own name -/

/-- One function, with a helper of the hash under the function's own name. -/
def recursive (hash : Str) : Hasher where
  functions := fun name => name == str "f"
  sourceHashes := fun _ => some (str "aa")
  dataSources := fun _ => none
  declaredDepSnapshots := fun _ => none
  declaredDepResolver := none
  purityReports := fun name => if name = str "f" then some ⟨[(str "f", hash)]⟩ else none
  currentHashes := fun _ _ => none
  graph := ⟨[(str "f", [str "f"])]⟩
  reachedCallee := none

/-- A digest without a colon that tells every text. -/
def shifted (s : Str) : Str := s.map (· + 59)

theorem shifted_injective : Function.Injective shifted :=
  List.map_injective_iff.mpr fun _ _ hab => Nat.add_right_cancel hab

theorem shifted_hex (s : Str) : 58 ∉ shifted s := by
  rw [shifted, List.mem_map]
  rintro ⟨c, -, hc⟩
  omega

theorem recursive_same (hash hash' : Str) : SameGraph (recursive hash) (recursive hash') none none := by
  refine ⟨rfl, fun _ => rfl, fun _ => rfl, rfl, fun _ _ => .none, fun node => ?_, .none⟩
  dsimp only [recursive]
  split
  · exact .some (List.Perm.refl _)
  · exact .none

theorem recursive_hex {hash : Str} (hhash : 58 ∉ hash) : Hexadecimal (recursive hash) none := by
  rintro r (h | ⟨node, h⟩) qual
  · cases h
  · dsimp only [recursive] at h
    split at h
    · cases h
      by_cases hqual : qual = str "f"
      · subst hqual
        exact hhash
      · have hnone : List.lookup qual [(str "f", hash)] = none := by
          rw [List.lookup_eq_none_iff]
          simpa using hqual
        simp only [helper, recursive, Option.getD_none, hnone, List.not_mem_nil, not_false_eq_true]
    · cases h

/-- The hash of a helper under the node's own name is not folded: two assignments that differ there come to the same. -/
theorem own_name_skipped :
    (recursive (str "bb")).helper ⟨[(str "f", str "bb")]⟩ (str "f") ≠ (recursive (str "cc")).helper ⟨[(str "f", str "cc")]⟩ (str "f") ∧
      SameGraph (recursive (str "bb")) (recursive (str "cc")) none none ∧
      Hexadecimal (recursive (str "bb")) none ∧ Hexadecimal (recursive (str "cc")) none ∧
      ∃ state, (recursive (str "bb")).compute shifted 9 (str "f") [] none none = some (state, [str "f"]) ∧
        (recursive (str "cc")).compute shifted 9 (str "f") [] none none = some (state, [str "f"]) :=
  ⟨by decide, recursive_same _ _, recursive_hex (by decide), recursive_hex (by decide), _, rfl, rfl⟩

/-- `f` reads `a` and `b`, which both read `d`, and `d` reads `f`. -/
def diamond (source : Str) : Hasher where
  functions := fun _ => true
  sourceHashes := fun name => some (if name = str "d" then source else str "aa")
  dataSources := fun _ => none
  declaredDepSnapshots := fun _ => none
  declaredDepResolver := none
  purityReports := fun _ => none
  currentHashes := fun _ _ => none
  graph := ⟨[(str "f", [str "b", str "a"]), (str "a", [str "d"]), (str "b", [str "d"]), (str "d", [str "f"])]⟩
  reachedCallee := none

theorem diamond_same (source source' : Str) : SameGraph (diamond source) (diamond source') none none :=
  ⟨rfl, fun _ => rfl, fun _ => rfl, rfl, fun _ _ => .none, fun _ => .none, .none⟩

theorem diamond_hex (source : Str) : Hexadecimal (diamond source) none := by
  rintro r (h | ⟨node, h⟩)
  · cases h
  · cases h

/-- An edit of what two others read. -/
theorem compute_eq_iff_diamond :
    ∃ state state' visited, (diamond (str "bb")).compute shifted 11 (str "f") [] none none = some (state, visited) ∧
      (diamond (str "cc")).compute shifted 11 (str "f") [] none none = some (state', visited) ∧
      visited.Nodup ∧ (∀ node, node ∈ visited ↔ (diamond (str "bb")).Reaches (str "f") node) ∧
      (state = state' ↔ ∀ node, (diamond (str "bb")).Reaches (str "f") node →
        Agree (diamond (str "bb")) (diamond (str "cc")) (atRoot (str "f") node none) (atRoot (str "f") node none)
          (atRoot (str "f") node none) (atRoot (str "f") node none) node) :=
  compute_eq_iff shifted_injective shifted_hex (diamond_same _ _) (diamond_hex _) (diamond_hex _) (str "f") _ _ (by decide)

end Hasher

end Cash.Dependency
