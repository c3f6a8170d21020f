import Cash.Edges.Bump
import Cash.Edges.Lemmas.Bump
import Mathlib.Data.Option.Basic
import Cash.Edges.Lemmas.Record

/-!
# Names that share an object
-/

namespace Cash.Edges

open Py

/-!
## Broken names and their components

A turn puts all that its root reaches in, or takes all of it out. What a root that is stuck reaches is out for good,
unless a name that is gone brings it back.
-/

namespace Notebook

open Relation (ReflTransGen)

variable {nb : Notebook} {broken : OrderedSet Str} {root x y : Str}

/-! ### Groups -/

theorem mem_getD {src target : Str} : target ∈ Dict.getD nb.edges src .empty ↔ nb.edges.Edge src target := by
  rw [EdgeMap.Edge, Dict.getD]
  cases nb.edges.lookup src with
  | none => simp
  | some targets => simp

theorem mem_sharedObjectPartners {var name : Str} :
    name ∈ sharedObjectPartners nb.edges var ↔ nb.Partner var name := by
  rw [sharedObjectPartners, OrderedSet.mem_discard, OrderedSet.mem_update, OrderedSet.mem_update, Partner, and_comm,
    ne_comm]
  refine and_congr_right fun _ => or_congr ?_ ?_
  · rw [or_iff_right (OrderedSet.not_mem_empty _), ← OrderedSet.mem_iff, mem_getD]
  · rw [List.mem_filter, decide_eq_true_eq, mem_getD, and_iff_right_iff_imp]
    exact mem_of_edge

theorem mem_partners {a b : Str} : b ∈ nb.partners a ↔ nb.Partner a b ∧ nb.live b = true := by
  rw [partners, List.mem_filter, ← OrderedSet.mem_iff, mem_sharedObjectPartners]

theorem mem_names {a b : Str} (h : nb.Partner a b) : b ∈ nb.edges.names := by
  rw [EdgeMap.names, List.mem_append, List.mem_flatMap]
  rcases h.2 with h | h
  · exact .inr ⟨a, mem_of_edge h, mem_getD.mpr h⟩
  · exact .inl (mem_of_edge h)

theorem mem_group : x ∈ nb.group root ↔ nb.Reaches root x := by
  rw [group, OrderedSet.mem_grow fun a b hb => mem_names (mem_partners.mp hb).1, Reaches]
  simp only [mem_partners]

/-! ### Components -/

theorem Partner.symm {a b : Str} (h : nb.Partner a b) : nb.Partner b a := ⟨h.1.symm, h.2.symm⟩

theorem Reaches.live (h : nb.Reaches x y) : y = x ∨ nb.live y = true := by
  cases h with
  | refl => exact .inl rfl
  | tail _ hb => exact .inr hb.2

/-- What a live name reaches reaches it. -/
theorem Reaches.symm (hx : nb.live x = true) (h : nb.Reaches x y) : nb.Reaches y x := by
  induction h with
  | refl => exact .refl
  | @tail b c hxb hbc ih =>
      have hb : nb.live b = true := by
        rcases Reaches.live hxb with rfl | hb
        · exact hx
        · exact hb
      exact .head ⟨hbc.1.symm, hb⟩ ih

/-- What a root reaches is reached by all that reaches a live part of it. -/
theorem Reaches.via {other : Str} (hroot : nb.live root = true) (h : nb.Reaches root x) (ho : nb.Reaches other x) :
    nb.Reaches other root := ReflTransGen.trans ho (h.symm hroot)

/-! ### A turn -/

theorem turn_of_not_mem (h : root ∉ broken) : nb.turn broken root = broken := by rw [turn, if_pos h]

theorem mem_turn (h : root ∈ broken) :
    (nb.Stuck broken root → (x ∈ nb.turn broken root ↔ x ∈ broken ∧ ¬nb.Reaches root x)) ∧
      (¬nb.Stuck broken root → (x ∈ nb.turn broken root ↔ x ∈ broken ∨ nb.Reaches root x)) := by
  have hadded : ∀ name, name ∈ (nb.group root).items.filter (· ∉ broken) ↔ nb.Reaches root name ∧ name ∉ broken := by
    intro name
    rw [List.mem_filter, ← OrderedSet.mem_iff, mem_group, decide_eq_true_eq]
  have hany : ((nb.group root).items.filter (· ∉ broken)).any nb.isOrphan = true ↔ nb.Stuck broken root := by
    rw [List.any_eq_true, Stuck]
    exact exists_congr fun name => by rw [hadded, and_assoc]
  rw [turn, if_neg (not_not.mpr h)]
  simp only []
  constructor
  · intro hstuck
    have hsome : (nb.group root).items.filter (· ∉ broken) ≠ [] := by
      obtain ⟨orphan, hreach, hnot, _⟩ := hstuck
      exact List.ne_nil_of_mem ((hadded orphan).mpr ⟨hreach, hnot⟩)
    rw [if_neg hsome, if_pos (hany.mpr hstuck), without, OrderedSet.mem_iff, List.mem_filter, ← OrderedSet.mem_iff,
      decide_eq_true_eq, mem_group]
  · intro hfree
    split
    · rename_i hnone
      constructor
      · exact .inl
      · rintro (hx | hx)
        · exact hx
        · by_contra hnot
          have hmem := (hadded x).mpr ⟨hx, hnot⟩
          rw [hnone] at hmem
          cases hmem
    · rw [if_neg fun h => hfree (hany.mp h), OrderedSet.mem_update, hadded]
      tauto

/-! ### Whatever the order -/

/-- Everything broken is reached from a name that was. -/
theorem reached_of_rebuildInOrder {roots : List Str} {initial : OrderedSet Str}
    (h : ∀ x ∈ broken, ∃ root ∈ initial, nb.Reaches root x) :
    ∀ x ∈ nb.rebuildInOrder roots broken, ∃ root ∈ initial, nb.Reaches root x := by
  induction roots generalizing broken with
  | nil => exact h
  | cons root roots ih =>
      refine ih ?_
      intro x hx
      by_cases hroot : root ∈ broken
      · by_cases hstuck : nb.Stuck broken root
        · exact h x (((mem_turn hroot).1 hstuck).mp hx).1
        · rcases ((mem_turn hroot).2 hstuck).mp hx with hx | hx
          · exact h x hx
          · obtain ⟨first, hfirst, hreach⟩ := h root hroot
            exact ⟨first, hfirst, ReflTransGen.trans hreach hx⟩
      · rw [turn_of_not_mem hroot] at hx
        exact h x hx

/-- A live name and what it reaches are all broken or none, or no turn has come to them. -/
def Whole (nb : Notebook) (initial : OrderedSet Str) (todo : List Str) (broken : OrderedSet Str) : Prop :=
  ∀ x, nb.live x = true → (∀ y, nb.Reaches x y → (y ∈ broken ↔ x ∈ broken)) ∨
    ∀ y, nb.Reaches x y → (y ∈ broken ↔ y ∈ initial) ∧ (y ∈ initial → y ∈ todo)

theorem Whole.turn {initial : OrderedSet Str} {todo : List Str} (hroot : root ∈ initial)
    (h : nb.Whole initial (root :: todo) broken) : nb.Whole initial todo (nb.turn broken root) := by
  intro x hx
  by_cases hmem : root ∈ broken
  · by_cases hreach : nb.Reaches root x
    · refine .inl ?_
      intro y hy
      have hry := ReflTransGen.trans hreach hy
      by_cases hstuck : nb.Stuck broken root
      · rw [(mem_turn hmem).1 hstuck, (mem_turn hmem).1 hstuck]
        exact iff_of_false (fun h => h.2 hry) fun h => h.2 hreach
      · rw [(mem_turn hmem).2 hstuck, (mem_turn hmem).2 hstuck]
        exact iff_of_true (.inr hry) (.inr hreach)
    · -- The turn does not come near `x`.
      have hfar : ∀ y, nb.Reaches x y → ¬nb.Reaches root y := fun y hy hry => hreach (Reaches.via hx hy hry)
      have hsame : ∀ y, nb.Reaches x y → (y ∈ nb.turn broken root ↔ y ∈ broken) := by
        intro y hy
        by_cases hstuck : nb.Stuck broken root
        · rw [(mem_turn hmem).1 hstuck, and_iff_left (hfar y hy)]
        · rw [(mem_turn hmem).2 hstuck, or_iff_left (hfar y hy)]
      refine (h x hx).imp ?_ ?_
      · intro h y hy
        rw [hsame y hy, hsame x .refl, h y hy]
      · intro h y hy
        rw [hsame y hy]
        refine ⟨(h y hy).1, fun hin => ?_⟩
        rcases List.mem_cons.mp ((h y hy).2 hin) with rfl | htodo
        · exact absurd .refl (hfar y hy)
        · exact htodo
  · rw [turn_of_not_mem hmem]
    refine (h x hx).imp id ?_
    intro h y hy
    refine ⟨(h y hy).1, fun hin => ?_⟩
    rcases List.mem_cons.mp ((h y hy).2 hin) with rfl | htodo
    · exact absurd ((h y hy).1.mpr hroot) hmem
    · exact htodo

theorem Whole.rebuildInOrder {initial : OrderedSet Str} {roots : List Str} (hroots : ∀ root ∈ roots, root ∈ initial)
    (h : nb.Whole initial roots broken) : nb.Whole initial [] (nb.rebuildInOrder roots broken) := by
  induction roots generalizing broken with
  | nil => exact h
  | cons root roots ih =>
      exact ih (fun r hr => hroots r (List.mem_cons_of_mem _ hr)) (h.turn (hroots root List.mem_cons_self))

/-- With a turn for each, a live name is broken with what it reaches. -/
theorem closed_rebuildInOrder {roots : List Str} (hroots : ∀ root, root ∈ roots ↔ root ∈ broken)
    (hx : nb.live x = true) (hbroken : x ∈ nb.rebuildInOrder roots broken) (hreach : nb.Reaches x y) :
    y ∈ nb.rebuildInOrder roots broken := by
  have hstart : nb.Whole broken roots broken := fun x _ => .inr fun y _ => ⟨Iff.rfl, (hroots y).mpr⟩
  have hwhole := hstart.rebuildInOrder fun root hroot => (hroots root).mp hroot
  rcases hwhole x hx with h | h
  · exact (h y hreach).mpr hbroken
  · exact absurd ((h x .refl).2 ((h x .refl).1.mp hbroken)) List.not_mem_nil

/-! ### Apart -/

/-- What is broken after some turns: what their roots reach, and none of the stuck ones. -/
def Settled (nb : Notebook) (initial : OrderedSet Str) (done : List Str) (broken : OrderedSet Str) : Prop :=
  ∀ x, x ∈ broken ↔ (x ∈ initial ∨ ∃ root ∈ done, nb.Reaches root x) ∧
    ∀ other ∈ done, nb.Stuck initial other → ¬nb.Reaches other x

/-- No stuck name that had its turn reaches what a root that is broken reaches, unless it is stuck itself. -/
theorem Settled.not_reached {initial : OrderedSet Str} {done : List Str} (h : nb.Settled initial done broken)
    (hapart : nb.Apart initial) (hdone : ∀ other ∈ done, other ∈ initial) (hroot : root ∈ initial) (hmem : root ∈ broken)
    (hfree : ¬nb.Stuck initial root) (hreach : nb.Reaches root x) :
    ∀ other ∈ done, nb.Stuck initial other → ¬nb.Reaches other x := by
  intro other hother hstuck hox
  have hnot := ((h root).mp hmem).2 other hother hstuck
  rcases hreach.live with rfl | hx
  · exact hnot hox
  · cases hlive : nb.live root with
    | true => exact hnot (Reaches.via hlive hreach hox)
    | false => exact hapart root hroot hlive hfree other (hdone other hother) hstuck x hx hreach hox

theorem Settled.turn {initial : OrderedSet Str} {done : List Str} (h : nb.Settled initial done broken)
    (hapart : nb.Apart initial) (hdone : ∀ other ∈ done, other ∈ initial) (hroot : root ∈ initial) :
    nb.Settled initial (root :: done) (nb.turn broken root) := by
  intro x
  simp only [List.exists_mem_cons_iff, List.forall_mem_cons]
  by_cases hmem : root ∈ broken
  · by_cases hinitial : nb.Stuck initial root
    · have hstuck : nb.Stuck broken root := by
        obtain ⟨orphan, hreach, hnot, horphan⟩ := hinitial
        refine ⟨orphan, hreach, ?_, horphan⟩
        intro hin
        obtain ⟨hfrom, hfree⟩ := (h orphan).mp hin
        obtain ⟨first, hfirst, hfr⟩ := hfrom.resolve_left hnot
        exact hfree first hfirst ⟨orphan, hfr, hnot, horphan⟩ hfr
      rw [(mem_turn hmem).1 hstuck, h x]
      tauto
    · have hclear : ∀ y, nb.Reaches root y → ∀ other ∈ done, nb.Stuck initial other → ¬nb.Reaches other y :=
        fun y hy => h.not_reached hapart hdone hroot hmem hinitial hy
      have hstuck : ¬nb.Stuck broken root := by
        rintro ⟨orphan, hreach, hnot, horphan⟩
        refine hinitial ⟨orphan, hreach, ?_, horphan⟩
        intro hin
        exact hnot ((h orphan).mpr ⟨.inl hin, hclear orphan hreach⟩)
      rw [(mem_turn hmem).2 hstuck, h x]
      by_cases hreach : nb.Reaches root x
      · exact iff_of_true (.inr hreach) ⟨.inr (.inl hreach), fun h => absurd h hinitial, hclear x hreach⟩
      · simp only [hreach, or_false, false_or, not_false_eq_true, implies_true, true_and]
  · rw [turn_of_not_mem hmem, h x]
    -- A stuck name that had its turn reaches the root.
    have hout : ∃ other ∈ done, nb.Stuck initial other ∧ nb.Reaches other root := by
      by_contra hnone
      push Not at hnone
      exact hmem ((h root).mpr ⟨.inl hroot, hnone⟩)
    obtain ⟨other, hother, hstuck, hreach⟩ := hout
    have hx : nb.Reaches root x → nb.Reaches other x := fun hx => ReflTransGen.trans hreach hx
    constructor
    · rintro ⟨hfrom, hclear⟩
      exact ⟨hfrom.imp id .inr, fun _ hx' => hclear other hother hstuck (hx hx'), hclear⟩
    · rintro ⟨hfrom, _, hclear⟩
      refine ⟨?_, hclear⟩
      rcases hfrom with hin | hrx | hdone
      · exact .inl hin
      · exact absurd (hx hrx) (hclear other hother hstuck)
      · exact .inr hdone

theorem Settled.rebuildInOrder {initial : OrderedSet Str} {done roots : List Str} (h : nb.Settled initial done broken)
    (hapart : nb.Apart initial) (hdone : ∀ other ∈ done, other ∈ initial) (hroots : ∀ root ∈ roots, root ∈ initial) :
    nb.Settled initial (roots.reverse ++ done) (nb.rebuildInOrder roots broken) := by
  induction roots generalizing done broken with
  | nil => exact h
  | cons root roots ih =>
      have hroot := hroots root List.mem_cons_self
      rw [List.reverse_cons, List.append_assoc, List.singleton_append]
      refine ih (h.turn hapart hdone hroot) ?_ fun r hr => hroots r (List.mem_cons_of_mem _ hr)
      intro other hother
      rcases List.mem_cons.mp hother with rfl | hother
      · exact hroot
      · exact hdone other hother

/-- What is broken in the end, whatever the order. -/
theorem mem_rebuildInOrder {roots : List Str} (hapart : nb.Apart broken) (hroots : ∀ root, root ∈ roots ↔ root ∈ broken) :
    x ∈ nb.rebuildInOrder roots broken ↔
      (∃ root ∈ broken, nb.Reaches root x) ∧ ∀ other ∈ broken, nb.Stuck broken other → ¬nb.Reaches other x := by
  have hstart : nb.Settled broken [] broken := by
    intro x
    simp
  have hsettled := hstart.rebuildInOrder hapart (fun _ h => by cases h) fun root hroot => (hroots root).mp hroot
  rw [hsettled x, List.append_nil]
  simp only [List.mem_reverse, hroots]
  refine and_congr_left fun _ => ?_
  constructor
  · rintro (hx | hx)
    · exact ⟨x, hx, .refl⟩
    · exact hx
  · exact .inr

end Notebook

/-!
## The order of sets and dicts does not matter

Names are sorted wherever they are walked, and asked for otherwise, so two walks of the same sets and dicts take the
same turns.
-/

section

variable {sha256 : Str → Str} {edges edges' : EdgeMap} {c c' : Change} {lineages lineages' : Dict Str Str}
  {w w' : Walk}

/-! ### What is asked and what is sorted -/

theorem sorted_eq {names names' : List Str} (h : names.Perm names') : sorted names = sorted names' := by
  apply List.Perm.eq_of_sortedLE List.sortedLE_insertionSort List.sortedLE_insertionSort
  exact (List.perm_insertionSort _ _).trans (h.trans (List.perm_insertionSort _ _).symm)

theorem SameElements.perm {names names' : OrderedSet Str} (h : SameElements names names') :
    names.items.Perm names'.items := (List.perm_ext_iff_of_nodup names.nodup names'.nodup).mpr h

/-- What is picked out of the same set, sorted. -/
theorem SameElements.sorted_filter {names names' : OrderedSet Str} (h : SameElements names names') {p p' : Str → Bool}
    (hp : ∀ name, p name = p' name) : sorted (names.items.filter p) = sorted (names'.items.filter p') := by
  rw [show p = p' from funext hp]
  exact sorted_eq (h.perm.filter p')

theorem EdgeMap.Same.getD (h : edges.Same edges') (src : Str) :
    SameElements (Dict.getD edges src .empty) (Dict.getD edges' src .empty) := by
  have hsrc := h src
  unfold Dict.getD
  generalize edges.lookup src = targets at hsrc ⊢
  generalize edges'.lookup src = targets' at hsrc ⊢
  cases hsrc with
  | some hsame => exact hsame
  | none => exact fun _ => Iff.rfl

theorem EdgeMap.Same.mem (h : edges.Same edges') (src : Str) : src ∈ edges ↔ src ∈ edges' := by
  rw [Dict.mem_iff_lookup, Dict.mem_iff_lookup]
  have hsrc := h src
  generalize edges.lookup src = targets at hsrc ⊢
  generalize edges'.lookup src = targets' at hsrc ⊢
  cases hsrc with
  | some hsame => simp
  | none => rfl

theorem EdgeMap.Same.targets (h : edges.Same edges') (src : Str) : edges.targets src = edges'.targets src :=
  sorted_eq (h.getD src).perm

theorem Change.Same.seeds (h : c.Same c') (hedges : edges.Same edges') : c.seeds edges = c'.seeds edges' := by
  unfold Change.seeds
  have hread : ∀ name, decide (name ∈ edges ∧ name ∈ c.inputs) = decide (name ∈ edges' ∧ name ∈ c'.inputs) := by
    intro name
    rw [decide_eq_decide, hedges.mem, h.inputs name]
  have hunread : ∀ name, decide (name ∈ edges ∧ name ∉ c.inputs) = decide (name ∈ edges' ∧ name ∉ c'.inputs) := by
    intro name
    rw [decide_eq_decide, hedges.mem, h.inputs name]
  rw [h.outputs.sorted_filter hread, h.outputs.sorted_filter hunread, h.code]

theorem EdgeMap.Same.linkedBefore (h : edges.Same edges') (src target : Str) :
    Edges.linkedBefore edges src target = Edges.linkedBefore edges' src target := by
  rw [Edges.linkedBefore, Edges.linkedBefore, decide_eq_decide.mpr (h.getD src target), decide_eq_decide.mpr (h.getD target src)]

theorem Change.Same.bumps (h : c.Same c') (src target : Str) : c.bumps src target = c'.bumps src target := by
  have hcreation : c.isCreation src target = c'.isCreation src target := by
    unfold Change.isCreation
    have hbefore := h.before
    generalize c.before = before at hbefore ⊢
    generalize c'.before = before' at hbefore ⊢
    cases hbefore with
    | some hsame => simp only [hsame.linkedBefore, decide_eq_decide.mpr (h.inputs target)]
    | none => rfl
  rw [Change.bumps, Change.bumps, hcreation, decide_eq_decide.mpr (h.outputs target), decide_eq_decide.mpr (h.kept target),
    h.present]

/-! ### Two walks -/

/-- The walks are where the other is. -/
structure Walk.Same (w w' : Walk) : Prop where
  frontier : w.frontier = w'.frontier
  visited : w.visited = w'.visited
  lineages : ∀ name, w.lineages.lookup name = w'.lineages.lookup name
  bumped : w.bumped = w'.bumped
  records : w.records = w'.records

theorem Walk.Same.bump (hedges : edges.Same edges') (hc : c.Same c') (src srcLineage target : Str) (h : w.Same w') :
    (w.bump sha256 edges c src srcLineage target).Same (w'.bump sha256 edges' c' src srcLineage target) := by
  have hold : w.lineages.getD target [] = w'.lineages.getD target [] := congrArg (Option.getD · []) (h.lineages target)
  unfold Walk.bump
  simp only [hold, hc.bumps]
  split
  · exact h
  split
  · exact h
  constructor
  · simp only [h.frontier, h.visited, (hc.skip target).not, hedges.mem target]
  · exact h.visited
  · intro name
    simp only [Dict.lookup_insert', h.lineages]
  · simp only [h.bumped]
  · simp only [h.records]

theorem Walk.Same.step (hedges : edges.Same edges') (hc : c.Same c') (h : w.Same w') :
    (w.step sha256 edges c).Same (w'.step sha256 edges' c') := by
  have hfoldl : ∀ (src srcLineage : Str) (targets : List Str) {w w' : Walk}, w.Same w' →
      (targets.foldl (Walk.bump sha256 edges c src srcLineage) w).Same
        (targets.foldl (Walk.bump sha256 edges' c' src srcLineage) w') := by
    intro src srcLineage targets
    induction targets with
    | nil => exact fun h => h
    | cons target targets ih => exact fun h => ih (h.bump hedges hc src srcLineage target)
  unfold Walk.step
  rw [← h.frontier]
  split
  · exact h
  · rename_i src frontier _
    rw [← h.visited]
    split
    · exact ⟨rfl, rfl, h.lineages, h.bumped, h.records⟩
    · simp only [← h.lineages src]
      split
      · exact ⟨rfl, by rw [h.visited], h.lineages, h.bumped, h.records⟩
      · rw [hedges.targets]
        exact hfoldl _ _ _ ⟨rfl, by rw [h.visited], h.lineages, h.bumped, h.records⟩

theorem Walk.Same.iterate (hedges : edges.Same edges') (hc : c.Same c') (n : Nat) (h : w.Same w') :
    ((Walk.step sha256 edges c)^[n] w).Same ((Walk.step sha256 edges' c')^[n] w') := by
  induction n generalizing w w' with
  | zero => exact h
  | succ n ih => exact ih (h.step hedges hc)

/-- The loop does nothing more at its end. -/
theorem iterate_of_le {n : Nat} (hn : (c.start edges lineages).size edges ≤ n) :
    (Walk.step sha256 edges c)^[n] (c.start edges lineages) = bumpDerivedLineages sha256 edges c lineages := by
  obtain ⟨k, rfl⟩ := Nat.exists_eq_add_of_le' hn
  rw [Function.iterate_add_apply, ← bumpDerivedLineages]
  exact Function.iterate_fixed (Walk.step_end (frontier_iterate (Nat.le_refl _))) k

theorem bumpDerivedLineages_same (sha256 : Str → Str) (hedges : edges.Same edges') (hc : c.Same c')
    (hlineages : ∀ name, lineages.lookup name = lineages'.lookup name) :
    (bumpDerivedLineages sha256 edges c lineages).Same (bumpDerivedLineages sha256 edges' c' lineages') := by
  have hstart : (c.start edges lineages).Same (c'.start edges' lineages') :=
    ⟨congrArg List.reverse (hc.seeds hedges), rfl, hlineages, rfl, rfl⟩
  rw [← iterate_of_le (Nat.le_max_left _ ((c'.start edges' lineages').size edges')),
    ← iterate_of_le (Nat.le_max_right ((c.start edges lineages).size edges) _)]
  exact hstart.iterate hedges hc _

end

/-! ## A replayed record loses no sharing -/

section

/-- The run links `a` to `b`. -/
def LinkedBy (calls : List Call) (a b : Str) : Prop :=
  ∃ src dst ne, Op.link src dst ne ∈ Call.allOps calls ∧ src.1 = a ∧ dst.1 = b

variable {s : Session} {calls : List Call} {rebound : List Name} {record : List (Str × Str)} {a b : Str}

/-- A pair of the record that is not marked is an edge the run linked. -/
theorem linkedBy_of_mem (h : (a, b) ∈ (Call.allOps calls).filterMap Op.pair) (ha : startsUnlinked a = false) :
    LinkedBy calls a b := by
  obtain ⟨o, ho, hpair⟩ := List.mem_filterMap.mp h
  cases o with
  | link src dst ne =>
      cases hpair
      exact ⟨src, dst, ne, ho, rfl, rfl⟩
  | unlink x y =>
      cases hpair
      rw [startsUnlinked_mark] at ha
      cases ha
  | clear var => cases hpair

/-- A pair of the record that is marked is one the run unlinked. -/
theorem unlink_of_mem {p : Str × Str} (h : p ∈ (Call.allOps calls).filterMap Op.pair)
    (hp : startsUnlinked p.1 = true) :
    ∃ x y : Name, Op.unlink x y ∈ Call.allOps calls ∧ afterUnlinked p.1 = x.1 ∧ p.2 = y.1 := by
  obtain ⟨o, ho, hpair⟩ := List.mem_filterMap.mp h
  cases o with
  | link src dst ne =>
      cases hpair
      rw [src.2] at hp
      cases hp
  | unlink x y =>
      cases hpair
      exact ⟨x, y, ho, afterUnlinked_mark _, rfl⟩
  | clear var => cases hpair

theorem mem_of_linkedBy (h : LinkedBy calls a b) :
    (a, b) ∈ (Call.allOps calls).filterMap Op.pair ∧ startsUnlinked a = false ∧ startsUnlinked b = false ∧ a ≠ b := by
  obtain ⟨src, dst, ne, hmem, rfl, rfl⟩ := h
  exact ⟨List.mem_filterMap.mpr ⟨_, hmem, rfl⟩, src.2, dst.2, fun heq => ne (Subtype.ext heq)⟩

/-- An edge the run linked is not dropped by the replay, whichever way round it was unlinked. -/
theorem not_unlinks_of_linkedBy (hrecord : ∀ pair, pair ∈ record ↔ pair ∈ (Call.allOps calls).filterMap Op.pair)
    (h : LinkedBy calls a b) : ¬ Unlinks (linkedPairs record) record a b := by
  obtain ⟨hmem, ha, hb, _⟩ := mem_of_linkedBy h
  rintro ⟨p, _, _, hnot, ⟨hx, hy⟩ | ⟨hx, hy⟩⟩
  · apply hnot
    rw [← hx, ← hy, mem_linkedPairs]
    exact .inl ⟨(hrecord _).mpr hmem, ha⟩
  · apply hnot
    rw [← hx, ← hy, mem_linkedPairs]
    exact .inr ⟨(hrecord _).mpr hmem, ha⟩

/-- The edges after the block are there after the replay of its log, which makes no edge of its own; and a block
inside another adds its pairs to both logs. -/
theorem shareRecord_replays (s : Session) (calls : List Call) (rebound : List Name) (record : List (Str × Str))
    (hrebound : ∀ var ∈ rebound, Op.clear var ∈ Call.allOps calls)
    (hrecord : ∀ pair, pair ∈ record ↔ pair ∈ (loggingEdges s calls).2) :
    (∀ a b, (loggingEdges s calls).1.edges.Edge a b →
        (applyShareRecord s (rebound.map (·.1)) record none).edges.Edge a b) ∧
      (∀ a b, (applyShareRecord s (rebound.map (·.1)) record none).edges.Edge a b →
        s.edges.Edge a b ∨ LinkedBy calls a b) ∧
      ∀ (t : Session) (inner : List Call),
        (∀ pair, pair ∈ (loggingEdges t inner).2 ↔ pair ∈ (Call.allOps inner).filterMap Op.pair) ∧
          ∀ log ∈ t.edgeLogs, ∃ log' ∈ (loggingEdges t inner).1.edgeLogs,
            log'.id = log.id ∧ ∀ pair, pair ∈ log'.pairs ↔ pair ∈ log.pairs ∨ pair ∈ (loggingEdges t inner).2 := by
  obtain ⟨hran, hlog⟩ := loggingEdges_spec s calls
  have hpairs : ∀ pair, pair ∈ record ↔ pair ∈ (Call.allOps calls).filterMap Op.pair :=
    fun pair => (hrecord pair).trans (hlog pair)
  refine ⟨?_, ?_, ?_⟩
  · intro a b he
    rw [hran.edges] at he
    rw [edge_applyShareRecord]
    rcases edge_foldl_apply he with h | ⟨he, hops⟩
    · have hlinked : LinkedBy calls a b := h
      obtain ⟨hmem, ha, _, hne⟩ := mem_of_linkedBy hlinked
      exact ⟨.inr ⟨(hpairs _).mpr hmem, ha, hne⟩, not_unlinks_of_linkedBy hpairs hlinked⟩
    · have hkept : ∀ x ∈ rebound.map (·.1), a ≠ x ∧ b ≠ x := by
        intro x hx
        obtain ⟨var, hvar, rfl⟩ := List.mem_map.mp hx
        exact (hops _ (hrebound var hvar)).2 var rfl
      refine ⟨.inl ⟨he, fun ha => (hkept a ha).1 rfl, fun hb => (hkept b hb).2 rfl⟩, ?_⟩
      rintro ⟨p, hp, hstart, _, hab⟩
      obtain ⟨x, y, hmem, hx, hy⟩ := unlink_of_mem ((hpairs p).mp hp) hstart
      rw [hx, hy] at hab
      rcases hab with hab | hab
      · exact ((hops _ hmem).1 x y rfl).1 hab
      · exact ((hops _ hmem).1 x y rfl).2 hab
  · intro a b he
    rw [edge_applyShareRecord] at he
    rcases he.1 with ⟨he, _⟩ | ⟨hmem, ha, _⟩
    · exact .inl he
    · exact .inr (linkedBy_of_mem ((hpairs _).mp hmem) ha)
  · intro t inner
    obtain ⟨hran, hlog⟩ := loggingEdges_spec t inner
    refine ⟨hlog, ?_⟩
    intro log hmem
    refine ⟨log.update ((Call.allOps inner).filterMap Op.pair), ?_, rfl, ?_⟩
    · rw [hran.edgeLogs]
      exact List.mem_map.mpr ⟨log, hmem, rfl⟩
    · intro pair
      rw [hlog]
      exact OrderedSet.mem_update

def nameRaw : Name := ⟨str "raw", rfl⟩

def nameData : Name := ⟨str "data", rfl⟩

def nameHead : Name := ⟨str "head", rfl⟩

/-- `raw` and `head` share an object. -/
def headOfRaw : Session := ⟨EdgeMap.add ∅ (str "raw") (str "head"), [], 0, fun _ h => by cases h⟩

/-- `head` is bound anew, and a statement of a loop's body links `raw` and `data` after one that unlinked them. -/
def linksAgain : List Call :=
  [.op (.clear nameHead), .logging [.op (.unlink nameRaw nameData)],
    .logging [.op (.link nameData nameRaw (by decide)), .op (.unlink nameRaw nameHead)]]

theorem shareRecord_replays_head :
    (applyShareRecord headOfRaw [str "head"] (loggingEdges headOfRaw linksAgain).2.items none).edges.Edge
      (str "data") (str "raw") :=
  (shareRecord_replays headOfRaw linksAgain [nameHead] (loggingEdges headOfRaw linksAgain).2.items
    (by
      intro var hvar
      cases List.mem_singleton.mp hvar
      exact List.mem_cons_self)
    (fun _ => Iff.rfl)).1 _ _ ⟨⟨[str "raw"], List.nodup_singleton _⟩, rfl, by decide⟩

end

/-! ## A change in place moves on every alias -/

/-- The loop comes to its end whatever it is given, and the order of sets and dicts does not matter to what it does.
With a hash that leads on, it returns what is moved on from the outputs changed in place; each such name has a lineage
it has not had before, and no other name's lineage is another. -/
theorem bumpDerivedLineages_moves (sha256 : Str → Str) (edges : EdgeMap) (c : Change) (lineages : Dict Str Str) :
    (bumpDerivedLineages sha256 edges c lineages).frontier = [] ∧
    (∀ edges' c' lineages', edges.Same edges' → c.Same c' → (∀ name, lineages.lookup name = lineages'.lookup name) →
      (bumpDerivedLineages sha256 edges c lineages).records = (bumpDerivedLineages sha256 edges' c' lineages').records ∧
      (bumpDerivedLineages sha256 edges c lineages).bumped = (bumpDerivedLineages sha256 edges' c' lineages').bumped ∧
      ∀ name, (bumpDerivedLineages sha256 edges c lineages).lineages.lookup name =
        (bumpDerivedLineages sha256 edges' c' lineages').lineages.lookup name) ∧
    (LeadsOn sha256 →
      (∀ t, t ∈ (bumpDerivedLineages sha256 edges c lineages).bumped ↔ Moved c lineages (Bumps edges c) t) ∧
      (∀ t ∈ (bumpDerivedLineages sha256 edges c lineages).bumped, ∃ earlier new,
        (bumpDerivedLineages sha256 edges c lineages).held lineages t = earlier ++ [new] ∧
        (bumpDerivedLineages sha256 edges c lineages).lineages.lookup t = some new ∧ new ∉ earlier ∧
        ∀ l, lineages.lookup t = some l → l ∈ earlier) ∧
      ∀ x, x ∉ (bumpDerivedLineages sha256 edges c lineages).bumped →
        (bumpDerivedLineages sha256 edges c lineages).lineages.lookup x = lineages.lookup x) := by
  have hend : (bumpDerivedLineages sha256 edges c lineages).frontier = [] := frontier_iterate (Nat.le_refl _)
  refine ⟨hend, ?_, ?_⟩
  · intro edges' c' lineages' hedges hc hlineages
    have hsame := bumpDerivedLineages_same sha256 hedges hc hlineages
    exact ⟨hsame.records, hsame.bumped, hsame.lineages⟩
  · intro hsha
    obtain ⟨src, hi⟩ := (Walk.Inv.start edges c lineages []).iterate hsha ((c.start edges lineages).size edges)
    obtain ⟨rank, hrank⟩ := hsha
    have hr : (bumpDerivedLineages sha256 edges c lineages).Ranked lineages rank :=
      (Walk.Ranked.start edges c lineages rank).iterate hrank _
    exact ⟨fun t => hi.bumped_iff hend t, fun t ht => hr.new ht, hi.kept⟩

/-! ### A list under two names -/

/-- Stands for a hash: it leads on. -/
def tagged (s : Str) : Str := 0 :: s

theorem leadsOn_tagged : LeadsOn tagged := by
  refine ⟨List.length, fun old srcLineage => ?_⟩
  simp only [newHash, tagged, List.length_cons, List.length_append]
  omega

/-- `raw.append(x)`, with `data = raw` before and `view` made of `data`. -/
def appendRaw (present : Str → Bool) : Change where
  outputs := ⟨[str "raw"], by decide⟩
  inputs := ⟨[str "raw"], by decide⟩
  skip := .empty
  kept := .empty
  present := present
  code := none
  before := none

def rawEdges : EdgeMap := (EdgeMap.add ∅ (str "raw") (str "data")).add (str "data") (str "view")

def rawLineages : Dict Str Str := Dict.update ∅ [(str "raw", [1]), (str "data", [2]), (str "view", [3])]

theorem bumpDerivedLineages_moves_raw :
    str "view" ∈ (bumpDerivedLineages tagged rawEdges (appendRaw fun _ => true) rawLineages).bumped := by
  obtain ⟨-, -, hmoves⟩ := bumpDerivedLineages_moves tagged rawEdges (appendRaw fun _ => true) rawLineages
  refine ((hmoves leadsOn_tagged).1 (str "view")).mpr ?_
  have hdata : Bumps rawEdges (appendRaw fun _ => true) (str "raw") (str "data") := ⟨⟨_, rfl, by decide⟩, by decide⟩
  have hview : Bumps rawEdges (appendRaw fun _ => true) (str "data") (str "view") := ⟨⟨_, rfl, by decide⟩, by decide⟩
  exact .next (.first ⟨by decide, .inl (by decide)⟩ (by decide) hdata) (by decide) hview

/-- Without `data`, `view` is not reached through it, though all three have a lineage. -/
theorem view_not_moved :
    let c := appendRaw fun name => name ≠ str "data"
    let edge := fun src target => rawLineages.lookup src ≠ none ∧ Bumps rawEdges { c with present := fun _ => true } src target
    Moved c rawLineages edge (str "view") ∧ c.present (str "view") = true ∧
      str "view" ∉ (bumpDerivedLineages tagged rawEdges c rawLineages).bumped := by
  intro c edge
  have hdata : edge (str "raw") (str "data") := ⟨by decide, ⟨_, rfl, by decide⟩, by decide⟩
  have hview : edge (str "data") (str "view") := ⟨by decide, ⟨_, rfl, by decide⟩, by decide⟩
  refine ⟨?_, by decide, by decide⟩
  exact .next (.first ⟨by decide, .inl (by decide)⟩ (by decide) hdata) (by decide) hview

/-! ## What shares an object is rebuilt together -/

namespace Notebook

/-- A live name is broken with all that it reaches, what is broken is reached from a name that was, and where the names
that are gone keep apart any order of the roots comes to the same. -/
theorem rebuilt_together (nb : Notebook) (broken : OrderedSet Str) :
    (∀ x ∈ nb.rebuildWhatSharesARebuiltObject broken, nb.live x = true → ∀ y, nb.Reaches x y →
      y ∈ nb.rebuildWhatSharesARebuiltObject broken) ∧
    (∀ x ∈ nb.rebuildWhatSharesARebuiltObject broken, ∃ root ∈ broken, nb.Reaches root x) ∧
    (nb.Apart broken → ∀ roots : List Str, roots.Perm broken.items → ∀ x,
      x ∈ nb.rebuildInOrder roots broken ↔ x ∈ nb.rebuildWhatSharesARebuiltObject broken) := by
  have hsorted : ∀ root, root ∈ sorted broken.items ↔ root ∈ broken := fun root => mem_sorted
  refine ⟨?_, ?_, ?_⟩
  · intro x hx hlive y hreach
    exact closed_rebuildInOrder hsorted hlive hx hreach
  · exact reached_of_rebuildInOrder fun x hx => ⟨x, hx, .refl⟩
  · intro hapart roots hperm x
    rw [rebuildWhatSharesARebuiltObject, mem_rebuildInOrder hapart fun root => hperm.mem_iff,
      mem_rebuildInOrder hapart hsorted]

/-! ### Names that are gone -/

/-- `a` shares an object with `p` and `q`, and `o` with `q`; nothing makes `o`. -/
def shared (live : Str → Bool) : Notebook where
  edges := ((EdgeMap.add ∅ (str "p") (str "a")).add (str "q") (str "a")).add (str "q") (str "o")
  live := live
  trace := [some [str "a"]]
  inCells := []

def pq : OrderedSet Str := ⟨[str "p", str "q"], by decide⟩

/-- Of `p` and `q` both live, all is left as it is in either order. -/
theorem rebuilt_together_live (x : Str) :
    x ∈ (shared fun _ => true).rebuildInOrder [str "q", str "p"] pq ↔
      x ∈ (shared fun _ => true).rebuildWhatSharesARebuiltObject pq := by
  refine (rebuilt_together (shared fun _ => true) pq).2.2 ?_ _ (by decide) x
  intro root _ hgone
  cases hgone

/-- Where `p` and `q` are gone, `a` is rebuilt in one order and not in the other. -/
theorem gone_in_two_orders :
    let nb := shared fun name => name ∉ [str "p", str "q"]
    str "a" ∉ nb.rebuildInOrder [str "p", str "q"] pq ∧ str "a" ∈ nb.rebuildInOrder [str "q", str "p"] pq := by
  decide

end Notebook

end Cash.Edges
