import Cash.Held.Lemmas.Split
import Mathlib.Logic.Relation
import Mathlib.Order.WellFounded

/-!
# The walk with the kernels and without
-/

namespace Cash.Held

variable {O T K F : Type} [DecidableEq T] {walker : Walker O T K F}

/-! ## What a level asks -/

namespace Walker

/-- The classes of a group that the walk visits can be hashed where a kernel answers. -/
structure GroupMeets (walker : Walker O T K F) (group : Group O T) : Prop where
  one : ∀ o ∈ group.objects, walker.heap.kindOf o = group.kind
  entries : (dictChildren walker.heap group.objects walker.leaves []).1 = true →
    walker.heap.Hashed (walker.heap.entryReads group.objects walker.leaves)
  items : (seqChildren walker.heap group.objects walker.leaves []).1 = true →
    walker.heap.Hashed (group.objects.flatMap walker.heap.items)

/-- Where `split_level` answers, the classes of what it sorts tell themselves apart; the groups are of one class each, and the
classes of what plain ones hold can be hashed where `leaf_items` answers. -/
structure SplitMeets (walker : Walker O T K F) (children : List O) (childKinds : List T) : Prop where
  sorted : (splitLevel walker.heap children (walker.skipped childKinds) (walker.extra childKinds)).isSome = true →
    walker.heap.Hashed (walker.extra childKinds) ∧
      walker.heap.Apart (walker.heap.others children (walker.skipped childKinds) (walker.extra childKinds))
  one : ∀ groups, walker.heap.splitByType children (walker.skipped childKinds) (walker.extra childKinds) = some groups →
    ∀ group ∈ groups, ∀ o ∈ group.2, walker.heap.kindOf o = group.1
  plain : ∀ groups, walker.heap.splitByType children (walker.skipped childKinds) (walker.extra childKinds) = some groups →
    ∀ group ∈ groups, (leafItems walker.heap group.2 (walker.recordMode group.1) walker.leaves).isSome = true →
      walker.heap.Hashed (walker.heap.recordItems (walker.recordMode group.1) group.2)

/-- Every kernel of a level is called on what it answers as the Python branch does. -/
structure Meets (walker : Walker O T K F) (walk : Walk O T K F) : Prop where
  groups : ∀ group ∈ walk.level, walker.GroupMeets group
  split : ∀ found children childKinds, walker.visitLevel false walk.found [] walk.level = some (found, children) →
    walker.heap.kinds children = some childKinds → walker.SplitMeets children childKinds

/-! ## Groups -/

theorem dictChildren_fst (heap : Heap O T) (group : List O) (leaves : List T) (children children' : List O) :
    (dictChildren heap group leaves children).1 = (dictChildren heap group leaves children').1 := by
  unfold dictChildren
  split
  · cases (DictScan.init heap leaves).dicts group with
    | none => rfl
    | some scan => rfl
  · rfl

theorem seqChildren_fst (heap : Heap O T) (group : List O) (leaves : List T) (children children' : List O) :
    (seqChildren heap group leaves children).1 = (seqChildren heap group leaves children').1 := by
  unfold seqChildren
  split
  · cases (TypeSet.groupAllIn (fun ts c => ts.seqAllIn (heap.items c)) (.init heap leaves) group).1 with
    | yes => rfl
    | no => rfl
    | unknown => rfl
  · rfl

theorem visitPython_of_dict {group : Group O T} (h : walker.GroupMeets group) (hkind : group.kind = walker.heap.dict)
    {children : List O} (hanswer : (dictChildren walker.heap group.objects walker.leaves children).1 = true) (found : F) :
    walker.visitPython group.kind group.objects found children =
      some (found, (dictChildren walker.heap group.objects walker.leaves children).2) := by
  have hexact : group.objects.all walker.heap.isDict = true :=
    List.all_eq_true.mpr fun o ho => decide_eq_true ((h.one o ho).trans hkind)
  have hhashed := h.entries ((dictChildren_fst walker.heap group.objects walker.leaves [] children).trans hanswer)
  rw [visitPython, if_pos ⟨hkind, hexact⟩, (dictChildren_iff hanswer).mpr hhashed]
  rfl

theorem visitPython_of_sequence {group : Group O T} (h : walker.GroupMeets group) (hkind : group.kind ≠ walker.heap.dict)
    {children : List O} (hanswer : (seqChildren walker.heap group.objects walker.leaves children).1 = true) (found : F) :
    walker.visitPython group.kind group.objects found children =
      some (found, (seqChildren walker.heap group.objects walker.leaves children).2) := by
  have hexact : group.objects.all walker.heap.isSequence = true := by
    rcases seqChildren_cases walker.heap group.objects walker.leaves children with ⟨hexact, _⟩ | ⟨hexact, _⟩ | heq
    · exact hexact
    · exact hexact
    · rw [heq] at hanswer
      cases hanswer
  have hsequence : group.kind ∈ walker.heap.sequences := by
    obtain ⟨o, ho⟩ := List.exists_mem_of_ne_nil _ group.objects_ne
    rw [← h.one o ho]
    exact of_decide_eq_true (List.all_eq_true.mp hexact o ho)
  have hhashed := h.items ((seqChildren_fst walker.heap group.objects walker.leaves [] children).trans hanswer)
  rw [visitPython, if_neg fun hboth => hkind hboth.1, if_pos ⟨hsequence, hexact⟩, (seqChildren_iff hanswer).mpr hhashed]
  rfl

theorem visitGroup_eq {group : Group O T} (h : walker.GroupMeets group) (found : F) (children : List O) :
    walker.visitGroup true group found children = walker.visitGroup false group found children := by
  unfold visitGroup
  split
  · rfl
  · simp only [if_true, Bool.false_eq_true, if_false]
    split
    · rename_i hdict
      split
      · rename_i children' hkernel
        rw [visitPython_of_dict h hdict (congrArg Prod.fst hkernel), hkernel]
      · rfl
    · rename_i hdict
      split
      · split
        · rename_i children' hkernel
          rw [visitPython_of_sequence h hdict (congrArg Prod.fst hkernel), hkernel]
        · rfl
      · rfl

theorem visitLevel_eq {level : List (Group O T)} (h : ∀ group ∈ level, walker.GroupMeets group) (found : F)
    (children : List O) : walker.visitLevel true found children level = walker.visitLevel false found children level := by
  induction level generalizing found children with
  | nil => rfl
  | cons group level ih =>
      rw [visitLevel, visitLevel, visitGroup_eq (h group List.mem_cons_self)]
      apply Option.bind_congr
      intro result _
      exact ih (fun group' h' => h group' (List.mem_cons_of_mem group h')) result.1 result.2

/-! ## The next level -/

theorem typeSet_eq {heap : Heap O T} {last : Option T} {out : List T}
    (hlast : ∀ t, last = some t → heap.hashable t = true ∧ out.any (heap.same · t) = true) (objects : List O) :
    typeSet heap last out objects =
      if heap.Hashed objects then some (Grouping.union heap.same out (objects.map heap.kindOf)) else none := by
  induction objects generalizing last out with
  | nil => exact (if_pos (List.forall_mem_nil _)).symm
  | cons o objects ih =>
      have hcons : heap.Hashed (o :: objects) ↔ heap.hashable (heap.kindOf o) = true ∧ heap.Hashed objects :=
        List.forall_mem_cons
      rw [typeSet]
      split
      · rename_i heq
        obtain ⟨hhash, hany⟩ := hlast _ heq
        rw [ih hlast, if_congr (hcons.trans (and_iff_right hhash)) rfl rfl, List.map_cons]
        have hadd : Grouping.add heap.same out (heap.kindOf o) = out := if_pos hany
        rw [Grouping.union, Grouping.union, List.foldl_cons, hadd]
      · split
        · rename_i hhash
          rw [ih, if_congr (hcons.trans (and_iff_right hhash)) rfl rfl]
          · rfl
          · rintro t heq
            cases heq
            exact ⟨hhash, Grouping.any_add_self Heap.same_refl out _⟩
        · rename_i hhash
          rw [if_neg fun h => hhash (hcons.mp h).1]

theorem plainRecords_eq {kind : T} {group : List O}
    (h : (leafItems walker.heap group (walker.recordMode kind) walker.leaves).isSome = true →
      walker.heap.Hashed (walker.heap.recordItems (walker.recordMode kind) group)) :
    walker.plainRecords true kind group = walker.plainRecords false kind group := by
  unfold plainRecords
  simp only [if_true, Bool.false_eq_true, if_false]
  split
  · rename_i answer hanswer
    have hexact : group.all ((walker.recordMode kind).exact walker.heap) = true := by
      unfold leafItems at hanswer
      split at hanswer
      · rename_i hexact
        exact hexact
      · cases hanswer
    rw [if_pos hexact, (leafItems_iff hanswer).mpr (h (Option.isSome_iff_exists.mpr ⟨answer, hanswer⟩))]
  · rfl

theorem split_eq {children : List O} {childKinds : List T} (h : walker.SplitMeets children childKinds) :
    walker.split true children childKinds = walker.split false children childKinds := by
  unfold split
  simp only [if_true, Bool.false_eq_true, if_false]
  split
  · rename_i groups hgroups
    exact ((splitLevel_iff hgroups).mpr (h.sorted (Option.isSome_iff_exists.mpr ⟨groups, hgroups⟩))).symm
  · rfl

variable [DecidableEq K]

omit [DecidableEq T] in
/-- Objects of one class are met again by the key that the walk gives them only if they are one. -/
theorem foundIn_eq {kind : T} {group : List O} (hone : ∀ o ∈ group, walker.heap.kindOf o = kind) (seen : List K) :
    foundIn (walker.key (walker.identityHashed kind)) group seen = newIn (walker.key (walker.identityHashed kind)) group seen := by
  rw [newIn_iff]
  intro k _
  cases hobjects : having (walker.key (walker.identityHashed kind)) group k with
  | nil => rfl
  | cons o objects =>
      rw [List.head?_cons, List.getLast?_eq_some_getLast (List.cons_ne_nil o objects), Option.some.injEq]
      generalize hlast : (o :: objects).getLast (List.cons_ne_nil o objects) = last
      have hmem : ∀ o' ∈ o :: objects, o' ∈ group ∧ walker.key (walker.identityHashed kind) o' = k := by
        intro o' ho'
        rw [← hobjects] at ho'
        exact (List.mem_filter.mp ho').imp id of_decide_eq_true
      obtain ⟨ho, hkey⟩ := hmem o List.mem_cons_self
      obtain ⟨ho', hkey'⟩ := hmem last (hlast ▸ List.getLast_mem _)
      have heq := hkey.trans hkey'.symm
      cases hident : walker.identityHashed kind with
      | false =>
          rw [hident] at heq
          exact walker.key_id o last heq
      | true =>
          rw [hident] at heq
          exact walker.key_object o last ((congrArg _ (hone o ho)).trans hident) ((hone last ho').trans (hone o ho).symm) heq

theorem dedup_eq {groups : List (T × List O)} (hone : ∀ group ∈ groups, ∀ o ∈ group.2, walker.heap.kindOf o = group.1)
    (hplain : ∀ group ∈ groups, (leafItems walker.heap group.2 (walker.recordMode group.1) walker.leaves).isSome = true →
      walker.heap.Hashed (walker.heap.recordItems (walker.recordMode group.1) group.2)) (seen : List K) :
    walker.dedup true seen groups = walker.dedup false seen groups := by
  induction groups generalizing seen with
  | nil => rfl
  | cons group groups ih =>
      obtain ⟨kind, group⟩ := group
      have ih' := ih (fun group h => hone group (List.mem_cons_of_mem _ h)) fun group h => hplain group (List.mem_cons_of_mem _ h)
      rw [dedup, dedup, plainRecords_eq (hplain _ List.mem_cons_self)]
      simp only [ih', foundIn_eq (hone _ List.mem_cons_self), if_true, Bool.false_eq_true, if_false]

theorem nextLevel_eq {children : List O} (h : ∀ childKinds, walker.heap.kinds children = some childKinds →
    walker.SplitMeets children childKinds) (seen : List K) :
    walker.nextLevel true children seen = walker.nextLevel false children seen := by
  have hkinds : typeSet walker.heap none [] children = walker.heap.kinds children := by
    have hlast : ∀ t, none = some t → walker.heap.hashable t = true ∧ [].any (walker.heap.same · t) = true := by
      intro t ht
      cases ht
    rw [typeSet_eq hlast]
    by_cases hhashed : walker.heap.Hashed children
    · rw [if_pos hhashed, Heap.kinds_of_hashed hhashed]
      rfl
    · rw [if_neg hhashed, Heap.kinds_of_not_hashed hhashed]
  rw [nextLevel, nextLevel]
  simp only [hkinds, if_true, Bool.false_eq_true, if_false]
  apply Option.bind_congr
  intro childKinds hchildKinds
  have hmeets := h childKinds hchildKinds
  rw [split_eq hmeets]
  apply Option.bind_congr
  intro groups hgroups
  exact dedup_eq (hmeets.one groups hgroups) (hmeets.plain groups hgroups) seen

/-! ## The walk -/

theorem round_eq {walk : Walk O T K F} (h : walker.Meets walk) : walker.round true walk = walker.round false walk := by
  unfold round
  rw [visitLevel_eq h.groups]
  split
  · rfl
  · simp only
    split
    · rfl
    · split
      · rfl
      · cases hvisit : walker.visitLevel false walk.found [] walk.level with
        | none => rfl
        | some result =>
            obtain ⟨found, children⟩ := result
            simp only [nextLevel_eq fun childKinds => h.split found children childKinds hvisit]

/-- The states of the walk without the kernels. -/
def Reaches (walker : Walker O T K F) : Stage O T K F → Stage O T K F → Prop :=
  Relation.ReflTransGen fun stage stage' => walker.turn false stage = .again stage'

theorem turn_eq {stage : Stage O T K F} (h : ∀ walk, stage = .walking walk → walker.Meets walk) :
    walker.turn true stage = walker.turn false stage := by
  cases stage with
  | walking walk => rw [turn, turn, round_eq (h walk rfl)]
  | ended result => rfl

theorem walk_eq {value : O} {found : F} {checkAt : Option Nat}
    (h : ∀ walk, walker.Reaches (walker.start value found checkAt) (.walking walk) → walker.Meets walk) (fuel : Nat) :
    walker.walk false fuel value found checkAt = walker.walk true fuel value found checkAt := by
  refine While.loop_congr (I := walker.Reaches (walker.start value found checkAt)) ?_ ?_ fuel 0 .refl
  · intro _ stage stage' hreach hturn
    exact hreach.tail hturn
  · intro _ stage hreach
    exact (turn_eq fun walk heq => h walk (heq ▸ hreach)).symm

omit [DecidableEq T] [DecidableEq K] in
theorem size_pos {level : List (Group O T)} (h : level.isEmpty = false) : 0 < size level := by
  cases level with
  | nil => cases h
  | cons group level =>
      have hpos := List.length_pos_of_ne_nil group.objects_ne
      rw [size, List.map_cons, List.sum_cons]
      omega

/-- A level that is not the last leaves fewer objects to visit before the limit. -/
theorem visited_of_round {kernels : Bool} {walk walk' : Walk O T K F} (h : walker.round kernels walk = .walking walk') :
    walk.visited < walk'.visited ∧ walk'.visited ≤ walkLimit := by
  unfold round at h
  split at h
  · cases h
  · rename_i hempty
    have hpos := size_pos (Bool.eq_false_iff.mpr hempty)
    simp only at h
    generalize (if checks walk.checkAt (walk.visited + size walk.level) then none else walk.checkAt) = checkAt at h
    split at h
    · cases h
    · split at h
      · cases h
      · rename_i hlimit
        cases hvisit : walker.visitLevel kernels walk.found [] walk.level with
        | none => rw [hvisit] at h; cases h
        | some result =>
            simp only [hvisit] at h
            split at h
            · cases h
            · split at h
              · cases h
              · cases hnext : walker.nextLevel kernels result.2 walk.seen with
                | none => rw [hnext] at h; cases h
                | some next =>
                    rw [hnext] at h
                    cases h
                    exact ⟨Nat.lt_add_of_pos_right hpos, Nat.le_of_not_lt hlimit⟩

/-- What a walk has left to visit. -/
def remaining : Stage O T K F → Nat
  | .walking walk => walkLimit + 1 - walk.visited
  | .ended _ => 0

theorem turn_cases (walker : Walker O T K F) (kernels : Bool) (stage : Stage O T K F) :
    (∃ walk walk', stage = .walking walk ∧ walker.round kernels walk = .walking walk' ∧
      walker.turn kernels stage = .again (.walking walk')) ∨ ∃ result, walker.turn kernels stage = .done (.ended result) := by
  cases stage with
  | ended result => exact .inr ⟨result, rfl⟩
  | walking walk =>
      rw [turn]
      cases hround : walker.round kernels walk with
      | walking walk' => exact .inl ⟨walk, walk', rfl, hround, rfl⟩
      | ended result => exact .inr ⟨result, rfl⟩

/-- Every walk ends. -/
theorem walk_ends (walker : Walker O T K F) (kernels : Bool) (value : O) (found : F) (checkAt : Option Nat) :
    ∃ fuel result, walker.walk kernels fuel value found checkAt = some (.ended result) := by
  have hdown : ∀ (_ : Nat) (stage stage' : Stage O T K F), walker.turn kernels stage = .again stage' →
      remaining stage' < remaining stage := by
    intro _ stage stage' hturn
    obtain ⟨walk, walk', rfl, hround, hagain⟩ | ⟨result, hdone⟩ := walker.turn_cases kernels stage
    · cases hagain.symm.trans hturn
      obtain ⟨hless, hlimit⟩ := visited_of_round hround
      rw [remaining, remaining]
      omega
    · cases hdone.symm.trans hturn
  obtain ⟨fuel, last, hlast⟩ := While.loop_total (measure remaining).wf hdown 0 (walker.start value found checkAt)
  obtain ⟨_, stage, _, hdone⟩ := While.loop_invariant (I := fun _ => True) (fun _ _ _ _ _ => trivial) hlast trivial
  obtain ⟨walk, walk', _, _, hagain⟩ | ⟨result, hended⟩ := walker.turn_cases kernels stage
  · cases hagain.symm.trans hdone
  · cases hended.symm.trans hdone
    exact ⟨fuel, result, hlast⟩

end Walker

variable [DecidableEq K]

/-! ## Where the kernels are the Python walk -/

/-- Each kernel that answers leaves what the Python branch leaves if and only if that asks no class for a hash that it has
not and, in `split_level`, no two different classes are equal, and in `new_in`, the first and the last object of a new key are
one. A kernel that does not answer leaves what it was given. Where every level meets this, the walk finds the same. -/
theorem walk_step_iff (walker : Walker O T K F) :
    (∀ (group : List O) (mode : Mode) (leaves : List T) (answer : Bool), leafItems walker.heap group mode leaves = some answer →
      (walker.heap.plainRecords group mode leaves = some answer ↔ walker.heap.Hashed (walker.heap.recordItems mode group))) ∧
    (∀ (group : List O) (leaves : List T) (children : List O),
      ((seqChildren walker.heap group leaves children).1 = true →
        (walker.heap.sequenceChildren group leaves children = some (seqChildren walker.heap group leaves children).2 ↔
          walker.heap.Hashed (group.flatMap walker.heap.items))) ∧
      ((seqChildren walker.heap group leaves children).1 = false → (seqChildren walker.heap group leaves children).2 = children) ∧
      ((dictChildren walker.heap group leaves children).1 = true →
        (walker.heap.entryChildren group leaves children = some (dictChildren walker.heap group leaves children).2 ↔
          walker.heap.Hashed (walker.heap.entryReads group leaves))) ∧
      ((dictChildren walker.heap group leaves children).1 = false →
        (dictChildren walker.heap group leaves children).2 = children)) ∧
    (∀ (children : List O) (skipped : List T) (extra : List O) (groups : List (T × List O)),
      splitLevel walker.heap children skipped extra = some groups →
        (walker.heap.splitByType children skipped extra = some groups ↔
          walker.heap.Hashed extra ∧ walker.heap.Apart (walker.heap.others children skipped extra))) ∧
    (∀ (key : O → K) (group : List O) (seen : List K), foundIn key group seen = newIn key group seen ↔
      ∀ k, k ∉ seen → (having key group k).head? = (having key group k).getLast?) ∧
    ∀ (value : O) (found : F) (checkAt : Option Nat),
      (∀ walk, walker.Reaches (walker.start value found checkAt) (.walking walk) → walker.Meets walk) →
        ∃ fuel result, walker.walk true fuel value found checkAt = some (.ended result) ∧
          walker.walk false fuel value found checkAt = some (.ended result) := by
  refine ⟨fun _ _ _ _ => leafItems_iff, ?_, fun _ _ _ _ => splitLevel_iff, newIn_iff, ?_⟩
  · intro group leaves children
    exact ⟨seqChildren_iff, seqChildren_of_not_answered, dictChildren_iff, dictChildren_of_not_answered⟩
  · intro value found checkAt h
    obtain ⟨fuel, result, hended⟩ := walker.walk_ends true value found checkAt
    exact ⟨fuel, result, hended, (Walker.walk_eq h fuel).trans hended⟩

/-! ## Metaclasses that are equal -/

/-- The classes of a program whose metaclasses `m1` and `m2` have a metaclass that makes them equal. -/
inductive Kind
  | dict | list | tuple | set | frozenset | type | own | m1 | m2 | a | b | c
deriving DecidableEq

/-- Objects of `a`, `b` and `c`, a list of them all, one of those of `a` and `c`, and the classes. -/
inductive Thing
  | all
  | pair
  | ofA
  | ofB
  | ofC
  | kind (t : Kind)
deriving DecidableEq

def Kind.meta : Kind → Kind
  | .m1 | .m2 => .own
  | .a => .m1
  | .b => .m2
  | _ => .type

/-- What stands for a class where classes are compared. -/
def Kind.alike : Kind → Kind
  | .m2 => .m1
  | t => t

theorem Kind.alike_of_plain {t : Kind} (h : decide (t.meta ≠ .own) = true) : t.alike = t := by
  cases t with
  | m2 => cases h
  | _ => rfl

def equalMetas : Heap Thing Kind where
  kindOf
    | .all | .pair => .list
    | .ofA => .a
    | .ofB => .b
    | .ofC => .c
    | .kind t => t.meta
  dict := .dict
  list := .list
  tuple := .tuple
  set := .set
  frozenset := .frozenset
  items
    | .all => [.ofA, .ofB, .ofC]
    | .pair => [.ofA, .ofC]
    | _ => []
  entries _ := []
  plainMeta t := decide (t.meta ≠ .own)
  hashable _ := true
  same t u := decide (t.alike = u.alike)
  same_equivalence := ⟨fun _ => decide_eq_true rfl, fun h => decide_eq_true (of_decide_eq_true h).symm,
    fun h h' => decide_eq_true ((of_decide_eq_true h).trans (of_decide_eq_true h'))⟩
  plain_tuple := rfl
  hashable_of_plain _ _ := rfl
  eq_of_plain _ _ ht hu h :=
    (Kind.alike_of_plain ht).symm.trans ((of_decide_eq_true h).trans (Kind.alike_of_plain hu))

/-- The walk notes the classes it visits. -/
def notesClasses : Walker Thing Kind Thing (List Thing) where
  heap := equalMetas
  leaves := []
  inert t := decide (t ∈ [Kind.a, .b, .c])
  ordered kinds := kinds
  classObject := .kind
  identityHashed _ := true
  key _ o := o
  key_id _ _ h := h
  key_object _ _ _ _ h := h
  isModule _ := false
  visitOther kind group found children :=
    if kind ∈ [Kind.m1, .m2, .type] then some (found ++ group, children) else some (found, children)
  plainOther _ _ := some false
  worth _ := true

/-- `split_level` makes a group of each metaclass, and the walk finds `b`; `_by_type` leaves out what is of `m2`. -/
theorem class_left_out :
    splitLevel equalMetas [.ofA, .ofB, .ofC] [.a, .b, .c] [.kind .a, .kind .b, .kind .c] =
      some [(.m1, [.kind .a]), (.m2, [.kind .b]), (.type, [.kind .c])] ∧
    equalMetas.splitByType [.ofA, .ofB, .ofC] [.a, .b, .c] [.kind .a, .kind .b, .kind .c] =
      some [(.m1, [.kind .a]), (.type, [.kind .c])] ∧
    notesClasses.walk true 3 .all [] none = some (.ended (.found [.kind .a, .kind .b, .kind .c] true)) ∧
    notesClasses.walk false 3 .all [] none = some (.ended (.found [.kind .a, .kind .c] true)) :=
  ⟨rfl, rfl, rfl, rfl⟩

/-- The levels of the walk over the pair. -/
def pairLevel : Walk Thing Kind Thing (List Thing) :=
  ⟨none, 0, [⟨.list, [.pair], List.cons_ne_nil _ _⟩], [.pair], []⟩

def metasLevel : Walk Thing Kind Thing (List Thing) :=
  ⟨none, 1, [⟨.m1, [.kind .a], List.cons_ne_nil _ _⟩, ⟨.type, [.kind .c], List.cons_ne_nil _ _⟩], [.pair, .kind .a, .kind .c], []⟩

theorem pairLevel_meets : notesClasses.Meets pairLevel where
  groups := List.forall_mem_singleton.mpr ⟨by decide, by decide, by decide⟩
  split found children childKinds hvisit hkinds := by
    cases hvisit
    cases hkinds
    constructor
    · decide
    · intro groups hgroups
      cases hgroups
      decide
    · intro groups hgroups
      cases hgroups
      decide

theorem metasLevel_meets : notesClasses.Meets metasLevel where
  groups := by
    rintro group hgroup
    rcases List.mem_pair.mp hgroup with rfl | rfl
    · exact ⟨by decide, by decide, by decide⟩
    · exact ⟨by decide, by decide, by decide⟩
  split found children childKinds hvisit hkinds := by
    cases hvisit
    cases hkinds
    constructor
    · decide
    · intro groups hgroups
      cases hgroups
      decide
    · intro groups hgroups
      cases hgroups
      decide

theorem pair_meets (walk : Walk Thing Kind Thing (List Thing))
    (h : notesClasses.Reaches (notesClasses.start .pair [] none) (.walking walk)) : notesClasses.Meets walk := by
  rcases Relation.ReflTransGen.cases_head h with heq | ⟨stage, hturn, h⟩
  · cases heq
    exact pairLevel_meets
  · cases hturn
    rcases Relation.ReflTransGen.cases_head h with heq | ⟨stage, hturn, h⟩
    · cases heq
      exact metasLevel_meets
    · cases hturn

theorem walk_step_pair :
    equalMetas.splitByType [.ofA, .ofC] [.a, .c] [.kind .a, .kind .c] = some [(.m1, [.kind .a]), (.type, [.kind .c])] ∧
      ∃ fuel result, notesClasses.walk true fuel .pair [] none = some (.ended result) ∧
        notesClasses.walk false fuel .pair [] none = some (.ended result) :=
  ⟨((walk_step_iff notesClasses).2.2.1 _ _ _ _ rfl).mpr ⟨by decide, by decide⟩,
    (walk_step_iff notesClasses).2.2.2.2 .pair [] none pair_meets⟩

end Cash.Held
