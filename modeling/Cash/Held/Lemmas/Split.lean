import Cash.Held.Lemmas.Scan

/-!
# The groups of a level and what is new in them

`split_level` groups by pointers and `_by_type` by hash and equality. They agree where the classes are apart.
-/

namespace Cash.Held

variable {O T K : Type} [DecidableEq T] {heap : Heap O T} {s : List T}

/-! ## Groups by class -/

theorem sift_spec {ts : TypeSet heap s} {children kept : List O} (h : sift ts children = some kept) :
    (∀ c ∈ children, heap.plainMeta (heap.kindOf c) = true) ∧
      kept = children.filter fun c => !heap.member s (heap.kindOf c) := by
  induction children generalizing ts kept with
  | nil =>
      cases h
      exact ⟨List.forall_mem_nil _, rfl⟩
  | cons c children ih =>
      have hverdict := ts.has_fst (heap.kindOf c)
      rw [sift] at h
      split at h
      · rename_i heq
        rw [heq] at hverdict
        obtain ⟨hplain, hmember⟩ := Heap.verdict_eq_yes hverdict.symm
        obtain ⟨hchildren, hkept⟩ := ih h
        refine ⟨List.forall_mem_cons.mpr ⟨hplain, hchildren⟩, ?_⟩
        rw [List.filter_cons_of_neg (by rw [hmember]; exact Bool.false_ne_true)]
        exact hkept
      · rename_i heq
        rw [heq] at hverdict
        obtain ⟨hplain, hmember⟩ := Heap.verdict_eq_no hverdict.symm
        obtain ⟨kept', hkept', rfl⟩ := Option.map_eq_some_iff.mp h
        obtain ⟨hchildren, hkept⟩ := ih hkept'
        refine ⟨List.forall_mem_cons.mpr ⟨hplain, hchildren⟩, ?_⟩
        rw [List.filter_cons_of_pos (by rw [hmember]; rfl), hkept]
      · cases h

/-- The classes of objects by identity, as first met. -/
def Heap.met (heap : Heap O T) (objects : List O) : List T :=
  Grouping.distinct (fun t u => decide (t = u)) (objects.map heap.kindOf)

def Heap.isMajor (heap : Heap O T) (objects : List O) (kind : T) : Bool :=
  (objects.map heap.kindOf).count kind * major > objects.length

/-- What both groupings are where the classes are apart: the classes of many objects, then the others. -/
def Heap.grouped (heap : Heap O T) (objects : List O) : List (T × List O) :=
  ((heap.met objects).filter (heap.isMajor objects) ++ (heap.met objects).filter fun kind => !heap.isMajor objects kind).map
    fun kind => (kind, objects.filter fun o => decide (heap.kindOf o = kind))

namespace Heap

theorem mem_met {objects : List O} {t : T} : t ∈ heap.met objects ↔ t ∈ objects.map heap.kindOf :=
  Grouping.mem_distinct_iff Grouping.decide_refl (Grouping.apart_decide _)

/-- Objects of one class are a group. -/
theorem grouped_of_met_singleton {objects : List O} {kind : T} (h : heap.met objects = [kind]) :
    heap.grouped objects = [(kind, objects)] := by
  have hall : objects.filter (fun o => decide (heap.kindOf o = kind)) = objects := by
    rw [List.filter_eq_self]
    intro o ho
    have hmem : heap.kindOf o ∈ heap.met objects := mem_met.mpr (List.mem_map_of_mem ho)
    rw [h] at hmem
    exact decide_eq_true (List.mem_singleton.mp hmem)
  rw [grouped, h]
  cases hmajor : heap.isMajor objects kind with
  | true => simp [hmajor, hall]
  | false => simp [hmajor, hall]

end Heap

theorem groupsOf_eq (others : List O) : groupsOf heap others = heap.grouped others := by
  have hkinds : Grouping.tally (fun t u => decide (t = u)) (others.map heap.kindOf) =
      (heap.met others).map fun kind => (kind, (others.map heap.kindOf).count kind) :=
    Grouping.tally_eq Grouping.decide_refl (Grouping.apart_decide _)
  have hlists : Grouping.collect (fun t u => decide (t = u)) heap.kindOf [] others =
      (heap.met others).map fun kind => (kind, others.filter fun o => decide (heap.kindOf o = kind)) :=
    Grouping.collect_eq Grouping.decide_refl (Grouping.apart_decide _)
  cases hmet : heap.met others with
  | nil => rw [groupsOf, Heap.grouped, hkinds, hlists, hmet]; rfl
  | cons kind rest =>
      cases rest with
      | nil => rw [Heap.grouped_of_met_singleton hmet, groupsOf, hkinds, hmet]; rfl
      | cons kind' rest =>
          have hgroups : groupsOf heap others =
              (((heap.met others).map fun kind => (kind, (others.map heap.kindOf).count kind)).filter
                  (fun kind => kind.2 * major > others.length) ++
                ((heap.met others).map fun kind => (kind, (others.map heap.kindOf).count kind)).filter
                  fun kind => !decide (kind.2 * major > others.length)).map fun kind =>
                (kind.1, (((heap.met others).map fun kind =>
                  (kind, others.filter fun o => decide (heap.kindOf o = kind))).lookup kind.1).getD []) := by
            rw [groupsOf, hkinds, hlists, hmet]
            rfl
          rw [hgroups, Heap.grouped, List.filter_map, List.filter_map, ← List.map_append, List.map_map]
          apply List.map_congr_left
          intro k hk
          have hmem : k ∈ heap.met others := by
            rcases List.mem_append.mp hk with hk | hk
            · exact List.mem_of_mem_filter hk
            · exact List.mem_of_mem_filter hk
          simp only [Function.comp_apply]
          rw [List.lookup_graph _ hmem]
          rfl

/-! ## `_by_type` -/

namespace Heap

omit [DecidableEq T] in
theorem map_kindOf_others (children : List O) (skipped : List T) (extra : List O) :
    (heap.others children skipped extra).map heap.kindOf =
      (children.map heap.kindOf).filter (fun kind => !heap.member skipped kind) ++ extra.map heap.kindOf := by
  rw [others, List.map_append, List.filter_map]
  rfl

omit [DecidableEq T] in
/-- The classes that `_next_level` passes to `_by_type` are those of what it sorts. -/
theorem union_kinds (children : List O) (skipped : List T) (extra : List O) :
    Grouping.union heap.same
        ((Grouping.distinct heap.same (children.map heap.kindOf)).filter fun kind => !heap.member skipped kind)
        (Grouping.distinct heap.same (extra.map heap.kindOf)) =
      Grouping.distinct heap.same ((heap.others children skipped extra).map heap.kindOf) := by
  have hcongr : ∀ t u, heap.same t u = true → (!heap.member skipped t) = !heap.member skipped u := by
    intro t u h
    rw [member_congr h]
  rw [Grouping.union_distinct heap.same_equivalence, Grouping.filter_distinct hcongr, map_kindOf_others]
  exact (Grouping.union_append [] _ _).symm

theorem distinct_of_apart {objects : List O} (h : heap.Apart objects) :
    Grouping.distinct heap.same (objects.map heap.kindOf) = heap.met objects :=
  Grouping.distinct_eq same_refl h

theorem member_of_apart {objects : List O} (h : heap.Apart objects) {kinds : List T} (hkinds : kinds ⊆ heap.met objects)
    {kind : T} (hkind : kind ∈ heap.met objects) : heap.member kinds kind = decide (kind ∈ kinds) := by
  rw [Bool.eq_iff_iff, decide_eq_true_iff]
  apply Grouping.any_same_iff same_refl
  apply h.mono
  intro t ht
  rcases List.mem_cons.mp ht with rfl | ht
  · exact mem_met.mp hkind
  · exact mem_met.mp (hkinds ht)

/-- The classes of few objects come after the groups that are there. -/
theorem collect_minors {objects : List O} (h : heap.Apart objects) :
    Grouping.collect heap.same heap.kindOf
        (((heap.met objects).filter (heap.isMajor objects)).map fun kind =>
          (kind, objects.filter fun o => decide (heap.kindOf o = kind)))
        (objects.filter fun o => !heap.member ((heap.met objects).filter (heap.isMajor objects)) (heap.kindOf o)) =
      heap.grouped objects := by
  generalize hmajors : (heap.met objects).filter (heap.isMajor objects) = majors
  have hsub : majors ⊆ heap.met objects := hmajors ▸ List.filter_subset_self _
  have hmember : ∀ o ∈ objects, heap.member majors (heap.kindOf o) = heap.isMajor objects (heap.kindOf o) := by
    intro o ho
    have hmet : heap.kindOf o ∈ heap.met objects := mem_met.mpr (List.mem_map_of_mem ho)
    rw [member_of_apart h hsub hmet, Bool.eq_iff_iff, decide_eq_true_iff, ← hmajors, List.mem_filter]
    exact and_iff_right hmet
  have hrest : objects.filter (fun o => !heap.member majors (heap.kindOf o)) =
      objects.filter fun o => !heap.isMajor objects (heap.kindOf o) := by
    apply List.filter_congr
    intro o ho
    rw [hmember o ho]
  have hapart : heap.Apart (objects.filter fun o => !heap.isMajor objects (heap.kindOf o)) :=
    h.mono (List.map_subset _ (List.filter_subset_self _))
  have hkinds : Grouping.distinct heap.same
      ((objects.filter fun o => !heap.isMajor objects (heap.kindOf o)).map heap.kindOf) =
        (heap.met objects).filter fun kind => !heap.isMajor objects kind := by
    have hcongr : ∀ t u, decide (t = u) = true → (!heap.isMajor objects t) = !heap.isMajor objects u := by
      intro t u heq
      rw [of_decide_eq_true heq]
    rw [distinct_of_apart hapart, met, met, Grouping.filter_distinct hcongr, List.filter_map]
    rfl
  have hpass : ∀ o ∈ objects.filter fun o => !heap.isMajor objects (heap.kindOf o),
      ∀ item ∈ majors.map fun kind => (kind, objects.filter fun o => decide (heap.kindOf o = kind)),
        heap.same item.1 (heap.kindOf o) = false := by
    intro o ho item hitem
    obtain ⟨ho, hminor⟩ := List.mem_filter.mp ho
    obtain ⟨kind, hkind, rfl⟩ := List.mem_map.mp hitem
    rw [← hmember o ho, Bool.not_eq_true', member, List.any_eq_false] at hminor
    exact Bool.eq_false_iff.mpr (hminor kind hkind)
  rw [hrest, Grouping.collect, ← List.append_nil (majors.map _), Grouping.build_append hpass]
  have hcollect := Grouping.collect_eq same_refl hapart
  rw [Grouping.collect] at hcollect
  rw [hcollect, hkinds, grouped, hmajors, List.map_append]
  congr 1
  apply List.map_congr_left
  intro kind hkind
  rw [List.filter_filter]
  congr 1
  apply List.filter_congr
  intro o ho
  cases hkindOf : decide (heap.kindOf o = kind) with
  | false => rfl
  | true =>
      rw [of_decide_eq_true hkindOf, (List.mem_filter.mp hkind).2]
      rfl

/-- Where no classes of few objects are left, there is nothing to collect. -/
theorem splitMajors_of_apart {objects : List O} (h : heap.Apart objects) :
    heap.splitMajors objects ((heap.met objects).map fun kind => (kind, (objects.map heap.kindOf).count kind)) =
      heap.grouped objects := by
  have hmajors : (((heap.met objects).map fun kind => (kind, (objects.map heap.kindOf).count kind)).filter
      fun kind => decide (kind.2 * major > objects.length)).map (·.1) = (heap.met objects).filter (heap.isMajor objects) := by
    rw [List.filter_map, List.map_map]
    exact List.map_id _
  rw [splitMajors]
  simp only [hmajors, List.length_map]
  split
  · exact collect_minors h
  · rename_i hlength
    have hall : ∀ kind ∈ heap.met objects, heap.isMajor objects kind = true :=
      List.length_filter_eq_length_iff.mp (Nat.le_antisymm (List.length_filter_le _ _) (Nat.le_of_not_lt hlength))
    have hnone : (heap.met objects).filter (fun kind => !heap.isMajor objects kind) = [] := by
      rw [List.filter_eq_nil_iff]
      intro kind hkind
      rw [hall kind hkind]
      exact Bool.false_ne_true
    rw [grouped, hnone, List.append_nil]

theorem byType_of_apart {objects : List O} (h : heap.Apart objects) :
    heap.byType objects (Grouping.distinct heap.same (objects.map heap.kindOf)) = heap.grouped objects := by
  have hcounts : Grouping.tally heap.same (objects.map heap.kindOf) =
      (heap.met objects).map fun kind => (kind, (objects.map heap.kindOf).count kind) := by
    rw [Grouping.tally_eq same_refl h, distinct_of_apart h]
  rw [distinct_of_apart h]
  unfold byType
  rw [hcounts]
  cases hmet : heap.met objects with
  | nil =>
      rw [← splitMajors_of_apart h, hmet]
      rfl
  | cons kind rest =>
      cases rest with
      | nil => rw [grouped_of_met_singleton hmet]
      | cons kind' rest =>
          rw [← splitMajors_of_apart h, hmet]
          rfl

theorem pairwise_splitMajors (heap : Heap O T) (objects : List O) {counts : List (T × Nat)}
    (h : (counts.map (·.1)).Pairwise fun t u => heap.same t u = false) :
    ((heap.splitMajors objects counts).map (·.1)).Pairwise fun t u => heap.same t u = false := by
  have hmajors : ((counts.filter fun kind => decide (kind.2 * major > objects.length)).map (·.1)).Pairwise
      fun t u => heap.same t u = false := h.sublist (List.filter_sublist.map _)
  rw [splitMajors]
  split
  · rw [Grouping.collect, Grouping.keys_build, List.map_map]
    apply Grouping.pairwise_union
    exact (List.map_id _).symm ▸ hmajors
  · rw [List.map_map]
    exact (List.map_id _).symm ▸ hmajors

/-- `_by_type` keeps no two groups of classes that are equal. -/
theorem pairwise_byType (heap : Heap O T) (objects : List O) (kinds : List T) :
    ((heap.byType objects kinds).map (·.1)).Pairwise fun t u => heap.same t u = false := by
  unfold byType
  split
  · exact List.pairwise_singleton _ _
  · split
    · exact List.pairwise_singleton _ _
    · apply pairwise_splitMajors heap
      rw [Grouping.tally, Grouping.keys_build, List.map_id]
      exact Grouping.pairwise_union List.Pairwise.nil _

theorem mem_keys_grouped {objects : List O} {kind : T} (h : kind ∈ objects.map heap.kindOf) :
    kind ∈ (heap.grouped objects).map (·.1) := by
  have hkeys : (heap.grouped objects).map (·.1) =
      (heap.met objects).filter (heap.isMajor objects) ++ (heap.met objects).filter fun kind => !heap.isMajor objects kind := by
    rw [grouped, List.map_map]
    exact List.map_id _
  rw [hkeys]
  cases hmajor : heap.isMajor objects kind with
  | true => exact List.mem_append_left _ (List.mem_filter.mpr ⟨mem_met.mpr h, hmajor⟩)
  | false => exact List.mem_append_right _ (List.mem_filter.mpr ⟨mem_met.mpr h, by rw [hmajor]; rfl⟩)

/-- `_by_type` groups by identity if and only if no two different classes are equal. -/
theorem byType_iff (objects : List O) :
    heap.byType objects (Grouping.distinct heap.same (objects.map heap.kindOf)) = heap.grouped objects ↔
      heap.Apart objects := by
  constructor
  · intro heq
    have hpairwise := heap.pairwise_byType objects (Grouping.distinct heap.same (objects.map heap.kindOf))
    rw [heq] at hpairwise
    have hapart := Grouping.apart_of_pairwise (fun _ _ => heap.same_equivalence.symm) hpairwise
    exact hapart.mono fun kind hkind => mem_keys_grouped hkind
  · exact byType_of_apart

end Heap

theorem splitLevel_spec {children : List O} {skipped : List T} {extra : List O} {groups : List (T × List O)}
    (h : splitLevel heap children skipped extra = some groups) :
    heap.Hashed children ∧ groups = heap.grouped (heap.others children skipped extra) := by
  obtain ⟨kept, hkept, rfl⟩ := Option.map_eq_some_iff.mp h
  obtain ⟨hplain, rfl⟩ := sift_spec hkept
  exact ⟨fun c hc => heap.hashable_of_plain _ (hplain c hc), groupsOf_eq _⟩

/-- An answer of `split_level` is right if and only if the classes of the inert can be hashed and no two different classes of
what is sorted are equal. -/
theorem splitLevel_iff {children : List O} {skipped : List T} {extra : List O} {groups : List (T × List O)}
    (h : splitLevel heap children skipped extra = some groups) :
    heap.splitByType children skipped extra = some groups ↔
      heap.Hashed extra ∧ heap.Apart (heap.others children skipped extra) := by
  obtain ⟨hchildren, rfl⟩ := splitLevel_spec h
  rw [Heap.splitByType, Heap.kinds_of_hashed hchildren]
  by_cases hextra : heap.Hashed extra
  · rw [Heap.kinds_of_hashed hextra, and_iff_right hextra, ← Heap.byType_iff, ← Heap.union_kinds]
    exact ⟨Option.some.inj, congrArg some⟩
  · rw [Heap.kinds_of_not_hashed hextra]
    refine iff_of_false ?_ fun hboth => hextra hboth.1
    intro hsome
    cases hsome

variable [DecidableEq K]

/-! ## New objects -/

/-- The objects of a group that have a key. -/
def having (key : O → K) (group : List O) (k : K) : List O := group.filter fun o => decide (key o = k)

theorem having_concat (key : O → K) (group : List O) (o : O) (k : K) :
    having key (group ++ [o]) k = having key group k ++ if k = key o then [o] else [] := by
  rw [having, List.filter_append, List.filter_cons, List.filter_nil]
  by_cases hk : k = key o
  · rw [if_pos hk, if_pos (decide_eq_true hk.symm)]
    rfl
  · rw [if_neg hk, if_neg fun heq => hk (of_decide_eq_true heq).symm]
    rfl

theorem having_eq_nil {key : O → K} {group : List O} {k : K} (h : k ∉ group.map key) : having key group k = [] := by
  rw [having, List.filter_eq_nil_iff]
  intro o ho hkey
  exact h (List.mem_map.mpr ⟨o, ho, of_decide_eq_true hkey⟩)

/-- The objects of a group by their keys, of those with one key the first. -/
def firsts (key : O → K) (group : List O) : List (K × O) :=
  Grouping.build (fun k k' => decide (k = k')) key (fun o first => first.getD o) [] group

theorem keys_firsts (key : O → K) (group : List O) :
    (firsts key group).map (·.1) = Grouping.distinct (fun k k' => decide (k = k')) (group.map key) :=
  Grouping.keys_build [] group

theorem mem_keys_firsts {key : O → K} {group : List O} {k : K} :
    k ∈ (firsts key group).map (·.1) ↔ k ∈ group.map key := by
  rw [keys_firsts]
  exact Grouping.mem_distinct_iff Grouping.decide_refl (Grouping.apart_decide _)

theorem upsert_getD (o : O) (k : K) (items : List (K × O)) :
    Grouping.upsert (fun k k' => decide (k = k')) (fun first => first.getD o) k items =
      if k ∈ items.map (·.1) then items else items ++ [(k, o)] := by
  induction items with
  | nil => rfl
  | cons item items ih =>
      obtain ⟨k', o'⟩ := item
      rw [Grouping.upsert, List.map_cons]
      by_cases hk : k' = k
      · rw [if_pos (decide_eq_true hk), if_pos (List.mem_cons.mpr (.inl hk.symm))]
        rfl
      · rw [if_neg fun heq => hk (of_decide_eq_true heq), ih, List.cons_append]
        simp only [List.mem_cons, Ne.symm hk, false_or]
        split
        · rfl
        · rfl

theorem firsts_concat (key : O → K) (group : List O) (o : O) : firsts key (group ++ [o]) =
    if key o ∈ group.map key then firsts key group else firsts key group ++ [(key o, o)] := by
  have hlast : firsts key (group ++ [o]) = Grouping.upsert (fun k k' => decide (k = k')) (fun first => first.getD o) (key o)
      (firsts key group) := List.foldl_append
  rw [hlast, upsert_getD]
  exact if_congr mem_keys_firsts rfl rfl

/-- A table that keeps one object of each key, if `pick` says which of a list. -/
theorem build_picked (o₀ : O) (pick : List O → Option O) (f : O → Option O → O) (hnil : pick [] = none)
    (hpick : ∀ objects o, pick (objects ++ [o]) = some (f o (pick objects))) (key : O → K) (group : List O) :
    Grouping.build (fun k k' => decide (k = k')) key f [] group =
      (Grouping.distinct (fun k k' => decide (k = k')) (group.map key)).map fun k =>
        (k, (pick (having key group k)).getD o₀) := by
  refine Grouping.build_eq (g := fun group k => (pick (having key group k)).getD o₀) Grouping.decide_refl ?_
    (Grouping.apart_decide _)
  intro group o k
  rw [having_concat]
  by_cases hk : k = key o
  · subst hk
    rw [if_pos rfl, if_pos rfl, hpick, Option.getD_some]
    by_cases hmem : key o ∈ group.map key
    · obtain ⟨o', ho', hkey⟩ := List.mem_map.mp hmem
      have hne : having key group (key o) ≠ [] :=
        List.ne_nil_of_mem (List.mem_filter.mpr ⟨ho', decide_eq_true hkey⟩)
      obtain ⟨objects, last, hlast⟩ := (List.eq_nil_or_concat (having key group (key o))).resolve_left hne
      rw [if_pos hmem, hlast, List.concat_eq_append, hpick, Option.getD_some]
    · rw [if_neg hmem, having_eq_nil hmem, hnil]
  · rw [if_neg hk, if_neg hk, List.append_nil]

theorem firsts_eq (o₀ : O) (key : O → K) (group : List O) : firsts key group =
    (Grouping.distinct (fun k k' => decide (k = k')) (group.map key)).map fun k =>
      (k, (having key group k).head?.getD o₀) := by
  refine build_picked o₀ List.head? (fun o first => first.getD o) rfl ?_ key group
  intro objects o
  cases objects with
  | nil => rfl
  | cons o' objects => rfl

/-- `new_in` keeps the first object of each key that is not in `seen`. -/
theorem newIn_eq (key : O → K) (group : List O) (seen : List K) : newIn key group seen =
    (((firsts key group).filter fun item => decide (item.1 ∉ seen)).map (·.2),
      seen ++ ((firsts key group).filter fun item => decide (item.1 ∉ seen)).map (·.1)) := by
  induction group using List.reverseRecOn with
  | nil => exact Prod.ext rfl (List.append_nil seen).symm
  | append_singleton group o ih =>
      have hlast : newIn key (group ++ [o]) seen =
          if key o ∈ (newIn key group seen).2 then newIn key group seen
          else ((newIn key group seen).1 ++ [o], (newIn key group seen).2 ++ [key o]) := by
        rw [newIn, List.foldl_append]
        rfl
      have hfresh : key o ∈ ((firsts key group).filter fun item => decide (item.1 ∉ seen)).map (·.1) ↔
          key o ∈ group.map key ∧ key o ∉ seen := by
        have hkeys : key o ∈ (firsts key group).map (·.1) ↔ key o ∈ group.map key := mem_keys_firsts
        rw [← hkeys]
        simp
      rw [hlast, firsts_concat]
      by_cases hmem : key o ∈ group.map key
      · have hin : key o ∈ (newIn key group seen).2 := by
          rw [ih, List.mem_append, hfresh]
          by_cases hseen : key o ∈ seen
          · exact .inl hseen
          · exact .inr ⟨hmem, hseen⟩
        rw [if_pos hin, if_pos hmem, ih]
      · by_cases hseen : key o ∈ seen
        · have hin : key o ∈ (newIn key group seen).2 := by
            rw [ih]
            exact List.mem_append_left _ hseen
          rw [if_pos hin, if_neg hmem, ih, List.filter_append]
          simp [hseen]
        · have hout : key o ∉ (newIn key group seen).2 := by
            rw [ih, List.mem_append, hfresh]
            exact fun h => h.elim hseen fun h => hmem h.1
          rw [if_neg hout, if_neg hmem, ih, List.filter_append]
          simp [hseen]

/-- Where the new objects are looked up by key, those found are the last ones instead. -/
theorem newIn_iff (key : O → K) (group : List O) (seen : List K) : foundIn key group seen = newIn key group seen ↔
    ∀ k, k ∉ seen → (having key group k).head? = (having key group k).getLast? := by
  cases group with
  | nil => exact iff_of_true (Prod.ext rfl (List.append_nil seen)) fun _ _ => rfl
  | cons o₀ group =>
      have hlasts := build_picked o₀ List.getLast? (fun o _ => o) rfl (fun _ _ => List.getLast?_concat) key (o₀ :: group)
      rw [newIn_eq, foundIn]
      simp only [firsts_eq o₀, hlasts, List.filter_map, List.map_map]
      rw [Prod.mk.injEq]
      refine (and_iff_left rfl).trans (List.map_inj_left.trans ?_)
      constructor
      · intro h k hk
        by_cases hmem : k ∈ (o₀ :: group).map key
        · have hne : having key (o₀ :: group) k ≠ [] := by
            obtain ⟨o, ho, hkey⟩ := List.mem_map.mp hmem
            exact List.ne_nil_of_mem (List.mem_filter.mpr ⟨ho, decide_eq_true hkey⟩)
          have hlook := h k (List.mem_filter.mpr
            ⟨(Grouping.mem_distinct_iff Grouping.decide_refl (Grouping.apart_decide _)).mpr hmem, decide_eq_true hk⟩)
          simp only [Function.comp_apply, List.head?_eq_some_head hne, List.getLast?_eq_some_getLast hne,
            Option.getD_some] at hlook
          rw [List.head?_eq_some_head hne, List.getLast?_eq_some_getLast hne, hlook]
        · rw [having_eq_nil hmem]
          rfl
      · intro h k hk
        simp only [Function.comp_apply]
        rw [h k (of_decide_eq_true (List.mem_filter.mp hk).2)]

end Cash.Held
