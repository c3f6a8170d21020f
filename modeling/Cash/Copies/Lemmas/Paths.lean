import Cash.Copies.Paths
import Cash.Copies.Lemmas.Walk
import Mathlib.Data.List.Nodup

/-!
# The paths of a tree, a level at a time

The containers of each level with the paths to them are worked out from the level above. The paths that `_path_to`
recovers from positions are these, and these are what can be followed.
-/

namespace Cash.Copies

variable {h : Heap} {leaves : List Ty} {wanted : List Nat}

/-! ## Steps -/

theorem follow_append (x : Val) (path : List Step) (s : Step) :
    h.follow x (path ++ [s]) = (h.follow x path).bind fun y => h.stepDown y s := by
  induction path generalizing x with
  | nil => simp only [List.nil_append, Heap.follow, Option.bind_some, Option.bind_fun_some]
  | cons t path ih =>
      rw [List.cons_append, Heap.follow, Heap.follow, Option.bind_assoc]
      congr 1
      funext y
      exact ih y

theorem find?_key {items : List (Atom × Val)} {i : Nat} {k : Atom} (hkeys : (items.map (·.1)).Nodup)
    (hk : (items.map (·.1))[i]? = some k) : items.find? (fun p => p.1 = k) = items[i]? := by
  induction items generalizing i with
  | nil => cases hk
  | cons p items ih =>
      rw [List.map_cons, List.nodup_cons] at hkeys
      cases i with
      | zero =>
          rw [List.map_cons, List.getElem?_cons_zero, Option.some.injEq] at hk
          rw [List.find?_cons_of_pos (by simpa using hk), List.getElem?_cons_zero]
      | succ i =>
          rw [List.map_cons, List.getElem?_cons_succ] at hk
          have hne : p.1 ≠ k := by
            rintro rfl
            exact hkeys.1 (List.mem_of_getElem? hk)
          rw [List.find?_cons_of_neg (by simpa using hne), List.getElem?_cons_succ]
          exact ih hkeys.2 hk

theorem keys_nodup (hs : h.Sound) (a : Nat) : (h.obj a).keys.Nodup := by
  cases hget : h[a]? with
  | none => simp [Heap.obj, hget, Obj.keys]
  | some o =>
      have := hs.keys o (List.mem_of_getElem? hget)
      simpa [Heap.obj, hget] using this

/-- The steps into a container are those of its items. -/
theorem stepDown_eq_some (hs : h.Sound) {a : Nat} {s : Step} {v : Val} :
    h.stepDown (.ref a) s = some v ↔ ∃ i, (h.obj a).items[i]? = some v ∧ s = stepTo h a i := by
  have hkeys := keys_nodup hs a
  cases ho : h.obj a with
  | dict items =>
      rw [ho] at hkeys
      change (items.map (·.1)).Nodup at hkeys
      cases s with
      | key k =>
          simp only [Heap.stepDown, ho, stepTo, Obj.items, Obj.keys]
          constructor
          · intro hv
            rw [Option.map_eq_some_iff] at hv
            obtain ⟨p, hp, rfl⟩ := hv
            have hpk : p.1 = k := by simpa using List.find?_some hp
            obtain ⟨i, hi⟩ := List.getElem?_of_mem (List.mem_of_find?_eq_some hp)
            refine ⟨i, ?_, ?_⟩
            · rw [List.getElem?_map, hi, Option.map_some]
            · rw [List.getElem?_map, hi, Option.map_some, hpk]
          · rintro ⟨i, hi, hk⟩
            rw [List.getElem?_map, Option.map_eq_some_iff] at hi
            obtain ⟨p, hp, rfl⟩ := hi
            rw [List.getElem?_map, hp, Option.map_some] at hk
            cases hk
            rw [find?_key hkeys (by rw [List.getElem?_map, hp, Option.map_some]), hp, Option.map_some]
      | item j =>
          simp only [Heap.stepDown, ho, stepTo, Obj.items, Obj.keys]
          constructor
          · intro hv
            cases hv
          · rintro ⟨i, hi, hj⟩
            rw [List.getElem?_map, Option.map_eq_some_iff] at hi
            obtain ⟨p, hp, rfl⟩ := hi
            rw [List.getElem?_map, hp] at hj
            cases hj
  | list items =>
      cases s with
      | key k => simp [Heap.stepDown, ho, stepTo, Obj.keys]
      | item j => simp [Heap.stepDown, ho, stepTo, Obj.keys, Obj.items]
  | tuple items =>
      cases s with
      | key k => simp [Heap.stepDown, ho, stepTo, Obj.keys]
      | item j => simp [Heap.stepDown, ho, stepTo, Obj.keys, Obj.items]

theorem length_keys_of_dict {items : List (Atom × Val)} : (Obj.dict items).keys.length = (Obj.dict items).items.length := by
  simp only [Obj.keys, Obj.items, List.length_map]

/-- Two items of a container are not one step away. -/
theorem stepTo_inj (hs : h.Sound) {a i j : Nat} (hi : i < (h.obj a).items.length) (hj : j < (h.obj a).items.length)
    (heq : stepTo h a i = stepTo h a j) : i = j := by
  have hkeys := keys_nodup hs a
  unfold stepTo at heq
  cases ho : h.obj a with
  | dict items =>
      rw [ho] at hi hj hkeys heq
      rw [← length_keys_of_dict] at hi hj
      rw [List.getElem?_eq_getElem hi, List.getElem?_eq_getElem hj, Step.key.injEq] at heq
      exact (hkeys.getElem_inj_iff).mp heq
  | list items =>
      rw [ho] at heq
      exact Step.item.inj heq
  | tuple items =>
      rw [ho] at heq
      exact Step.item.inj heq

/-! ## The levels, with the paths -/

/-- What the containers of a level hold, with the paths there. -/
def spread (h : Heap) (walked : List (List Step × Nat)) : List (List Step × Val) :=
  (walked.map fun w => (h.obj w.2).items.mapIdx fun i v => (w.1 ++ [stepTo h w.2 i], v)).flatten

/-- The containers among them. -/
def containers (items : List (List Step × Val)) : List (List Step × Nat) := items.filterMap fun p => p.2.ref?.map (p.1, ·)

/-- The containers so many levels down, with the paths there. -/
def walkDown (h : Heap) (a : Nat) : Nat → List (List Step × Nat)
  | 0 => [([], a)]
  | n + 1 => containers (spread h (walkDown h a n))

theorem mem_spread {walked : List (List Step × Nat)} {path : List Step} {v : Val} :
    (path, v) ∈ spread h walked ↔
      ∃ w ∈ walked, ∃ i, (h.obj w.2).items[i]? = some v ∧ path = w.1 ++ [stepTo h w.2 i] := by
  rw [spread, List.mem_flatten]
  constructor
  · rintro ⟨l, hl, hp⟩
    obtain ⟨w, hw, rfl⟩ := List.mem_map.mp hl
    obtain ⟨i, hi, heq⟩ := List.mem_mapIdx.mp hp
    cases heq
    exact ⟨w, hw, i, List.getElem?_eq_getElem hi, rfl⟩
  · rintro ⟨w, hw, i, hi, rfl⟩
    obtain ⟨hlt, rfl⟩ := List.getElem?_eq_some_iff.mp hi
    exact ⟨_, List.mem_map_of_mem hw, List.mem_mapIdx.mpr ⟨i, hlt, rfl⟩⟩

theorem mem_containers {items : List (List Step × Val)} {path : List Step} {a : Nat} :
    (path, a) ∈ containers items ↔ (path, Val.ref a) ∈ items := by
  rw [containers, List.mem_filterMap]
  constructor
  · rintro ⟨⟨q, v⟩, hv, heq⟩
    cases v with
    | atom x => cases heq
    | ref c =>
        cases heq
        exact hv
  · intro hv
    exact ⟨(path, .ref a), hv, rfl⟩

/-- The containers so many levels down are those that so many steps lead to. -/
theorem mem_walkDown (hs : h.Sound) {a b n : Nat} {path : List Step} :
    (path, b) ∈ walkDown h a n ↔ path.length = n ∧ h.follow (.ref a) path = some (.ref b) := by
  induction n generalizing path b with
  | zero =>
      rw [walkDown, List.mem_singleton, Prod.mk.injEq, List.length_eq_zero_iff]
      constructor
      · rintro ⟨rfl, rfl⟩
        exact ⟨rfl, rfl⟩
      · rintro ⟨rfl, hf⟩
        cases hf
        exact ⟨rfl, rfl⟩
  | succ n ih =>
      rw [walkDown, mem_containers, mem_spread]
      constructor
      · rintro ⟨⟨q, c⟩, hw, i, hi, rfl⟩
        obtain ⟨hlen, hq⟩ := ih.mp hw
        refine ⟨by rw [List.length_append, hlen, List.length_singleton], ?_⟩
        rw [follow_append, hq, Option.bind_some]
        exact (stepDown_eq_some hs).mpr ⟨i, hi, rfl⟩
      · rintro ⟨hlen, hf⟩
        have hne : path ≠ [] := List.ne_nil_of_length_eq_add_one hlen
        rw [← List.dropLast_append_getLast hne] at hf ⊢
        rw [follow_append, Option.bind_eq_some_iff] at hf
        obtain ⟨y, hy, hd⟩ := hf
        cases y with
        | atom x => cases hd
        | ref c =>
            obtain ⟨i, hi, hlast⟩ := (stepDown_eq_some hs).mp hd
            refine ⟨(path.dropLast, c), ih.mpr ⟨?_, hy⟩, i, hi, by rw [hlast]⟩
            rw [List.length_dropLast, hlen, Nat.add_sub_cancel]

theorem nodup_spread (hs : h.Sound) {walked : List (List Step × Nat)} (hw : (walked.map Prod.fst).Nodup) :
    ((spread h walked).map Prod.fst).Nodup := by
  rw [spread, List.map_flatten, List.nodup_flatten]
  refine ⟨?_, ?_⟩
  · simp only [List.map_map, List.mem_map, forall_exists_index, and_imp]
    rintro _ w _ rfl
    rw [Function.comp, List.nodup_iff_getElem?_ne_getElem?]
    intro i j hij hj heq
    simp only [List.length_map, List.length_mapIdx] at hj
    have hi := Nat.lt_trans hij hj
    simp only [List.getElem?_map, List.getElem?_mapIdx, List.getElem?_eq_getElem hi, List.getElem?_eq_getElem hj,
      Option.map_some, Option.some.injEq, List.append_cancel_left_eq, List.cons.injEq, and_true] at heq
    exact Nat.ne_of_lt hij (stepTo_inj hs hi hj heq)
  · rw [List.map_map, List.pairwise_map]
    refine (List.pairwise_map.mp hw).imp ?_
    intro w w' hne path hp hp'
    simp only [Function.comp, List.mem_map, List.mem_mapIdx] at hp hp'
    obtain ⟨_, ⟨i, _, rfl⟩, rfl⟩ := hp
    obtain ⟨_, ⟨j, _, rfl⟩, heq⟩ := hp'
    exact hne (List.append_inj_left' heq rfl).symm

theorem containers_sublist (items : List (List Step × Val)) :
    ((containers items).map Prod.fst).Sublist (items.map Prod.fst) := by
  induction items with
  | nil => exact List.Sublist.slnil
  | cons p items ih =>
      obtain ⟨q, v⟩ := p
      cases v with
      | atom x => exact ih.cons _
      | ref b => exact ih.cons_cons _

/-- No path is there twice. -/
theorem nodup_walkDown (hs : h.Sound) (a n : Nat) : ((walkDown h a n).map Prod.fst).Nodup := by
  induction n with
  | zero => exact List.nodup_singleton _
  | succ n ih => exact (nodup_spread hs ih).sublist (containers_sublist _)

/-! ## The levels of the walk -/

theorem map_snd_spread (walked : List (List Step × Nat)) :
    (spread h walked).map Prod.snd = (walked.map Prod.snd).flatMap fun a => (h.obj a).items := by
  rw [spread, List.map_flatten, List.map_map, List.flatMap_def, List.map_map]
  congr 2
  funext w
  refine List.ext_getElem? ?_
  intro i
  rw [Function.comp, Function.comp, List.getElem?_map, List.getElem?_mapIdx, Option.map_map]
  exact Option.map_id'

theorem map_compress {α β : Type} (f : α → β) (xs : List α) (bs : List Bool) :
    compress (xs.map f) bs = (compress xs bs).map f := by
  induction xs generalizing bs with
  | nil => rfl
  | cons x xs ih =>
      cases bs with
      | nil => rfl
      | cons b bs =>
          rw [List.map_cons, compress, compress, ih]
          cases b with
          | true => rfl
          | false => rfl

/-- The containers picked out of a level's items, with the paths. -/
theorem compress_spread (items : List (List Step × Val)) :
    let isNode := (items.map fun p => h.type p.2).map Ty.isNode
    compress (items.map Prod.fst) isNode = (containers items).map Prod.fst ∧
      refs (compress (items.map Prod.snd) isNode) = (containers items).map Prod.snd := by
  induction items with
  | nil => exact ⟨rfl, rfl⟩
  | cons p items ih =>
      obtain ⟨q, v⟩ := p
      simp only [List.map_cons, compress, type_isNode]
      cases v with
      | atom x => exact ih
      | ref b => exact ⟨congrArg (q :: ·) ih.1, congrArg (b :: ·) ih.2⟩

/-- Picked positions give the picked items. -/
theorem compress_range {α : Type} {xs : List α} {bs : List Bool} {i : Nat} {x : α} (hx : (compress xs bs)[i]? = some x) :
    ∃ j, (compress (List.range xs.length) bs)[i]? = some j ∧ xs[j]? = some x := by
  have hxs : xs.map some = (List.range xs.length).map fun j => xs[j]? := by
    refine List.ext_getElem (by rw [List.length_map, List.length_map, List.length_range]) ?_
    intro j hj hj'
    rw [List.length_map] at hj
    rw [List.getElem_map, List.getElem_map, List.getElem_range, List.getElem?_eq_getElem hj]
  have hmap := congrArg (fun l => (compress l bs)[i]?) hxs
  simp only [map_compress, List.getElem?_map, hx, Option.map_some] at hmap
  obtain ⟨j, hj, hj'⟩ := Option.map_eq_some_iff.mp hmap.symm
  exact ⟨j, hj, hj'⟩

/-! ### A level and the one below -/

theorem flat_of_walked (walked : List (List Step × Nat)) :
    (Level.of h (walked.map Prod.snd)).flat = (spread h walked).map Prod.snd := (map_snd_spread walked).symm

theorem types_of_walked (walked : List (List Step × Nat)) :
    (Level.of h (walked.map Prod.snd)).types = (spread h walked).map fun p => h.type p.2 := by
  rw [Level.of, ← map_snd_spread, List.map_map]
  rfl

/-- The level below one. -/
def Placed.below (h : Heap) (l : Placed) : Placed where
  here := Level.of h (refs (compress l.here.flat (l.here.types.map Ty.isNode)))
  positions := compress (List.range l.here.flat.length) (l.here.types.map Ty.isNode)

theorem Placed.below_here {l : Placed} {walked : List (List Step × Nat)}
    (hl : l.here = Level.of h (walked.map Prod.snd)) :
    (l.below h).here = Level.of h ((containers (spread h walked)).map Prod.snd) := by
  rw [Placed.below, hl, flat_of_walked, types_of_walked, (compress_spread (spread h walked)).2]

/-- There is no level below one whose items hold no container. -/
theorem any_isNode (walked : List (List Step × Nat)) :
    ((Level.of h (walked.map Prod.snd)).types.map Ty.isNode).any id = false ↔ containers (spread h walked) = [] := by
  rw [types_of_walked, List.map_map, containers, List.filterMap_eq_nil_iff, List.any_eq_false]
  constructor
  · rintro hnone ⟨path, v⟩ hv
    have hat := hnone _ (List.mem_map_of_mem hv)
    rw [Function.comp, type_isNode] at hat
    cases v with
    | atom x => rfl
    | ref b => exact absurd rfl hat
  · intro hnone b hb
    obtain ⟨⟨path, v⟩, hv, rfl⟩ := List.mem_map.mp hb
    have hat := hnone _ hv
    rw [Function.comp, type_isNode]
    cases v with
    | atom x => exact Bool.false_ne_true
    | ref b => cases hat

/-- The levels down to one, innermost first, are those of the containers walked to, and the steps up are those of
their paths. -/
structure Aligned (h : Heap) (l : Placed) (before : List Placed) (walked : List (List Step × Nat)) : Prop where
  here : l.here = Level.of h (walked.map Prod.snd)
  steps : ∀ {i w}, walked[i]? = some w → stepsUp h (l :: before) i = w.1.reverse

theorem Aligned.top (h : Heap) (a : Nat) : Aligned h ⟨Level.of h [a], []⟩ [] (walkDown h a 0) where
  here := rfl
  steps := by
    intro i w hw
    obtain ⟨hi, rfl⟩ := List.getElem?_eq_some_iff.mp hw
    obtain rfl : i = 0 := Nat.lt_one_iff.mp hi
    rfl

theorem Aligned.level {l : Placed} {before : List Placed} {walked : List (List Step × Nat)}
    (ha : Aligned h l before walked) : l.here.level = walked.map Prod.snd := by
  rw [ha.here]
  rfl

theorem Aligned.next {l : Placed} {before : List Placed} {walked : List (List Step × Nat)}
    (ha : Aligned h l before walked) : Aligned h (l.below h) (l :: before) (containers (spread h walked)) where
  here := Placed.below_here ha.here
  steps := by
    intro i w hw
    have hpath : ((containers (spread h walked)).map Prod.fst)[i]? = some w.1 := by
      rw [List.getElem?_map, hw, Option.map_some]
    rw [← (compress_spread (spread h walked)).1, ← types_of_walked, ← ha.here] at hpath
    -- The item of the level above that the container is, and the container that holds it.
    obtain ⟨flatAt, hflatAt, hitem⟩ := compress_range hpath
    rw [List.getElem?_map, Option.map_eq_some_iff] at hitem
    obtain ⟨p, hp, hpw⟩ := hitem
    obtain ⟨held, hheld, hp⟩ := Offsets.getElem?_flatten hp
    have hlengths : (walked.map fun w => (h.obj w.2).items.mapIdx fun i v => (w.1 ++ [stepTo h w.2 i], v)).map List.length =
        l.here.level.map fun a => (h.obj a).items.length := by
      rw [ha.level, List.map_map, List.map_map]
      congr 1
      funext w
      rw [Function.comp, Function.comp, List.length_mapIdx]
    rw [hlengths] at hheld hp
    rw [List.getElem?_map, Option.map_eq_some_iff] at hheld
    obtain ⟨u, hu, rfl⟩ := hheld
    rw [List.getElem?_mapIdx, Option.map_eq_some_iff] at hp
    obtain ⟨v, _, rfl⟩ := hp
    have hat : (l.below h).positions.getD i 0 = flatAt := by
      rw [List.length_map] at hflatAt
      rw [List.getD_eq_getElem?_getD, Placed.below, ha.here, flat_of_walked, List.length_map, ← ha.here, hflatAt,
        Option.getD_some]
    have hparent : l.here.level.getD (Offsets.listAt (l.here.level.map fun a => (h.obj a).items.length) flatAt) 0 = u.2 := by
      have hlevel := congrArg (fun level => level[Offsets.listAt (l.here.level.map fun a => (h.obj a).items.length) flatAt]?)
        ha.level
      simp only [List.getElem?_map, hu, Option.map_some] at hlevel
      rw [List.getD_eq_getElem?_getD, hlevel, Option.getD_some]
    rw [stepsUp, hat, ha.steps hu, hparent, ← hpw, List.reverse_append, List.reverse_singleton, List.singleton_append]

/-! ## What is found -/

/-- Paths found one after the other. -/
def Found.appendAll (found : Found) (walked : List (List Step × Nat)) : Found :=
  walked.foldl (fun found w => found.append w.2 w.1) found

theorem Found.getD_appendAll (found : Found) (walked : List (List Step × Nat)) (a : Nat) :
    (found.appendAll walked).getD a [] = found.getD a [] ++ (walked.filter (·.2 = a)).map Prod.fst := by
  induction walked generalizing found with
  | nil => exact (List.append_nil _).symm
  | cons w walked ih =>
      rw [Found.appendAll, List.foldl_cons]
      refine (ih _).trans ?_
      rw [Found.append, Dict.getD_insert]
      by_cases hw : w.2 = a
      · subst hw
        rw [if_pos rfl, List.filter_cons_of_pos (by simp), List.map_cons, List.append_assoc, List.singleton_append]
      · rw [if_neg (Ne.symm hw), List.filter_cons_of_neg (by simpa using hw)]

theorem Found.mem_appendAll {found : Found} {walked : List (List Step × Nat)} {a : Nat} :
    a ∈ found.appendAll walked ↔ a ∈ found ∨ ∃ w ∈ walked, w.2 = a := by
  induction walked generalizing found with
  | nil => simp [Found.appendAll]
  | cons w walked ih =>
      rw [Found.appendAll, List.foldl_cons]
      refine Iff.trans ih ?_
      rw [Found.append, AList.mem_insert, List.exists_mem_cons_iff, or_assoc, or_left_comm, eq_comm]

/-- The hits of a level are the containers walked to that are wanted, and their paths are those. -/
theorem Aligned.hits {l : Placed} {before : List Placed} {walked : List (List Step × Nat)}
    (ha : Aligned h l before walked) (found : Found) :
    (l.hits wanted).foldl (fun found p => found.append p.1 (pathTo h (l :: before) p.2)) found =
      found.appendAll (walked.filter (·.2 ∈ wanted)) := by
  have hwalked : walked = l.here.level.zipIdx.map fun p => (pathTo h (l :: before) p.2, p.1) := by
    refine List.ext_getElem? ?_
    intro i
    rw [List.getElem?_map, List.getElem?_zipIdx, ha.level, List.getElem?_map]
    cases hw : walked[i]? with
    | none => rfl
    | some w =>
        rw [Option.map_some, Option.map_some, Option.map_some, pathTo, Nat.zero_add, ha.steps hw, List.reverse_reverse]
  conv_rhs => rw [hwalked]
  rw [Found.appendAll, List.filter_map, List.foldl_map]
  rfl

/-- The levels come to an end, and what is found in them is what is walked to. -/
theorem collect_eq (wanted : List Nat) {a n m : Nat} {l : Placed} {before levels : List Placed} (ha : Aligned h l before (walkDown h a m))
    (hlevels : orderedLevelsFrom leaves h n l.here.level l.positions = some levels) (found : Found) :
    walkDown h a (m + levels.length) = [] ∧ collect h wanted before levels found =
      found.appendAll (((List.range' m levels.length).flatMap (walkDown h a)).filter (·.2 ∈ wanted)) := by
  induction n generalizing m l before levels found with
  | zero => cases hlevels
  | succ n ih =>
      have hl : (⟨Level.of h l.here.level, l.positions⟩ : Placed) = l := by rw [ha.level, ← ha.here]
      have hhere : Level.of h l.here.level = l.here := congrArg Placed.here hl
      rw [orderedLevelsFrom, hhere] at hlevels
      split at hlevels
      · cases hlevels
      split at hlevels
      · cases hlevels
      split at hlevels
      · rename_i hany
        cases hlevels
        rw [Bool.not_eq_true', ha.here, any_isNode] at hany
        refine ⟨hany, ?_⟩
        rw [collect, collect, ha.hits, List.length_singleton, List.range'_one, List.flatMap_singleton]
      · rw [Option.map_eq_some_iff] at hlevels
        obtain ⟨rest, hrest, rfl⟩ := hlevels
        obtain ⟨hend, hcollect⟩ := ih (m := m + 1) (l := l.below h) ha.next hrest
          (found.appendAll ((walkDown h a m).filter (·.2 ∈ wanted)))
        rw [List.length_cons, Nat.add_comm _ 1, ← Nat.add_assoc]
        refine ⟨hend, ?_⟩
        rw [collect, ha.hits, hcollect, Found.appendAll, Found.appendAll, Found.appendAll, ← List.foldl_append,
          ← List.filter_append, Nat.add_comm 1, List.range'_succ, List.flatMap_cons]

/-! ## JSON-like data -/

/-- JSON-like data is walked to its end. -/
theorem isSome_orderedLevelsFrom (hs : h.Sound) {a n m : Nat} (hjson : JsonLike h leaves (.ref a))
    (hn : m + n = Plain.maxLevels) (hwalked : walkDown h a m ≠ []) (positions : List Nat) :
    (orderedLevelsFrom leaves h n ((walkDown h a m).map Prod.snd) positions).isSome = true := by
  induction n generalizing m positions with
  | zero =>
      obtain ⟨⟨path, b⟩, hpath⟩ := List.exists_mem_of_ne_nil _ hwalked
      obtain ⟨hlen, hf⟩ := (mem_walkDown hs).mp hpath
      have := hjson.depth path b hf
      omega
  | succ n ih =>
      have hkeys : (Level.of h ((walkDown h a m).map Prod.snd)).keyTypes.all (· ∈ leaves) = true := by
        simp only [Level.of, List.all_eq_true, List.mem_flatMap, List.mem_map, decide_eq_true_eq]
        rintro _ ⟨_, ⟨⟨path, b⟩, hpath, rfl⟩, k, hk, rfl⟩
        exact hjson.keys path b ((mem_walkDown hs).mp hpath).2 k hk
      have htypes : (Level.of h ((walkDown h a m).map Prod.snd)).types.all (fun t => t ∈ leaves || t.isNode) = true := by
        rw [types_of_walked]
        simp only [List.all_eq_true, List.mem_map, Bool.or_eq_true, decide_eq_true_eq]
        rintro _ ⟨⟨path, v⟩, hv, rfl⟩
        obtain ⟨⟨q, b⟩, hw, i, hi, rfl⟩ := mem_spread.mp hv
        refine hjson.types (q ++ [stepTo h b i]) v ?_
        rw [follow_append, ((mem_walkDown hs).mp hw).2, Option.bind_some]
        exact (stepDown_eq_some hs).mpr ⟨i, hi, rfl⟩
      rw [orderedLevelsFrom]
      simp only [hkeys, htypes, Bool.not_true, Bool.false_eq_true, if_false]
      split
      · rfl
      · rename_i hany
        rw [Bool.not_eq_true', any_isNode] at hany
        rw [Option.isSome_map]
        have hbelow : refs (compress (Level.of h ((walkDown h a m).map Prod.snd)).flat
            ((Level.of h ((walkDown h a m).map Prod.snd)).types.map Ty.isNode)) = (walkDown h a (m + 1)).map Prod.snd := by
          rw [flat_of_walked, types_of_walked, (compress_spread (spread h (walkDown h a m))).2]
          rfl
        rw [hbelow]
        exact ih (m := m + 1) (by omega) hany _

/-! ## The paths found -/

theorem walkDown_eq_nil (h : Heap) {a n m : Nat} (hnil : walkDown h a n = []) (hle : n ≤ m) : walkDown h a m = [] := by
  induction m, hle using Nat.le_induction with
  | base => exact hnil
  | succ m _ ih =>
      rw [walkDown, ih]
      rfl

/-- The paths to a container, over all levels. -/
def pathsTo (h : Heap) (a : Nat) (count : Nat) (b : Nat) : List (List Step) :=
  (((List.range' 0 count).flatMap (walkDown h a)).filter (·.2 = b)).map Prod.fst

theorem mem_pathsTo (hs : h.Sound) {a b count : Nat} (hend : walkDown h a count = []) {path : List Step} :
    path ∈ pathsTo h a count b ↔ h.follow (.ref a) path = some (.ref b) := by
  simp only [pathsTo, List.mem_map, List.mem_filter, List.mem_flatMap, decide_eq_true_eq]
  constructor
  · rintro ⟨⟨q, c⟩, ⟨⟨n, _, hw⟩, rfl⟩, rfl⟩
    exact ((mem_walkDown hs).mp hw).2
  · intro hf
    have hw : (path, b) ∈ walkDown h a path.length := (mem_walkDown hs).mpr ⟨rfl, hf⟩
    have hlt : path.length < count := by
      by_contra hle
      rw [walkDown_eq_nil h hend (Nat.le_of_not_lt hle)] at hw
      cases hw
    exact ⟨(path, b), ⟨⟨path.length, by rw [List.mem_range'_1]; omega, hw⟩, rfl⟩, rfl⟩

theorem nodup_pathsTo (hs : h.Sound) (a count b : Nat) : (pathsTo h a count b).Nodup := by
  have hall : (((List.range' 0 count).flatMap (walkDown h a)).map Prod.fst).Nodup := by
    rw [List.map_flatMap, List.nodup_flatMap]
    refine ⟨fun n _ => nodup_walkDown hs a n, (List.nodup_range').imp ?_⟩
    intro n m hne path hn hm
    obtain ⟨⟨q, c⟩, hq, rfl⟩ := List.mem_map.mp hn
    obtain ⟨⟨q', c'⟩, hq', heq⟩ := List.mem_map.mp hm
    have hlen := ((mem_walkDown hs).mp hq).1
    have hlen' := ((mem_walkDown hs).mp hq').1
    rw [show q' = q from heq, hlen] at hlen'
    exact hne hlen'
  exact hall.sublist (List.filter_sublist.map _)

/-- What is found of levels that come to an end. -/
theorem mem_found (hs : h.Sound) {a b count : Nat} (hend : walkDown h a count = []) :
    b ∈ (∅ : Found).appendAll (((List.range' 0 count).flatMap (walkDown h a)).filter (·.2 ∈ wanted)) ↔
      b ∈ wanted ∧ ∃ path, h.follow (.ref a) path = some (.ref b) := by
  rw [Found.mem_appendAll, or_iff_right (AList.notMem_empty _)]
  constructor
  · rintro ⟨⟨path, c⟩, hw, rfl⟩
    obtain ⟨hw, hwanted⟩ := List.mem_filter.mp hw
    obtain ⟨n, _, hw⟩ := List.mem_flatMap.mp hw
    exact ⟨of_decide_eq_true hwanted, path, ((mem_walkDown hs).mp hw).2⟩
  · rintro ⟨hwanted, path, hf⟩
    rw [← mem_pathsTo hs hend, pathsTo, List.mem_map] at hf
    obtain ⟨w, hw, rfl⟩ := hf
    obtain ⟨hw, hb⟩ := List.mem_filter.mp hw
    have hb := of_decide_eq_true hb
    exact ⟨w, List.mem_filter.mpr ⟨hw, decide_eq_true (hb ▸ hwanted)⟩, hb⟩

theorem getD_found {a b : Nat} (count : Nat) (hb : b ∈ wanted) :
    ((∅ : Found).appendAll (((List.range' 0 count).flatMap (walkDown h a)).filter (·.2 ∈ wanted))).getD b [] =
      pathsTo h a count b := by
  rw [Found.getD_appendAll, pathsTo, List.filter_filter]
  refine (List.nil_append _).trans (congrArg _ (List.filter_congr ?_))
  intro w _
  by_cases hw : w.2 = b
  · rw [hw, decide_eq_true rfl, decide_eq_true hb, Bool.and_self]
  · rw [decide_eq_false hw, Bool.false_and]

end Cash.Copies
