import Cash.Copies.Lemmas.Plain
import Mathlib.Data.List.NodupEquivFin
import Cash.Copies.Lemmas.Paths

/-!
# Stored copies
-/

namespace Cash.Copies

/-!
## What `copy_by_plan` returns

The parts of a dict are copied one after the other, each on the heap the copy before it left. No list or dict is in
two of them, so the copies have none in common either.
-/

section

variable {rt rt' : Runtime} {h h' mid : Heap} {value copy : Val}

/-- The value, which was there before the heap grew to `mid`, has been copied since. -/
def CopiedSince (h mid h' : Heap) (x y : Val) : Prop :=
  mid <+: h' ∧ ∃ R, Pairs h h' mid.length R ∧ Lift R x y ∧ ∀ a b, R a b → Reached h x a

theorem Copied.since (hx : h.Closed value) (hk : h <+: mid) (hkm : mid <+: h')
    (hc : Copied mid h' mid.length value copy) : CopiedSince h mid h' value copy := ⟨hkm, hc.reached hx hk⟩

theorem kids_of_grown (hx : h.Closed value) (hk : h <+: mid) : mid.kids value = h.kids value := by
  cases value with
  | atom a => rfl
  | ref a => rw [Heap.kids_ref, Heap.kids_ref, Heap.obj_of_grown hk hx.ref_lt]

theorem type_of_grown (hx : h.Closed value) (hk : h <+: mid) : mid.type value = h.type value := by
  cases value with
  | atom a => rfl
  | ref a => rw [Heap.type, Heap.type, Heap.obj_of_grown hk hx.ref_lt]

/-! ### Rows that are dicts -/

theorem count_refs (flat : List Val) (a : Nat) : (refs flat).count a = flat.count (.ref a) := by
  induction flat with
  | nil => rfl
  | cons v flat ih =>
    cases v with
    | atom c => rw [refs_atom, ih, List.count_cons_of_ne (by simp)]
    | ref c =>
      rw [refs_ref, List.count_cons, List.count_cons, ih]
      simp

/-- What is reached once is held once. -/
theorem NoneTwice.count_le_one (hone : NoneTwice h value) {a : Nat} (hw : h.isWritable a = true) :
    (refs (h.kids value)).count a ≤ 1 := by
  rw [count_refs]
  by_contra hmany
  obtain ⟨i, j, hij, hi, hj⟩ := List.duplicate_iff_exists_distinct_get.mp
    (List.duplicate_iff_two_le_count.mpr (by omega : 2 ≤ (h.kids value).count (.ref a)))
  have hplace : ∀ k : Fin (h.kids value).length, Val.ref a = (h.kids value).get k →
      h.valueAt value [k.val] = some (.ref a) := by
    intro k hk
    refine place_cons_eq_some.mpr ⟨.ref a, ?_, rfl⟩
    rw [hk]
    exact List.getElem?_eq_getElem k.isLt
  have heq := hone _ _ a hw (hplace i hi) (hplace j hj)
  have hval : i.val = j.val := (List.cons.inj heq).1
  omega

theorem copied_rows (hx : h.Closed value) (hone : NoneTwice h value) (hlist : h.type value = .list)
    (hdicts : ∀ x ∈ h.kids value, h.type x = .dict) (hleaves : ∀ x ∈ h.kids value, ∀ y ∈ h.kids x, (h.type y).isCopyLeaf) :
    let rows := copyEach h (refs (h.kids value))
    h <+: rows.1 ++ [.list (rows.2.map .ref)] ∧
      Copied h (rows.1 ++ [.list (rows.2.map .ref)]) h.length value (.ref rows.1.length) := by
  intro rows
  cases value with
  | atom a => cases hlist
  | ref a =>
    have hlt : ∀ b ∈ refs (h.obj a).items, b < h.length := fun b hb => (hx.item (mem_refs.mp hb)).ref_lt
    have hshares : ∀ b ∈ refs (h.obj a).items, Shares (fun _ _ => False) (h.obj b) := by
      intro b hb
      refine shares_of_refs_eq_nil (refs_eq_nil_of_leaves (h := h) fun v hv => ?_)
      exact isNode_of_isCopyLeaf (hleaves (.ref b) (mem_refs.mp hb) v hv)
    have hc : LevelCopy h h rows.1 (fun _ _ => False) _ (refs (h.obj a).items) rows.2 :=
      copyEach_spec List.prefix_rfl hlt hshares
    obtain ⟨R, hp, hR, hdom⟩ := hc.pairs hlt fun b hb => hone.count_le_one hb
    have hlength : (h.obj a).items.length = (refs (h.obj a).items).length := by
      rw [Heap.kids_ref] at hdicts
      generalize (h.obj a).items = items at hdicts
      induction items with
      | nil => rfl
      | cons v items ih =>
        cases v with
        | atom c => cases hdicts _ (List.mem_cons_self ..)
        | ref c =>
          rw [refs_ref, List.length_cons, List.length_cons, ih fun v hv => hdicts v (List.mem_cons_of_mem _ hv)]
    refine ⟨hc.grown.trans (List.prefix_append _ _), _, hp.top hc.grown.length_le hx.ref_lt ?_ ?_, .ref (.inl ⟨rfl, rfl⟩)⟩
    · intro b _ hab
      have hdict := hdicts (.ref a) (mem_refs.mp (hdom a b hab))
      rw [hlist] at hdict
      cases hdict
    · have hitems := forall₂_of_length hR (hlength.trans hR.length_eq)
      simp only [Heap.type] at hlist
      cases hobj : h.obj a with
      | list items =>
        rw [hobj] at hitems
        exact ⟨rfl, rfl, hitems⟩
      | tuple items | dict items =>
        rw [hobj] at hlist
        cases hlist

/-! ### Parts -/

theorem copyByPlan_spine (hx : h.Closed value) (hk : h <+: mid)
    (hcopy : copyByPlan rt' mid value .spine = some (h', copy)) : CopiedSince h mid h' value copy := by
  rw [copyByPlan] at hcopy
  obtain ⟨r, hr, heq⟩ := Option.map_eq_some_iff.mp hcopy
  cases heq
  obtain ⟨hkm, hc⟩ := spineCopy_spec (hx.of_grown hk) (.inl rfl) hr
  exact hc.since hx hk hkm

theorem copyByPlan_planOf (hx : h.Closed value) (hone : NoneTwice h value) (hk : h <+: mid)
    (hcopy : copyByPlan rt' mid value (planOf rt h value) = some (h', copy)) : CopiedSince h mid h' value copy := by
  have hxm := hx.of_grown hk
  unfold planOf at hcopy
  split at hcopy
  · rename_i hleaf
    cases hcopy
    cases value with
    | atom a => exact Copied.since hx hk List.prefix_rfl (.atom a)
    | ref a =>
      have hnode := isNode_of_isCopyLeaf hleaf
      rw [type_isNode] at hnode
      cases hnode
  · split at hcopy
    · split at hcopy
      · rename_i himm
        obtain ⟨hseq, hitems⟩ := immutableBelow_spec himm
        split at hcopy
        · rename_i htuple
          cases hcopy
          have hf : Frozen h value := frozen_of_immutableBelow himm (by rw [eq_of_beq htuple]; decide)
          exact Copied.since hx hk List.prefix_rfl (copied_share hxm (hf.of_grown hx hk))
        · rename_i htuple
          cases hcopy
          have hlist : h.type value = .list := by
            cases ht : h.type value with
            | list => rfl
            | tuple =>
              rw [ht] at htuple
              exact absurd rfl htuple
            | dict | leaf kind =>
              rw [ht] at hseq
              cases hseq
          refine Copied.since hx hk (List.prefix_append _ _)
            (copied_newList hxm (by rw [type_of_grown hx hk, hlist]) ?_)
          rw [kids_of_grown hx hk]
          exact fun v hv => (hitems v hv).of_grown (hx.kid hv) hk
      · split at hcopy
        · rename_i hrows
          simp only [Bool.and_eq_true, List.all_eq_true, beq_iff_eq] at hrows
          obtain ⟨⟨⟨hlist, -⟩, hdicts⟩, hleaves⟩ := hrows
          cases hcopy
          have hone' : NoneTwice mid value := by
            intro p q a hw hp hq
            rw [hx.valueAt_of_grown hk] at hp hq
            rw [Heap.isWritable_of_grown hk (hx.lt ⟨p, hp⟩)] at hw
            exact hone p q a hw hp hq
          have hkids := kids_of_grown hx hk
          obtain ⟨hkm, hc⟩ := copied_rows hxm hone' (by rw [type_of_grown hx hk, hlist])
            (fun x hmem => by
              rw [hkids] at hmem
              rw [type_of_grown (hx.kid hmem) hk, hdicts x hmem])
            fun x hmem y hy => by
              rw [hkids] at hmem
              rw [kids_of_grown (hx.kid hmem) hk] at hy
              rw [type_of_grown ((hx.kid hmem).kid hy) hk]
              exact hleaves y (List.mem_flatMap.mpr ⟨x, hmem, hy⟩)
          exact hc.since hx hk hkm
        · exact copyByPlan_spine hx hk hcopy
    · exact copyByPlan_spine hx hk hcopy

/-- No list or dict is reached from two of the values. -/
def Apart (h : Heap) (values : List Val) : Prop :=
  values.Pairwise fun x y => ∀ a, h.isWritable a = true → Reached h x a → ¬ Reached h y a

theorem NoneTwice.apart (hone : NoneTwice h value) : Apart h (h.kids value) := by
  refine List.pairwise_iff_getElem.mpr ?_
  rintro i j hi hj hij a hw ⟨p, hp⟩ ⟨q, hq⟩
  have heq := hone (i :: p) (j :: q) a hw (place_cons_eq_some.mpr ⟨_, List.getElem?_eq_getElem hi, hp⟩)
    (place_cons_eq_some.mpr ⟨_, List.getElem?_eq_getElem hj, hq⟩)
  have hval := (List.cons.inj heq).1
  omega

theorem NoneTwice.kid (hone : NoneTwice h value) {x : Val} (hx : x ∈ h.kids value) : NoneTwice h x := by
  intro p q a hw hp hq
  obtain ⟨i, hi⟩ := List.mem_iff_getElem?.mp hx
  have heq := hone (i :: p) (i :: q) a hw (place_cons_eq_some.mpr ⟨x, hi, hp⟩) (place_cons_eq_some.mpr ⟨x, hi, hq⟩)
  exact (List.cons.inj heq).2

theorem lookup_of_nodup {items : List (Atom × Val)} (hn : (items.map (·.1)).Nodup) {p : Atom × Val} (hp : p ∈ items) :
    items.lookup p.1 = some p.2 := by
  induction items with
  | nil => cases hp
  | cons q items ih =>
    obtain ⟨hq, hn⟩ := List.nodup_cons.mp hn
    rcases List.mem_cons.mp hp with rfl | hp
    · rw [List.lookup_cons, beq_self_eq_true]
    · have hne : p.1 ≠ q.1 := by
        intro heq
        exact hq (List.mem_map.mpr ⟨p, hp, heq⟩)
      rw [List.lookup_cons, beq_false_of_ne hne]
      exact ih hn hp

theorem keys_eq {P : Atom × Val → Atom × Val → Prop} {xs ys : List (Atom × Val)}
    (hxy : List.Forall₂ (fun p q => q.1 = p.1 ∧ P p q) xs ys) : ys.map (·.1) = xs.map (·.1) := by
  induction hxy with
  | nil => rfl
  | cons hpq _ ih => rw [List.map_cons, List.map_cons, hpq.1, ih]

/-- The items of a dict are copied in turn. -/
theorem copyParts_spec (items rest : List (Atom × Val)) {plan : Val → Plan} {copied : List (Atom × Val)}
    (hlookup : ∀ p ∈ rest, items.lookup p.1 = some p.2) (hclosed : ∀ p ∈ rest, h.Closed p.2)
    (hapart : Apart h (rest.map (·.2))) (hk : h <+: mid)
    (hplan : ∀ p ∈ rest, ∀ {mid h' copy}, h <+: mid → copyByPlan rt' mid p.2 (plan p.2) = some (h', copy) →
      CopiedSince h mid h' p.2 copy)
    (hcopy : copyParts rt' mid items (rest.map fun p => (p.1, plan p.2)) = some (h', copied)) :
    mid <+: h' ∧ ∃ R, Pairs h h' mid.length R ∧ List.Forall₂ (fun p q => q.1 = p.1 ∧ Lift R p.2 q.2) rest copied ∧
      ∀ a b, R a b → ∃ x ∈ rest.map (·.2), Reached h x a := by
  induction rest generalizing mid copied with
  | nil =>
    cases hcopy
    exact ⟨List.prefix_rfl, fun _ _ => False, ⟨False.elim, False.elim, False.elim, False.elim, False.elim⟩, .nil,
      fun _ _ => False.elim⟩
  | cons p rest ih =>
    have hp : p ∈ p :: rest := List.mem_cons_self ..
    have hrest : ∀ q ∈ rest, q ∈ p :: rest := fun q hq => List.mem_cons_of_mem _ hq
    obtain ⟨hfirst, hapart⟩ := List.pairwise_cons.mp hapart
    rw [List.map_cons, copyParts, hlookup p hp] at hcopy
    have hpart : ∃ h₁ copy copied', CopiedSince h mid h₁ p.2 copy ∧
        copyParts rt' h₁ items (rest.map fun p => (p.1, plan p.2)) = some (h', copied') ∧
        copied = (p.1, copy) :: copied' := by
      simp only at hcopy
      split at hcopy
      · rename_i h₁ copy hone
        obtain ⟨r, hr, heq⟩ := Option.map_eq_some_iff.mp hcopy
        cases heq
        exact ⟨h₁, copy, r.2, hplan p hp hk hone, hr, rfl⟩
      · split at hcopy
        · rename_i hnone
          obtain ⟨r, hr, heq⟩ := Option.map_eq_some_iff.mp hcopy
          cases heq
          refine ⟨mid, p.2, r.2, ?_, hr, rfl⟩
          cases hv : p.2 with
          | atom a => exact Copied.since (by rw [← hv]; exact hclosed p hp) hk List.prefix_rfl (.atom a)
          | ref a =>
            rw [hv, isNone] at hnone
            have hnode := type_isNode (h := mid) (.ref a)
            rw [eq_of_beq hnone] at hnode
            cases hnode
        · cases hcopy
    obtain ⟨h₁, copy, copied', ⟨hk₁, R, hR, hpair, hRr⟩, hcopied, rfl⟩ := hpart
    obtain ⟨hk₂, S, hS, hitems, hSr⟩ := ih (fun q hq => hlookup q (hrest q hq)) (fun q hq => hclosed q (hrest q hq)) hapart
      (hk.trans hk₁) (fun q hq => hplan q (hrest q hq)) hcopied
    refine ⟨hk₁.trans hk₂, fun a b => R a b ∨ S a b, hR.union hS hk₂ hk₁.length_le le_rfl ?_, ?_, ?_⟩
    · intro a b c hw hab hac
      obtain ⟨x, hx, hr⟩ := hSr a c hac
      exact hfirst x hx a hw (hRr a b hab) hr
    · refine .cons ⟨rfl, hpair.mono fun _ _ => .inl⟩ (hitems.imp ?_)
      rintro q r ⟨hkey, hqr⟩
      exact ⟨hkey, hqr.mono fun _ _ => .inr⟩
    · rintro a b (hab | hab)
      · exact ⟨p.2, List.mem_cons_self .., hRr a b hab⟩
      · obtain ⟨x, hx, hr⟩ := hSr a b hab
        exact ⟨x, List.mem_cons_of_mem _ hx, hr⟩

theorem copyByPlan_spec {depth : Nat} (hx : h.Closed value) (hone : NoneTwice h value) (hk : h <+: mid)
    (hcopy : copyByPlan rt' mid value (copyPlan rt h depth value) = some (h', copy)) :
    CopiedSince h mid h' value copy := by
  induction depth generalizing value mid h' copy with
  | zero => exact copyByPlan_planOf hx hone hk hcopy
  | succ depth ih =>
    cases value with
    | atom a => exact copyByPlan_planOf hx hone hk hcopy
    | ref a =>
      rw [copyPlan] at hcopy
      split at hcopy
      · rename_i items hobj
        split at hcopy
        · have hkids : h.kids (.ref a) = items.map (·.2) := by rw [Heap.kids_ref, hobj]; rfl
          have hmid : dictItems mid (.ref a) = items := by
            simp only [dictItems]
            rw [Heap.obj_of_grown hk hx.ref_lt, hobj]
          have hnodup : (items.map (·.1)).Nodup := by
            have hkeys := hx.keys (.self h a)
            rw [hobj] at hkeys
            exact hkeys
          rw [copyByPlan, hmid] at hcopy
          obtain ⟨r, hr, heq⟩ := Option.map_eq_some_iff.mp hcopy
          cases heq
          have hkid : ∀ p ∈ items, p.2 ∈ h.kids (.ref a) := fun p hp => hkids ▸ List.mem_map_of_mem hp
          have hapart := hone.apart
          rw [hkids] at hapart
          obtain ⟨hk', R, hR, hitems, hRr⟩ := copyParts_spec items items (fun p hp => lookup_of_nodup hnodup hp)
            (fun p hp => hx.kid (hkid p hp)) hapart hk
            (fun p hp {_ _ _} hkm hc => ih (hx.kid (hkid p hp)) (hone.kid (hkid p hp)) hkm hc) hr
          have hRa : ∀ b, h.isWritable a = true → ¬ R a b := by
            intro b hw hab
            obtain ⟨x, hx', p, hp⟩ := hRr a b hab
            rw [← hkids] at hx'
            obtain ⟨i, hi⟩ := List.mem_iff_getElem?.mp hx'
            cases hone [] (i :: p) a hw rfl (place_cons_eq_some.mpr ⟨x, hi, hp⟩)
          refine ⟨hk'.trans (List.prefix_append _ _), _, hR.top hk'.length_le hx.ref_lt hRa ?_, .ref (.inl ⟨rfl, rfl⟩), ?_⟩
          · rw [hobj]
            refine ⟨rfl, ?_, ?_⟩
            · exact keys_eq hitems
            · rw [Obj.items, Obj.items, List.forall₂_map_left_iff, List.forall₂_map_right_iff]
              exact hitems.imp fun _ _ hpq => hpq.2
          · rintro c d (⟨rfl, -⟩ | hcd)
            · exact .self h c
            · obtain ⟨x, hx', hr⟩ := hRr c d hcd
              exact hr.of_kid (by rw [hkids]; exact hx')
        · exact copyByPlan_planOf hx hone hk hcopy
      · exact copyByPlan_planOf hx hone hk hcopy

end

/-! ## A stored copy is exact and independent, and containers are found where they are -/

/-- Whatever `spine_copy`, `copy_plain` and `copy_by_plan` return is an exact copy that shares no list or dict with the
original. A plan is for a later copy: the heap has grown since it was made, and other references come and gone. -/
theorem copies_exact (rt : Runtime) {h : Heap} {value : Val} (hs : h.Sound) (hvalue : h.Has value) :
    (∀ memo walk h' memo' copy, walk = none ∨ walk = treeWalk rt h value →
      spineCopy rt h value memo walk = some (h', memo', copy) → ExactCopy h h' value copy) ∧
    (∀ immutable levels h' copy, immutable = none ∨ immutable = some (immutableBelow rt h value) →
      levels = none ∨ levels = levelTypes rt h value →
      copyPlain rt h value immutable levels = some (h', copy) → ExactCopy h h' value copy) ∧
    (∀ rt' later h' copy, NoneTwice h value → h <+: later →
      copyByPlan rt' later value (copyPlan rt h planDepth value) = some (h', copy) →
      ExactCopy later h' value copy) := by
  have hx := hs.closed hvalue
  refine ⟨?_, ?_, ?_⟩
  · intro memo walk h' memo' copy hwalk hcopy
    obtain ⟨hk, hc⟩ := spineCopy_spec hx hwalk hcopy
    exact hc.exactCopy hx hk le_rfl
  · intro immutable levels h' copy himm hlevels hcopy
    obtain ⟨hk, hc⟩ := copyPlain_spec hx himm hlevels hcopy
    exact hc.exactCopy hx hk le_rfl
  · intro rt' later h' copy hone hlater hcopy
    obtain ⟨hk, R, hp, hxy, -⟩ := copyByPlan_spec hx hone hlater hcopy
    exact (hp.base hlater).exactCopy (hx.of_grown hlater) hk le_rfl hxy

/-- `{"a": [1], "b": (2,)}`, with nothing else about. -/
def small : Heap := [.dict [(⟨.str, [97]⟩, .ref 1), (⟨.str, [98]⟩, .ref 2)], .list [.atom ⟨.int, [1]⟩], .tuple [.atom ⟨.int, [2]⟩]]

def quiet : Runtime where
  outside _ := 0
  overhead := 1
  fakes := []
  recursionLimit := 100

/-- The dict and its list are made anew, its tuple is shared. -/
theorem copies_exact_small :
    ExactCopy small (small ++ [.list [.atom ⟨.int, [1]⟩], .dict [(⟨.str, [97]⟩, .ref 3), (⟨.str, [98]⟩, .ref 2)]])
      (.ref 0) (.ref 4) := by
  have hs : small.Sound := ⟨by decide, by decide⟩
  have hvalue : small.Has (.ref 0) := by decide
  exact (copies_exact quiet hs hvalue).1 [] none _ [(1, 3), (0, 4)] (.ref 4) (.inl rfl) (by decide)

/-! ### The places of containers -/

/-- Of an exact list or dict, `tree_paths` gives each wanted container the paths that lead to it, each once, and no
other containers. -/
theorem treePaths_places {h : Heap} {value : Val} {leaves : List Ty} (hs : h.Sound)
    (htop : h.type value = .list ∨ h.type value = .dict) (hjson : JsonLike h leaves value) (wanted : List Nat) :
    ∃ found, treePaths h value wanted leaves = some found ∧
      (∀ b, b ∈ found ↔ b ∈ wanted ∧ ∃ path, h.follow value path = some (.ref b)) ∧
      ∀ b ∈ wanted, (found.getD b []).Nodup ∧
        ∀ path, path ∈ found.getD b [] ↔ h.follow value path = some (.ref b) := by
  cases value with
  | atom x => rcases htop with htop | htop <;> cases htop
  | ref a =>
      have hne : (h.obj a).type ≠ .tuple := by
        intro htuple
        rw [Heap.type, htuple] at htop
        rcases htop with htop | htop <;> cases htop
      have hsome := isSome_orderedLevelsFrom hs (n := Plain.maxLevels) (m := 0) hjson (Nat.zero_add _)
        (List.cons_ne_nil _ _) []
      obtain ⟨levels, hlevels⟩ := Option.isSome_iff_exists.mp hsome
      obtain ⟨hend, hcollect⟩ := collect_eq wanted (Aligned.top h a) hlevels ∅
      rw [Nat.zero_add] at hend
      have htree : treePaths h (.ref a) wanted leaves = some (collect h wanted [] levels ∅) := by
        rw [treePaths, if_neg hne]
        exact congrArg (Option.map _) hlevels
      refine ⟨_, htree, ?_, ?_⟩
      · intro b
        rw [hcollect]
        exact mem_found hs hend
      · intro b hb
        rw [hcollect, getD_found _ hb]
        exact ⟨nodup_pathsTo hs a _ b, fun path => mem_pathsTo hs hend⟩

/-- `{"a": x, "b": x}` of one empty list. -/
def twice : Heap := [.dict [(⟨.str, [97]⟩, .ref 1), (⟨.str, [98]⟩, .ref 1)], .list []]

theorem follow_empty {h : Heap} {a : Nat} {y : Val} {path : List Step} (hempty : h.obj a = .list [] ∨ h.obj a = .tuple [])
    (hf : h.follow (.ref a) path = some y) : path = [] ∧ y = .ref a := by
  cases path with
  | nil =>
      cases hf
      exact ⟨rfl, rfl⟩
  | cons s path =>
      rcases hempty with hempty | hempty <;> cases s <;> simp [Heap.follow, Heap.stepDown, hempty, Obj.items] at hf

theorem follow_twice {y : Val} {path : List Step} (hf : twice.follow (.ref 0) path = some y) :
    path.length ≤ 1 ∧ (y = .ref 0 ∨ y = .ref 1) := by
  cases path with
  | nil =>
      cases hf
      exact ⟨Nat.zero_le _, .inl rfl⟩
  | cons s path =>
      rw [Heap.follow, Option.bind_eq_some_iff] at hf
      obtain ⟨x, hx, hf⟩ := hf
      obtain ⟨i, hi, _⟩ := (stepDown_eq_some ⟨by decide, by decide⟩).mp hx
      have hx : x = .ref 1 := by
        have hmem := List.mem_of_getElem? hi
        simpa [twice, Heap.obj, Obj.items] using hmem
      subst hx
      obtain ⟨rfl, rfl⟩ := follow_empty (.inl rfl) hf
      exact ⟨Nat.le_refl _, .inr rfl⟩

/-- Both places of the list are found. -/
theorem treePaths_places_twice :
    ∃ found, treePaths twice (.ref 0) [1] [.leaf .str] = some found ∧
      (∀ b, b ∈ found ↔ b ∈ [1] ∧ ∃ path, twice.follow (.ref 0) path = some (.ref b)) ∧
      ∀ b ∈ [1], (found.getD b []).Nodup ∧
        ∀ path, path ∈ found.getD b [] ↔ twice.follow (.ref 0) path = some (.ref b) := by
  have hs : twice.Sound := ⟨by decide, by decide⟩
  refine treePaths_places hs (.inr rfl) ?_ [1]
  constructor
  · intro path y hf
    rcases (follow_twice hf).2 with rfl | rfl
    · exact .inr rfl
    · exact .inr rfl
  · intro path a hf
    rcases (follow_twice hf).2 with ha | ha
    · cases ha
      decide
    · cases ha
      decide
  · intro path a hf
    exact Nat.lt_of_le_of_lt (follow_twice hf).1 (by decide)

/-- An exact tuple is JSON-like too, and nothing is found in it, not even itself. -/
theorem treePaths_of_tuple :
    JsonLike [.tuple []] [] (.ref 0) ∧ Heap.follow [.tuple []] (.ref 0) [] = some (.ref 0) ∧
      treePaths [.tuple []] (.ref 0) [0] [] = none := by
  have hnone : ∀ path y, Heap.follow [.tuple []] (.ref 0) path = some y → path = [] ∧ y = .ref 0 :=
    fun path y hf => follow_empty (.inr rfl) hf
  refine ⟨⟨?_, ?_, ?_⟩, rfl, rfl⟩
  · intro path y hf
    obtain ⟨-, rfl⟩ := hnone path y hf
    exact .inr rfl
  · intro path a hf
    obtain ⟨-, ha⟩ := hnone path _ hf
    cases ha
    decide
  · intro path a hf
    obtain ⟨rfl, -⟩ := hnone path _ hf
    decide

end Cash.Copies
