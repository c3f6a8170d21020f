import Cash.Copies.Plain
import Cash.Copies.Lemmas.Spine

/-!
# What `copy_plain` and `copy_by_plan` return
-/

namespace Cash.Copies

variable {rt : Runtime} {h h' mid : Heap} {R : Nat → Nat → Prop} {log : List Nat} {value copy : Val}

/-! ## Tuples all the way down -/

theorem Frozen.atom (h : Heap) (a : Atom) : Frozen h (.atom a) := by
  intro p b hb
  cases p with
  | nil => cases hb
  | cons i p =>
    obtain ⟨y, hy, -⟩ := place_cons_eq_some.mp hb
    simp [Heap.kids] at hy

theorem Frozen.tuple {a : Nat} (hw : h.isWritable a = false) (hitems : ∀ v ∈ (h.obj a).items, Frozen h v) :
    Frozen h (.ref a) := by
  intro p b hb
  cases p with
  | nil =>
    cases hb
    exact hw
  | cons i p =>
    obtain ⟨y, hy, hb⟩ := place_cons_eq_some.mp hb
    exact hitems y (List.mem_of_getElem? hy) p b hb

theorem isNode_of_isLeaf {fakes : List String} {t : Ty} (ht : t.isLeaf fakes = true) : t.isNode = false := by
  cases t with
  | leaf kind => rfl
  | list | tuple | dict => cases ht

theorem isNode_of_isCopyLeaf {t : Ty} (ht : t.isCopyLeaf = true) : t.isNode = false := by
  cases t with
  | leaf kind => rfl
  | list | tuple | dict => cases ht

theorem frozen_of_levelsFrom {n : Nat} {level : List Nat} {levels : List (List Val × List Ty)}
    (hl : levelsFrom rt.fakes h n level = some levels)
    (himm : ∀ l ∈ levels, ∀ t ∈ l.2, t.isCopyLeaf = true ∨ t = .tuple) :
    ∀ a ∈ level, ∀ v ∈ (h.obj a).items, Frozen h v := by
  induction n generalizing level levels with
  | zero => cases hl
  | succ n ih =>
    intro a ha v hv
    have hflat : v ∈ level.flatMap fun a => (h.obj a).items := List.mem_flatMap.mpr ⟨a, ha, hv⟩
    rw [levelsFrom] at hl
    cases v with
    | atom c => exact .atom h c
    | ref c =>
      have hmem := List.mem_map_of_mem (f := h.type) hflat
      split at hl
      · cases hl
      · split at hl
        · rename_i hleaves
          have hleaf := isNode_of_isLeaf (List.all_eq_true.mp hleaves _ hmem)
          rw [type_isNode] at hleaf
          cases hleaf
        · obtain ⟨rest, hrest, rfl⟩ := Option.map_eq_some_iff.mp hl
          have htuple : (h.obj c).type = .tuple := by
            rcases himm _ (List.mem_cons_self ..) _ hmem with hcopy | htuple
            · have hleaf := isNode_of_isCopyLeaf hcopy
              rw [type_isNode] at hleaf
              cases hleaf
            · exact htuple
          refine .tuple (by rw [Heap.isWritable, htuple]; rfl) ?_
          exact ih hrest (fun l hl => himm l (List.mem_cons_of_mem _ hl)) c (mem_refs.mpr hflat)

/-- Where `immutable_below` holds, the value is a list or a tuple of tuples all the way down. -/
theorem immutableBelow_spec (himm : immutableBelow rt h value = true) :
    (h.type value).isSeq = true ∧ ∀ v ∈ h.kids value, Frozen h v := by
  cases value with
  | atom a => cases himm
  | ref a =>
    simp only [immutableBelow, plainLevels] at himm
    split at himm
    · cases himm
    · rename_i levels hlevels
      split at hlevels
      · rename_i hseq
        refine ⟨hseq, ?_⟩
        refine frozen_of_levelsFrom hlevels ?_ a (List.mem_singleton.mpr rfl)
        simpa using himm
      · cases hlevels

/-- A new list or tuple over what is shared, or the tuple itself. -/
theorem copied_newList (hvalue : h.Closed value) (hlist : h.type value = .list)
    (hitems : ∀ v ∈ h.kids value, Frozen h v) :
    Copied h (h ++ [.list (h.kids value)]) h.length value (.ref h.length) := by
  cases value with
  | atom a => cases hlist
  | ref a =>
    have hobj : h.obj a = .list (h.obj a).items := by
      simp only [Heap.type] at hlist
      cases hobj : h.obj a with
      | list items => rfl
      | tuple items | dict items =>
        rw [hobj] at hlist
        cases hlist
    refine ⟨_, (Pairs.frozen h h.length).top le_rfl hvalue.ref_lt ?_ ?_, .ref (.inl ⟨rfl, rfl⟩)⟩
    · rintro b hw ⟨-, -, hf⟩
      rw [hf [] a rfl] at hw
      cases hw
    · refine ⟨by rw [hobj]; rfl, by rw [hobj]; rfl, List.forall₂_same.mpr fun v hv => ?_⟩
      exact .frozen (hvalue.item hv) (hitems v hv)

theorem copied_share (hvalue : h.Closed value) (hf : Frozen h value) : Copied h h h.length value value :=
  ⟨_, .frozen h h.length, .frozen hvalue hf⟩

theorem frozen_of_immutableBelow (himm : immutableBelow rt h value = true) (hlist : h.type value ≠ .list) :
    Frozen h value := by
  obtain ⟨hseq, hitems⟩ := immutableBelow_spec himm
  cases value with
  | atom a => exact .atom h a
  | ref a =>
    refine .tuple ?_ hitems
    simp only [Heap.type] at hseq hlist
    rw [Heap.isWritable]
    cases htype : (h.obj a).type with
    | tuple => rfl
    | list => exact absurd htype hlist
    | dict | leaf kind =>
      rw [htype] at hseq
      cases hseq

/-! ## Pickling -/

/-- What is written is written once, with all it holds. -/
structure Wrote (h : Heap) (written written' : List Nat) : Prop where
  sub : ∀ a ∈ written, a ∈ written'
  new : ∀ a ∈ written', a ∈ written ∨ a < h.length
  closed : ∀ a ∈ written', a ∉ written → ∀ b ∈ refs (h.obj a).items, b ∈ written'

theorem Wrote.refl (h : Heap) (written : List Nat) : Wrote h written written :=
  ⟨fun _ ha => ha, fun _ ha => .inl ha, fun _ ha hna => absurd ha hna⟩

theorem Wrote.trans {w w' w'' : List Nat} (hw : Wrote h w w') (hw' : Wrote h w' w'') : Wrote h w w'' where
  sub a ha := hw'.sub a (hw.sub a ha)
  new a ha := by
    rcases hw'.new a ha with ha | ha
    · exact hw.new a ha
    · exact .inr ha
  closed a ha hna b hb := by
    by_cases haw : a ∈ w'
    · exact hw'.sub b (hw.closed a haw hna b hb)
    · exact hw'.closed a ha haw b hb

theorem dumps_spec {n : Nat} {written written' : List Nat} {v : Val} (hv : h.Closed v)
    (hd : dumps h n written v = some written') : Wrote h written written' ∧ ∀ a, v = .ref a → a ∈ written' := by
  induction n generalizing written written' v with
  | zero => cases hd
  | succ n ih =>
    cases v with
    | atom a =>
      cases hd
      refine ⟨.refl h written, ?_⟩
      rintro a ⟨⟩
    | ref a =>
      have hfold : ∀ {items : List Val} {w w' : List Nat}, (∀ v ∈ items, h.Closed v) →
          items.foldlM (dumps h n) w = some w' → Wrote h w w' ∧ ∀ b ∈ refs items, b ∈ w' := by
        intro items
        induction items with
        | nil =>
          intro w w' hhas hd
          cases hd
          exact ⟨.refl h w, fun b hb => by cases hb⟩
        | cons v items ihitems =>
          intro w w' hhas hd
          rw [List.foldlM_cons] at hd
          obtain ⟨w₁, hw₁, hd⟩ := Option.bind_eq_some_iff.mp hd
          obtain ⟨hfirst, hv⟩ := ih (hhas v (List.mem_cons_self ..)) hw₁
          obtain ⟨hrest, hitems⟩ := ihitems (fun v hv => hhas v (List.mem_cons_of_mem _ hv)) hd
          refine ⟨hfirst.trans hrest, ?_⟩
          intro b hb
          rcases List.mem_cons.mp (mem_refs.mp hb) with heq | hmem
          · exact hrest.sub b (hv b heq.symm)
          · exact hitems b (mem_refs.mpr hmem)
      rw [dumps] at hd
      split at hd
      · rename_i ha
        cases hd
        refine ⟨.refl h written, ?_⟩
        rintro b ⟨⟩
        exact ha
      · rename_i ha
        obtain ⟨hw, hitems⟩ := hfold (fun v hv' => hv.item hv') hd
        have hmem : a ∈ written' := hw.sub a (by simp)
        refine ⟨⟨fun b hb => hw.sub b (List.mem_append_left _ hb), ?_, ?_⟩, ?_⟩
        · intro b hb
          rcases hw.new b hb with hb | hb
          · rcases List.mem_append.mp hb with hb | hb
            · exact .inl hb
            · rw [List.mem_singleton.mp hb]
              exact .inr hv.ref_lt
          · exact .inr hb
        · intro b hb hnb
          by_cases hba : b = a
          · rw [hba]
            exact hitems
          · refine hw.closed b hb ?_
            simp [hnb, hba]
        · rintro b ⟨⟩
          exact hmem

@[simp] theorem Obj.map_type (f : Val → Val) (o : Obj) : (o.map f).type = o.type := by cases o <;> rfl

@[simp] theorem Obj.map_keys (f : Val → Val) (o : Obj) : (o.map f).keys = o.keys := by
  cases o with
  | dict items => simp [Obj.map, Obj.keys]
  | list items | tuple items => rfl

@[simp] theorem Obj.map_items (f : Val → Val) (o : Obj) : (o.map f).items = o.items.map f := by
  cases o with
  | dict items => simp [Obj.map, Obj.items]
  | list items | tuple items => rfl

/-- A pickle round trip makes every container anew, once. -/
theorem loads_spec (hvalue : h.Closed value) {n : Nat} {written : List Nat}
    (hd : dumps h n [] value = some written) :
    h <+: (loads h written value).1 ∧ Copied h (loads h written value).1 h.length value (loads h written value).2 := by
  obtain ⟨hw, hmem⟩ := dumps_spec hvalue hd
  refine ⟨List.prefix_append _ _, fun a b => a ∈ written ∧ b = h.length + written.idxOf a, ?_, ?_⟩
  · refine ⟨?_, ?_, ?_, ?_, ?_⟩
    · rintro a b ⟨ha, -⟩
      rcases hw.new a ha with hnil | hlt
      · cases hnil
      · exact hlt
    · rintro a b ⟨ha, rfl⟩
      have hlt := List.idxOf_lt_length_iff.mpr ha
      simp only [loads, List.length_append, List.length_map]
      omega
    · rintro a b ⟨ha, rfl⟩
      have hlt := List.idxOf_lt_length_iff.mpr ha
      have hobj : (loads h written value).1.obj (h.length + written.idxOf a) = (h.obj a).map (reread h written) := by
        unfold Heap.obj loads
        rw [List.getElem?_append_right (by omega), Nat.add_sub_cancel_left, List.getElem?_map,
          List.getElem?_eq_getElem hlt, List.getElem_idxOf hlt]
        rfl
      rw [hobj]
      refine ⟨Obj.map_type _ _, Obj.map_keys _ _, ?_⟩
      rw [Obj.map_items, List.forall₂_map_right_iff, List.forall₂_same]
      intro v hv
      cases v with
      | atom c => exact .atom c
      | ref c => exact .ref ⟨hw.closed a ha (by simp) c (mem_refs.mpr hv), rfl⟩
    · rintro a b ⟨-, rfl⟩ -
      omega
    · rintro a b a' b' ⟨ha, rfl⟩ ⟨-, rfl⟩ -
      rw [Nat.add_left_cancel_iff, List.idxOf_inj ha]
  · cases value with
    | atom a => exact .atom a
    | ref a => exact .ref ⟨hmem a rfl, rfl⟩

/-! ## Rows over immutables -/

theorem refs_eq_nil_of_leaves {flat : List Val} (hl : ∀ v ∈ flat, (h.type v).isNode = false) : refs flat = [] := by
  refine refs_eq_nil (h := h) (List.any_eq_false.mpr ?_)
  intro t ht
  obtain ⟨v, hv, rfl⟩ := List.mem_map.mp ht
  rw [hl v hv]
  decide

/-- Nothing is copied of what holds no container. -/
theorem shares_of_refs_eq_nil {o : Obj} (ho : refs o.items = []) : Shares R o := by
  intro v hv
  cases v with
  | atom a => exact .atom a
  | ref a =>
    have hmem := mem_refs.mpr hv
    rw [ho] at hmem
    cases hmem

/-- Each list among the rows is copied, and the rest stands as it is. -/
theorem copyRows_spec {rows : List Val} (hk : h <+: mid) (hlt : ∀ a ∈ refs rows, a < h.length)
    (hseq : ∀ a ∈ refs rows, (h.obj a).type.isSeq = true) (ho : ∀ a ∈ refs rows, Shares R (h.obj a)) :
    ∃ log rebuilt, LevelCopy h mid (copyRows mid rows).1 R log (refs rows) rebuilt ∧
      ∀ S : Nat → Nat → Prop, List.Forall₂ S (refs rows) rebuilt → List.Forall₂ (Lift S) rows (copyRows mid rows).2 := by
  induction rows generalizing mid with
  | nil => exact ⟨[], [], LevelCopy.shared hk (by simp) (by simp) (by simp), fun S _ => .nil⟩
  | cons v rows ih =>
    cases v with
    | atom a =>
      obtain ⟨log, rebuilt, hc, hrows⟩ := ih hk hlt hseq ho
      exact ⟨log, rebuilt, hc, fun S hS => .cons (.atom a) (hrows S hS)⟩
    | ref a =>
      have hlta : a < h.length := hlt a (List.mem_cons_self ..)
      have hrest : ∀ b ∈ refs rows, b ∈ refs (.ref a :: rows) := fun b hb => List.mem_cons_of_mem _ hb
      have htype : mid.type (.ref a) = (h.obj a).type := by rw [Heap.type, Heap.obj_of_grown hk hlta]
      rw [copyRows, htype]
      split
      · rename_i hlist
        obtain ⟨log, rebuilt, hc, hrows⟩ := ih (hk.trans (List.prefix_append mid [.list (h.obj a).items]))
          (fun b hb => hlt b (hrest b hb)) (fun b hb => hseq b (hrest b hb)) fun b hb => ho b (hrest b hb)
        rw [Heap.kids_ref, Heap.obj_of_grown hk hlta]
        refine ⟨a :: log, mid.length :: rebuilt, hc.cons_new ?_, ?_⟩
        · have hobj : h.obj a = .list (h.obj a).items := by
            have hlist' := eq_of_beq hlist
            cases hobj : h.obj a with
            | list items => rfl
            | tuple items | dict items =>
              rw [hobj] at hlist'
              cases hlist'
          rw [← hobj]
          exact (ho a (List.mem_cons_self ..)).alike
        · intro S hS
          cases hS with
          | cons ha hS => exact .cons (.ref ha) (hrows S hS)
      · rename_i hlist
        obtain ⟨log, rebuilt, hc, hrows⟩ := ih hk
          (fun b hb => hlt b (hrest b hb)) (fun b hb => hseq b (hrest b hb)) fun b hb => ho b (hrest b hb)
        have hw : h.isWritable a = false := by
          have hs := hseq a (List.mem_cons_self ..)
          rw [Heap.isWritable]
          cases ht : (h.obj a).type with
          | tuple => rfl
          | list =>
            rw [ht] at hlist
            exact absurd rfl hlist
          | dict | leaf kind =>
            rw [ht] at hs
            cases hs
        refine ⟨log, a :: rebuilt, hc.cons_shared hk hlta hw (ho a (List.mem_cons_self ..)), ?_⟩
        intro S hS
        cases hS with
        | cons ha hS => exact .cons (.ref ha) (hrows S hS)

theorem refs_filter_list (h : Heap) (rows : List Val) :
    refs (rows.filter fun x => h.type x == .list) = (refs rows).filter fun c => (h.obj c).type == .list := by
  induction rows with
  | nil => rfl
  | cons v rows ih =>
    cases v with
    | atom c => rw [List.filter_cons_of_neg (by simp [Heap.type]), refs_atom, ih]
    | ref c =>
      have htype : h.type (.ref c) = (h.obj c).type := rfl
      rw [refs_ref, List.filter_cons, List.filter_cons, ← ih, htype]
      split <;> rfl

/-- `_row_held_twice` sees a list that is two rows. -/
theorem count_rows_le_one {a : Nat} (ha : a < h.length)
    (hseq : ∀ b ∈ refs (h.obj a).items, (h.obj b).type.isSeq = true)
    (htwice : rowHeldTwice rt h (h.obj a).items = false) {b : Nat} (hw : h.isWritable b = true) :
    (refs (h.obj a).items).count b ≤ 1 := by
  by_contra hmany
  have hheld := count_refs_le_held (a := b) ha
  generalize hrows : (h.obj a).items = rows at hseq htwice hmany hheld
  have hmem : b ∈ refs rows := List.count_pos_iff.mp (by omega)
  have hlist : ((h.obj b).type == .list) = true := by
    have hs := hseq b hmem
    simp only [Heap.isWritable] at hw
    cases ht : (h.obj b).type with
    | list => rfl
    | tuple =>
      rw [ht] at hw
      cases hw
    | dict | leaf kind =>
      rw [ht] at hs
      cases hs
  have hcount : (refs (rows.filter fun x => h.type x == .list)).count b = (refs rows).count b := by
    rw [refs_filter_list]
    exact List.count_filter hlist
  have hmem' : b ∈ refs (rows.filter fun x => h.type x == .list) := List.count_pos_iff.mp (by omega)
  have hdup : (refs (rows.filter fun x => h.type x == .list)).dedup.length ≠
      (refs (rows.filter fun x => h.type x == .list)).length := by
    intro heq
    have hnodup := List.dedup_eq_self.mp ((List.dedup_sublist _).eq_of_length heq)
    have hone := List.nodup_iff_count_le_one.mp hnodup b
    omega
  have hnonempty : (refs (rows.filter fun x => h.type x == .list)).isEmpty = false := by
    rw [List.isEmpty_eq_false_iff]
    exact List.ne_nil_of_mem hmem'
  simp only [rowHeldTwice] at htwice
  generalize refs (rows.filter fun x => h.type x == .list) = lists at hcount hmem' hdup hnonempty htwice
  rw [hnonempty, bne_iff_ne.mpr hdup, Bool.not_false, Bool.true_and, Bool.and_true] at htwice
  split at htwice
  · have hle := List.any_eq_false.mp htwice _ (List.mem_map_of_mem (f := getrefcount rt h []) hmem')
    simp only [getrefcount, List.map_nil, List.sum_nil, unsharedRefs_eq, decide_eq_true_eq, not_lt] at hle
    omega
  · have hle := List.any_eq_false.mp htwice _ (List.mem_map_of_mem (f := getrefcount rt h [lists]) hmem')
    simp only [getrefcount, List.map_cons, List.map_nil, List.sum_cons, List.sum_nil, unsharedRefs_eq,
      decide_eq_true_eq, not_lt] at hle
    omega

/-- What `level_types` says of a value of two levels whose rows hold immutables. -/
structure TwoLevels (h : Heap) (a : Nat) (top : List Ty) : Prop where
  seq : (h.obj a).type.isSeq = true
  top : top = (h.obj a).items.map h.type
  rows : ∀ b ∈ refs (h.obj a).items, (h.obj b).type.isSeq = true
  leaves : ∀ b ∈ refs (h.obj a).items, refs (h.obj b).items = []

theorem twoLevels_spec {a : Nat} {levels : List (List Ty)} {top : List Ty}
    (hl : levelTypes rt h (.ref a) = some levels) (ht : twoLevels levels = some top) : TwoLevels h a top := by
  obtain ⟨found, hfound, rfl⟩ := Option.map_eq_some_iff.mp hl
  unfold twoLevels at ht
  split at ht
  · rename_i top' rows heq
    split at ht
    · rename_i hrows
      cases ht
      simp only [plainLevels] at hfound
      split at hfound
      · rename_i hseq
        rw [show Plain.maxLevels = 14 + 1 + 1 from rfl, levelsFrom] at hfound
        simp only [List.flatMap_cons, List.flatMap_nil, List.append_nil] at hfound
        split at hfound
        · cases hfound
        · rename_i hplain
          split at hfound
          · cases hfound
            cases heq
          · obtain ⟨rest, hrest, rfl⟩ := Option.map_eq_some_iff.mp hfound
            rw [List.map_cons, List.cons.injEq] at heq
            obtain ⟨rfl, heq⟩ := heq
            rw [levelsFrom] at hrest
            have hrest' : rest.map (·.2) =
                [((refs (h.obj a).items).flatMap fun b => (h.obj b).items).map h.type] := by
              split at hrest
              · cases hrest
              · split at hrest
                · cases hrest
                  rfl
                · obtain ⟨more, hmore, rfl⟩ := Option.map_eq_some_iff.mp hrest
                  rw [List.map_cons, List.cons.injEq] at heq
                  rw [List.map_cons, heq.2]
            rw [hrest'] at heq
            obtain rfl := (List.cons.inj heq).1
            refine ⟨hseq, rfl, ?_, ?_⟩
            · intro b hb
              have hmem := List.mem_map_of_mem (f := h.type) (mem_refs.mp hb)
              simp only [Bool.not_eq_true', Bool.not_eq_false] at hplain
              rcases Bool.or_eq_true_iff.mp (List.all_eq_true.mp hplain _ hmem) with hleaf | hb
              · have hnode := isNode_of_isLeaf hleaf
                rw [type_isNode] at hnode
                cases hnode
              · exact hb
            · intro b hb
              refine refs_eq_nil_of_leaves (h := h) ?_
              intro v hv
              have hflat : v ∈ (refs (h.obj a).items).flatMap fun b => (h.obj b).items :=
                List.mem_flatMap.mpr ⟨b, hb, hv⟩
              have hmem := List.mem_map_of_mem (f := h.type) hflat
              exact isNode_of_isCopyLeaf (List.all_eq_true.mp (Bool.and_eq_true_iff.mp hrows).1 _ hmem)
      · cases hfound
    · cases ht
  · cases ht

theorem length_refs_of_lists {rows : List Val} (hall : (rows.map h.type).dedup = [.list]) :
    rows.length = (refs rows).length := by
  have hlist : ∀ v ∈ rows, h.type v = .list := by
    intro v hv
    have hmem := List.mem_dedup.mpr (List.mem_map_of_mem (f := h.type) hv)
    rw [hall, List.mem_singleton] at hmem
    exact hmem
  clear hall
  induction rows with
  | nil => rfl
  | cons v rows ih =>
    cases v with
    | atom a => cases hlist _ (List.mem_cons_self ..)
    | ref a => rw [refs_ref, List.length_cons, List.length_cons, ih fun v hv => hlist v (List.mem_cons_of_mem _ hv)]

theorem copyTwoLevels_spec {a : Nat} {top : List Ty} (ha : h.Closed (.ref a)) (ht : TwoLevels h a top)
    (htwice : rowHeldTwice rt h (h.obj a).items = false) :
    h <+: (copyTwoLevels h (.ref a) top).1 ∧
      Copied h (copyTwoLevels h (.ref a) top).1 h.length (.ref a) (copyTwoLevels h (.ref a) top).2 := by
  have hlt : ∀ b ∈ refs (h.obj a).items, b < h.length := fun b hb => (ha.item (mem_refs.mp hb)).ref_lt
  have hshares : ∀ b ∈ refs (h.obj a).items, Shares (fun _ _ => False) (h.obj b) :=
    fun b hb => shares_of_refs_eq_nil (ht.leaves b hb)
  have hrows : ∃ log rebuilt h' rows, LevelCopy h h h' (fun _ _ => False) log (refs (h.obj a).items) rebuilt ∧
      (∀ S : Nat → Nat → Prop, List.Forall₂ S (refs (h.obj a).items) rebuilt →
        List.Forall₂ (Lift S) (h.obj a).items rows) ∧
      copyTwoLevels h (.ref a) top =
        (h' ++ [if (h.obj a).type == .tuple then .tuple rows else .list rows], .ref h'.length) := by
    simp only [copyTwoLevels, ht.top]
    by_cases hall : ((h.obj a).items.map h.type).dedup == [.list]
    · rw [if_pos hall]
      refine ⟨_, _, _, _, copyEach_spec List.prefix_rfl hlt hshares, ?_, rfl⟩
      intro S hS
      exact forall₂_of_length hS ((length_refs_of_lists (eq_of_beq hall)).trans hS.length_eq)
    · rw [if_neg hall]
      obtain ⟨log, rebuilt, hc, hrows⟩ := copyRows_spec List.prefix_rfl hlt ht.rows hshares
      exact ⟨log, rebuilt, _, _, hc, hrows, rfl⟩
  obtain ⟨log, rebuilt, h', rows, hc, hrows, heq⟩ := hrows
  rw [heq]
  obtain ⟨R, hp, hR, hdom⟩ := hc.pairs hlt fun b hb => count_rows_le_one ha.ref_lt ht.rows htwice hb
  refine ⟨hc.grown.trans (List.prefix_append _ _), _, hp.top hc.grown.length_le ha.ref_lt ?_ ?_, .ref (.inl ⟨rfl, rfl⟩)⟩
  · intro b hw hab
    have hself := hdom a b hab
    rw [ht.leaves a hself] at hself
    cases hself
  · have hitems := hrows R hR
    have hseq := ht.seq
    cases hobj : h.obj a with
    | list items =>
      rw [hobj] at hitems
      exact ⟨rfl, rfl, hitems⟩
    | tuple items =>
      rw [hobj] at hitems
      exact ⟨rfl, rfl, hitems⟩
    | dict items =>
      rw [hobj] at hseq
      cases hseq

theorem copyDeep_spec (hvalue : h.Closed value) (hcopy : copyDeep rt h value = some (h', copy)) :
    h <+: h' ∧ Copied h h' h.length value copy := by
  unfold copyDeep at hcopy
  split at hcopy
  · rename_i hspine
    cases hcopy
    exact spineCopy_spec hvalue (.inl rfl) hspine
  · obtain ⟨written, hwritten, hresult⟩ := Option.map_eq_some_iff.mp hcopy
    have hloads := loads_spec hvalue hwritten
    rw [hresult] at hloads
    exact hloads

/-- Whichever way plain data is copied, it is a copy made of new lists. -/
theorem copyPlain_spec (hvalue : h.Closed value) {immutable : Option Bool}
    {levels : Option (List (List Ty))} (himm : immutable = none ∨ immutable = some (immutableBelow rt h value))
    (hlevels : levels = none ∨ levels = levelTypes rt h value)
    (hcopy : copyPlain rt h value immutable levels = some (h', copy)) :
    h <+: h' ∧ Copied h h' h.length value copy := by
  have himm' : immutable.getD (immutableBelow rt h value) = immutableBelow rt h value := by
    rcases himm with rfl | rfl <;> rfl
  have hlevels' : levels.or (levelTypes rt h value) = levelTypes rt h value := by
    rcases hlevels with rfl | rfl
    · rfl
    · cases levelTypes rt h value <;> rfl
  unfold copyPlain at hcopy
  rw [himm', hlevels'] at hcopy
  split at hcopy
  · rename_i hbelow
    split at hcopy
    · rename_i hlist
      cases hcopy
      exact ⟨List.prefix_append _ _,
        copied_newList hvalue (eq_of_beq hlist) (immutableBelow_spec hbelow).2⟩
    · rename_i hlist
      cases hcopy
      exact ⟨List.prefix_rfl, copied_share hvalue (frozen_of_immutableBelow hbelow (by simpa using hlist))⟩
  · split at hcopy
    · cases hcopy
    · rename_i levels hfound
      split at hcopy
      · rename_i top htop
        split at hcopy
        · exact copyDeep_spec hvalue hcopy
        · rename_i htwice
          cases value with
          | atom a => cases hfound
          | ref a =>
            have hspec := copyTwoLevels_spec hvalue (twoLevels_spec hfound htop) (Bool.eq_false_iff.mpr htwice)
            rw [Option.some.inj hcopy] at hspec
            exact hspec
      · exact copyDeep_spec hvalue hcopy

end Cash.Copies
