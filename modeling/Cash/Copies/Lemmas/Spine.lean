import Cash.Copies.Lemmas.Walk
import Mathlib.Data.List.Dedup

/-!
# The copy made by `spine_copy`
-/

namespace Cash.Copies

/-!
## The levels rebuilt

What is made at a level is written down in the order it is made: a log of the containers copied. A list or dict is in
it at most as often as it is at the level, and its copy stands in the new heap where it stands in the log.
-/

section

variable {h : Heap} {R : Nat → Nat → Prop}

/-! ### Putting items back -/

theorem compress_map {α : Type} (f : α → Bool) (xs : List α) : compress xs (xs.map f) = xs.filter f := by
  induction xs with
  | nil => rfl
  | cons x xs ih =>
    rw [List.map_cons, compress, List.filter_cons, ih]

theorem forall₂_putAt {α β : Type} {P Q : α → β → Prop} {f : α → Bool} {xs : List α} {target values : List β}
    (htarget : List.Forall₂ P xs target) (hvalues : List.Forall₂ Q (xs.filter f) values) :
    List.Forall₂ (fun x y => if f x then Q x y else P x y) xs (putAt target (xs.map f) values) := by
  induction htarget generalizing values with
  | nil => exact .nil
  | @cons x y xs target hxy htarget ih =>
    rw [List.map_cons]
    cases hf : f x with
    | true =>
      rw [List.filter_cons_of_pos hf] at hvalues
      cases hvalues with
      | cons hv hvalues => exact .cons (by rw [if_pos hf]; exact hv) (ih hvalues)
    | false =>
      rw [List.filter_cons_of_neg (by rw [hf]; decide)] at hvalues
      exact .cons (by rw [if_neg (by rw [hf]; decide)]; exact hxy) (ih hvalues)

/-- The items of a level with the containers among them replaced. -/
theorem forall₂_putBack {flat : List Val} {rebuilt : List Nat} (hr : List.Forall₂ R (refs flat) rebuilt) :
    List.Forall₂ (Lift R) flat
      (putAt flat (flat.map fun v => (h.type v).isNode) (rebuilt.map Val.ref)) := by
  induction flat generalizing rebuilt with
  | nil => exact .nil
  | cons v flat ih =>
    rw [List.map_cons, type_isNode]
    cases v with
    | atom a => exact .cons (.atom a) (ih hr)
    | ref a =>
      cases hr with
      | cons hab hr => exact .cons (.ref hab) (ih hr)

/-- Where everything a level holds is a container, what is rebuilt is what it holds. -/
theorem forall₂_of_length {flat : List Val} {rebuilt : List Nat} (hr : List.Forall₂ R (refs flat) rebuilt)
    (hlength : flat.length = rebuilt.length) : List.Forall₂ (Lift R) flat (rebuilt.map Val.ref) := by
  induction flat generalizing rebuilt with
  | nil =>
    cases hr
    exact .nil
  | cons v flat ih =>
    cases v with
    | atom a =>
      have hle := List.length_filterMap_le Val.ref? flat
      have heq := hr.length_eq
      rw [refs_atom] at heq
      simp only [refs, List.length_cons] at heq hlength
      omega
    | ref a =>
      cases hr with
      | cons hab hr => exact .cons (.ref hab) (ih hr (by simpa using hlength))

/-! ### The log -/

/-- `b` is a copy of `a` made in `h'` since `mid`, or shared: what it holds is related to what `a` holds, and a list
or dict stands where the log says. -/
structure Made (h mid h' : Heap) (R : Nat → Nat → Prop) (log : List Nat) (a b : Nat) : Prop where
  new : b < h'.length
  alike : Alike R (h.obj a) (h'.obj b)
  logged : h.isWritable a = true → ∃ i, log[i]? = some a ∧ b = mid.length + i

/-- A level is copied: the heap grows by what the log says, and each container has its copy. -/
structure LevelCopy (h mid h' : Heap) (R : Nat → Nat → Prop) (log nodes rebuilt : List Nat) : Prop where
  grown : mid <+: h'
  length : h'.length = mid.length + log.length
  made : List.Forall₂ (Made h mid h' R log) nodes rebuilt
  counted : ∀ a, log.count a ≤ nodes.count a

variable {mid h' : Heap} {log nodes rebuilt : List Nat}

/-- What a container holds is shared. -/
def Shares (R : Nat → Nat → Prop) (o : Obj) : Prop := ∀ v ∈ o.items, Lift R v v

theorem Shares.alike {o : Obj} (ho : Shares R o) : Alike R o o := ⟨rfl, rfl, List.forall₂_same.mpr ho⟩

theorem Made.self (hk : h <+: h') {a : Nat} (ha : a < h.length) (hw : h.isWritable a = false)
    (ho : Shares R (h.obj a)) : Made h mid h' R log a a where
  new := Nat.lt_of_lt_of_le ha hk.length_le
  alike := by
    rw [Heap.obj_of_grown hk ha]
    exact ho.alike
  logged hw' := by
    rw [hw] at hw'
    cases hw'

/-- A level that is shared as it is. -/
theorem LevelCopy.shared (hk : h <+: h') (hlt : ∀ a ∈ nodes, a < h.length) (hw : ∀ a ∈ nodes, h.isWritable a = false)
    (ho : ∀ a ∈ nodes, Shares R (h.obj a)) : LevelCopy h h' h' R [] nodes nodes where
  grown := List.prefix_rfl
  length := by simp
  made := List.forall₂_same.mpr fun a ha => .self hk (hlt a ha) (hw a ha) (ho a ha)
  counted a := by simp

/-! ### Copies by type -/

/-- The containers are copied in turn, over the items they hold. -/
theorem copyEach_spec (hk : h <+: mid) (hlt : ∀ a ∈ nodes, a < h.length) (ho : ∀ a ∈ nodes, Shares R (h.obj a)) :
    LevelCopy h mid (copyEach mid nodes).1 R nodes nodes (copyEach mid nodes).2 where
  grown := List.prefix_append _ _
  length := by simp [copyEach]
  made := by
    rw [copyEach, List.forall₂_iff_get]
    refine ⟨by simp, ?_⟩
    intro i hi hi'
    have hobj : Heap.obj (mid ++ nodes.map mid.obj) (mid.length + i) = h.obj nodes[i] := by
      unfold Heap.obj
      rw [List.getElem?_append_right (by omega), Nat.add_sub_cancel_left, List.getElem?_map,
        List.getElem?_eq_getElem hi]
      exact Heap.obj_of_grown hk (hlt _ (List.getElem_mem hi))
    simp only [List.get_eq_getElem, List.getElem_range', Nat.one_mul]
    refine ⟨?_, ?_, fun _ => ⟨i, List.getElem?_eq_getElem hi, rfl⟩⟩
    · simp only [List.length_append, List.length_map]
      omega
    · rw [hobj]
      exact (ho _ (List.getElem_mem hi)).alike
  counted a := le_rfl

/-- A copy made before more is made. -/
theorem Made.later {h'' : Heap} {a b : Nat} (hm : Made h mid h' R log a b) (hk : h' <+: h'') (more : List Nat) :
    Made h mid h'' R (log ++ more) a b where
  new := Nat.lt_of_lt_of_le hm.new hk.length_le
  alike := by
    rw [Heap.obj_of_grown hk hm.new]
    exact hm.alike
  logged hw := by
    obtain ⟨i, hi, hb⟩ := hm.logged hw
    exact ⟨i, by rw [List.getElem?_append_left (List.getElem?_eq_some_iff.mp hi).1, hi], hb⟩

/-- A copy made after others. -/
theorem Made.after {h'' : Heap} {more : List Nat} {a b : Nat} (hm : Made h h' h'' R more a b)
    (hlength : h'.length = mid.length + log.length) : Made h mid h'' R (log ++ more) a b where
  new := hm.new
  alike := hm.alike
  logged hw := by
    obtain ⟨i, hi, hb⟩ := hm.logged hw
    refine ⟨log.length + i, ?_, by omega⟩
    rw [List.getElem?_append_right (by omega), Nat.add_sub_cancel_left, hi]

/-! ### A level mixing kinds -/

/-- Once the kinds `done` are copied: the containers of these kinds have their copies, the others stand as they are. -/
structure KindsCopied (h mid : Heap) (R : Nat → Nat → Prop) (nodes : List Nat) (done : List Ty)
    (s : Heap × Memo × List Nat) (log : List Nat) : Prop where
  grown : mid <+: s.1
  length : s.1.length = mid.length + log.length
  made : List.Forall₂ (fun a b => if (h.obj a).type ∈ done then Made h mid s.1 R log a b else b = a) nodes s.2.2
  counted : ∀ a, log.count a ≤ if (h.obj a).type ∈ done then nodes.count a else 0

theorem copyKind_spec (hk : h <+: mid) (hlt : ∀ a ∈ nodes, a < h.length) (ho : ∀ a ∈ nodes, Shares R (h.obj a))
    {done : List Ty} {kind : Ty} {s : Heap × Memo × List Nat} (hs : KindsCopied h mid R nodes done s log)
    (hnew : kind ∉ done) : ∃ log', KindsCopied h mid R nodes (kind :: done) (copyKind nodes s kind) log' := by
  have hks : h <+: s.1 := hk.trans hs.grown
  have hmask : ofKind s.1 nodes kind = nodes.map fun a => (h.obj a).type == kind := by
    refine List.map_congr_left fun a ha => ?_
    rw [Heap.obj_of_grown hks (hlt a ha)]
  have hcopy : LevelCopy h s.1 (copyKind nodes s kind).1 R (nodes.filter fun a => (h.obj a).type == kind)
      (nodes.filter fun a => (h.obj a).type == kind) (copyEach s.1 (nodes.filter fun a => (h.obj a).type == kind)).2 := by
    simp only [copyKind, hmask, compress_map]
    exact copyEach_spec hks (fun a ha => hlt a (List.mem_of_mem_filter ha)) fun a ha => ho a (List.mem_of_mem_filter ha)
  refine ⟨log ++ nodes.filter fun a => (h.obj a).type == kind, hs.grown.trans hcopy.grown, ?_, ?_, ?_⟩
  · rw [hcopy.length, hs.length, List.length_append]
    omega
  · have hput := forall₂_putAt hs.made hcopy.made
    simp only [copyKind, hmask, compress_map]
    refine hput.imp ?_
    intro a b hab
    by_cases hkind : (h.obj a).type = kind
    · rw [if_pos (by simpa using hkind)] at hab
      rw [if_pos (by simp [hkind])]
      have hmade := hab.after hs.length
      simp only [copyKind, hmask, compress_map] at hmade
      exact hmade
    · rw [if_neg (by simpa using hkind)] at hab
      by_cases hdone : (h.obj a).type ∈ done
      · rw [if_pos hdone] at hab
        rw [if_pos (List.mem_cons_of_mem _ hdone)]
        have hmade := hab.later hcopy.grown (nodes.filter fun a => (h.obj a).type == kind)
        simp only [copyKind, hmask, compress_map] at hmade
        exact hmade
      · rw [if_neg hdone] at hab
        rw [if_neg (by simp [hkind, hdone])]
        exact hab
  · intro a
    have hle := hs.counted a
    rw [List.count_append]
    by_cases hkind : (h.obj a).type = kind
    · rw [if_neg (hkind ▸ hnew)] at hle
      rw [if_pos (by simp [hkind]), List.count_filter (by simpa using hkind)]
      omega
    · have hzero : (nodes.filter fun a => (h.obj a).type == kind).count a = 0 := by
        refine List.count_eq_zero.mpr fun ha => hkind ?_
        simpa using (List.mem_filter.mp ha).2
      simp only [List.mem_cons, hkind, false_or]
      omega

theorem copyKinds_spec (hk : h <+: mid) (hlt : ∀ a ∈ nodes, a < h.length) (ho : ∀ a ∈ nodes, Shares R (h.obj a))
    (ks : List Ty) {done : List Ty} (hks : (ks ++ done).Nodup) {s : Heap × Memo × List Nat} (hs : KindsCopied h mid R nodes done s log) :
    ∃ log' done', KindsCopied h mid R nodes done' (ks.foldl (copyKind nodes) s) log' ∧
      ∀ k, k ∈ done' ↔ k ∈ ks ∨ k ∈ done := by
  induction ks generalizing done s log with
  | nil => exact ⟨log, done, hs, fun k => by simp⟩
  | cons k ks ih =>
    have hnodup := List.nodup_cons.mp hks
    obtain ⟨log', hs'⟩ := copyKind_spec hk hlt ho hs fun hmem => hnodup.1 (List.mem_append_right _ hmem)
    obtain ⟨log'', done', hfinal, hmem⟩ := ih (List.nodup_middle.mpr hks) hs'
    refine ⟨log'', done', hfinal, fun k' => ?_⟩
    rw [hmem, List.mem_cons, List.mem_cons]
    tauto

/-- A level over what is shared. -/
theorem copyOwn_spec (memo : Memo) (hk : h <+: mid) (hlt : ∀ a ∈ nodes, a < h.length)
    (ho : ∀ a ∈ nodes, Shares R (h.obj a)) :
    ∃ log, LevelCopy h mid (copyOwn mid memo nodes).1 R log nodes (copyOwn mid memo nodes).2.2 := by
  unfold copyOwn
  split
  · exact ⟨nodes, copyEach_spec hk hlt ho⟩
  · exact ⟨nodes, copyEach_spec hk hlt ho⟩
  · have hstart : KindsCopied h mid R nodes [] (mid, memo, nodes) [] :=
      ⟨List.prefix_rfl, rfl, List.forall₂_same.mpr fun a ha => by simp, fun a => by simp⟩
    obtain ⟨log, done, hdone, hmem⟩ := copyKinds_spec hk hlt ho
      ((kinds mid nodes).filter (· != .tuple)) (by rw [List.append_nil]; exact (List.nodup_dedup _).filter _) hstart
    refine ⟨log, hdone.grown, hdone.length, ?_, ?_⟩
    · refine ((List.forall₂_and_left (p := (· ∈ nodes)) _ _).mpr ⟨fun a ha => ha, hdone.made⟩).imp ?_
      rintro a b ⟨ha, hab⟩
      split at hab
      · exact hab
      · rename_i hnot
        obtain rfl := hab
        refine .self (hk.trans hdone.grown) (hlt b ha) ?_ (ho b ha)
        rw [hmem] at hnot
        simp only [List.not_mem_nil, or_false, List.mem_filter, not_and] at hnot
        have hkind : (h.obj b).type ∈ kinds mid nodes := by
          refine List.mem_dedup.mpr (List.mem_map.mpr ⟨b, ha, ?_⟩)
          rw [Heap.obj_of_grown hk (hlt b ha)]
        simpa [Heap.isWritable] using hnot hkind
    · intro a
      refine Nat.le_trans (hdone.counted a) ?_
      split
      · exact le_rfl
      · exact Nat.zero_le _

/-! ### A level over copies -/

theorem LevelCopy.cons_new {node : Nat} {o : Obj} (ho : Alike R (h.obj node) o)
    (hc : LevelCopy h (mid ++ [o]) h' R log nodes rebuilt) :
    LevelCopy h mid h' R (node :: log) (node :: nodes) (mid.length :: rebuilt) where
  grown := (List.prefix_append _ _).trans hc.grown
  length := by
    rw [hc.length, List.length_append, List.length_singleton, List.length_cons]
    omega
  made := by
    refine .cons ⟨?_, ?_, fun _ => ⟨0, rfl, rfl⟩⟩ (hc.made.imp fun a b hab => ?_)
    · have hle := hc.grown.length_le
      rw [List.length_append, List.length_singleton] at hle
      omega
    · rw [Heap.obj_of_grown hc.grown (by simp), Heap.obj_alloc]
      exact ho
    · have hafter : Made h mid h' R ([node] ++ log) a b := hab.after (by simp)
      exact hafter
  counted a := by
    rw [List.count_cons, List.count_cons]
    exact Nat.add_le_add_right (hc.counted a) _

theorem LevelCopy.cons_shared {node : Nat} (hc : LevelCopy h mid h' R log nodes rebuilt) (hk : h <+: mid)
    (hlt : node < h.length) (hw : h.isWritable node = false) (ho : Shares R (h.obj node)) :
    LevelCopy h mid h' R log (node :: nodes) (node :: rebuilt) where
  grown := hc.grown
  length := hc.length
  made := .cons (.self (hk.trans hc.grown) hlt hw ho) hc.made
  counted a := Nat.le_trans (hc.counted a) (List.count_le_count_cons ..)

theorem forall₂_split {items rest newFlat : List Val} (hf : List.Forall₂ (Lift R) (items ++ rest) newFlat) :
    List.Forall₂ (Lift R) items (newFlat.take items.length) ∧
      List.Forall₂ (Lift R) rest (newFlat.drop items.length) := by
  have htake := List.forall₂_take items.length hf
  have hdrop := List.forall₂_drop items.length hf
  rw [List.take_left] at htake
  rw [List.drop_left] at hdrop
  exact ⟨htake, hdrop⟩

/-- Each container is built of its own part: the parts are cut at the containers' lengths. -/
theorem rebuildNodes_spec {newFlat : List Val} (memo : Memo) (start : Nat) (hk : h <+: mid)
    (hlt : ∀ a ∈ nodes, a < h.length)
    (hflat : List.Forall₂ (Lift R) (nodes.flatMap fun a => (h.obj a).items) (newFlat.drop start)) :
    ∃ log, LevelCopy h mid (rebuildNodes newFlat mid memo start nodes).1 R log nodes
      (rebuildNodes newFlat mid memo start nodes).2.2 := by
  induction nodes generalizing mid memo start with
  | nil => exact ⟨[], LevelCopy.shared hk (by simp) (by simp) (by simp)⟩
  | cons node nodes ih =>
    have hnode : node < h.length := hlt node (List.mem_cons_self ..)
    have hrest : ∀ a ∈ nodes, a < h.length := fun a ha => hlt a (List.mem_cons_of_mem _ ha)
    rw [List.flatMap_cons] at hflat
    obtain ⟨hpart, hafter⟩ := forall₂_split hflat
    rw [List.drop_drop] at hafter
    have hput (o : Obj) (ho : Alike R (h.obj node) o) (memo : Memo) :
        ∃ log, LevelCopy h mid
          (rebuildNodes newFlat (mid ++ [o]) memo (start + (h.obj node).items.length) nodes).1 R log (node :: nodes)
          (mid.length :: (rebuildNodes newFlat (mid ++ [o]) memo (start + (h.obj node).items.length) nodes).2.2) := by
      obtain ⟨log, hlog⟩ := ih memo _ (hk.trans (List.prefix_append _ [o])) hrest hafter
      exact ⟨node :: log, hlog.cons_new ho⟩
    unfold rebuildNodes
    simp only [Heap.obj_of_grown hk hnode, Heap.alloc, List.extract_eq_take_drop, Nat.add_sub_cancel_left]
    generalize (newFlat.drop start).take (h.obj node).items.length = part at hpart ⊢
    cases hobj : h.obj node with
    | list items =>
      rw [hobj] at hput hpart
      exact hput (.list part) ⟨rfl, rfl, hpart⟩ _
    | dict items =>
      rw [hobj] at hput hpart
      have hlength : items.length = part.length := by simpa [Obj.items] using hpart.length_eq
      refine hput (.dict ((items.map (·.1)).zip part)) ⟨rfl, ?_, ?_⟩ _
      · exact List.map_fst_zip (by rw [List.length_map, hlength])
      · have hitems : (Obj.dict ((items.map (·.1)).zip part)).items = part :=
          List.map_snd_zip (by rw [List.length_map, hlength])
        rw [hitems]
        exact hpart
    | tuple items =>
      rw [hobj] at hput hpart
      simp only
      split
      · rename_i hsame
        rw [hsame] at hpart
        obtain ⟨log, hlog⟩ := ih memo _ hk hrest hafter
        rw [hobj] at hlog
        refine ⟨log, hlog.cons_shared hk hnode (by simp [Heap.isWritable, hobj, Obj.type]) ?_⟩
        rw [hobj]
        exact List.forall₂_same.mp hpart
      · exact hput (.tuple part) ⟨rfl, rfl, hpart⟩ _

end

/-!
## What `spine_copy` returns

The levels are rebuilt from the deepest up. Below each level stands an exact copy of what the level holds, and the
log of all that was made.
-/

section

variable {h h' mid : Heap} {R S : Nat → Nat → Prop} {level log : List Nat} {levels : List Level} {s : Rebuild}

theorem Made.mono {a b : Nat} (hRS : ∀ a b, R a b → S a b) (hm : Made h mid h' R log a b) : Made h mid h' S log a b where
  new := hm.new
  alike := hm.alike.mono hRS
  logged := hm.logged

/-- The levels are rebuilt: `R` relates the containers to their copies. -/
structure Built (h : Heap) (level : List Nat) (levels : List Level) (s : Rebuild) (R : Nat → Nat → Prop)
    (log : List Nat) : Prop where
  grown : h <+: s.heap
  length : s.heap.length = h.length + log.length
  nodes : List.Forall₂ R level s.rebuilt
  old : ∀ {a b}, R a b → a < h.length
  made : ∀ {a b}, R a b → Made h h s.heap R log a b
  counted : ∀ a, log.count a ≤ (levels.flatMap Level.level).count a
  frozen : s.frozen = true → s.rebuilt = level

theorem built_nil (h : Heap) (memo : Memo) : Built h [] [] (rebuild h memo []) (fun _ _ => False) [] where
  grown := List.prefix_rfl
  length := rfl
  nodes := .nil
  old := False.elim
  made := False.elim
  counted _ := le_rfl
  frozen _ := rfl

/-- What a level holds is shared where nothing below it is copied. -/
theorem Built.shares (hb : Built h (refs (Level.of h level).flat) levels s R log) (hf : s.frozen = true) {a : Nat}
    (ha : a ∈ level) : Shares R (h.obj a) := by
  intro v hv
  cases v with
  | atom c => exact .atom c
  | ref c =>
    have hsame := hb.nodes
    rw [hb.frozen hf] at hsame
    exact .ref (List.forall₂_same.mp hsame c (mem_refs.mpr (mem_level_flat.mpr ⟨a, ha, hv⟩)))

/-- One level more. -/
theorem Built.step (hb : Built h (refs (Level.of h level).flat) levels s R log) (hlt : ∀ a ∈ level, a < h.length)
    {s' : Rebuild} {log' : List Nat} (hc : LevelCopy h s.heap s'.heap R log' level s'.rebuilt)
    (hf : s'.frozen = true → s'.rebuilt = level) :
    ∃ R' log', Built h level (Level.of h level :: levels) s' R' log' := by
  refine ⟨fun a b => R a b ∨ a ∈ level ∧ Made h s.heap s'.heap R log' a b, log ++ log', hb.grown.trans hc.grown, ?_, ?_,
    ?_, ?_, ?_, hf⟩
  · rw [hc.length, hb.length, List.length_append]
    omega
  · refine ((List.forall₂_and_left (p := (· ∈ level)) _ _).mpr ⟨fun a ha => ha, hc.made⟩).imp ?_
    rintro a b ⟨ha, hab⟩
    exact .inr ⟨ha, hab⟩
  · rintro a b (hab | ⟨ha, -⟩)
    · exact hb.old hab
    · exact hlt a ha
  · rintro a b (hab | ⟨-, hab⟩)
    · exact ((hb.made hab).later hc.grown _).mono fun _ _ => .inl
    · exact (hab.after hb.length).mono fun _ _ => .inl
  · intro a
    have hle := hb.counted a
    have hle' := hc.counted a
    rw [List.count_append, List.flatMap_cons, List.count_append]
    simp only [Level.of]
    omega

theorem isWritable_of_frozen (hf : (Level.of h level).frozen h = true) {a : Nat} (ha : a ∈ level) :
    h.isWritable a = false := by
  have hkinds : kinds h level = [.tuple] := by simpa [Level.frozen, Level.of] using (Bool.and_eq_true_iff.mp hf).2
  have hmem : (h.obj a).type ∈ kinds h level := List.mem_dedup.mpr (List.mem_map_of_mem (f := fun a => (h.obj a).type) ha)
  rw [hkinds, List.mem_singleton] at hmem
  rw [Heap.isWritable, hmem]
  rfl

theorem rebuild_cons_spec (memo : Memo) (hlt : ∀ a ∈ level, a < h.length)
    (hlast : levels = [] → refs (Level.of h level).flat = [])
    (hb : Built h (refs (Level.of h level).flat) levels (rebuild h memo levels) R log) :
    ∃ R' log', Built h level (Level.of h level :: levels) (rebuild h memo (Level.of h level :: levels)) R' log' := by
  rw [rebuild]
  generalize rebuild h memo levels = below at hb ⊢
  simp only
  split
  · rename_i hf
    obtain ⟨hf, hbelow⟩ := Bool.and_eq_true_iff.mp hf
    exact hb.step hlt (.shared hb.grown hlt (fun a ha => isWritable_of_frozen hf ha) fun a ha => hb.shares hbelow ha)
      fun _ => rfl
  · split
    · rename_i hown
      have hshares : ∀ a ∈ level, Shares R (h.obj a) := by
        rcases Bool.or_eq_true_iff.mp hown with hnil | hbelow
        · intro a ha v hv
          cases v with
          | atom c => exact .atom c
          | ref c =>
            have hmem := mem_refs.mpr (mem_level_flat.mpr ⟨a, ha, hv⟩)
            rw [hlast (List.isEmpty_iff.mp hnil)] at hmem
            cases hmem
        · exact fun a ha => hb.shares hbelow ha
      obtain ⟨log', hc⟩ := copyOwn_spec below.memo hb.grown hlt hshares
      refine hb.step hlt hc ?_
      rintro ⟨⟩
    · rename_i hown
      obtain ⟨hne, hbelow⟩ : levels.isEmpty = false ∧ below.frozen = false := by simpa using hown
      have hflat : List.Forall₂ (Lift R) (Level.of h level).flat
          (if (Level.of h level).flat.length = below.rebuilt.length then below.rebuilt.map .ref
            else putAt (Level.of h level).flat ((Level.of h level).flat.map fun v => (h.type v).isNode)
              (below.rebuilt.map .ref)) := by
        split
        · rename_i hlength
          exact forall₂_of_length hb.nodes hlength
        · exact forall₂_putBack hb.nodes
      simp only [hne, hbelow, Bool.false_eq_true, ↓reduceIte]
      obtain ⟨log', hc⟩ := rebuildNodes_spec below.memo 0 hb.grown hlt hflat
      refine hb.step hlt hc ?_
      rintro ⟨⟩

theorem rebuild_spec (memo : Memo) (hw : Walked h level levels) (hc : ∀ a ∈ level, h.Closed (.ref a)) :
    ∃ R log, Built h level levels (rebuild h memo levels) R log := by
  induction hw with
  | last hflat =>
    have hb := built_nil h memo
    rw [← hflat] at hb
    exact rebuild_cons_spec memo (fun a ha => (hc a ha).ref_lt) (fun _ => hflat) hb
  | next hw ih =>
    obtain ⟨R, log, hb⟩ := ih fun a ha => by
      obtain ⟨b, hb, hab⟩ := mem_level_flat.mp (mem_refs.mp ha)
      exact (hc b hb).item hab
    exact rebuild_cons_spec memo (fun a ha => (hc a ha).ref_lt) (fun hnil => absurd hnil hw.ne_nil) hb

/-! ### One copy for each list and dict -/

theorem index_eq_of_count_le_one {α : Type} [DecidableEq α] {l : List α} {a : α} {i j : Nat} (hone : l.count a ≤ 1)
    (hi : l[i]? = some a) (hj : l[j]? = some a) : i = j := by
  induction l generalizing i j with
  | nil => cases hi
  | cons b l ih =>
    cases i with
    | zero =>
      cases j with
      | zero => rfl
      | succ j =>
        have hpos := List.count_pos_iff.mpr (List.mem_of_getElem? (List.getElem?_cons_succ ▸ hj))
        cases hi
        rw [List.count_cons_self] at hone
        omega
    | succ i =>
      cases j with
      | zero =>
        have hpos := List.count_pos_iff.mpr (List.mem_of_getElem? (List.getElem?_cons_succ ▸ hi))
        cases hj
        rw [List.count_cons_self] at hone
        omega
      | succ j =>
        have hle := List.count_le_count_cons (a := a) (b := b) (l := l)
        rw [ih (Nat.le_trans hle hone) hi hj]

theorem Built.pairs (hb : Built h level levels s R log)
    (hone : ∀ a, h.isWritable a = true → (levels.flatMap Level.level).count a ≤ 1) :
    Pairs h s.heap h.length R where
  old := hb.old
  new hab := (hb.made hab).new
  alike hab := (hb.made hab).alike
  fresh hab hw := by
    obtain ⟨i, -, hb⟩ := (hb.made hab).logged hw
    omega
  one {a b a' b'} hab hab' hw := by
    obtain ⟨i, hi, hbi⟩ := (hb.made hab).logged hw
    constructor
    · rintro rfl
      obtain ⟨j, hj, hbj⟩ := (hb.made hab').logged hw
      have hij := index_eq_of_count_le_one (Nat.le_trans (hb.counted a) (hone a hw)) hi hj
      omega
    · rintro rfl
      have hw' : h.isWritable a' = true := by
        rw [Heap.isWritable, ← (hb.made hab').alike.type, (hb.made hab).alike.type]
        exact hw
      obtain ⟨j, hj, hbj⟩ := (hb.made hab').logged hw'
      obtain rfl : i = j := by omega
      exact Option.some.inj (hi.symm.trans hj)

/-- A level over leaves copied on its own. -/
theorem LevelCopy.pairs {nodes rebuilt : List Nat} (hlt : ∀ a ∈ nodes, a < h.length)
    (hc : LevelCopy h h h' (fun _ _ => False) log nodes rebuilt)
    (hone : ∀ a, h.isWritable a = true → nodes.count a ≤ 1) :
    ∃ R, Pairs h h' h.length R ∧ List.Forall₂ R nodes rebuilt ∧ ∀ a b, R a b → a ∈ nodes := by
  let R a b := a ∈ nodes ∧ Made h h h' (fun _ _ => False) log a b
  have hnodes : List.Forall₂ R nodes rebuilt := (List.forall₂_and_left _ _).mpr ⟨fun a ha => ha, hc.made⟩
  have hb : Built h nodes [Level.of h nodes] ⟨h', [], rebuilt, [], false⟩ R log := by
    refine ⟨hc.grown, hc.length, hnodes, fun hab => hlt _ hab.1, fun hab => hab.2.mono fun _ _ => False.elim, ?_, ?_⟩
    · intro a
      simpa [Level.of] using hc.counted a
    · rintro ⟨⟩
  refine ⟨R, hb.pairs fun a ha => ?_, hnodes, fun a b hab => hab.1⟩
  simpa [Level.of] using hone a ha

/-- Whatever the table holds and whichever walk is given, what is returned is a copy made of new lists and dicts. -/
theorem spineCopy_spec {rt : Runtime} {value copy : Val} {memo memo' : Memo} {walk : Option (List Level)}
    (hvalue : h.Closed value) (hwalk : walk = none ∨ walk = treeWalk rt h value)
    (hcopy : spineCopy rt h value memo walk = some (h', memo', copy)) : h <+: h' ∧ Copied h h' h.length value copy := by
  cases value with
  | atom a => cases hcopy
  | ref value =>
    simp only [spineCopy, spineCopyOf] at hcopy
    split at hcopy
    · cases hcopy
    · rename_i levels hlevels
      have hw : Walked h [value] levels := by
        split at hlevels
        · exact walked_of_treeWalkFrom hlevels
        · rename_i walk
          rcases hwalk with hnone | hsome
          · cases hnone
          · rw [copyLevels] at hlevels
            split at hlevels
            · cases hlevels
              exact walked_of_treeWalkFrom hsome.symm
            · cases hlevels
      split at hcopy
      · cases hcopy
      · rename_i hshared
        have hnodup : (sharedIds rt h value levels).Nodup := by
          by_contra hnot
          exact hshared (.inl hnot)
        have htop : ∀ a ∈ [value], h.Closed (.ref a) := by
          intro a ha
          rw [List.mem_singleton.mp ha]
          exact hvalue
        obtain ⟨R, log, hb⟩ := rebuild_spec memo hw htop
        obtain ⟨b, hhead, hresult⟩ := Option.map_eq_some_iff.mp hcopy
        cases hresult
        refine ⟨hb.grown, R, hb.pairs fun a ha => count_le_one rt hvalue hw hnodup ha, .ref ?_⟩
        have hnodes := hb.nodes
        generalize (rebuild h memo levels).rebuilt = rebuilt at hnodes hhead
        cases hnodes with
        | cons hab hrest =>
          cases hhead
          exact hab

end

end Cash.Copies
