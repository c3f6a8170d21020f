import Cash.Canon.Walk
import Mathlib.Data.List.Forall2
import Mathlib.Data.List.Perm.Basic

/-!
# The form of a value, without the machine

`Forms h seen v f seen'`: with the mutable objects `seen` met so far, the form of `v` is `f` and the objects met
are then `seen'`. That an object is not one being walked is not asked here.
-/

/-! ## Lists related item by item -/

namespace List

variable {α β : Type} {R : α → β → Prop} {xs : List α} {ys : List β}

theorem Forall₂.of_mem_left (h : Forall₂ R xs ys) {x : α} (hx : x ∈ xs) : ∃ y ∈ ys, R x y := by
  induction h with
  | nil => cases hx
  | cons hxy _ ih =>
    rcases mem_cons.mp hx with rfl | hx
    · exact ⟨_, mem_cons_self, hxy⟩
    · obtain ⟨y, hy, hR⟩ := ih hx
      exact ⟨y, mem_cons_of_mem _ hy, hR⟩

theorem Forall₂.of_mem_right (h : Forall₂ R xs ys) {y : β} (hy : y ∈ ys) : ∃ x ∈ xs, R x y := by
  induction h with
  | nil => cases hy
  | cons hxy _ ih =>
    rcases mem_cons.mp hy with rfl | hy
    · exact ⟨_, mem_cons_self, hxy⟩
    · obtain ⟨x, hx, hR⟩ := ih hy
      exact ⟨x, mem_cons_of_mem _ hx, hR⟩

theorem IsPrefix.getElem?_eq {zs : List α} (h : xs <+: zs) {i : Nat} {x : α} (hx : xs[i]? = some x) :
    zs[i]? = some x := by
  obtain ⟨rest, rfl⟩ := h
  have hi : i < xs.length := by
    by_contra hge
    simp [getElem?_eq_none (Nat.le_of_not_lt hge)] at hx
  rw [getElem?_append_left hi, hx]

theorem forall₂_pairs : ∀ {ps : List (α × α)} {qs : List (β × β)},
    Forall₂ R (ps.flatMap fun p => [p.1, p.2]) (qs.flatMap fun q => [q.1, q.2]) →
    Forall₂ (fun p q => R p.1 q.1 ∧ R p.2 q.2) ps qs
  | [], [], _ => .nil
  | [], _ :: _, h => by simp at h
  | _ :: _, [], h => by simp at h
  | _ :: _, _ :: _, h => by
    simp only [flatMap_cons, cons_append, nil_append, forall₂_cons] at h
    exact .cons ⟨h.1, h.2.1⟩ (forall₂_pairs h.2.2)

end List

namespace Cash.Canon

open Py

/-! ## Kinds of objects -/

section Kinds

variable {ρ : Type} {env : Env} {o : Obj env ρ}

theorem eq_prim_of_isPrim (ho : o.isPrim = true) : ∃ p, o = .prim p := by
  cases o with
  | prim p => exact ⟨p, rfl⟩
  | _ => cases ho

theorem isMutable_of_isMutableContainer (ho : o.isMutableContainer = true) : o.isMutable = true := by
  cases o with
  | list | dict | set => rfl
  | _ => cases ho

theorem isContainer_of_isMutableContainer (ho : o.isMutableContainer = true) : o.isContainer = true := by
  cases o with
  | list | dict | set => rfl
  | _ => cases ho

theorem isMutableContainer_of_isMutable (hc : o.isContainer = true) (ho : o.isMutable = true) :
    o.isMutableContainer = true := by
  cases o with
  | prim | bytearray | np => cases hc
  | _ => exact ho

theorem not_isMutable_of_isPrim (ho : o.isPrim = true) : o.isMutable = false := by
  cases o with
  | prim => rfl
  | _ => cases ho

theorem parts_of_isPrim (ho : o.isPrim = true) : o.parts = [] := by
  cases o with
  | prim => rfl
  | _ => cases ho

theorem parts_of_not_isContainer (ho : ¬o.isContainer = true) : o.parts = [] := by
  cases o with
  | prim | bytearray | np => rfl
  | _ => exact absurd rfl ho

end Kinds

variable {ρ : Type} {env : Env} {h : Heap env ρ}

/-! ## Loops and numbers -/

theorem loop_append (items : List Form) (xs : List ρ) :
    loop h items xs = (items ++ (loop h [] xs).1, (loop h [] xs).2) := by
  induction xs generalizing items with
  | nil => simp [loop]
  | cons x xs ih =>
    cases hx : h.obj x with
    | prim p =>
      simp only [loop, hx, List.nil_append]
      rw [ih, ih [.prim p]]
      simp
    | _ => simp [loop, hx]

theorem loop_of_not_isPrim {x : ρ} (hx : ¬ (h.obj x).isPrim = true) (items : List Form) (rest : List ρ) :
    loop h items (x :: rest) = (items, x :: rest) := by
  rw [loop]
  split
  · rename_i p hp
    rw [hp] at hx
    exact absurd rfl hx
  · rfl

theorem slices_append {size : Nat} (hpos : 0 < size) {first rest : Bytes} (hlen : first.length = size) :
    slices size (first ++ rest) = first :: slices size rest := by
  have hdiv : (first ++ rest).length / size = rest.length / size + 1 := by
    rw [List.length_append, hlen, Nat.add_comm, Nat.add_div_right _ hpos]
  unfold slices
  rw [hdiv, List.range_succ_eq_map, List.map_cons, List.map_map]
  congr 1
  · simp [← hlen]
  · refine List.map_congr_left fun i _ => ?_
    have hdrop : (i + 1) * size = first.length + i * size := by rw [hlen, Nat.succ_mul, Nat.add_comm]
    simp only [Function.comp, hdrop]
    rw [← List.drop_drop, List.drop_left]

theorem slices_raws {char : Nat} (ns : List (Np env)) (hchar : ∀ n ∈ ns, n.char = char) :
    slices (env.itemsize char) (ns.flatMap (·.raw)) = ns.map (·.raw) := by
  induction ns with
  | nil => simp [slices]
  | cons n ns ih =>
    have hsize : n.raw.length = env.itemsize char := by rw [n.size, hchar n (by simp)]
    rw [List.flatMap_cons, slices_append (env.itemsize_pos char) hsize,
      ih fun m hm => hchar m (List.mem_cons_of_mem _ hm), List.map_cons]

theorem npOf_eq_some {x : ρ} {n : Np env} (hx : npOf h x = some n) : h.obj x = .np n := by
  unfold npOf at hx
  split at hx
  · cases hx
    assumption
  · cases hx

theorem mapM_npOf {xs : List ρ} {ns : List (Np env)} (hx : xs.mapM (npOf h) = some ns) :
    List.Forall₂ (fun x n => h.obj x = .np n) xs ns := by
  induction xs generalizing ns with
  | nil =>
    simp at hx
    subst hx
    exact .nil
  | cons x xs ih =>
    simp only [List.mapM_cons, Option.bind_eq_bind, Option.bind_eq_some_iff, Option.pure_def,
      Option.some.injEq] at hx
    obtain ⟨n, hn, ns', hns, rfl⟩ := hx
    exact .cons (npOf_eq_some hn) (ih hns)

variable [DecidableEq ρ]

mutual
inductive Forms (h : Heap env ρ) : List ρ → ρ → Form → List ρ → Prop
  | prim {seen : List ρ} {v : ρ} {p : Prim} : h.obj v = .prim p → Forms h seen v (.prim p) seen
  | np {seen : List ρ} {v : ρ} {n : Np env} : h.obj v = .np n → Forms h seen v (.np n.char n.raw) seen
  | bytearray {seen : List ρ} {v : ρ} {bs : Bytes} : h.obj v = .bytearray bs → v ∉ seen →
      Forms h seen v (.bytearray bs) (seen ++ [v])
  | again {seen : List ρ} {v : ρ} : (h.obj v).isMutable = true → v ∈ seen →
      Forms h seen v (.aliasOf (seen.idxOf v)) seen
  | mutable {seen seen' : List ρ} {v : ρ} {fs : List Form} : (h.obj v).isMutableContainer = true → v ∉ seen →
      FormsAll h (seen ++ [v]) (h.obj v).parts fs seen' → Forms h seen v (assemble (h.obj v) fs) seen'
  | immutable {seen seen' : List ρ} {v : ρ} {fs : List Form} : (h.obj v).isContainer = true →
      (h.obj v).isMutableContainer = false → FormsAll h seen (h.obj v).parts fs seen' →
      Forms h seen v (assemble (h.obj v) fs) seen'

inductive FormsAll (h : Heap env ρ) : List ρ → List ρ → List Form → List ρ → Prop
  | nil {seen : List ρ} : FormsAll h seen [] [] seen
  | cons {seen seen' seen'' : List ρ} {x : ρ} {xs : List ρ} {f : Form} {fs : List Form} :
      Forms h seen x f seen' → FormsAll h seen' xs fs seen'' → FormsAll h seen (x :: xs) (f :: fs) seen''
end

/-! ## Parts that are primitives or numbers -/

theorem formsAll_prims {seen xs : List ρ} (hp : ∀ x ∈ xs, (h.obj x).isPrim = true) :
    FormsAll h seen xs (loop h [] xs).1 seen ∧ (loop h [] xs).2 = [] := by
  induction xs with
  | nil => exact ⟨.nil, rfl⟩
  | cons x xs ih =>
    obtain ⟨hall, hrest⟩ := ih fun y hy => hp y (List.mem_cons_of_mem _ hy)
    have hx := hp x (by simp)
    cases ho : h.obj x with
    | prim p =>
      simp only [loop, ho]
      rw [loop_append]
      exact ⟨.cons (.prim ho) hall, hrest⟩
    | _ => simp [ho, Obj.isPrim] at hx

theorem formsAll_nps {seen xs : List ρ} {ns : List (Np env)}
    (hx : List.Forall₂ (fun x n => h.obj x = .np n) xs ns) :
    FormsAll h seen xs (ns.map fun n => .np n.char n.raw) seen := by
  induction hx with
  | nil => exact .nil
  | cons hn _ ih => exact .cons (.np hn) ih

/-- Read from one array, the numbers have the forms they have one at a time. -/
theorem formsAll_numbers {seen : List ρ} {x : ρ} {forms : List Form} (hn : numbers h x = some forms) :
    FormsAll h seen (h.obj x).parts forms seen ∧ ∀ y ∈ (h.obj x).parts, (h.obj y).parts = [] := by
  have hform : numbersForm h (h.obj x).parts = some forms := by
    unfold numbers at hn
    cases ho : h.obj x <;> simp_all [Obj.parts]
  unfold numbersForm at hform
  split at hform
  · rename_i n ns hns
    split at hform
    · rename_i hall
      cases hform
      have hchar : ∀ m ∈ n :: ns, m.char = n.char := by
        intro m hm
        rcases List.mem_cons.mp hm with rfl | hm
        · rfl
        · simpa using List.all_eq_true.mp hall m hm
      have hobjs := mapM_npOf hns
      rw [slices_raws _ hchar, List.map_map]
      have heq : (n :: ns).map (Form.np n.char ∘ fun m => m.raw) = (n :: ns).map fun m => .np m.char m.raw :=
        List.map_congr_left fun m hm => by simp [hchar m hm]
      rw [heq]
      refine ⟨formsAll_nps hobjs, fun y hy => ?_⟩
      obtain ⟨m, -, hm⟩ := hobjs.of_mem_left hy
      simp [hm, Obj.parts]
    · cases hform
  · cases hform

/-! ## What a form tells of its value -/

variable {ρ σ : Type} {env : Env}

/-! ### Tags -/

namespace Form

inductive Shape
  | prim | bytearray | again | np | typed

/-- Which of the rewritings made the form. -/
def shape : Form → Shape
  | .prim _ => .prim
  | .bytearray _ => .bytearray
  | .tuple [_, _] => .again
  | .tuple (.prim (.str s) :: _) => if s = Py.str "__cash_np__" then .np else .typed
  | .tuple _ => .typed

@[simp] theorem shape_prim (p : Prim) : (Form.prim p).shape = .prim := rfl
@[simp] theorem shape_bytearray (bs : Bytes) : (Form.bytearray bs).shape = .bytearray := rfl
@[simp] theorem shape_aliasOf (n : Nat) : (aliasOf n).shape = .again := rfl
@[simp] theorem shape_np (char : Nat) (raw : Bytes) : (np char raw).shape = .np := by simp [np, shape, str]
@[simp] theorem shape_typed (tag : String) (canon : List Form) : (typed tag canon).shape = .typed := by
  simp only [typed, shape, str, if_neg (show Py.str "__cash_type__" ≠ Py.str "__cash_np__" by decide)]

theorem aliasOf_inj {m n : Nat} (h : aliasOf m = aliasOf n) : m = n := by
  simp only [aliasOf, Form.tuple.injEq, List.cons.injEq, Form.prim.injEq, Prim.int.injEq] at h
  omega

theorem np_inj {c d : Nat} {raw raw' : Bytes} (h : np c raw = np d raw') : c = d ∧ raw = raw' := by
  simpa [np] using h

theorem typed_inj {t u : String} {c d : List Form} (h : typed t c = typed u d) : Py.str t = Py.str u ∧ c = d := by
  simpa [typed, str] using h

/-- The items of a dict's form tell the forms of its keys and values. -/
theorem pairs_inj {k n : Nat} : ∀ {fs gs : List Form}, fs.length = 2 * k → gs.length = 2 * n → pairs fs = pairs gs →
    fs = gs
  | [], [], _, _, _ => rfl
  | [], _ :: _ :: _, _, _, h => by simp [pairs] at h
  | _ :: _ :: _, [], _, _, h => by simp [pairs] at h
  | a :: b :: fs, c :: d :: gs, hf, hg, h => by
    simp only [pairs, List.cons.injEq, Form.tuple.injEq, and_true] at h
    have hfs : fs.length = 2 * (k - 1) := by simp at hf; omega
    have hgs : gs.length = 2 * (n - 1) := by simp at hg; omega
    rw [h.1.1, h.1.2, pairs_inj hfs hgs h.2]
  | [_], _, hf, _, _ => by simp at hf; omega
  | _, [_], _, hg, _ => by simp at hg; omega

end Form

theorem shape_assemble {o : Obj env ρ} (ho : o.isContainer = true) (fs : List Form) :
    (assemble o fs).shape = .typed := by
  cases o <;> simp_all [assemble, Obj.isContainer]

/-- The form of a container tells its type. -/
inductive SameType (fs gs : List Form) : Obj env ρ → Obj env σ → Prop
  | list (xs : List ρ) (ys : List σ) : fs = gs → SameType fs gs (.list xs) (.list ys)
  | tuple (xs : List ρ) (ys : List σ) : fs = gs → SameType fs gs (.tuple xs) (.tuple ys)
  | dict (xs : List (ρ × ρ)) (ys : List (σ × σ)) : Form.pairs fs = Form.pairs gs → SameType fs gs (.dict xs) (.dict ys)
  | set (xs : List ρ) (ys : List σ) : sortForms env fs = sortForms env gs → SameType fs gs (.set xs) (.set ys)
  | frozenset (xs : List ρ) (ys : List σ) : sortForms env fs = sortForms env gs →
      SameType fs gs (.frozenset xs) (.frozenset ys)

theorem sameType_of_assemble {o : Obj env ρ} {o' : Obj env σ} (ho : o.isContainer = true) (ho' : o'.isContainer = true)
    {fs gs : List Form} (h : assemble o fs = assemble o' gs) : SameType fs gs o o' := by
  cases o with
  | prim | bytearray | np => cases ho
  | list xs =>
    cases o' with
    | list ys => exact .list xs ys (Form.typed_inj h).2
    | prim | bytearray | np => cases ho'
    | _ => exact absurd (Form.typed_inj h).1 (by decide)
  | tuple xs =>
    cases o' with
    | tuple ys => exact .tuple xs ys (Form.typed_inj h).2
    | prim | bytearray | np => cases ho'
    | _ => exact absurd (Form.typed_inj h).1 (by decide)
  | dict xs =>
    cases o' with
    | dict ys => exact .dict xs ys (Form.typed_inj h).2
    | prim | bytearray | np => cases ho'
    | _ => exact absurd (Form.typed_inj h).1 (by decide)
  | set xs =>
    cases o' with
    | set ys => exact .set xs ys (Form.typed_inj h).2
    | prim | bytearray | np => cases ho'
    | _ => exact absurd (Form.typed_inj h).1 (by decide)
  | frozenset xs =>
    cases o' with
    | frozenset ys => exact .frozenset xs ys (Form.typed_inj h).2
    | prim | bytearray | np => cases ho'
    | _ => exact absurd (Form.typed_inj h).1 (by decide)

/-! ### Sorted items -/

theorem sortForms_perm (fs : List Form) : (sortForms env fs).Perm fs := List.mergeSort_perm fs _

/-- Sorted by their bytes, equal items come in one order. -/
theorem sortForms_eq (hinj : Function.Injective env.dumps) {fs gs : List Form} (hp : fs.Perm gs) :
    sortForms env fs = sortForms env gs := by
  have hkey : ∀ {f g : Form}, (env.dumps f).map (·.toNat) = (env.dumps g).map (·.toNat) → f = g := by
    intro f g h
    exact hinj (List.map_injective_iff.mpr (fun _ _ => UInt8.toNat_inj.mp) h)
  have hsorted : ∀ fs, (sortForms env fs).Pairwise
      fun f g => decide ((env.dumps f).map (·.toNat) ≤ (env.dumps g).map (·.toNat)) = true := by
    intro fs
    refine List.pairwise_mergeSort ?_ ?_ fs
    · intro a b c hab hbc
      simp only [decide_eq_true_eq] at *
      exact hab.trans hbc
    · intro a b
      simp only [Bool.or_eq_true, decide_eq_true_eq]
      exact le_total _ _
  refine List.Perm.eq_of_pairwise ?_ (hsorted fs) (hsorted gs) ?_
  · intro a b _ _ hab hba
    simp only [decide_eq_true_eq] at hab hba
    exact hkey (le_antisymm hab hba)
  · exact ((sortForms_perm fs).trans hp).trans (sortForms_perm gs).symm

end Cash.Canon
