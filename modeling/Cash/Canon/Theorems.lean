import Cash.Canon.Lemmas.Faithful
import Cash.Canon.Lemmas.Walk

/-!
# Canonical forms
-/

namespace Cash.Canon

open Py

/-! ## Graphs that are alike have equal forms -/

section

theorem Matches.isContainer_eq {ρ σ : Type} {env : Env} {R : ρ → σ → Prop} {o : Obj env ρ} {o' : Obj env σ} (h : Matches R o o') :
    o.isContainer = o'.isContainer := by
  cases h <;> rfl

section Objects

variable {ρ : Type} [DecidableEq ρ] {env : Env} {h : Heap env ρ} {s s' : List ρ} {v : ρ} {f : Form}

/-! ### An object tells how its form is made -/

theorem Forms.prim_inv {p : Prim} (ho : h.obj v = .prim p) (hf : Forms h s v f s') : f = .prim p ∧ s' = s := by
  cases hf <;> simp_all [Obj.isMutable, Obj.isMutableContainer, Obj.isContainer]

theorem Forms.np_inv {n : Np env} (ho : h.obj v = .np n) (hf : Forms h s v f s') : f = .np n.char n.raw ∧ s' = s := by
  cases hf <;> simp_all [Obj.isMutable, Obj.isMutableContainer, Obj.isContainer]

theorem Forms.bytearray_inv {bs : Bytes} (ho : h.obj v = .bytearray bs) (hf : Forms h s v f s') :
    (v ∈ s ∧ f = .aliasOf (s.idxOf v) ∧ s' = s) ∨ (v ∉ s ∧ f = .bytearray bs ∧ s' = s ++ [v]) := by
  cases hf <;> simp_all [Obj.isMutableContainer, Obj.isContainer]

theorem Forms.container_inv (hc : (h.obj v).isContainer = true) (hf : Forms h s v f s') :
    ((h.obj v).isMutable = true ∧ v ∈ s ∧ f = .aliasOf (s.idxOf v) ∧ s' = s) ∨
      (((h.obj v).isMutable = true → v ∉ s) ∧
        ∃ fs, f = assemble (h.obj v) fs ∧ FormsAll h (meet h s v) (h.obj v).parts fs s') := by
  cases hf with
  | again hm hv => exact .inl ⟨hm, hv, rfl, rfl⟩
  | mutable hm hv hall => exact .inr ⟨fun _ => hv, _, rfl, by simpa [meet, hm] using hall⟩
  | immutable _ hm hall =>
    refine .inr ⟨fun hm' => ?_, _, rfl, by simpa [meet, hm] using hall⟩
    rw [isMutableContainer_of_isMutable hc hm'] at hm
    cases hm
  | _ => simp_all [Obj.isContainer]

end Objects

variable {ρ σ : Type} [DecidableEq ρ] [DecidableEq σ] {env : Env} {h₁ : Heap env ρ} {h₂ : Heap env σ}
  {R : ρ → σ → Prop}

/-! ### Numbers of the objects met -/

theorem Alike.mem_iff (halike : Alike h₁ h₂ R) {a : ρ} {b : σ} (hab : R a b) (hm : (h₁.obj a).isMutable = true)
    {s₁ : List ρ} {s₂ : List σ} (hs : List.Forall₂ R s₁ s₂) : (a ∈ s₁ ↔ b ∈ s₂) ∧ s₁.idxOf a = s₂.idxOf b := by
  induction hs with
  | nil => simp
  | @cons x y s₁ s₂ hxy hs ih =>
    have hone := halike.one hab hxy hm
    constructor
    · simp only [List.mem_cons, hone, ih.1]
    · by_cases hx : x = a
      · have hy : y = b := (hone.mp hx.symm).symm
        simp [hx, hy]
      · have hy : y ≠ b := fun hy => hx (hone.mpr hy.symm).symm
        rw [List.idxOf_cons_ne _ hx, List.idxOf_cons_ne _ hy, ih.2]

/-! ### One form -/

/-- The forms of the object, with related objects met, are the forms of those related to it. -/
def OneForm (h₁ : Heap env ρ) (h₂ : Heap env σ) (R : ρ → σ → Prop) (a : ρ) : Prop :=
  ∀ b f₁ f₂ s₁ s₁' s₂ s₂', R a b → List.Forall₂ R s₁ s₂ → Forms h₁ s₁ a f₁ s₁' → Forms h₂ s₂ b f₂ s₂' →
    f₁ = f₂ ∧ List.Forall₂ R s₁' s₂'

theorem FormsAll.oneForm {xs : List ρ} {ys : List σ} {fs gs : List Form} {s₁ s₁' : List ρ} {s₂ s₂' : List σ}
    (hone : ∀ x ∈ xs, OneForm h₁ h₂ R x) (hxy : List.Forall₂ R xs ys) (hs : List.Forall₂ R s₁ s₂)
    (hx : FormsAll h₁ s₁ xs fs s₁') (hy : FormsAll h₂ s₂ ys gs s₂') : fs = gs ∧ List.Forall₂ R s₁' s₂' := by
  induction hxy generalizing fs gs s₁ s₂ with
  | nil =>
    cases hx
    cases hy
    exact ⟨rfl, hs⟩
  | cons hab _ ih =>
    cases hx with
    | cons hx hxs =>
    cases hy with
    | cons hy hys =>
      obtain ⟨rfl, hs'⟩ := hone _ (by simp) _ _ _ _ _ _ _ hab hs hx hy
      obtain ⟨rfl, hs''⟩ := ih (fun z hz => hone z (List.mem_cons_of_mem _ hz)) hs' hxs hys
      exact ⟨rfl, hs''⟩

/-- The items of two sets in any order: their forms are the same ones. -/
theorem forms_perm {a : ρ} {b : σ} {xs : List ρ} {ys zs : List σ} {fs gs : List Form} {s₁ s₁' : List ρ}
    {s₂ s₂' : List σ} (hone : ∀ x ∈ xs, OneForm h₁ h₂ R x) (hxs : ∀ x ∈ xs, x ∈ (h₁.obj a).hashed)
    (hys : ∀ y ∈ ys, y ∈ (h₂.obj b).hashed) (hxz : List.Forall₂ R xs zs) (hzy : zs.Perm ys)
    (hs : List.Forall₂ R s₁ s₂) (hx : FormsAll h₁ s₁ xs fs s₁') (hy : FormsAll h₂ s₂ ys gs s₂') :
    fs.Perm gs ∧ List.Forall₂ R s₁' s₂' := by
  obtain ⟨rfl, hforms⟩ := hx.of_hashed hxs
  obtain ⟨rfl, hforms'⟩ := hy.of_hashed hys
  obtain ⟨gs', hforms'', hperm⟩ := List.perm_comp_forall₂ hzy hforms'
  have hfs : fs = gs' := by
    clear hx hy hforms' hperm hzy hxs hys
    induction hforms generalizing zs gs' with
    | nil =>
      cases hxz
      cases hforms''
      rfl
    | cons hf _ ih =>
      cases hxz with
      | cons hab hxz =>
      cases hforms'' with
      | cons hg hgs =>
        obtain ⟨rfl, -⟩ := hone _ (by simp) _ _ _ _ _ _ _ hab hs hf hg
        rw [ih (fun z hz => hone z (List.mem_cons_of_mem _ hz)) hxz _ hgs]
  exact ⟨hfs ▸ hperm, hs⟩

/-- The form of a container, from those of its parts. -/
theorem assemble_eq (hinj : Function.Injective env.dumps) (halike : Alike h₁ h₂ R) {a : ρ} {b : σ}
    {fs gs : List Form} {s₁ s₁' : List ρ} {s₂ s₂' : List σ} (hab : R a b)
    (hone : ∀ x ∈ (h₁.obj a).parts, OneForm h₁ h₂ R x) (hs : List.Forall₂ R s₁ s₂)
    (hx : FormsAll h₁ s₁ (h₁.obj a).parts fs s₁') (hy : FormsAll h₂ s₂ (h₂.obj b).parts gs s₂') :
    assemble (h₁.obj a) fs = assemble (h₂.obj b) gs ∧ List.Forall₂ R s₁' s₂' := by
  have hmatches := halike.objects hab
  generalize oa : h₁.obj a = o at *
  generalize ob : h₂.obj b = o' at *
  cases hmatches with
  | prim p | bytearray bs | np n => exact ⟨rfl, by cases hx; cases hy; exact hs⟩
  | list hxy | tuple hxy =>
    obtain ⟨rfl, hs'⟩ := FormsAll.oneForm hone hxy hs hx hy
    exact ⟨rfl, hs'⟩
  | @dict ps qs hpairs =>
    have hxy : List.Forall₂ R (ps.flatMap fun p => [p.1, p.2]) (qs.flatMap fun q => [q.1, q.2]) := by
      clear oa ob hone hx hy
      induction hpairs with
      | nil => exact .nil
      | cons hpq _ ih => exact .cons hpq.1 (.cons hpq.2 ih)
    obtain ⟨rfl, hs'⟩ := FormsAll.oneForm hone hxy hs hx hy
    exact ⟨rfl, hs'⟩
  | @set xs ys zs hxz hzy =>
    have hxs : ∀ x ∈ xs, x ∈ (h₁.obj a).hashed := by simp [oa, Obj.hashed]
    have hys : ∀ y ∈ ys, y ∈ (h₂.obj b).hashed := by simp [ob, Obj.hashed]
    obtain ⟨hperm, hs'⟩ := forms_perm hone hxs hys hxz hzy hs hx hy
    exact ⟨by simp only [assemble, sortForms_eq hinj hperm], hs'⟩
  | @frozenset xs ys zs hxz hzy =>
    have hxs : ∀ x ∈ xs, x ∈ (h₁.obj a).hashed := by simp [oa, Obj.hashed]
    have hys : ∀ y ∈ ys, y ∈ (h₂.obj b).hashed := by simp [ob, Obj.hashed]
    obtain ⟨hperm, hs'⟩ := forms_perm hone hxs hys hxz hzy hs hx hy
    exact ⟨by simp only [assemble, sortForms_eq hinj hperm], hs'⟩

/-- By induction on the parts of a value that is not cyclic. -/
theorem oneForm_of_acc (hinj : Function.Injective env.dumps) (halike : Alike h₁ h₂ R) {a : ρ}
    (ha : Acc h₁.Part a) : OneForm h₁ h₂ R a := by
  induction ha with
  | intro a _ ih =>
    intro b f₁ f₂ s₁ s₁' s₂ s₂' hab hs hx hy
    have hmatches := halike.objects hab
    by_cases hc : (h₁.obj a).isContainer = true
    · have hc' : (h₂.obj b).isContainer = true := hmatches.isContainer_eq ▸ hc
      have hmutable := hmatches.isMutable_eq
      rcases hx.container_inv hc with ⟨hm, ha, rfl, rfl⟩ | ⟨hnot, fs, rfl, hall⟩
      · obtain ⟨hmem, hidx⟩ := halike.mem_iff hab hm hs
        rcases hy.container_inv hc' with ⟨-, -, rfl, rfl⟩ | ⟨hnot', -⟩
        · exact ⟨by rw [hidx], hs⟩
        · exact absurd (hmem.mp ha) (hnot' (hmutable.2 ▸ hm))
      · rcases hy.container_inv hc' with ⟨hm', hb, -⟩ | ⟨-, gs, rfl, hall'⟩
        · have hm : (h₁.obj a).isMutable = true := hmutable.2 ▸ hm'
          exact absurd ((halike.mem_iff hab hm hs).1.mpr hb) (hnot hm)
        · refine assemble_eq hinj halike hab ih ?_ hall hall'
          simp only [meet, hmutable.1]
          split
          · exact List.rel_append hs (.cons hab .nil)
          · exact hs
    · generalize oa : h₁.obj a = o at *
      generalize ob : h₂.obj b = o' at *
      cases hmatches with
      | prim p =>
        obtain ⟨rfl, rfl⟩ := hx.prim_inv oa
        obtain ⟨rfl, rfl⟩ := hy.prim_inv ob
        exact ⟨rfl, hs⟩
      | np n =>
        obtain ⟨rfl, rfl⟩ := hx.np_inv oa
        obtain ⟨rfl, rfl⟩ := hy.np_inv ob
        exact ⟨rfl, hs⟩
      | bytearray bs =>
        obtain ⟨hmem, hidx⟩ := halike.mem_iff hab (by simp [oa, Obj.isMutable]) hs
        rcases hx.bytearray_inv oa with ⟨ha, rfl, rfl⟩ | ⟨ha, rfl, rfl⟩
        · rcases hy.bytearray_inv ob with ⟨-, rfl, rfl⟩ | ⟨hb, -⟩
          · exact ⟨by rw [hidx], hs⟩
          · exact absurd (hmem.mp ha) hb
        · rcases hy.bytearray_inv ob with ⟨hb, -⟩ | ⟨-, rfl, rfl⟩
          · exact absurd (hmem.mpr hb) ha
          · exact ⟨rfl, List.rel_append hs (.cons hab .nil)⟩
      | _ => simp [Obj.isContainer] at hc

end

/-! ## Forms that are equal -/

/-! ### Values built in two ways -/

section Graphs

variable {ρ σ : Type} {env : Env} {h₁ : Heap env ρ} {h₂ : Heap env σ} {v : ρ} {w : σ}
  {R : ρ → σ → Prop} {o : Obj env ρ} {o' : Obj env σ}

theorem Matches.part_right (hmatches : Matches R o o') {y : σ}
    (hy : y ∈ o'.parts) : ∃ x ∈ o.parts, R x y := by
  cases hmatches with
  | prim | bytearray | np => cases hy
  | list hxy | tuple hxy => exact hxy.of_mem_right hy
  | set hxz hzy | frozenset hxz hzy => exact hxz.of_mem_right (hzy.mem_iff.mpr hy)
  | dict hpairs =>
    obtain ⟨q, hq, hy⟩ := List.mem_flatMap.mp hy
    obtain ⟨p, hp, hkey, hvalue⟩ := hpairs.of_mem_right hq
    rcases List.mem_cons.mp hy with rfl | hy
    · exact ⟨p.1, List.mem_flatMap.mpr ⟨p, hp, by simp⟩, hkey⟩
    · rw [List.mem_singleton.mp hy]
      exact ⟨p.2, List.mem_flatMap.mpr ⟨p, hp, by simp⟩, hvalue⟩

theorem Matches.flip (hmatches : Matches R o o') :
    Matches (fun y x => R x y) o' o := by
  cases hmatches with
  | prim p => exact .prim p
  | bytearray bs => exact .bytearray bs
  | np n => exact .np n
  | list hxy => exact .list (List.Forall₂.flip hxy)
  | tuple hxy => exact .tuple (List.Forall₂.flip hxy)
  | dict hpairs => exact .dict (List.Forall₂.flip hpairs)
  | set hxz hzy =>
    obtain ⟨xs, hxs, hperm⟩ := List.perm_comp_forall₂ hzy.symm (List.Forall₂.flip hxz)
    exact .set hxs hperm
  | frozenset hxz hzy =>
    obtain ⟨xs, hxs, hperm⟩ := List.perm_comp_forall₂ hzy.symm (List.Forall₂.flip hxz)
    exact .frozenset hxs hperm

theorem Alike.acc (halike : Alike h₁ h₂ R) (hv : Acc h₁.Part v) : ∀ {w}, R v w → Acc h₂.Part w := by
  induction hv with
  | intro v _ ih =>
    intro w hvw
    refine .intro w fun y hy => ?_
    obtain ⟨x, hx, hxy⟩ := (halike.objects hvw).part_right hy
    exact ih x hx hxy

theorem Isomorphic.symm (hiso : Isomorphic h₁ v h₂ w) : Isomorphic h₂ w h₁ v := by
  obtain ⟨R, halike, hvw⟩ := hiso
  refine ⟨fun y x => R x y, ⟨fun hab => (halike.objects hab).flip, fun hab hab' hm => ?_⟩, hvw⟩
  exact (halike.one hab hab' ((halike.objects hab).isMutable_eq.2 ▸ hm)).symm

theorem Isomorphic.acc (hiso : Isomorphic h₁ v h₂ w) (hv : Acc h₁.Part v) : Acc h₂.Part w := by
  obtain ⟨R, halike, hvw⟩ := hiso
  exact halike.acc hv hvw

end Graphs

/-! ### What the walk gives -/

variable {ρ σ : Type} [DecidableEq ρ] [DecidableEq σ] {env : Env} {h₁ : Heap env ρ} {h₂ : Heap env σ}
  {memo₁ memo₁' : Memo ρ} {memo₂ memo₂' : Memo σ} {v : ρ} {w : σ}

/-- A form that `stable_key_repr` gives is the form of a value that is not cyclic. -/
theorem forms_of_stableKeyRepr [Fintype ρ] {h : Heap env ρ} {memo memo' : Memo ρ} (hm : Warm h memo) {f : Form}
    (hv : StableKeyRepr h memo v (.form f) memo') : Acc h.Part v ∧ ∃ seen', Forms h [] v f seen' := by
  rcases stableKeyRepr_ends hm.remembers v with ⟨g, seen', memo'', hforms, hacc, -, hends⟩ | ⟨-, memo'', -, hends⟩
  · obtain ⟨heq, -⟩ := stableKeyRepr_unique hv hends
    cases heq
    exact ⟨hacc, seen', hforms⟩
  · cases (stableKeyRepr_unique hv hends).1

/-- Equal forms mean indistinguishable values. -/
theorem stableKeyRepr_faithful [Fintype ρ] [Fintype σ] (hm₁ : Warm h₁ memo₁) (hm₂ : Warm h₂ memo₂) {f : Form}
    (hv : StableKeyRepr h₁ memo₁ v (.form f) memo₁') (hw : StableKeyRepr h₂ memo₂ w (.form f) memo₂') :
    Isomorphic h₁ v h₂ w := by
  obtain ⟨hacc, S₁, hforms₁⟩ := forms_of_stableKeyRepr hm₁ hv
  obtain ⟨-, S₂, hforms₂⟩ := forms_of_stableKeyRepr hm₂ hw
  exact isomorphic_of_forms hacc hforms₁ hforms₂

/-- A `CyclicValueError` is raised exactly for the cyclic values. -/
theorem cyclicValueError_iff [Fintype ρ] (hm : Warm h₁ memo₁) {r : Result} (hv : StableKeyRepr h₁ memo₁ v r memo₁') :
    r = .cyclicValueError ↔ h₁.Cyclic v := by
  rcases stableKeyRepr_ends hm.remembers v with ⟨f, seen', memo', -, hacc, -, hends⟩ | ⟨hc, memo', -, hends⟩
  · obtain ⟨rfl, -⟩ := stableKeyRepr_unique hv hends
    simp [not_cyclic_of_acc hacc]
  · obtain ⟨rfl, -⟩ := stableKeyRepr_unique hv hends
    simp [hc]

/-- The walk of a value ends, with a `CyclicValueError` exactly when it is cyclic, and its result does not depend
on the order of its sets, on which of its immutable parts are one object, nor on the memo. -/
theorem stableKeyRepr_stable [Fintype ρ] [Fintype σ] (hinj : Function.Injective env.dumps) (hm₁ : Warm h₁ memo₁)
    (hm₂ : Warm h₂ memo₂) (hiso : Isomorphic h₁ v h₂ w) :
    (∃ r memo₁' memo₂', StableKeyRepr h₁ memo₁ v r memo₁' ∧ StableKeyRepr h₂ memo₂ w r memo₂') ∧
      (∀ r r' memo₁' memo₂', StableKeyRepr h₁ memo₁ v r memo₁' → StableKeyRepr h₂ memo₂ w r' memo₂' → r = r') ∧
      ∀ r memo₁', StableKeyRepr h₁ memo₁ v r memo₁' → (r = .cyclicValueError ↔ h₁.Cyclic v) := by
  have hends : ∃ r memo₁' memo₂', StableKeyRepr h₁ memo₁ v r memo₁' ∧ StableKeyRepr h₂ memo₂ w r memo₂' := by
    rcases stableKeyRepr_ends hm₁.remembers v with ⟨f, S₁, m₁, hforms₁, hacc₁, -, he₁⟩ | ⟨hc₁, m₁, -, he₁⟩ <;>
    rcases stableKeyRepr_ends hm₂.remembers w with ⟨g, S₂, m₂, hforms₂, hacc₂, -, he₂⟩ | ⟨hc₂, m₂, -, he₂⟩
    · obtain ⟨R, halike, hvw⟩ := hiso
      obtain ⟨rfl, -⟩ := oneForm_of_acc hinj halike hacc₁ w f g [] S₁ [] S₂ hvw .nil hforms₁ hforms₂
      exact ⟨_, m₁, m₂, he₁, he₂⟩
    · exact absurd hc₂ (not_cyclic_of_acc (hiso.acc hacc₁))
    · exact absurd hc₁ (not_cyclic_of_acc (hiso.symm.acc hacc₂))
    · exact ⟨_, m₁, m₂, he₁, he₂⟩
  refine ⟨hends, fun r r' _ _ hr hr' => ?_, fun r memo' hr => cyclicValueError_iff hm₁ hr⟩
  obtain ⟨r₀, m₁, m₂, he₁, he₂⟩ := hends
  rw [(stableKeyRepr_unique hr he₁).1, (stableKeyRepr_unique hr' he₂).1]

/-! ### Two small graphs

A pickling that tells all forms apart: a form as numbers, each written in unary. -/

def Prim.code : Prim → List Nat
  | .str s => 0 :: s.length :: s
  | .int (.ofNat n) => [1, n]
  | .int (.negSucc n) => [2, n]
  | .float bits => [3, bits.toNat]
  | .bool b => [4, b.toNat]
  | .none => [5]
  | .bytes bs => 6 :: bs.length :: bs.map (·.toNat)
  | .complex re im => [7, re.toNat, im.toNat]

mutual
def Form.code : Form → List Nat
  | .prim p => 0 :: p.code
  | .bytearray bs => 1 :: bs.length :: bs.map (·.toNat)
  | .tuple items => 2 :: items.length :: Form.codes items

def Form.codes : List Form → List Nat
  | [] => []
  | f :: fs => f.code ++ Form.codes fs
end

theorem bytes_code_inj {bs cs : Bytes} {r r' : List Nat} (hlen : bs.length = cs.length)
    (h : bs.map (·.toNat) ++ r = cs.map (·.toNat) ++ r') : bs = cs ∧ r = r' := by
  obtain ⟨hmap, hr⟩ := List.append_inj h (by simpa using hlen)
  exact ⟨List.map_injective_iff.mpr (fun _ _ => UInt8.toNat_inj.mp) hmap, hr⟩

theorem Prim.code_inj {p q : Prim} {r r' : List Nat} (h : p.code ++ r = q.code ++ r') : p = q ∧ r = r' := by
  cases p with
  | str s =>
    cases q with
    | str t =>
      simp only [Prim.code, List.cons_append, List.cons.injEq, true_and] at h
      obtain ⟨rfl, hr⟩ := List.append_inj h.2 h.1
      exact ⟨rfl, hr⟩
    | int n => cases n <;> simp [Prim.code] at h
    | _ => simp [Prim.code] at h
  | int n =>
    cases n <;> cases q with
    | int m => cases m <;> simp_all [Prim.code]
    | _ => simp [Prim.code] at h
  | float b => cases q with
    | float c => simp_all [Prim.code, UInt64.toNat_inj]
    | int n => cases n <;> simp [Prim.code] at h
    | _ => simp [Prim.code] at h
  | bool b => cases q with
    | bool c => cases b <;> cases c <;> simp_all [Prim.code]
    | int n => cases n <;> simp [Prim.code] at h
    | _ => simp [Prim.code] at h
  | none => cases q with
    | none => simpa [Prim.code] using h
    | int n => cases n <;> simp [Prim.code] at h
    | _ => simp [Prim.code] at h
  | bytes bs => cases q with
    | bytes cs =>
      simp only [Prim.code, List.cons_append, List.cons.injEq, true_and] at h
      obtain ⟨rfl, hr⟩ := bytes_code_inj h.1 h.2
      exact ⟨rfl, hr⟩
    | int n => cases n <;> simp [Prim.code] at h
    | _ => simp [Prim.code] at h
  | complex re im => cases q with
    | complex re' im' => simp_all [Prim.code, UInt64.toNat_inj]
    | int n => cases n <;> simp [Prim.code] at h
    | _ => simp [Prim.code] at h

mutual
theorem Form.code_inj : ∀ {f g : Form} {r r' : List Nat}, f.code ++ r = g.code ++ r' → f = g ∧ r = r'
  | .prim p, .prim q, r, r', h => by
    obtain ⟨rfl, hr⟩ := Prim.code_inj (p := p) (q := q) (by simpa [Form.code] using h)
    exact ⟨rfl, hr⟩
  | .bytearray bs, .bytearray cs, r, r', h => by
    simp only [Form.code, List.cons_append, List.cons.injEq, true_and] at h
    obtain ⟨rfl, hr⟩ := bytes_code_inj h.1 h.2
    exact ⟨rfl, hr⟩
  | .tuple fs, .tuple gs, r, r', h => by
    simp only [Form.code, List.cons_append, List.cons.injEq, true_and] at h
    obtain ⟨rfl, hr⟩ := Form.codes_inj h.1 h.2
    exact ⟨rfl, hr⟩
  | .prim _, .bytearray _, _, _, h | .prim _, .tuple _, _, _, h | .bytearray _, .prim _, _, _, h
  | .bytearray _, .tuple _, _, _, h | .tuple _, .prim _, _, _, h | .tuple _, .bytearray _, _, _, h => by
    simp [Form.code] at h

theorem Form.codes_inj : ∀ {fs gs : List Form} {r r' : List Nat}, fs.length = gs.length →
    Form.codes fs ++ r = Form.codes gs ++ r' → fs = gs ∧ r = r'
  | [], [], _, _, _, h => ⟨rfl, by simpa [Form.codes] using h⟩
  | f :: fs, g :: gs, r, r', hlen, h => by
    simp only [Form.codes, List.append_assoc] at h
    obtain ⟨rfl, hrest⟩ := Form.code_inj h
    obtain ⟨rfl, hr⟩ := Form.codes_inj (by simpa using hlen) hrest
    exact ⟨rfl, hr⟩
end

def unary : List Nat → Bytes
  | [] => []
  | n :: ns => List.replicate n 1 ++ 0 :: unary ns

theorem unary_inj : ∀ {ns ms : List Nat}, unary ns = unary ms → ns = ms := by
  have hhead : ∀ {n m : Nat} {bs cs : Bytes}, List.replicate n 1 ++ 0 :: bs = List.replicate m 1 ++ 0 :: cs →
      n = m ∧ bs = cs := by
    intro n
    induction n with
    | zero => intro m bs cs h; cases m <;> simp_all [List.replicate_succ]
    | succ n ih =>
      intro m bs cs h
      cases m with
      | zero => simp [List.replicate_succ] at h
      | succ m =>
        simp only [List.replicate_succ, List.cons_append, List.cons.injEq, true_and] at h
        simpa using ih h
  intro ns
  induction ns with
  | nil => intro ms h; cases ms <;> simp_all [unary]
  | cons n ns ih =>
    intro ms h
    cases ms with
    | nil => simp [unary] at h
    | cons m ms =>
      obtain ⟨rfl, hrest⟩ := hhead h
      rw [ih hrest]

def unaryEnv : Env := ⟨fun _ => 1, fun _ => Nat.one_pos, fun f => unary f.code⟩

theorem unaryEnv_injective : Function.Injective unaryEnv.dumps := fun f g h => by
  have hcode : f.code ++ [] = g.code ++ [] := by simp [unary_inj h]
  exact (Form.code_inj hcode).1

/-- `part = []; top = [part, part]`. -/
def twice (top part : Fin 2) : Heap unaryEnv (Fin 2) where
  obj x := if x = top then .list [part, part] else .list []
  hashable x y hy := by split at hy <;> simp [Obj.hashed] at hy

def twiceForm : Form := .typed "list" [.typed "list" [], .aliasOf 1]

theorem twice_walk : StableKeyRepr (twice 0 1) [] 0 (.form twiceForm) [] :=
  ⟨_, .head rfl <| .head rfl <| .head rfl <| .head rfl <| .head rfl <| .head rfl <| .head rfl .refl, rfl, rfl⟩

theorem twice_walk_swapped : StableKeyRepr (twice 1 0) [] 1 (.form twiceForm) [] :=
  ⟨_, .head rfl <| .head rfl <| .head rfl <| .head rfl <| .head rfl <| .head rfl <| .head rfl .refl, rfl, rfl⟩

theorem stableKeyRepr_faithful_twice : Isomorphic (twice 0 1) 0 (twice 1 0) 1 :=
  stableKeyRepr_faithful (.empty _) (.empty _) twice_walk twice_walk_swapped

/-- The set of 1 and 2, iterated in an order. -/
def oneTwo (items : List (Fin 2)) : Heap unaryEnv (Fin 3) where
  obj x := if x = 0 then .set (items.map Fin.succ) else .prim (.int x)
  hashable x y hy := by
    split at hy
    · obtain ⟨i, -, rfl⟩ := List.mem_map.mp hy
      exact .prim (p := .int i.succ) (by simp [Fin.succ_ne_zero])
    · simp [Obj.hashed] at hy

theorem oneTwo_isomorphic : Isomorphic (oneTwo [0, 1]) 0 (oneTwo [1, 0]) 0 := by
  refine ⟨Eq, ⟨?_, ?_⟩, rfl⟩
  · rintro a b rfl
    by_cases h : a = 0
    · simp only [oneTwo, h, if_true]
      have hitems : List.Forall₂ Eq ([0, 1].map Fin.succ) ([1, 2] : List (Fin 3)) := by decide
      exact .set hitems (by decide)
    · simp only [oneTwo, h, if_false]
      exact .prim _
  · rintro a b a' b' rfl rfl -
    rfl

theorem stableKeyRepr_stable_oneTwo :
    ∃ r memo memo', StableKeyRepr (oneTwo [0, 1]) [] 0 r memo ∧ StableKeyRepr (oneTwo [1, 0]) [] 0 r memo' :=
  (stableKeyRepr_stable unaryEnv_injective (.empty _) (.empty _) oneTwo_isomorphic).1

end Cash.Canon
