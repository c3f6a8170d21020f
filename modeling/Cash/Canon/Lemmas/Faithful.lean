import Cash.Canon.Lemmas.Forms

/-!
# Equal forms come from graphs that are alike
-/

namespace Cash.Canon

open Py

theorem Matches.isMutable_eq {ρ σ : Type} {env : Env} {R : ρ → σ → Prop} {o : Obj env ρ} {o' : Obj env σ}
    (h : Matches R o o') : o.isMutableContainer = o'.isMutableContainer ∧ o.isMutable = o'.isMutable := by
  cases h <;> exact ⟨rfl, rfl⟩

theorem shape_of_mutable {ρ : Type} {env : Env} {h : Heap env ρ} {v : ρ} (hv : (h.obj v).isMutableContainer = true) (fs : List Form) :
    (assemble (h.obj v) fs).shape = .typed :=
  shape_assemble (isContainer_of_isMutableContainer hv) fs

theorem SameType.isMutableContainer_eq {ρ σ : Type} {env : Env} {o : Obj env ρ} {o' : Obj env σ} {fs gs : List Form} (hs : SameType fs gs o o') :
    o.isMutableContainer = o'.isMutableContainer := by
  cases hs <;> rfl

section Seen

variable {ρ : Type} [DecidableEq ρ] {env : Env} {h : Heap env ρ} {s s' : List ρ} {v : ρ} {f : Form}

/-! ## The objects met -/

mutual
theorem Forms.isPrefix {s s' : List ρ} {v : ρ} {f : Form} : Forms h s v f s' → s <+: s'
  | .prim _ | .np _ | .again _ _ => List.prefix_refl _
  | .bytearray _ _ => List.prefix_append _ _
  | .mutable _ _ hall => (List.prefix_append _ _).trans hall.isPrefix
  | .immutable _ _ hall => hall.isPrefix

theorem FormsAll.isPrefix {s s' xs : List ρ} {fs : List Form} : FormsAll h s xs fs s' → s <+: s'
  | .nil => List.prefix_refl _
  | .cons hx hxs => hx.isPrefix.trans hxs.isPrefix
end

omit [DecidableEq ρ] in
theorem nodup_snoc {s : List ρ} {v : ρ} (hs : s.Nodup) (hv : v ∉ s) : (s ++ [v]).Nodup :=
  List.nodup_append_comm.mp (List.nodup_cons.mpr ⟨hv, hs⟩)

mutual
theorem Forms.nodup {s s' : List ρ} {v : ρ} {f : Form} : Forms h s v f s' → s.Nodup → s'.Nodup
  | .prim _, hs | .np _, hs | .again _ _, hs => hs
  | .bytearray _ hv, hs => nodup_snoc hs hv
  | .mutable _ hv hall, hs => hall.nodup (nodup_snoc hs hv)
  | .immutable _ _ hall, hs => hall.nodup hs

theorem FormsAll.nodup {s s' xs : List ρ} {fs : List Form} : FormsAll h s xs fs s' → s.Nodup → s'.Nodup
  | .nil, hs => hs
  | .cons hx hxs, hs => hxs.nodup (hx.nodup hs)
end

theorem FormsAll.length {s s' xs : List ρ} {fs : List Form} : FormsAll h s xs fs s' → fs.length = xs.length
  | .nil => rfl
  | .cons _ hxs => by simp [hxs.length]

/-! ## Items of sets -/

theorem FormsAll.of_hashable {s s' xs : List ρ} {fs : List Form}
    (hxs : ∀ x ∈ xs, ∀ s s' f, Forms h s x f s' → s' = s) (hall : FormsAll h s xs fs s') :
    s' = s ∧ List.Forall₂ (fun x f => Forms h s x f s) xs fs := by
  induction xs generalizing s fs with
  | nil =>
    cases hall
    exact ⟨rfl, .nil⟩
  | cons x xs ih =>
    cases hall with
    | cons hx hrest =>
      obtain rfl := hxs x (by simp) _ _ _ hx
      obtain ⟨rfl, hforall⟩ := ih (fun y hy => hxs y (List.mem_cons_of_mem _ hy)) hrest
      exact ⟨rfl, .cons hx hforall⟩

/-- No object that can be written into is met below a hashable one. -/
theorem Hashable.seen_eq (hv : Hashable h.obj v) : ∀ s s' f, Forms h s v f s' → s' = s := by
  induction hv with
  | prim ho | np ho =>
    intro s s' f hf
    cases hf <;> simp_all [Obj.isMutable, Obj.isMutableContainer, Obj.isContainer]
  | tuple ho _ ih | frozenset ho _ ih =>
    intro s s' f hf
    cases hf with
    | immutable _ _ hall => exact (hall.of_hashable (by simpa [ho, Obj.parts] using ih)).1
    | _ => simp_all [Obj.isMutable, Obj.isMutableContainer]

/-- The items of a set, whose forms depend on no order. -/
theorem FormsAll.of_hashed {xs : List ρ} {fs : List Form} (hxs : ∀ x ∈ xs, x ∈ (h.obj v).hashed)
    (hall : FormsAll h s xs fs s') : s' = s ∧ List.Forall₂ (fun x f => Forms h s x f s) xs fs :=
  hall.of_hashable fun x hx => (h.hashable v x (hxs x hx)).seen_eq

/-! ## A form tells how it was made -/

theorem Forms.of_prim (hf : Forms h s v f s') (hshape : f.shape = .prim) :
    ∃ p, h.obj v = .prim p ∧ f = .prim p ∧ s' = s := by
  cases hf with
  | prim ho => exact ⟨_, ho, rfl, rfl⟩
  | mutable hm => simp [shape_of_mutable hm] at hshape
  | immutable hc => simp [shape_assemble hc] at hshape
  | _ => simp at hshape

theorem Forms.of_np (hf : Forms h s v f s') (hshape : f.shape = .np) :
    ∃ n, h.obj v = .np n ∧ f = .np n.char n.raw ∧ s' = s := by
  cases hf with
  | np ho => exact ⟨_, ho, rfl, rfl⟩
  | mutable hm => simp [shape_of_mutable hm] at hshape
  | immutable hc => simp [shape_assemble hc] at hshape
  | _ => simp at hshape

theorem Forms.of_bytearray (hf : Forms h s v f s') (hshape : f.shape = .bytearray) :
    ∃ bs, h.obj v = .bytearray bs ∧ f = .bytearray bs ∧ v ∉ s ∧ s' = s ++ [v] := by
  cases hf with
  | bytearray ho hv => exact ⟨_, ho, rfl, hv, rfl⟩
  | mutable hm => simp [shape_of_mutable hm] at hshape
  | immutable hc => simp [shape_assemble hc] at hshape
  | _ => simp at hshape

theorem Forms.of_again (hf : Forms h s v f s') (hshape : f.shape = .again) :
    (h.obj v).isMutable = true ∧ v ∈ s ∧ f = .aliasOf (s.idxOf v) ∧ s' = s := by
  cases hf with
  | again hm hv => exact ⟨hm, hv, rfl, rfl⟩
  | mutable hm => simp [shape_of_mutable hm] at hshape
  | immutable hc => simp [shape_assemble hc] at hshape
  | _ => simp at hshape

/-- The objects met before the parts of a container: it is one of them when it can be written into. -/
def meet (h : Heap env ρ) (s : List ρ) (v : ρ) : List ρ :=
  if (h.obj v).isMutableContainer then s ++ [v] else s

theorem Forms.of_typed (hf : Forms h s v f s') (hshape : f.shape = .typed) : (h.obj v).isContainer = true ∧
    ((h.obj v).isMutableContainer = true → v ∉ s) ∧
    ∃ fs, f = assemble (h.obj v) fs ∧ FormsAll h (meet h s v) (h.obj v).parts fs s' := by
  cases hf with
  | mutable hm hv hall => exact ⟨isContainer_of_isMutableContainer hm, fun _ => hv, _, rfl, by simpa [meet, hm] using hall⟩
  | immutable hc hm hall => exact ⟨hc, fun hm' => absurd hm' (by simp [hm]), _, rfl, by simpa [meet, hm] using hall⟩
  | _ => simp at hshape

end Seen

/-! ## Two walks side by side -/

variable {ρ σ : Type} [DecidableEq ρ] [DecidableEq σ] {env : Env} {h₁ : Heap env ρ} {h₂ : Heap env σ}

/-- In two walks that meet the objects `S₁` and `S₂` the two have one form, after as many objects met. -/
def Twins (h₁ : Heap env ρ) (h₂ : Heap env σ) (S₁ : List ρ) (S₂ : List σ) (a : ρ) (b : σ) : Prop :=
  Acc h₁.Part a ∧ ∃ s₁ s₁' s₂ s₂' f, Forms h₁ s₁ a f s₁' ∧ Forms h₂ s₂ b f s₂' ∧ s₁.length = s₂.length ∧
    s₁' <+: S₁ ∧ s₂' <+: S₂

/-- The objects met match, from position `lo` to position `hi`. -/
def Entries (h₁ : Heap env ρ) (h₂ : Heap env σ) (S₁ : List ρ) (S₂ : List σ) (lo hi : Nat) : Prop :=
  ∀ i, lo ≤ i → i < hi → ∃ x y, S₁[i]? = some x ∧ S₂[i]? = some y ∧ Matches (Twins h₁ h₂ S₁ S₂) (h₁.obj x) (h₂.obj y)

/-- The two walks of a value and of one with its form meet as many objects, which match. -/
def Paired (h₁ : Heap env ρ) (h₂ : Heap env σ) (a : ρ) : Prop :=
  ∀ b f s₁ s₁' s₂ s₂', Forms h₁ s₁ a f s₁' → Forms h₂ s₂ b f s₂' → s₁.length = s₂.length →
    s₁'.length = s₂'.length ∧ ∀ S₁ S₂, s₁' <+: S₁ → s₂' <+: S₂ → Entries h₁ h₂ S₁ S₂ s₁.length s₁'.length

theorem Entries.trans {S₁ : List ρ} {S₂ : List σ} {lo mid hi : Nat} (h : Entries h₁ h₂ S₁ S₂ lo mid)
    (h' : Entries h₁ h₂ S₁ S₂ mid hi) : Entries h₁ h₂ S₁ S₂ lo hi := by
  intro i hlo hhi
  by_cases hmid : i < mid
  · exact h i hlo hmid
  · exact h' i (Nat.le_of_not_lt hmid) hhi

theorem FormsAll.paired {xs : List ρ} {ys : List σ} {fs : List Form} {s₁ s₁' : List ρ} {s₂ s₂' : List σ}
    (hacc : ∀ x ∈ xs, Acc h₁.Part x) (hpaired : ∀ x ∈ xs, Paired h₁ h₂ x) (hx : FormsAll h₁ s₁ xs fs s₁') 
    (hy : FormsAll h₂ s₂ ys fs s₂') (hlen : s₁.length = s₂.length) :
    s₁'.length = s₂'.length ∧ ∀ S₁ S₂, s₁' <+: S₁ → s₂' <+: S₂ →
      List.Forall₂ (Twins h₁ h₂ S₁ S₂) xs ys ∧ Entries h₁ h₂ S₁ S₂ s₁.length s₁'.length := by
  induction xs generalizing ys fs s₁ s₂ with
  | nil =>
    cases hx
    cases hy
    exact ⟨hlen, fun S₁ S₂ _ _ => ⟨.nil, fun i hlo hhi => absurd hhi (Nat.not_lt.mpr hlo)⟩⟩
  | cons x xs ih =>
    cases hx with
    | cons hx hxs =>
    cases hy with
    | cons hy hys =>
      obtain ⟨hlen', hentries⟩ := hpaired x (by simp) _ _ _ _ _ _ hx hy hlen
      obtain ⟨hlen'', hrest⟩ := ih (fun z hz => hacc z (List.mem_cons_of_mem _ hz))
        (fun z hz => hpaired z (List.mem_cons_of_mem _ hz)) hxs hys hlen'
      refine ⟨hlen'', fun S₁ S₂ hS₁ hS₂ => ?_⟩
      have hS₁' := hxs.isPrefix.trans hS₁
      have hS₂' := hys.isPrefix.trans hS₂
      obtain ⟨htwins, hentries'⟩ := hrest S₁ S₂ hS₁ hS₂
      exact ⟨.cons ⟨hacc x (by simp), _, _, _, _, _, hx, hy, hlen, hS₁', hS₂'⟩ htwins, (hentries S₁ S₂ hS₁' hS₂').trans hentries'⟩

/-- The items of two sets with one form, paired by their forms. -/
theorem twins_of_sorted {a : ρ} {b : σ} {xs : List ρ} {ys : List σ} {fs gs : List Form} {s₁ s₁' : List ρ}
    {s₂ s₂' : List σ} (hacc : ∀ x ∈ xs, Acc h₁.Part x) (hxs : ∀ x ∈ xs, x ∈ (h₁.obj a).hashed) (hys : ∀ y ∈ ys, y ∈ (h₂.obj b).hashed)
    (hx : FormsAll h₁ s₁ xs fs s₁') (hy : FormsAll h₂ s₂ ys gs s₂') (hlen : s₁.length = s₂.length)
    (hsort : sortForms env fs = sortForms env gs) :
    s₁' = s₁ ∧ s₂' = s₂ ∧ ∀ S₁ S₂, s₁ <+: S₁ → s₂ <+: S₂ →
      ∃ zs, List.Forall₂ (Twins h₁ h₂ S₁ S₂) xs zs ∧ zs.Perm ys := by
  obtain ⟨rfl, hforms⟩ := hx.of_hashed hxs
  obtain ⟨rfl, hforms'⟩ := hy.of_hashed hys
  refine ⟨rfl, rfl, fun S₁ S₂ hS₁ hS₂ => ?_⟩
  have hperm : fs.Perm gs := (sortForms_perm fs).symm.trans (hsort ▸ sortForms_perm gs)
  obtain ⟨zs, hzs, hperm'⟩ := List.perm_comp_forall₂ hperm (hforms'.flip)
  refine ⟨zs, ?_, hperm'⟩
  clear hforms' hys hx hy hxs hsort hperm hperm'
  induction hforms generalizing zs with
  | nil =>
    cases hzs
    exact .nil
  | cons hf _ ih =>
    cases hzs with
    | cons hg hzs =>
      exact .cons ⟨hacc _ (by simp), _, _, _, _, _, hf, hg, hlen, hS₁, hS₂⟩
        (ih (fun x hx => hacc x (List.mem_cons_of_mem _ hx)) _ hzs)

/-- Two containers with one form: they match, and so do the objects met below them. -/
theorem matches_of_assemble {a : ρ} {b : σ} {fs gs : List Form} {s₁ s₁' : List ρ} {s₂ s₂' : List σ}
    (hacc : ∀ x ∈ (h₁.obj a).parts, Acc h₁.Part x) (hpaired : ∀ x ∈ (h₁.obj a).parts, Paired h₁ h₂ x) (ha : (h₁.obj a).isContainer = true)
    (hb : (h₂.obj b).isContainer = true) (hx : FormsAll h₁ s₁ (h₁.obj a).parts fs s₁')
    (hy : FormsAll h₂ s₂ (h₂.obj b).parts gs s₂') (hlen : s₁.length = s₂.length)
    (heq : assemble (h₁.obj a) fs = assemble (h₂.obj b) gs) :
    s₁'.length = s₂'.length ∧ ∀ S₁ S₂, s₁' <+: S₁ → s₂' <+: S₂ →
      Matches (Twins h₁ h₂ S₁ S₂) (h₁.obj a) (h₂.obj b) ∧ Entries h₁ h₂ S₁ S₂ s₁.length s₁'.length := by
  have hnone : ∀ {S₁ : List ρ} {S₂ : List σ} {n : Nat}, Entries h₁ h₂ S₁ S₂ n n := fun i hlo hhi =>
    absurd hhi (Nat.not_lt.mpr hlo)
  have hsame := sameType_of_assemble ha hb heq
  generalize oa : h₁.obj a = o at *
  generalize ob : h₂.obj b = o' at *
  cases hsame with
  | list xs ys hfs =>
    subst hfs
    obtain ⟨hlen', hrest⟩ := hx.paired hacc hpaired hy hlen
    exact ⟨hlen', fun S₁ S₂ hS₁ hS₂ => (hrest S₁ S₂ hS₁ hS₂).imp .list id⟩
  | tuple xs ys hfs =>
    subst hfs
    obtain ⟨hlen', hrest⟩ := hx.paired hacc hpaired hy hlen
    exact ⟨hlen', fun S₁ S₂ hS₁ hS₂ => (hrest S₁ S₂ hS₁ hS₂).imp .tuple id⟩
  | dict xs ys hpairs =>
    have hlen₁ : fs.length = 2 * xs.length := by simp [hx.length, Obj.parts, List.length_flatMap, Nat.mul_comm]
    have hlen₂ : gs.length = 2 * ys.length := by simp [hy.length, Obj.parts, List.length_flatMap, Nat.mul_comm]
    obtain rfl := Form.pairs_inj hlen₁ hlen₂ hpairs
    obtain ⟨hlen', hrest⟩ := hx.paired hacc hpaired hy hlen
    exact ⟨hlen', fun S₁ S₂ hS₁ hS₂ => (hrest S₁ S₂ hS₁ hS₂).imp (fun hall => .dict (List.forall₂_pairs hall)) id⟩
  | set xs ys hsort =>
    have hxs : ∀ x ∈ xs, x ∈ (h₁.obj a).hashed := by simp [oa, Obj.hashed]
    have hys : ∀ y ∈ ys, y ∈ (h₂.obj b).hashed := by simp [ob, Obj.hashed]
    obtain ⟨rfl, rfl, hrest⟩ := twins_of_sorted hacc hxs hys hx hy hlen hsort
    refine ⟨hlen, fun S₁ S₂ hS₁ hS₂ => ?_⟩
    obtain ⟨zs, htwins, hperm⟩ := hrest S₁ S₂ hS₁ hS₂
    exact ⟨.set htwins hperm, hnone⟩
  | frozenset xs ys hsort =>
    have hxs : ∀ x ∈ xs, x ∈ (h₁.obj a).hashed := by simp [oa, Obj.hashed]
    have hys : ∀ y ∈ ys, y ∈ (h₂.obj b).hashed := by simp [ob, Obj.hashed]
    obtain ⟨rfl, rfl, hrest⟩ := twins_of_sorted hacc hxs hys hx hy hlen hsort
    refine ⟨hlen, fun S₁ S₂ hS₁ hS₂ => ?_⟩
    obtain ⟨zs, htwins, hperm⟩ := hrest S₁ S₂ hS₁ hS₂
    exact ⟨.frozenset htwins hperm, hnone⟩

/-- By induction on the parts of a value that is not cyclic. -/
theorem paired_of_acc {a : ρ} (ha : Acc h₁.Part a) : Paired h₁ h₂ a := by
  induction ha with
  | intro a hacc ih =>
    intro b f s₁ s₁' s₂ s₂' hx hy hlen
    have hnone : ∀ {S₁ : List ρ} {S₂ : List σ} {n : Nat}, Entries h₁ h₂ S₁ S₂ n n := fun i hlo hhi =>
      absurd hhi (Nat.not_lt.mpr hlo)
    cases hshape : f.shape with
    | prim =>
      obtain ⟨p, ho, -, rfl⟩ := hx.of_prim hshape
      obtain ⟨q, ho', -, rfl⟩ := hy.of_prim hshape
      exact ⟨hlen, fun _ _ _ _ => hnone⟩
    | np =>
      obtain ⟨n, ho, -, rfl⟩ := hx.of_np hshape
      obtain ⟨m, ho', -, rfl⟩ := hy.of_np hshape
      exact ⟨hlen, fun _ _ _ _ => hnone⟩
    | again =>
      obtain ⟨-, -, -, rfl⟩ := hx.of_again hshape
      obtain ⟨-, -, -, rfl⟩ := hy.of_again hshape
      exact ⟨hlen, fun _ _ _ _ => hnone⟩
    | bytearray =>
      obtain ⟨bs, ho, rfl, -, rfl⟩ := hx.of_bytearray hshape
      obtain ⟨cs, ho', heq, -, rfl⟩ := hy.of_bytearray hshape
      cases heq
      refine ⟨by simp [hlen], fun S₁ S₂ hS₁ hS₂ i hlo hhi => ?_⟩
      have hi : i = s₁.length := by simp at hhi; omega
      exact ⟨a, b, hS₁.getElem?_eq (by simp [hi]), hS₂.getElem?_eq (by simp [hi, hlen]), by
        rw [ho, ho']
        exact .bytearray bs⟩
    | typed =>
      obtain ⟨hc, -, fs, rfl, hall⟩ := hx.of_typed hshape
      obtain ⟨hc', -, gs, heq, hall'⟩ := hy.of_typed hshape
      have hmutable := (sameType_of_assemble hc hc' heq).isMutableContainer_eq
      have hmeet : (meet h₁ s₁ a).length = (meet h₂ s₂ b).length := by
        simp only [meet, ← hmutable]
        split <;> simp [hlen]
      obtain ⟨hlen', hrest⟩ := matches_of_assemble hacc ih hc hc' hall hall' hmeet heq
      refine ⟨hlen', fun S₁ S₂ hS₁ hS₂ => ?_⟩
      obtain ⟨hmatches, hentries⟩ := hrest S₁ S₂ hS₁ hS₂
      refine Entries.trans (fun i hlo hhi => ?_) hentries
      -- the container itself, when it is one that is numbered
      have hS₁ := hall.isPrefix.trans hS₁
      have hS₂ := hall'.isPrefix.trans hS₂
      simp only [meet, ← hmutable] at hhi hS₁ hS₂
      split at hhi
      · rename_i hm
        rw [if_pos hm] at hS₁ hS₂
        have hi : i = s₁.length := by simp at hhi; omega
        exact ⟨a, b, hS₁.getElem?_eq (by simp [hi]), hS₂.getElem?_eq (by simp [hi, hlen]), hmatches⟩
      · omega

/-! ## The whole value -/

variable {S₁ : List ρ} {S₂ : List σ}

/-- A mutable object stands where its twin stands among the objects met. -/
theorem Twins.position {a : ρ} {b : σ} (ht : Twins h₁ h₂ S₁ S₂ a b) (ha : (h₁.obj a).isMutable = true) :
    ∃ i : Nat, S₁[i]? = some a ∧ S₂[i]? = some b := by
  obtain ⟨-, s₁, s₁', s₂, s₂', f, hx, hy, hlen, hS₁, hS₂⟩ := ht
  cases hshape : f.shape with
  | prim =>
    obtain ⟨p, ho, -, -⟩ := hx.of_prim hshape
    simp [ho, Obj.isMutable, Obj.isMutableContainer] at ha
  | np =>
    obtain ⟨n, ho, -, -⟩ := hx.of_np hshape
    simp [ho, Obj.isMutable, Obj.isMutableContainer] at ha
  | again =>
    obtain ⟨-, hmem, rfl, rfl⟩ := hx.of_again hshape
    obtain ⟨-, hmem', heq, rfl⟩ := hy.of_again hshape
    refine ⟨s₁'.idxOf a, hS₁.getElem?_eq (List.getElem?_idxOf hmem), ?_⟩
    rw [Form.aliasOf_inj heq]
    exact hS₂.getElem?_eq (List.getElem?_idxOf hmem')
  | bytearray =>
    obtain ⟨bs, ho, rfl, -, rfl⟩ := hx.of_bytearray hshape
    obtain ⟨cs, ho', heq, -, rfl⟩ := hy.of_bytearray hshape
    exact ⟨s₁.length, hS₁.getElem?_eq (by simp), hS₂.getElem?_eq (by simp [hlen])⟩
  | typed =>
    obtain ⟨hc, -, fs, rfl, hall⟩ := hx.of_typed hshape
    obtain ⟨hc', -, gs, heq, hall'⟩ := hy.of_typed hshape
    have hmutable := (sameType_of_assemble hc hc' heq).isMutableContainer_eq
    have hm : (h₁.obj a).isMutableContainer = true := isMutableContainer_of_isMutable hc ha
    have hS₁ := hall.isPrefix.trans hS₁
    have hS₂ := hall'.isPrefix.trans hS₂
    simp only [meet, ← hmutable, hm, if_true] at hS₁ hS₂
    exact ⟨s₁.length, hS₁.getElem?_eq (by simp), hS₂.getElem?_eq (by simp [hlen])⟩

theorem Twins.matches {a : ρ} {b : σ} (hentries : Entries h₁ h₂ S₁ S₂ 0 S₁.length)
    (ht : Twins h₁ h₂ S₁ S₂ a b) : Matches (Twins h₁ h₂ S₁ S₂) (h₁.obj a) (h₂.obj b) := by
  obtain ⟨hacc, s₁, s₁', s₂, s₂', f, hx, hy, hlen, hS₁, hS₂⟩ := id ht
  cases hshape : f.shape with
  | prim =>
    obtain ⟨p, ho, rfl, -⟩ := hx.of_prim hshape
    obtain ⟨q, ho', heq, -⟩ := hy.of_prim hshape
    cases heq
    rw [ho, ho']
    exact .prim p
  | np =>
    obtain ⟨⟨char, raw, hsize⟩, ho, rfl, -⟩ := hx.of_np hshape
    obtain ⟨⟨char', raw', hsize'⟩, ho', heq, -⟩ := hy.of_np hshape
    obtain ⟨rfl, rfl⟩ := Form.np_inj heq
    rw [ho, ho']
    exact .np _
  | again =>
    -- met before: it was matched then
    obtain ⟨hm, -, -, -⟩ := hx.of_again hshape
    obtain ⟨i, hi₁, hi₂⟩ := ht.position hm
    have hlt : i < S₁.length := (List.getElem?_eq_some_iff.mp hi₁).1
    obtain ⟨x, y, hx, hy, hmatches⟩ := hentries i (Nat.zero_le _) hlt
    rw [hi₁] at hx
    rw [hi₂] at hy
    cases hx
    cases hy
    exact hmatches
  | bytearray =>
    obtain ⟨bs, ho, rfl, -, -⟩ := hx.of_bytearray hshape
    obtain ⟨cs, ho', heq, -, -⟩ := hy.of_bytearray hshape
    cases heq
    rw [ho, ho']
    exact .bytearray bs
  | typed =>
    obtain ⟨hc, -, fs, rfl, hall⟩ := hx.of_typed hshape
    obtain ⟨hc', -, gs, heq, hall'⟩ := hy.of_typed hshape
    have hmutable := (sameType_of_assemble hc hc' heq).isMutableContainer_eq
    have hmeet : (meet h₁ s₁ a).length = (meet h₂ s₂ b).length := by
      simp only [meet, ← hmutable]
      split <;> simp [hlen]
    have hparts : ∀ x ∈ (h₁.obj a).parts, Acc h₁.Part x := fun x hx => hacc.inv hx
    have hpaired : ∀ x ∈ (h₁.obj a).parts, Paired h₁ h₂ x := fun x hx => paired_of_acc (hparts x hx)
    exact ((matches_of_assemble hparts hpaired hc hc' hall hall' hmeet heq).2 S₁ S₂ hS₁ hS₂).1

theorem eq_of_getElem? {α : Type} {s : List α} (hs : s.Nodup) {i j : Nat} {x : α} (hi : s[i]? = some x)
    (hj : s[j]? = some x) : i = j := by
  obtain ⟨hi, rfl⟩ := List.getElem?_eq_some_iff.mp hi
  obtain ⟨hj, heq⟩ := List.getElem?_eq_some_iff.mp hj
  exact (List.Nodup.getElem_inj_iff hs).mp heq.symm

/-- Values with one form are indistinguishable. -/
theorem isomorphic_of_forms {v : ρ} {w : σ} {f : Form} (hacc : Acc h₁.Part v) (hv : Forms h₁ [] v f S₁)
    (hw : Forms h₂ [] w f S₂) : Isomorphic h₁ v h₂ w := by
  obtain ⟨-, hentries⟩ := paired_of_acc hacc w f [] S₁ [] S₂ hv hw rfl
  have hentries := hentries S₁ S₂ (List.prefix_refl _) (List.prefix_refl _)
  have hnodup₁ := hv.nodup List.nodup_nil
  have hnodup₂ := hw.nodup List.nodup_nil
  refine ⟨Twins h₁ h₂ S₁ S₂, ⟨Twins.matches hentries, ?_⟩, ?_⟩
  · intro a b a' b' ht ht' hm
    obtain ⟨i, hi₁, hi₂⟩ := ht.position hm
    constructor
    · rintro rfl
      obtain ⟨j, hj₁, hj₂⟩ := ht'.position hm
      obtain rfl := eq_of_getElem? hnodup₁ hi₁ hj₁
      exact Option.some.inj (hi₂.symm.trans hj₂)
    · rintro rfl
      have hm' : (h₁.obj a').isMutable = true := by
        rw [(ht'.matches hentries).isMutable_eq.2, ← (ht.matches hentries).isMutable_eq.2]
        exact hm
      obtain ⟨j, hj₁, hj₂⟩ := ht'.position hm'
      obtain rfl := eq_of_getElem? hnodup₂ hi₂ hj₂
      exact Option.some.inj (hi₁.symm.trans hj₁)
  · exact ⟨hacc, [], S₁, [], S₂, f, hv, hw, rfl, List.prefix_refl _, List.prefix_refl _⟩

end Cash.Canon
