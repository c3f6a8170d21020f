import Cash.Canon.Lemmas.Forms
import Mathlib.Data.Fintype.Card

/-!
# The walk gives the form, or finds a cycle
-/

namespace Cash.Canon

open Py

section Graph

variable {ρ : Type} {env : Env} {h : Heap env ρ} {path seen : List ρ}

/-! ## Parts and cycles -/

theorem acc_of_no_parts {v : ρ} (hv : (h.obj v).parts = []) : Acc h.Part v :=
  .intro v fun y hy => by simp [Heap.Part, hv] at hy

theorem cyclic_of_part {v x : ρ} (hx : x ∈ (h.obj v).parts) (hc : h.Cyclic x) : h.Cyclic v := by
  obtain ⟨y, hreach, hloop⟩ := hc
  exact ⟨y, .head hx hreach, hloop⟩

theorem not_cyclic_of_acc {v : ρ} (hv : Acc h.Part v) : ¬ h.Cyclic v := by
  rintro ⟨x, hreach, hloop⟩
  have hx : Acc h.Part x := by
    clear hloop
    induction hreach with
    | refl => exact hv
    | tail _ hpart ih => exact ih.inv hpart
  have hself : Relation.TransGen h.Part x x := Relation.transGen_swap.mp hloop
  have hnot : ∀ y, Acc (Relation.TransGen h.Part) y → ¬ Relation.TransGen h.Part y y := by
    intro y hy
    induction hy with
    | intro y _ ih => exact fun hy => ih y hy hy
  exact hnot x hx.transGen hself

/-! ## Objects met -/

/-- An object met is on the path, or all below it has been walked. -/
def Fine (h : Heap env ρ) (path seen : List ρ) : Prop := ∀ x ∈ seen, x ∈ path ∨ Acc h.Part x

theorem Fine.push {v : ρ} (hfine : Fine h path seen) : Fine h (v :: path) seen := fun x hx =>
  (hfine x hx).imp (List.mem_cons_of_mem _) id

theorem Fine.meet {v : ρ} (hfine : Fine h path seen) : Fine h (v :: path) (seen ++ [v]) := by
  intro x hx
  rcases List.mem_append.mp hx with hx | hx
  · exact hfine.push x hx
  · rw [List.mem_singleton.mp hx]
    exact .inl (by simp)

theorem Fine.pop {v : ρ} (hfine : Fine h (v :: path) seen) (hv : Acc h.Part v) : Fine h path seen := by
  intro x hx
  rcases hfine x hx with hpath | hacc
  · rcases List.mem_cons.mp hpath with rfl | hpath
    · exact .inr hv
    · exact .inl hpath
  · exact .inr hacc

/-! ## Forms remembered -/

/-- Every entry is the form of its frozenset, which holds primitives only. -/
def Remembers (h : Heap env ρ) (memo : Memo ρ) : Prop :=
  ∀ x f, (x, f) ∈ memo → (∃ xs, h.obj x = .frozenset xs) ∧ (∀ y ∈ (h.obj x).parts, (h.obj y).isPrim = true) ∧
    f = assemble (h.obj x) (loop h [] (h.obj x).parts).1

theorem Remembers.nil : Remembers h [] := by simp [Remembers]

theorem frozenset_of_memoable {x : ρ} (hx : memoable h x = true) : ∃ xs, h.obj x = .frozenset xs := by
  unfold memoable at hx
  split at hx
  · exact ⟨_, ‹_›⟩
  · cases hx

theorem loop_congr {h h' : Heap env ρ} {xs : List ρ} (heq : ∀ x ∈ xs, h'.obj x = h.obj x) (items : List Form) :
    loop h' items xs = loop h items xs := by
  induction xs generalizing items with
  | nil => rfl
  | cons x xs ih =>
    have ih := ih fun y hy => heq y (List.mem_cons_of_mem _ hy)
    simp only [loop, heq x (by simp), ih]

end Graph

variable {ρ : Type} [DecidableEq ρ] {env : Env} {h : Heap env ρ}

/-! ## The memo -/

theorem Memo.mem_of_get {memo : Memo ρ} {x : ρ} {f : Form} (hf : memo.get x = some f) : (x, f) ∈ memo := by
  obtain ⟨⟨y, g⟩, hfind, rfl⟩ := Option.map_eq_some_iff.mp hf
  have hy : y = x := by simpa using List.find?_some hfind
  exact hy ▸ List.mem_of_find?_eq_some hfind

theorem Remembers.use {memo : Memo ρ} (hm : Remembers h memo) (x : ρ) : Remembers h (memo.use x) := by
  intro y f hf
  refine hm y f ?_
  simp only [Memo.use, List.mem_append, List.mem_filter] at hf
  rcases hf with ⟨hf, -⟩ | ⟨hf, -⟩ <;> exact hf

theorem Remembers.remember {memo : Memo ρ} (hm : Remembers h memo) {x : ρ} {f : Form}
    (hset : ∃ xs, h.obj x = .frozenset xs) (hp : ∀ y ∈ (h.obj x).parts, (h.obj y).isPrim = true)
    (hf : f = assemble (h.obj x) (loop h [] (h.obj x).parts).1) : Remembers h (memo.remember x f) := by
  intro y g hg
  have hg := List.mem_of_mem_drop hg
  simp only [List.mem_append, List.mem_filter, List.mem_singleton] at hg
  rcases hg with ⟨hg, -⟩ | hg
  · exact hm y g hg
  · cases hg
    exact ⟨hset, hp, hf⟩

/-! ## Back from a part -/

/-- From `m` the walk comes to send a form to `frames`, or to throw, for the reason `C`. -/
def Back (h : Heap env ρ) (m : Machine ρ) (frames : List (Frame ρ)) (path : List ρ) (Q : Form → List ρ → Prop)
    (C : Prop) : Prop :=
  (∃ f seen memo, Remembers h memo ∧ Q f seen ∧ Steps h m ⟨.send f, frames, path, seen, memo⟩) ∨
    C ∧ ∃ seen memo, Remembers h memo ∧ Steps h m ⟨.throw, frames, path, seen, memo⟩

variable {m m' : Machine ρ} {frames : List (Frame ρ)} {path seen : List ρ} {memo : Memo ρ}
  {Q Q' : Form → List ρ → Prop} {C C' : Prop}

theorem Back.steps (hbefore : Steps h m m') (hb : Back h m' frames path Q C) : Back h m frames path Q C := by
  rcases hb with ⟨f, seen, memo, hm, hQ, hs⟩ | ⟨hC, seen, memo, hm, hs⟩
  · exact .inl ⟨f, seen, memo, hm, hQ, hbefore.trans hs⟩
  · exact .inr ⟨hC, seen, memo, hm, hbefore.trans hs⟩

theorem Back.before (hstep : step h m = .inl m') (hb : Back h m' frames path Q C) : Back h m frames path Q C :=
  hb.steps (.single hstep)

theorem Back.mono (hb : Back h m frames path Q C) (hQ : ∀ f seen, Q f seen → Q' f seen) (hC : C → C') :
    Back h m frames path Q' C' := by
  rcases hb with ⟨f, seen, memo, hm, hq, hs⟩ | ⟨hc, seen, memo, hm, hs⟩
  · exact .inl ⟨f, seen, memo, hm, hQ f seen hq, hs⟩
  · exact .inr ⟨hC hc, seen, memo, hm, hs⟩

/-- What the walk of a value gives. -/
abbrev Gives (h : Heap env ρ) (path seen : List ρ) (v : ρ) (f : Form) (seen' : List ρ) : Prop :=
  Forms h seen v f seen' ∧ Acc h.Part v ∧ Fine h path seen'

/-- What the walk of parts gives. -/
abbrev GivesAll (h : Heap env ρ) (path seen : List ρ) (xs : List ρ) (fs : List Form) (seen' : List ρ) : Prop :=
  FormsAll h seen xs fs seen' ∧ (∀ x ∈ xs, Acc h.Part x) ∧ Fine h path seen'

theorem advance_nil {v : ρ} {items : List Form} (phase : Phase ρ) (above : List (Frame ρ)) (hm : Remembers h memo)
    (hprims : (∀ y ∈ (h.obj v).parts, (h.obj y).isPrim = true) → items = (loop h [] (h.obj v).parts).1) :
    ∃ memo', Remembers h memo' ∧ advance h ⟨phase, above, v :: path, seen, memo⟩ v items [] frames =
      ⟨.send (assemble (h.obj v) items), frames, path, seen, memo'⟩ := by
  simp only [advance, loop, Machine.finish, List.erase_cons_head]
  split
  · rename_i hremember
    simp only [Bool.and_eq_true, List.all_eq_true] at hremember
    exact ⟨_, hm.remember (frozenset_of_memoable hremember.1) hremember.2 (by rw [hprims hremember.2]), rfl⟩
  · exact ⟨_, hm, rfl⟩

/-- The loop over the parts, given what the walk of each of them does. -/
theorem walk_rest {v : ρ} (hpart : ∀ x ∈ (h.obj v).parts, ∀ frames seen memo, Remembers h memo →
      Fine h (v :: path) seen →
      Back h ⟨.enter x, frames, v :: path, seen, memo⟩ frames (v :: path) (Gives h (v :: path) seen x) (h.Cyclic x))
    (phase : Phase ρ) (above frames : List (Frame ρ)) (rest : List ρ) (hrest : ∀ x ∈ rest, x ∈ (h.obj v).parts)
    (items : List Form)
    (hprims : (∀ y ∈ (h.obj v).parts, (h.obj y).isPrim = true) →
      items ++ (loop h [] rest).1 = (loop h [] (h.obj v).parts).1)
    (seen : List ρ) (memo : Memo ρ) (hm : Remembers h memo) (hfine : Fine h (v :: path) seen) :
    Back h (advance h ⟨phase, above, v :: path, seen, memo⟩ v items rest frames) frames path
      (fun f seen' => ∃ fs, f = assemble (h.obj v) (items ++ fs) ∧ GivesAll h (v :: path) seen rest fs seen')
      (∃ x ∈ rest, h.Cyclic x) := by
  induction rest generalizing items seen memo phase above with
  | nil =>
    obtain ⟨memo', hm', hadvance⟩ := advance_nil phase above hm (by simpa [loop] using hprims)
    rw [hadvance]
    exact .inl ⟨_, seen, memo', hm', ⟨[], by simp, .nil, by simp, hfine⟩, .refl⟩
  | cons x rest ih =>
    have hrest' : ∀ y ∈ rest, y ∈ (h.obj v).parts := fun y hy => hrest y (List.mem_cons_of_mem _ hy)
    by_cases hx : (h.obj x).isPrim = true
    · obtain ⟨p, hp⟩ := eq_prim_of_isPrim hx
      have hskip : advance h ⟨phase, above, v :: path, seen, memo⟩ v items (x :: rest) frames =
          advance h ⟨phase, above, v :: path, seen, memo⟩ v (items ++ [.prim p]) rest frames := by
        simp only [advance, loop, hp]
      rw [hskip]
      refine (ih phase above hrest' (items ++ [.prim p]) ?_ seen memo hm hfine).mono ?_ ?_
      · intro hall
        rw [← hprims hall]
        simp only [loop, hp, List.nil_append]
        rw [loop_append [.prim p]]
        simp
      · rintro f seen' ⟨fs, rfl, hforms, hacc, hfine'⟩
        refine ⟨.prim p :: fs, by simp, .cons (.prim hp) hforms, ?_, hfine'⟩
        rintro y hy
        rcases List.mem_cons.mp hy with rfl | hy
        · exact acc_of_no_parts (parts_of_isPrim hx)
        · exact hacc y hy
      · rintro ⟨y, hy, hc⟩
        exact ⟨y, List.mem_cons_of_mem _ hy, hc⟩
    · have hyield : advance h ⟨phase, above, v :: path, seen, memo⟩ v items (x :: rest) frames =
          ⟨.enter x, ⟨v, items, rest⟩ :: frames, v :: path, seen, memo⟩ := by
        simp only [advance, loop_of_not_isPrim hx]
      rw [hyield]
      rcases hpart x (hrest x (by simp)) (⟨v, items, rest⟩ :: frames) seen memo hm hfine with
        ⟨f, seen', memo', hm', ⟨hforms, hacc, hfine'⟩, hs⟩ | ⟨hc, seen', memo', hm', hs⟩
      · have hsend : step h ⟨.send f, ⟨v, items, rest⟩ :: frames, v :: path, seen', memo'⟩ =
            .inl (advance h ⟨.send f, ⟨v, items, rest⟩ :: frames, v :: path, seen', memo'⟩ v (items ++ [f]) rest frames) :=
          rfl
        have hnot : ¬ ∀ y ∈ (h.obj v).parts, (h.obj y).isPrim = true := fun hall => hx (hall x (hrest x (by simp)))
        have hback := ih (.send f) (⟨v, items, rest⟩ :: frames) hrest' (items ++ [f]) (fun hall => absurd hall hnot)
          seen' memo' hm' hfine'
        refine ((hback.before hsend).steps hs).mono ?_ ?_
        · rintro g seen'' ⟨fs, rfl, hall, haccs, hfine''⟩
          refine ⟨f :: fs, by simp, .cons hforms hall, ?_, hfine''⟩
          intro y hy
          rcases List.mem_cons.mp hy with rfl | hy
          · exact hacc
          · exact haccs y hy
        · rintro ⟨y, hy, hc⟩
          exact ⟨y, List.mem_cons_of_mem _ hy, hc⟩
      · have hthrow : step h ⟨.throw, ⟨v, items, rest⟩ :: frames, v :: path, seen', memo'⟩ =
            .inl ⟨.throw, frames, path, seen', memo'⟩ := by
          simp [step]
        exact .inr ⟨⟨x, by simp, hc⟩, seen', memo', hm', hs.tail hthrow⟩

/-! ## A value -/

/-- The generator of a container that is not on the path, given what the walk of each of its parts does. -/
theorem walk_start {v : ρ} (hpart : ∀ x ∈ (h.obj v).parts, ∀ frames seen memo, Remembers h memo →
      Fine h (v :: path) seen →
      Back h ⟨.enter x, frames, v :: path, seen, memo⟩ frames (v :: path) (Gives h (v :: path) seen x) (h.Cyclic x))
    (hm : Remembers h memo) (hfine : Fine h (v :: path) seen) :
    Back h ⟨.start v, frames, path, seen, memo⟩ frames path
      (fun f seen' => ∃ fs, f = assemble (h.obj v) fs ∧ GivesAll h (v :: path) seen (h.obj v).parts fs seen')
      (h.Cyclic v) := by
  apply Back.before (show step h ⟨.start v, frames, path, seen, memo⟩ = .inl (startContainer h _ v) from rfl)
  unfold startContainer
  simp only
  split
  · rename_i form hget
    split at hget
    · obtain ⟨-, hprims, rfl⟩ := hm v form (Memo.mem_of_get hget)
      refine .inl ⟨_, seen, memo.use v, hm.use v, ⟨_, rfl, (formsAll_prims hprims).1, ?_, hfine⟩, ?_⟩
      · exact fun x hx => acc_of_no_parts (parts_of_isPrim (hprims x hx))
      · simp only [Machine.finish, List.erase_cons_head]
        exact .refl
    · cases hget
  · rename_i forms _ hnumbers
    obtain ⟨hforms, hleaves⟩ := formsAll_numbers hnumbers
    refine .inl ⟨_, seen, memo, hm, ⟨forms, rfl, hforms, fun x hx => acc_of_no_parts (hleaves x hx), hfine⟩, ?_⟩
    simp only [Machine.finish, List.erase_cons_head]
    exact .refl
  · refine (walk_rest hpart _ _ _ _ (fun x hx => hx) [] (fun _ => by simp) seen memo hm hfine).mono ?_ ?_
    · rintro f seen' ⟨fs, rfl, hall⟩
      exact ⟨fs, by simp, hall⟩
    · rintro ⟨x, hx, hc⟩
      exact cyclic_of_part hx hc

theorem step_enter_container {v : ρ} (hcontainer : (h.obj v).isContainer = true) :
    step h ⟨.enter v, frames, path, seen, memo⟩ =
      .inl (enterContainer h ⟨.enter v, frames, path, seen, memo⟩ v) := by
  simp only [step]
  split
  · rename_i ho
    rw [ho] at hcontainer
    cases hcontainer
  · rename_i ho
    rw [ho] at hcontainer
    cases hcontainer
  · rename_i ho
    rw [ho] at hcontainer
    cases hcontainer
  · rfl

/-- A value that is no container is sent at once. -/
theorem walk_leaf {v : ρ} (hcontainer : ¬(h.obj v).isContainer = true) (hm : Remembers h memo)
    (hfine : Fine h path seen) :
    Back h ⟨.enter v, frames, path, seen, memo⟩ frames path (Gives h path seen v) (h.Cyclic v) := by
  have hacc : Acc h.Part v := acc_of_no_parts (parts_of_not_isContainer hcontainer)
  cases ho : h.obj v with
  | prim p =>
    have hstep : step h ⟨.enter v, frames, path, seen, memo⟩ = .inl ⟨.send (.prim p), frames, path, seen, memo⟩ := by
      simp [step, ho]
    exact .inl ⟨_, seen, memo, hm, ⟨.prim ho, hacc, hfine⟩, .single hstep⟩
  | np n =>
    have hstep : step h ⟨.enter v, frames, path, seen, memo⟩ =
        .inl ⟨.send (.np n.char n.raw), frames, path, seen, memo⟩ := by
      simp [step, ho]
    exact .inl ⟨_, seen, memo, hm, ⟨.np ho, hacc, hfine⟩, .single hstep⟩
  | bytearray bs =>
    by_cases hseen : v ∈ seen
    · have hstep : step h ⟨.enter v, frames, path, seen, memo⟩ =
          .inl ⟨.send (.aliasOf (seen.idxOf v)), frames, path, seen, memo⟩ := by
        simp [step, ho, hseen]
      exact .inl ⟨_, seen, memo, hm, ⟨.again (by simp [ho, Obj.isMutable]) hseen, hacc, hfine⟩, .single hstep⟩
    · have hstep : step h ⟨.enter v, frames, path, seen, memo⟩ =
          .inl ⟨.send (.bytearray bs), frames, path, seen ++ [v], memo⟩ := by
        simp [step, ho, hseen]
      have hfine' : Fine h path (seen ++ [v]) := by
        intro x hx
        rcases List.mem_append.mp hx with hx | hx
        · exact hfine x hx
        · exact .inr (List.mem_singleton.mp hx ▸ hacc)
      exact .inl ⟨_, seen ++ [v], memo, hm, ⟨.bytearray ho hseen, hacc, hfine'⟩, .single hstep⟩
  | _ => simp [ho, Obj.isContainer] at hcontainer

/-- The walk of a value gives its form, or throws where the value is cyclic. The recursion ends because the
path holds no object twice. -/
theorem walk_enter [Fintype ρ] (room : Nat) (v : ρ) (frames : List (Frame ρ)) (path seen : List ρ) (memo : Memo ρ)
    (hroom : Fintype.card ρ ≤ path.length + room) (hpath : path.Nodup)
    (habove : ∀ x ∈ path, Relation.TransGen (Function.swap h.Part) x v)
    (hm : Remembers h memo) (hfine : Fine h path seen) :
    Back h ⟨.enter v, frames, path, seen, memo⟩ frames path (Gives h path seen v) (h.Cyclic v) := by
  by_cases hcontainer : (h.obj v).isContainer = true
  · -- a container: on the path, met before, or walked below
    apply Back.before (step_enter_container hcontainer)
    unfold enterContainer
    split
    · rename_i hv
      exact .inr ⟨⟨v, .refl, habove v hv⟩, seen, memo, hm, .refl⟩
    · rename_i hv
      have hpath' : (v :: path).Nodup := List.nodup_cons.mpr ⟨hv, hpath⟩
      cases room with
      | zero =>
        have := hpath'.length_le_card
        simp at this
        omega
      | succ room =>
        have hpart : ∀ x ∈ (h.obj v).parts, ∀ frames seen memo, Remembers h memo → Fine h (v :: path) seen →
            Back h ⟨.enter x, frames, v :: path, seen, memo⟩ frames (v :: path) (Gives h (v :: path) seen x)
              (h.Cyclic x) := by
          intro x hx frames seen memo hm hfine
          refine walk_enter room x frames (v :: path) seen memo (by simp; omega) hpath' ?_ hm hfine
          intro y hy
          rcases List.mem_cons.mp hy with rfl | hy
          · exact .single hx
          · exact (habove y hy).tail hx
        have hgives : ∀ {f seen₀ seen'}, (∃ fs, f = assemble (h.obj v) fs ∧
            GivesAll h (v :: path) seen₀ (h.obj v).parts fs seen') →
            (∀ fs, FormsAll h seen₀ (h.obj v).parts fs seen' → Forms h seen v (assemble (h.obj v) fs) seen') →
            Gives h path seen v f seen' := by
          rintro f seen₀ seen' ⟨fs, rfl, hall, haccs, hfine'⟩ hforms
          have hacc : Acc h.Part v := .intro v haccs
          exact ⟨hforms fs hall, hacc, hfine'.pop hacc⟩
        split
        · rename_i hmutable
          split
          · rename_i hseen
            have hacc : Acc h.Part v := (hfine v hseen).resolve_left hv
            have hagain : Forms h seen v (.aliasOf (seen.idxOf v)) seen :=
              .again (isMutable_of_isMutableContainer hmutable) hseen
            exact .inl ⟨_, seen, memo, hm, ⟨hagain, hacc, hfine⟩, .refl⟩
          · rename_i hseen
            exact (walk_start hpart hm hfine.meet).mono
              (fun f seen' hall => hgives hall fun fs => .mutable hmutable hseen) id
        · rename_i hmutable
          exact (walk_start hpart hm hfine.push).mono
            (fun f seen' hall => hgives hall fun fs => .immutable hcontainer (by simpa using hmutable)) id
  · exact walk_leaf hcontainer hm hfine

/-! ## The whole walk -/

/-- The walk ends: with the form of the value, or with a `CyclicValueError` where it is cyclic. -/
theorem stableKeyRepr_ends [Fintype ρ] (hm : Remembers h memo) (v : ρ) :
    (∃ f seen' memo', Forms h [] v f seen' ∧ Acc h.Part v ∧ Remembers h memo' ∧
      StableKeyRepr h memo v (.form f) memo') ∨
    (h.Cyclic v ∧ ∃ memo', Remembers h memo' ∧ StableKeyRepr h memo v .cyclicValueError memo') := by
  have hwalk := walk_enter (Fintype.card ρ) v [] [] [] memo (by simp) List.nodup_nil (by simp) hm (by simp [Fine])
  rcases hwalk with ⟨f, seen', memo', hm', ⟨hforms, hacc, -⟩, hs⟩ | ⟨hc, seen', memo', hm', hs⟩
  · exact .inl ⟨f, seen', memo', hforms, hacc, hm', _, hs, rfl, rfl⟩
  · exact .inr ⟨hc, memo', hm', _, hs, rfl, rfl⟩

theorem steps_unique {r r' : Result} {m₁ m₂ : Machine ρ} (h₁ : Steps h m m₁) (h₂ : Steps h m m₂)
    (hr : step h m₁ = .inr r) (hr' : step h m₂ = .inr r') : m₁ = m₂ := by
  induction h₁ using Relation.ReflTransGen.head_induction_on with
  | refl =>
    rcases Relation.ReflTransGen.cases_head h₂ with rfl | ⟨m', hstep, -⟩
    · rfl
    · rw [hr] at hstep
      cases hstep
  | head hstep _ ih =>
    rcases Relation.ReflTransGen.cases_head h₂ with rfl | ⟨m', hstep', hrest⟩
    · rw [hstep] at hr'
      cases hr'
    · rw [hstep] at hstep'
      cases hstep'
      exact ih hrest

theorem stableKeyRepr_unique {v : ρ} {r r' : Result} {memo₁ memo₂ : Memo ρ} (h₁ : StableKeyRepr h memo v r memo₁)
    (h₂ : StableKeyRepr h memo v r' memo₂) : r = r' ∧ memo₁ = memo₂ := by
  obtain ⟨m₁, hs₁, hr₁, rfl⟩ := h₁
  obtain ⟨m₂, hs₂, hr₂, rfl⟩ := h₂
  obtain rfl := steps_unique hs₁ hs₂ hr₁ hr₂
  rw [hr₁] at hr₂
  cases hr₂
  exact ⟨rfl, rfl⟩

theorem Warm.remembers [Fintype ρ] (hw : Warm h memo) : Remembers h memo := by
  induction hw with
  | empty => exact .nil
  | @call h memo memo' v r _ hcall ih =>
    rcases stableKeyRepr_ends ih v with ⟨f, seen', memo'', -, -, hm, hends⟩ | ⟨-, memo'', hm, hends⟩
    · exact (stableKeyRepr_unique hcall hends).2 ▸ hm
    · exact (stableKeyRepr_unique hcall hends).2 ▸ hm
  | dropped kept _ ih => exact fun x f hf => ih x f (List.mem_filter.mp hf).1
  | @written h h' memo _ hsame ih =>
    intro x f hf
    obtain ⟨⟨xs, hx⟩, hprims, rfl⟩ := ih x f hf
    have hx' : h'.obj x = h.obj x := hsame x (by simp [hx, Obj.isMutable, Obj.isMutableContainer])
    have hparts : ∀ y ∈ (h.obj x).parts, h'.obj y = h.obj y := by
      intro y hy
      exact hsame y (not_isMutable_of_isPrim (hprims y hy))
    rw [hx']
    refine ⟨⟨xs, hx⟩, fun y hy => by rw [hparts y hy]; exact hprims y hy, ?_⟩
    rw [loop_congr hparts]

end Cash.Canon
