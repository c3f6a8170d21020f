import Mathlib.Data.List.Nodup
import Mathlib.Data.List.Perm.Subperm
import Mathlib.Logic.Function.Basic
import Mathlib.Tactic.Common

/-!
# A search that remembers its answers

Whether a goal is reached from an item, asked of what the item leads to in turn until one answers yes. An item on the
path to itself answers no, and every other answer is remembered. An answer found under a path may hold under that path
only.
-/

namespace Search

variable {α : Type}

abbrev Memo (α : Type) := α → Option Bool

/-- `any(f(x) for x in xs)`. -/
def anyOf (f : α → Memo α → Bool × Memo α) : List α → Memo α → Bool × Memo α
  | [], memo => (false, memo)
  | x :: xs, memo =>
    match f x memo with
    | (true, memo) => (true, memo)
    | (false, memo) => anyOf f xs memo

/-- The search under a path, for at most so many items on it. -/
def found [DecidableEq α] (next : α → List (List α)) (goal : α → Bool) : Nat → List α → α → Memo α → Bool × Memo α
  | 0, _, _, memo => (false, memo)
  | fuel + 1, path, x, memo =>
    match memo x with
    | some answer => (answer, memo)
    | none =>
      if goal x then (true, Function.update memo x (some true))
      else if x ∈ path then (false, memo)
      else
        let r := anyOf (found next goal fuel (x :: path)) (next x).flatten memo
        (r.1, Function.update r.2 x (some r.1))

/-- A goal is reached from the item with nothing on the path on the way. -/
inductive Leads (next : α → List (List α)) (goal : α → Bool) (path : List α) : α → Prop
  | here {x : α} : x ∉ path → goal x = true → Leads next goal path x
  | step {x y : α} : x ∉ path → y ∈ (next x).flatten → Leads next goal path y → Leads next goal path x

/-- The search comes to the item under the path, in some order of what is in one list: nothing in the lists before leads
to a goal under the path. -/
inductive Called (next : α → List (List α)) (goal : α → Bool) (top : α → Prop) : List α → α → Prop
  | top {x : α} : top x → Called next goal top [] x
  | step {path : List α} {x y : α} {before after : List (List α)} {items : List α} : Called next goal top path y →
      y ∉ path → goal y = false → next y = before ++ items :: after → x ∈ items →
      (∀ xs ∈ before, ∀ z ∈ xs, ¬Leads next goal (y :: path) z) → Called next goal top (y :: path) x

/-- A goal is reached from the item, but not under a path that the search comes to it under. -/
def CutOff (next : α → List (List α)) (goal : α → Bool) (top : α → Prop) (x : α) : Prop :=
  ∃ path, Called next goal top path x ∧ x ∉ path ∧ Leads next goal [] x ∧ ¬Leads next goal path x

variable {next : α → List (List α)} {goal : α → Bool} {top : α → Prop} {all path : List α} {x y z : α} {memo : Memo α}

/-! ## Ways to a goal -/

theorem Leads.not_mem (h : Leads next goal path x) : x ∉ path := by
  cases h with
  | here hx _ => exact hx
  | step hx _ _ => exact hx

theorem Leads.of_cons (h : Leads next goal (y :: path) x) : Leads next goal path x := by
  induction h with
  | here hx hgoal => exact .here (fun h => hx (List.mem_cons_of_mem _ h)) hgoal
  | step hx hy _ ih => exact .step (fun h => hx (List.mem_cons_of_mem _ h)) hy ih

theorem Leads.of_path (h : Leads next goal path x) : Leads next goal [] x := by
  induction h with
  | here _ hgoal => exact .here List.not_mem_nil hgoal
  | step _ hy _ ih => exact .step List.not_mem_nil hy ih

/-- A way need not come by `x`, or it does from `x` on once. -/
theorem Leads.avoid (x : α) (h : Leads next goal path z) :
    Leads next goal (x :: path) z ∨ goal x = true ∨ ∃ y ∈ (next x).flatten, Leads next goal (x :: path) y := by
  induction h with
  | @here z hz hgoal =>
      by_cases heq : z = x
      · subst heq
        exact .inr (.inl hgoal)
      · exact .inl (.here (by simp [heq, hz]) hgoal)
  | @step z y hz hy _ ih =>
      rcases ih with hway | hfrom
      · by_cases heq : z = x
        · subst heq
          exact .inr (.inr ⟨y, hy, hway⟩)
        · exact .inl (.step (by simp [heq, hz]) hy hway)
      · exact .inr hfrom

/-- From an item that is no goal, a way goes on without it. -/
theorem Leads.onward (hgoal : goal x = false) (h : Leads next goal path x) :
    ∃ y ∈ (next x).flatten, Leads next goal (x :: path) y := by
  rcases h.avoid x with h | h | h
  · exact absurd List.mem_cons_self h.not_mem
  · rw [hgoal] at h
    cases h
  · exact h

/-! ## Paths -/

theorem Called.nodup (h : Called next goal top path x) : path.Nodup := by
  induction h with
  | top _ => exact List.nodup_nil
  | step _ hy _ _ _ _ ih => exact List.nodup_cons.mpr ⟨hy, ih⟩

theorem Called.not_goal (h : Called next goal top path x) : ∀ y ∈ path, goal y = false := by
  induction h with
  | top _ => exact fun _ h => absurd h List.not_mem_nil
  | step _ _ hgoal _ _ _ ih => exact List.forall_mem_cons.mpr ⟨hgoal, ih⟩

theorem Called.subset (hall : ∀ y, (next y).flatten ≠ [] → y ∈ all) (h : Called next goal top path x) :
    ∀ y ∈ path, y ∈ all := by
  induction h with
  | top _ => exact fun _ h => absurd h List.not_mem_nil
  | step _ _ _ hnext hx _ ih =>
      refine List.forall_mem_cons.mpr ⟨hall _ ?_, ih⟩
      rw [hnext]
      exact List.ne_nil_of_mem (List.mem_flatten.mpr ⟨_, List.mem_append_right _ List.mem_cons_self, hx⟩)

/-- There is fuel as long as the items on the path are few. -/
theorem fuel_pos {fuel : Nat} (hnodup : path.Nodup) (hsub : ∀ y ∈ path, y ∈ all) (hfuel : all.length + 1 ≤ fuel + path.length) :
    fuel ≠ 0 := by
  have := (hnodup.subperm hsub).length_le
  omega

/-! ## What is remembered stays -/

theorem anyOf_append (f : α → Memo α → Bool × Memo α) (xs ys : List α) (memo : Memo α) :
    anyOf f (xs ++ ys) memo =
      if (anyOf f xs memo).1 then anyOf f xs memo else anyOf f ys (anyOf f xs memo).2 := by
  induction xs generalizing memo with
  | nil => rfl
  | cons x xs ih =>
      rw [List.cons_append, anyOf, anyOf]
      cases hf : f x memo with
      | mk hit memo' =>
          cases hit with
          | true => rfl
          | false => exact ih memo'

theorem anyOf_keeps {f : α → Memo α → Bool × Memo α} {b : Bool}
    (hf : ∀ x memo, memo z = some b → (f x memo).2 z = some b) (xs : List α) (hz : memo z = some b) :
    (anyOf f xs memo).2 z = some b := by
  induction xs generalizing memo with
  | nil => exact hz
  | cons x xs ih =>
      have hkept := hf x memo hz
      rw [anyOf]
      cases hr : f x memo with
      | mk hit memo' =>
          rw [hr] at hkept
          cases hit with
          | true => exact hkept
          | false => exact ih hkept

variable [DecidableEq α]

theorem found_keeps {b : Bool} (fuel : Nat) (path : List α) (x : α) (memo : Memo α) (hz : memo z = some b) :
    (found next goal fuel path x memo).2 z = some b := by
  induction fuel generalizing path x memo with
  | zero => exact hz
  | succ fuel ih =>
      rw [found]
      split
      · exact hz
      · rename_i hnone
        have hne : z ≠ x := by
          rintro rfl
          rw [hz] at hnone
          cases hnone
        split
        · exact (Function.update_of_ne hne _ _).trans hz
        split
        · exact hz
        · exact (Function.update_of_ne hne _ _).trans (anyOf_keeps (fun x memo hz => ih _ x memo hz) _ hz)

/-- The answer to what is asked with nothing on the path is remembered. -/
theorem found_top (fuel : Nat) (x : α) (memo : Memo α) :
    (found next goal (fuel + 1) [] x memo).2 x = some (found next goal (fuel + 1) [] x memo).1 := by
  rw [found]
  split
  · rename_i answer hsome
    exact hsome
  split
  · exact Function.update_self ..
  · rw [if_neg List.not_mem_nil]
    exact Function.update_self ..

/-! ## Right answers -/

/-- What is remembered is so. -/
def Right (next : α → List (List α)) (goal : α → Bool) (memo : Memo α) : Prop :=
  ∀ x answer, memo x = some answer → (answer = true ↔ Leads next goal [] x)

theorem Right.update (h : Right next goal memo) {answer : Bool} (hx : answer = true ↔ Leads next goal [] x) :
    Right next goal (Function.update memo x (some answer)) := by
  intro z b hz
  by_cases heq : z = x
  · subst heq
    rw [Function.update_self] at hz
    cases hz
    exact hx
  · rw [Function.update_of_ne heq] at hz
    exact h z b hz

/-- An answer under a path: yes only where a goal is reached, and no only on the path or where none is. -/
structure Answered (next : α → List (List α)) (goal : α → Bool) (path : List α) (x : α) (r : Bool × Memo α) : Prop where
  right : Right next goal r.2
  yes : r.1 = true → Leads next goal [] x
  no : r.1 = false → x ∈ path ∨ ¬Leads next goal [] x

omit [DecidableEq α] in
/-- The items of a list are asked in turn. -/
theorem anyOf_right {f : α → Memo α → Bool × Memo α} {xs : List α}
    (hf : ∀ z ∈ xs, ∀ memo, Right next goal memo → Answered next goal path z (f z memo)) (h : Right next goal memo) :
    Right next goal (anyOf f xs memo).2 ∧ ((anyOf f xs memo).1 = true → ∃ z ∈ xs, Leads next goal [] z) ∧
      ((anyOf f xs memo).1 = false → ∀ z ∈ xs, ¬Leads next goal path z) := by
  induction xs generalizing memo with
  | nil => exact ⟨h, fun h => (by cases h), fun _ _ hz => absurd hz List.not_mem_nil⟩
  | cons x xs ih =>
      have hx := hf x List.mem_cons_self memo h
      rw [anyOf]
      cases hr : f x memo with
      | mk hit memo' =>
          rw [hr] at hx
          cases hit with
          | true => exact ⟨hx.right, fun _ => ⟨x, List.mem_cons_self, hx.yes rfl⟩, fun h => by cases h⟩
          | false =>
              obtain ⟨hright, hyes, hno⟩ := ih (fun z hz => hf z (List.mem_cons_of_mem _ hz)) hx.right
              refine ⟨hright, ?_, ?_⟩
              · intro hhit
                obtain ⟨z, hz, hway⟩ := hyes hhit
                exact ⟨z, List.mem_cons_of_mem _ hz, hway⟩
              · intro hhit
                refine List.forall_mem_cons.mpr ⟨?_, hno hhit⟩
                intro hway
                rcases hx.no rfl with hmem | hnone
                · exact hway.not_mem hmem
                · exact hnone hway.of_path

omit [DecidableEq α] in
/-- Lists of items are asked in turn, each when nothing before it leads to a goal under the path. -/
theorem anyOf_flatten_right (path : List α) (rest : List (List α)) {f : α → Memo α → Bool × Memo α}
    (hf : ∀ before xs after, before ++ xs :: after = rest → (∀ ys ∈ before, ∀ z ∈ ys, ¬Leads next goal path z) →
      ∀ z ∈ xs, ∀ memo, Right next goal memo → Answered next goal path z (f z memo)) (h : Right next goal memo) :
    Right next goal (anyOf f rest.flatten memo).2 ∧
      ((anyOf f rest.flatten memo).1 = true → ∃ z ∈ rest.flatten, Leads next goal [] z) ∧
      ((anyOf f rest.flatten memo).1 = false → ∀ z ∈ rest.flatten, ¬Leads next goal path z) := by
  induction rest generalizing memo with
  | nil => exact ⟨h, fun h => (by cases h), fun _ _ hz => absurd hz List.not_mem_nil⟩
  | cons xs rest ih =>
      obtain ⟨hright, hyes, hno⟩ := anyOf_right (hf [] xs rest rfl fun _ h => absurd h List.not_mem_nil) h
      rw [List.flatten_cons, anyOf_append]
      split
      · rename_i hhit
        refine ⟨hright, ?_, fun h => absurd (hhit.symm.trans h) (by simp)⟩
        intro _
        obtain ⟨z, hz, hway⟩ := hyes hhit
        exact ⟨z, List.mem_append_left _ hz, hway⟩
      · rename_i hmiss
        have hnone := hno (Bool.eq_false_iff.mpr hmiss)
        obtain ⟨hright', hyes', hno'⟩ := ih (fun before ys after heq hbefore =>
          hf (xs :: before) ys after (by rw [List.cons_append, heq]) (List.forall_mem_cons.mpr ⟨hnone, hbefore⟩)) hright
        refine ⟨hright', ?_, ?_⟩
        · intro hhit
          obtain ⟨z, hz, hway⟩ := hyes' hhit
          exact ⟨z, List.mem_append_right _ hz, hway⟩
        · intro hmiss z hz
          rcases List.mem_append.mp hz with hz | hz
          · exact hnone z hz
          · exact hno' hmiss z hz

/-- Where nothing is cut off, every answer is right. -/
theorem found_right (hall : ∀ y, (next y).flatten ≠ [] → y ∈ all) (hclear : ∀ v, ¬CutOff next goal top v) {fuel : Nat}
    (hcalled : Called next goal top path x) (hfuel : all.length + 1 ≤ fuel + path.length) (h : Right next goal memo) :
    Answered next goal path x (found next goal fuel path x memo) := by
  induction fuel generalizing path x memo with
  | zero => exact absurd rfl (fuel_pos hcalled.nodup (hcalled.subset hall) hfuel)
  | succ fuel ih =>
      rw [found]
      split
      · rename_i answer hsome
        have hanswer := h x answer hsome
        refine ⟨h, hanswer.mp, ?_⟩
        rintro rfl
        exact .inr fun hway => absurd (hanswer.mpr hway) Bool.false_ne_true
      split
      · rename_i hgoal
        have hway : Leads next goal [] x := .here List.not_mem_nil hgoal
        exact ⟨h.update (iff_of_true rfl hway), fun _ => hway, fun h => by cases h⟩
      rename_i hgoal
      split
      · rename_i hmem
        exact ⟨h, fun h => (by cases h), fun _ => .inl hmem⟩
      · rename_i hmem
        have hgoal := Bool.eq_false_iff.mpr hgoal
        have hfuel' : all.length + 1 ≤ fuel + (x :: path).length := by
          rw [List.length_cons]
          omega
        obtain ⟨hright, hyes, hno⟩ := anyOf_flatten_right (x :: path) (next x) (f := found next goal fuel (x :: path))
          (fun before xs after heq hbefore z hz memo hmemo =>
            ih (hcalled.step hmem hgoal heq.symm hz hbefore) hfuel' hmemo) h
        have hiff : (anyOf (found next goal fuel (x :: path)) (next x).flatten memo).1 = true ↔ Leads next goal [] x := by
          constructor
          · intro hhit
            obtain ⟨z, hz, hway⟩ := hyes hhit
            exact .step List.not_mem_nil hz hway
          · intro hway
            by_contra hmiss
            have hpath : Leads next goal path x := by
              by_contra hcut
              exact hclear x ⟨path, hcalled, hmem, hway, hcut⟩
            obtain ⟨z, hz, hway'⟩ := hpath.onward hgoal
            exact hno (Bool.eq_false_iff.mpr hmiss) z hz hway'
        refine ⟨hright.update hiff, hiff.mp, ?_⟩
        intro hmiss
        refine .inr fun hway => ?_
        rw [hiff.mpr hway] at hmiss
        cases hmiss

/-! ## Answers under a path -/

/-- Only no is remembered, of items that lead to remembered ones and to the path. -/
def Low (next : α → List (List α)) (path : List α) (memo : Memo α) : Prop :=
  ∀ x answer, memo x = some answer → answer = false ∧ ∀ y ∈ (next x).flatten, memo y = some false ∨ y ∈ path

omit [DecidableEq α] in
theorem Low.cons (y : α) (h : Low next path memo) : Low next (y :: path) memo := fun x answer hx =>
  ⟨(h x answer hx).1, fun z hz => ((h x answer hx).2 z hz).imp id (List.mem_cons_of_mem y)⟩

/-- The first of the path is remembered once all that it leads to is. -/
theorem Low.update (h : Low next (x :: path) memo) (hx : ∀ y ∈ (next x).flatten, memo y = some false ∨ y ∈ x :: path) :
    Low next path (Function.update memo x (some false)) := by
  have hmono : ∀ y, memo y = some false ∨ y ∈ x :: path → Function.update memo x (some false) y = some false ∨ y ∈ path := by
    intro y hy
    by_cases heq : y = x
    · subst heq
      exact .inl (Function.update_self ..)
    · rw [Function.update_of_ne heq]
      exact hy.imp id fun h => (List.mem_cons.mp h).resolve_left heq
  intro z answer hz
  by_cases heq : z = x
  · subst heq
    rw [Function.update_self] at hz
    cases hz
    exact ⟨rfl, fun y hy => hmono y (hx y hy)⟩
  · rw [Function.update_of_ne heq] at hz
    exact ⟨(h z answer hz).1, fun y hy => hmono y ((h z answer hz).2 y hy)⟩

omit [DecidableEq α] in
/-- What a remembered item comes to by a way off the path is remembered. -/
theorem Low.way (h : Low next path memo) {answer : Bool} (hx : memo x = some answer)
    (hway : Relation.ReflTransGen (fun a b => b ∈ (next a).flatten ∧ b ∉ path) x y) : memo y = some false := by
  induction hway with
  | refl =>
      obtain ⟨rfl, -⟩ := h x answer hx
      exact hx
  | tail _ hb ih => exact ((h _ _ ih).2 _ hb.1).resolve_right hb.2

/-- No comes of an item, with what is remembered as before and the item remembered or on the path. -/
structure Refused (next : α → List (List α)) (path : List α) (x : α) (r : Bool × Memo α) : Prop where
  no : r.1 = false
  low : Low next path r.2
  known : r.2 x = some false ∨ x ∈ path

omit [DecidableEq α] in
theorem anyOf_refused {f : α → Memo α → Bool × Memo α} {xs : List α}
    (hkeeps : ∀ z x memo, memo z = some false → (f x memo).2 z = some false)
    (hf : ∀ x ∈ xs, ∀ memo, Low next path memo → Refused next path x (f x memo)) (h : Low next path memo) :
    (anyOf f xs memo).1 = false ∧ Low next path (anyOf f xs memo).2 ∧
      ∀ x ∈ xs, (anyOf f xs memo).2 x = some false ∨ x ∈ path := by
  induction xs generalizing memo with
  | nil => exact ⟨rfl, h, fun _ hx => absurd hx List.not_mem_nil⟩
  | cons x xs ih =>
      obtain ⟨hno, hlow, hknown⟩ := hf x List.mem_cons_self memo h
      have hstep : anyOf f (x :: xs) memo = anyOf f xs (f x memo).2 := by
        rw [anyOf]
        cases hr : f x memo with
        | mk hit memo' =>
            rw [hr] at hno
            cases hno
            rfl
      obtain ⟨hno', hlow', hknown'⟩ := ih (fun z hz => hf z (List.mem_cons_of_mem _ hz)) hlow
      rw [hstep]
      refine ⟨hno', hlow', List.forall_mem_cons.mpr ⟨?_, hknown'⟩⟩
      exact hknown.imp (fun h => anyOf_keeps (hkeeps x) xs h) id

/-- An item that leads to no goal under the path is refused. -/
theorem found_refused (hall : ∀ y, (next y).flatten ≠ [] → y ∈ all) {fuel : Nat} (hnodup : path.Nodup)
    (hsub : ∀ y ∈ path, y ∈ all) (hgoal : ∀ y ∈ path, goal y = false) (hfuel : all.length + 1 ≤ fuel + path.length)
    (hx : ¬Leads next goal path x) (h : Low next path memo) :
    Refused next path x (found next goal fuel path x memo) := by
  induction fuel generalizing path x memo with
  | zero => exact absurd rfl (fuel_pos hnodup hsub hfuel)
  | succ fuel ih =>
      rw [found]
      split
      · rename_i answer hsome
        obtain ⟨rfl, -⟩ := h x answer hsome
        exact ⟨rfl, h, .inl hsome⟩
      split
      · rename_i hyes
        by_cases hmem : x ∈ path
        · rw [hgoal x hmem] at hyes
          cases hyes
        · exact absurd (.here hmem hyes) hx
      rename_i hplain
      split
      · rename_i hmem
        exact ⟨rfl, h, .inr hmem⟩
      · rename_i hmem
        have hitems : ∀ y ∈ (next x).flatten, ∀ memo, Low next (x :: path) memo →
            Refused next (x :: path) y (found next goal fuel (x :: path) y memo) := by
          intro y hy memo hlow
          refine ih (List.nodup_cons.mpr ⟨hmem, hnodup⟩) ?_ ?_ (by rw [List.length_cons]; omega) ?_ hlow
          · exact List.forall_mem_cons.mpr ⟨hall x (List.ne_nil_of_mem hy), hsub⟩
          · exact List.forall_mem_cons.mpr ⟨Bool.eq_false_iff.mpr hplain, hgoal⟩
          · exact fun hway => hx (.step hmem hy hway.of_cons)
        obtain ⟨hno, hlow, hknown⟩ := anyOf_refused (fun z y memo hz => found_keeps fuel _ y memo hz) hitems (h.cons x)
        simp only [hno]
        exact ⟨rfl, hlow.update hknown, .inl (Function.update_self ..)⟩

/-! ## Without cycles -/

omit [DecidableEq α] in
theorem Called.before (h : Called next goal top path x) :
    ∀ y ∈ path, Relation.TransGen (fun a b => b ∈ (next a).flatten) y x := by
  induction h with
  | top _ => exact fun _ h => absurd h List.not_mem_nil
  | @step path x y before after items _ _ _ hnext hx _ ih =>
      have hstep : x ∈ (next y).flatten := by
        rw [hnext]
        exact List.mem_flatten.mpr ⟨_, List.mem_append_right _ List.mem_cons_self, hx⟩
      exact List.forall_mem_cons.mpr ⟨.single hstep, fun z hz => (ih z hz).tail hstep⟩

omit [DecidableEq α] in
theorem Leads.under (h : Leads next goal [] x)
    (hfree : ∀ y, Relation.ReflTransGen (fun a b => b ∈ (next a).flatten) x y → y ∉ path) : Leads next goal path x := by
  induction h with
  | here _ hgoal => exact .here (hfree _ .refl) hgoal
  | step _ hy _ ih => exact .step (hfree _ .refl) hy (ih fun z hz => hfree z (.head hy hz))

omit [DecidableEq α] in
/-- Where no item leads to itself, none is cut off. -/
theorem not_cutOff_of_acyclic (h : ∀ a, ¬Relation.TransGen (fun a b => b ∈ (next a).flatten) a a) :
    ¬CutOff next goal top x := by
  rintro ⟨path, hcalled, -, hway, hcut⟩
  refine hcut (hway.under fun y hxy hy => ?_)
  exact h y ((hcalled.before y hy).trans_left hxy)

/-! ## An order that cuts off -/

omit [DecidableEq α] in
theorem mem_flatten_perm {xss yss : List (List α)} (h : List.Forall₂ List.Perm xss yss) :
    x ∈ xss.flatten ↔ x ∈ yss.flatten := by
  induction h with
  | nil => rfl
  | cons hxs _ ih => rw [List.flatten_cons, List.flatten_cons, List.mem_append, List.mem_append, ih, hxs.mem_iff]

omit [DecidableEq α] in
theorem leads_perm {order : α → List (List α)} (h : ∀ x, List.Forall₂ List.Perm (next x) (order x)) :
    Leads order goal path x ↔ Leads next goal path x := by
  constructor
  · intro hway
    induction hway with
    | here hx hgoal => exact .here hx hgoal
    | step hx hy _ ih => exact .step hx ((mem_flatten_perm (h _)).mpr hy) ih
  · intro hway
    induction hway with
    | here hx hgoal => exact .here hx hgoal
    | step hx hy _ ih => exact .step hx ((mem_flatten_perm (h _)).mp hy) ih

omit [DecidableEq α] in
theorem forall₂_split {xss before after : List (List α)} {items : List α}
    (h : List.Forall₂ List.Perm xss (before ++ items :: after)) :
    ∃ before' items' after', xss = before' ++ items' :: after' ∧ List.Forall₂ List.Perm before' before ∧ items'.Perm items := by
  induction before generalizing xss with
  | nil =>
      obtain ⟨items', after', hitems, _, rfl⟩ := List.forall₂_cons_right_iff.mp h
      exact ⟨[], items', after', rfl, .nil, hitems⟩
  | cons ys before ih =>
      obtain ⟨xs, rest, hxs, hrest, rfl⟩ := List.forall₂_cons_right_iff.mp h
      obtain ⟨before', items', after', rfl, hb, hi⟩ := ih hrest
      exact ⟨xs :: before', items', after', rfl, .cons hxs hb, hi⟩

omit [DecidableEq α] in
theorem forall₂_mem {xss yss : List (List α)} {xs : List α} (h : List.Forall₂ List.Perm xss yss) (hxs : xs ∈ xss) :
    ∃ ys ∈ yss, xs.Perm ys := by
  induction h with
  | nil => cases hxs
  | cons hperm _ ih =>
      rcases List.mem_cons.mp hxs with rfl | hxs
      · exact ⟨_, List.mem_cons_self, hperm⟩
      · obtain ⟨ys, hys, hperm'⟩ := ih hxs
        exact ⟨ys, List.mem_cons_of_mem _ hys, hperm'⟩

omit [DecidableEq α] in
theorem called_perm {order : α → List (List α)} (h : ∀ x, List.Forall₂ List.Perm (next x) (order x))
    (hc : Called order goal top path x) : Called next goal top path x := by
  induction hc with
  | top hx => exact .top hx
  | @step path x y before after items _ hy hgoal hnext hx hbefore ih =>
      obtain ⟨before', items', after', heq, hb, hi⟩ := forall₂_split (hnext ▸ h y)
      refine ih.step hy hgoal heq (hi.mem_iff.mpr hx) ?_
      intro xs hxs z hz hway
      obtain ⟨ys, hys, hperm⟩ := forall₂_mem hb hxs
      exact hbefore ys hys z (hperm.mem_iff.mp hz) ((leads_perm h).mpr hway)

/-- The search comes to the item under the path, each time as the first of a list. -/
inductive Led (next order : α → List (List α)) (goal : α → Bool) (top : α → Prop) : List α → α → Prop
  | top {x : α} : top x → Led next order goal top [] x
  | step {path : List α} {x y : α} {before after : List (List α)} {items : List α} : Led next order goal top path y →
      y ∉ path → goal y = false → order y = before ++ (x :: items) :: after →
      (∀ xs ∈ before, ∀ z ∈ xs, ¬Leads next goal (y :: path) z) → Led next order goal top (y :: path) x

omit [DecidableEq α] in
theorem Led.congr {order order' : α → List (List α)} (h : Led next order goal top path x)
    (hsame : ∀ y ∈ path, order y = order' y) : Led next order' goal top path x := by
  induction h with
  | top hx => exact .top hx
  | @step path x y before after items _ hy hgoal horder hbefore ih =>
      have hsame := List.forall_mem_cons.mp hsame
      exact .step (ih hsame.2) hy hgoal (hsame.1 ▸ horder) hbefore

omit [DecidableEq α] in
theorem Led.called {order : α → List (List α)} (hperm : ∀ z, List.Forall₂ List.Perm (next z) (order z))
    (h : Led next order goal top path x) : Called order goal top path x := by
  induction h with
  | top hx => exact .top hx
  | step _ hy hgoal horder hbefore ih =>
      refine .step ih hy hgoal horder List.mem_cons_self ?_
      intro xs hxs z hz hway
      exact hbefore xs hxs z hz ((leads_perm hperm).mp hway)

theorem exists_led (h : Called next goal top path x) : ∃ order : α → List (List α),
    (∀ z, List.Forall₂ List.Perm (next z) (order z)) ∧ Led next order goal top path x := by
  induction h with
  | top hx => exact ⟨next, fun z => List.forall₂_same.mpr fun _ _ => .refl _, .top hx⟩
  | @step path x y before after items _ hy hgoal hnext hx hbefore ih =>
      obtain ⟨order, hperm, hled⟩ := ih
      refine ⟨Function.update order y (before ++ (x :: items.erase x) :: after), ?_, ?_⟩
      · intro z
        by_cases hz : z = y
        · subst hz
          rw [Function.update_self, hnext]
          exact List.rel_append (List.forall₂_same.mpr fun _ _ => .refl _)
            (.cons (List.perm_cons_erase hx) (List.forall₂_same.mpr fun _ _ => .refl _))
        · rw [Function.update_of_ne hz]
          exact hperm z
      · refine .step (hled.congr ?_) hy hgoal (Function.update_self ..) hbefore
        intro z hz
        have hne : z ≠ y := by
          rintro rfl
          exact hy hz
        rw [Function.update_of_ne hne]

/-- Where the search is led to an item that is cut off under the path, no is remembered of it. -/
theorem led_found {order : α → List (List α)} {v : α} (hall : ∀ y, (order y).flatten ≠ [] → y ∈ all)
    (hperm : ∀ z, List.Forall₂ List.Perm (next z) (order z)) (hled : Led next order goal top path x) (hx : x ∉ path)
    (hv : v ∉ path) (hway : Relation.ReflTransGen (fun a b => b ∈ (order a).flatten ∧ b ∉ path) x v)
    (hfound : ∀ fuel memo, all.length + 1 ≤ fuel + path.length → Low order path memo →
      (found order goal fuel path x memo).2 v = some false) :
    ∃ y, top y ∧ (found order goal (all.length + 1) [] y fun _ => none).2 v = some false := by
  induction hled with
  | top htop => exact ⟨_, htop, hfound _ _ (Nat.le_refl _) fun _ _ h => (by cases h)⟩
  | @step path x y before after items hled hy hgoal horder hbefore ih =>
      rw [List.mem_cons, not_or] at hx hv
      have hstep : x ∈ (order y).flatten := by
        rw [horder]
        exact List.mem_flatten.mpr ⟨x :: items, List.mem_append_right _ List.mem_cons_self, List.mem_cons_self⟩
      have hway' : Relation.ReflTransGen (fun a b => b ∈ (order a).flatten ∧ b ∉ path) y v := by
        refine .head ⟨hstep, hx.2⟩ (Relation.ReflTransGen.mono ?_ _ _ hway)
        intro a b hab
        exact ⟨hab.1, fun h => hab.2 (List.mem_cons_of_mem _ h)⟩
      refine ih hy hv.2 hway' ?_
      intro fuel memo hfuel hlow
      have hcalled := hled.called hperm
      have hsub := hcalled.subset hall
      cases fuel with
      | zero => exact absurd rfl (fuel_pos hcalled.nodup hsub hfuel)
      | succ fuel =>
          rw [found]
          split
          · rename_i answer hsome
            exact hlow.way hsome hway'
          · have hfuel' : all.length + 1 ≤ fuel + (y :: path).length := by
              rw [List.length_cons]
              omega
            have hrefused : ∀ z ∈ before.flatten, ∀ memo, Low order (y :: path) memo →
                Refused order (y :: path) z (found order goal fuel (y :: path) z memo) := by
              intro z hz memo hlow
              obtain ⟨xs, hxs, hz⟩ := List.mem_flatten.mp hz
              refine found_refused hall (List.nodup_cons.mpr ⟨hy, hcalled.nodup⟩) ?_ ?_ hfuel' ?_ hlow
              · exact List.forall_mem_cons.mpr ⟨hall y (List.ne_nil_of_mem hstep), hsub⟩
              · exact List.forall_mem_cons.mpr ⟨hgoal, hcalled.not_goal⟩
              · exact fun hleads => hbefore xs hxs z hz ((leads_perm hperm).mp hleads)
            obtain ⟨hno, hlow', -⟩ := anyOf_refused (fun z w memo hz => found_keeps fuel _ w memo hz) hrefused (hlow.cons y)
            rw [if_neg (by rw [hgoal]; exact Bool.false_ne_true), if_neg hy]
            refine (Function.update_of_ne hv.1 _ _).trans ?_
            rw [horder, List.flatten_append, List.flatten_cons, anyOf_append, hno, if_neg Bool.false_ne_true,
              List.cons_append, anyOf]
            -- `x` is asked first of its list, and what it remembers of `v` stays.
            have hfirst := hfound fuel _ hfuel' hlow'
            split
            · rename_i memo' hr
              rw [hr] at hfirst
              exact hfirst
            · rename_i memo' hr
              rw [hr] at hfirst
              exact anyOf_keeps (fun w memo hz => found_keeps fuel _ w memo hz) _ hfirst

/-- In some order no is remembered of an item that is cut off, from the first item the search is asked of on. -/
theorem exists_found_false {v : α} (hall : ∀ y, (next y).flatten ≠ [] → y ∈ all) (h : CutOff next goal top v) :
    ∃ order : α → List (List α), (∀ z, List.Forall₂ List.Perm (next z) (order z)) ∧
      ∃ y, top y ∧ (found order goal (all.length + 1) [] y fun _ => none).2 v = some false := by
  obtain ⟨path, hcalled, hmem, -, hcut⟩ := h
  obtain ⟨order, hperm, hled⟩ := exists_led hcalled
  have hall' : ∀ y, (order y).flatten ≠ [] → y ∈ all := by
    intro y hy
    obtain ⟨z, hz⟩ := List.exists_mem_of_ne_nil _ hy
    exact hall y (List.ne_nil_of_mem ((mem_flatten_perm (hperm y)).mpr hz))
  have hcalled' := hled.called hperm
  refine ⟨order, hperm, led_found hall' hperm hled hmem hmem .refl ?_⟩
  intro fuel memo hfuel hlow
  refine (found_refused hall' hcalled'.nodup (hcalled'.subset hall') hcalled'.not_goal hfuel ?_ hlow).known.resolve_right hmem
  exact fun hleads => hcut ((leads_perm hperm).mp hleads)

end Search
