import Cash.Lib.OrderedSet
import Mathlib.Algebra.BigOperators.Group.List.Basic
import Mathlib.Algebra.GroupWithZero.Nat
import Mathlib.Algebra.Order.BigOperators.Group.List
import Mathlib.Logic.Relation

/-!
# A set grown from a stack

The loop that pops an item, and adds and pushes what it leads to and the set does not have yet. Where all that is led
to lies in a finite list, it comes to an end with what is reachable.
-/

namespace OrderedSet

open Relation (ReflTransGen)

variable {α : Type} [DecidableEq α]

/-- An item the set does not have is added and pushed. -/
def push (s : OrderedSet α × List α) (b : α) : OrderedSet α × List α := if b ∈ s.1 then s else (s.1.add b, b :: s.2)

/-- The loop, for at most so many turns. -/
def grow (next : α → List α) : Nat → List α → OrderedSet α → OrderedSet α
  | 0, _, set => set
  | _ + 1, [], set => set
  | fuel + 1, a :: todo, set =>
    let s := (next a).foldl push (set, todo)
    grow next fuel s.2 s.1

theorem mem_foldl_push {items : List α} {s : OrderedSet α × List α} {b : α} :
    b ∈ (items.foldl push s).1 ↔ b ∈ s.1 ∨ b ∈ items := by
  induction items generalizing s with
  | nil => simp
  | cons a items ih =>
      rw [List.foldl_cons, ih, List.mem_cons, push]
      split
      · rename_i ha
        constructor
        · rintro (hb | hb)
          · exact .inl hb
          · exact .inr (.inr hb)
        · rintro (hb | rfl | hb)
          · exact .inl hb
          · exact .inl ha
          · exact .inr hb
      · rw [mem_add]
        tauto

theorem todo_subset_foldl_push {items : List α} {s : OrderedSet α × List α} {b : α} (hb : b ∈ s.2) :
    b ∈ (items.foldl push s).2 := by
  induction items generalizing s with
  | nil => exact hb
  | cons a items ih =>
      rw [List.foldl_cons]
      apply ih
      rw [push]
      split
      · exact hb
      · exact List.mem_cons_of_mem _ hb

/-- What is added is pushed. -/
theorem mem_todo_foldl_push {items : List α} {s : OrderedSet α × List α} {b : α} (hb : b ∈ (items.foldl push s).1) :
    b ∈ s.1 ∨ b ∈ (items.foldl push s).2 := by
  induction items generalizing s with
  | nil => exact .inl hb
  | cons a items ih =>
      rw [List.foldl_cons] at hb ⊢
      rcases ih hb with hb | hb
      · rw [push] at hb ⊢
        split at hb
        · exact .inl hb
        · rename_i ha
          rcases mem_add.mp hb with rfl | hb
          · rw [if_neg ha]
            exact .inr (todo_subset_foldl_push List.mem_cons_self)
          · exact .inl hb
      · exact .inr hb

theorem todo_foldl_push_mem {items : List α} {s : OrderedSet α × List α} (hs : ∀ b ∈ s.2, b ∈ s.1) :
    ∀ b ∈ (items.foldl push s).2, b ∈ (items.foldl push s).1 := by
  induction items generalizing s with
  | nil => exact hs
  | cons a items ih =>
      rw [List.foldl_cons]
      apply ih
      rw [push]
      split
      · exact hs
      · intro b hb
        rcases List.mem_cons.mp hb with rfl | hb
        · exact mem_add.mpr (.inl rfl)
        · exact mem_add.mpr (.inr (hs b hb))

/-- Each push takes one from the items there still are. -/
theorem length_foldl_push {all items : List α} (hitems : ∀ b ∈ items, b ∈ all) (s : OrderedSet α × List α) :
    (items.foldl push s).2.length + (all.filter (· ∉ (items.foldl push s).1)).length ≤
      s.2.length + (all.filter (· ∉ s.1)).length := by
  induction items generalizing s with
  | nil => exact Nat.le_refl _
  | cons a items ih =>
      rw [List.foldl_cons]
      refine Nat.le_trans (ih (fun b hb => hitems b (List.mem_cons_of_mem _ hb)) _) ?_
      rw [push]
      split
      · exact Nat.le_refl _
      · rename_i ha
        have hlt : (all.filter (· ∉ s.1.add a)).length < (all.filter (· ∉ s.1)).length := by
          have hfilter : all.filter (· ∉ s.1.add a) = (all.filter (· ∉ s.1)).filter (· ≠ a) := by
            rw [List.filter_filter]
            refine List.filter_congr ?_
            intro b _
            simp only [mem_add, not_or, Bool.decide_and, ne_eq]
          rw [hfilter]
          refine List.length_filter_lt_length_iff_exists.mpr ⟨a, ?_, by simp⟩
          exact List.mem_filter.mpr ⟨hitems a List.mem_cons_self, by simpa using ha⟩
        simp only [List.length_cons]
        omega

variable {next : α → List α}

theorem subset_grow {fuel : Nat} {todo : List α} {set : OrderedSet α} {b : α} (hb : b ∈ set) :
    b ∈ grow next fuel todo set := by
  induction fuel generalizing todo set with
  | zero => exact hb
  | succ fuel ih =>
      cases todo with
      | nil => exact hb
      | cons a todo => exact ih (mem_foldl_push.mpr (.inl hb))

theorem grow_reaches {root : α} {fuel : Nat} {todo : List α} {set : OrderedSet α}
    (hset : ∀ a ∈ set, ReflTransGen (fun a b => b ∈ next a) root a) (htodo : ∀ a ∈ todo, a ∈ set) {b : α}
    (hb : b ∈ grow next fuel todo set) : ReflTransGen (fun a b => b ∈ next a) root b := by
  induction fuel generalizing todo set with
  | zero => exact hset b hb
  | succ fuel ih =>
      cases todo with
      | nil => exact hset b hb
      | cons a todo =>
          refine ih ?_ ?_ hb
          · intro c hc
            rcases mem_foldl_push.mp hc with hc | hc
            · exact hset c hc
            · exact (hset a (htodo a List.mem_cons_self)).tail hc
          · exact todo_foldl_push_mem fun c hc => htodo c (List.mem_cons_of_mem _ hc)

theorem grow_closed {all : List α} (hnext : ∀ a, ∀ b ∈ next a, b ∈ all) {fuel : Nat} {todo : List α}
    {set : OrderedSet α} (hfuel : todo.length + (all.filter (· ∉ set)).length ≤ fuel)
    (htaken : ∀ a ∈ set, a ∈ todo ∨ ∀ b ∈ next a, b ∈ set) :
    ∀ a ∈ grow next fuel todo set, ∀ b ∈ next a, b ∈ grow next fuel todo set := by
  induction fuel generalizing todo set with
  | zero =>
      obtain rfl : todo = [] := List.length_eq_zero_iff.mp (by omega)
      intro a ha
      exact (htaken a ha).resolve_left List.not_mem_nil
  | succ fuel ih =>
      cases todo with
      | nil =>
          intro a ha
          exact (htaken a ha).resolve_left List.not_mem_nil
      | cons a todo =>
          have hlength := length_foldl_push (hnext a) (set, todo)
          rw [List.length_cons] at hfuel
          refine ih (by simp only at hlength; omega) ?_
          intro c hc
          rcases mem_todo_foldl_push hc with hold | hpushed
          · rcases htaken c hold with hmem | hdone
            · rcases List.mem_cons.mp hmem with rfl | hmem
              · exact .inr fun b hb => mem_foldl_push.mpr (.inr hb)
              · exact .inl (todo_subset_foldl_push hmem)
            · exact .inr fun b hb => mem_foldl_push.mpr (.inl (hdone b hb))
          · exact .inl hpushed

/-- Grown from one item, with a turn for each item there is, the set is what is reachable from it. -/
theorem mem_grow {all : List α} (hnext : ∀ a, ∀ b ∈ next a, b ∈ all) {root b : α} :
    b ∈ grow next (all.length + 1) [root] (empty.add root) ↔ ReflTransGen (fun a b => b ∈ next a) root b := by
  have hroot : ∀ {a}, a ∈ empty.add root ↔ a = root := by
    intro a
    rw [mem_add, or_iff_left (not_mem_empty a)]
  constructor
  · refine grow_reaches ?_ ?_
    · intro a ha
      rw [hroot.mp ha]
    · intro a ha
      exact hroot.mpr (List.mem_singleton.mp ha)
  · intro h
    have hlength : [root].length + (all.filter (· ∉ empty.add root)).length ≤ all.length + 1 := by
      have := List.length_filter_le (· ∉ empty.add root) all
      rw [List.length_singleton]
      omega
    have hclosed := grow_closed hnext hlength fun a ha => .inl (List.mem_singleton.mpr (hroot.mp ha))
    induction h with
    | refl => exact subset_grow (hroot.mpr rfl)
    | tail _ hb ih => exact hclosed _ ih _ hb

/-! ## Names that may be pushed more than once -/

/-- The loop that pops an item, passes over one it has seen, and pushes what it leads to and has not seen. -/
def sweep (next : α → List α) : Nat → List α → OrderedSet α → OrderedSet α
  | 0, _, seen => seen
  | _ + 1, [], seen => seen
  | fuel + 1, a :: todo, seen =>
    if a ∈ seen then sweep next fuel todo seen
    else sweep next fuel (((next a).filter (· ∉ seen.add a)).reverse ++ todo) (seen.add a)

/-- The sum over some items without one of them. -/
theorem sum_filter_ne {all : List α} (hnodup : all.Nodup) {a : α} {p : α → Bool} (hp : p a = true) (f : α → Nat)
    (hf : a ∉ all → f a = 0) :
    ((all.filter fun b => b ≠ a ∧ p b).map f).sum + f a = ((all.filter p).map f).sum := by
  by_cases hmem : a ∈ all
  · have hperm : (all.filter p).Perm (a :: all.filter fun b => b ≠ a ∧ p b) := by
      refine (List.perm_ext_iff_of_nodup (hnodup.filter _) ?_).mpr ?_
      · rw [List.nodup_cons]
        refine ⟨?_, hnodup.filter _⟩
        simp
      · intro b
        simp only [List.mem_filter, List.mem_cons, decide_eq_true_eq]
        constructor
        · rintro ⟨hb, hpb⟩
          by_cases heq : b = a
          · exact .inl heq
          · exact .inr ⟨hb, heq, hpb⟩
        · rintro (rfl | ⟨hb, _, hpb⟩)
          · exact ⟨hmem, hp⟩
          · exact ⟨hb, hpb⟩
    rw [(hperm.map f).sum_eq, List.map_cons, List.sum_cons, Nat.add_comm]
  · rw [hf hmem, Nat.add_zero]
    congr 2
    refine List.filter_congr ?_
    intro b hb
    have hne : b ≠ a := by
      rintro rfl
      exact hmem hb
    simp [hne]

theorem sweep_reaches {roots : List α} {fuel : Nat} {todo : List α} {seen : OrderedSet α}
    (hseen : ∀ a ∈ seen, ∃ r ∈ roots, ReflTransGen (fun a b => b ∈ next a) r a)
    (htodo : ∀ a ∈ todo, ∃ r ∈ roots, ReflTransGen (fun a b => b ∈ next a) r a) {b : α} (hb : b ∈ sweep next fuel todo seen) :
    ∃ r ∈ roots, ReflTransGen (fun a b => b ∈ next a) r b := by
  induction fuel generalizing todo seen with
  | zero => exact hseen b hb
  | succ fuel ih =>
      cases todo with
      | nil => exact hseen b hb
      | cons a todo =>
          obtain ⟨ha, htodo⟩ := List.forall_mem_cons.mp htodo
          rw [sweep] at hb
          split at hb
          · exact ih hseen htodo hb
          · refine ih ?_ ?_ hb
            · intro c hc
              rcases mem_add.mp hc with rfl | hc
              · exact ha
              · exact hseen c hc
            · intro c hc
              rcases List.mem_append.mp hc with hc | hc
              · obtain ⟨r, hr, hra⟩ := ha
                exact ⟨r, hr, hra.tail (List.mem_of_mem_filter (List.mem_reverse.mp hc))⟩
              · exact htodo c hc

/-- With a turn for each push, all that is pushed is seen, with all that it leads to. -/
theorem sweep_closed {all : List α} (hnodup : all.Nodup) (hall : ∀ a, next a ≠ [] → a ∈ all) {fuel : Nat} {todo : List α}
    {seen : OrderedSet α}
    (hfuel : todo.length + ((all.filter (· ∉ seen)).map fun a => (next a).length).sum ≤ fuel)
    (hseen : ∀ a ∈ seen, ∀ b ∈ next a, b ∈ seen ∨ b ∈ todo) :
    (∀ a, a ∈ seen ∨ a ∈ todo → a ∈ sweep next fuel todo seen) ∧
      ∀ a ∈ sweep next fuel todo seen, ∀ b ∈ next a, b ∈ sweep next fuel todo seen := by
  induction fuel generalizing todo seen with
  | zero =>
      obtain rfl : todo = [] := List.length_eq_zero_iff.mp (by omega)
      exact ⟨fun a ha => ha.resolve_right List.not_mem_nil, fun a ha b hb => (hseen a ha b hb).resolve_right List.not_mem_nil⟩
  | succ fuel ih =>
      cases todo with
      | nil =>
          exact ⟨fun a ha => ha.resolve_right List.not_mem_nil,
            fun a ha b hb => (hseen a ha b hb).resolve_right List.not_mem_nil⟩
      | cons a todo =>
          rw [List.length_cons] at hfuel
          rw [sweep]
          split
          · rename_i ha
            have hseen' : ∀ c ∈ seen, ∀ b ∈ next c, b ∈ seen ∨ b ∈ todo := by
              intro c hc b hb
              rcases hseen c hc b hb with h | h
              · exact .inl h
              · rcases List.mem_cons.mp h with rfl | h
                · exact .inl ha
                · exact .inr h
            obtain ⟨hkept, hclosed⟩ := ih (by omega) hseen'
            refine ⟨?_, hclosed⟩
            rintro c (hc | hc)
            · exact hkept c (.inl hc)
            · rcases List.mem_cons.mp hc with rfl | hc
              · exact hkept _ (.inl ha)
              · exact hkept c (.inr hc)
          · rename_i ha
            have hsum := sum_filter_ne hnodup (p := fun b => b ∉ seen) (by simpa using ha) (fun a => (next a).length)
              fun hmem => by
                by_contra hne
                exact hmem (hall a fun h => hne (by rw [h]; rfl))
            have hfilter : all.filter (fun b => b ≠ a ∧ decide (b ∉ seen) = true) = all.filter (· ∉ seen.add a) := by
              refine List.filter_congr ?_
              intro b _
              simp only [mem_add, not_or, decide_eq_true_eq]
            rw [hfilter] at hsum
            have hpushed : ((next a).filter (· ∉ seen.add a)).reverse.length ≤ (next a).length := by
              rw [List.length_reverse]
              exact List.length_filter_le _ _
            have hseen' : ∀ c ∈ seen.add a, ∀ b ∈ next c,
                b ∈ seen.add a ∨ b ∈ ((next a).filter (· ∉ seen.add a)).reverse ++ todo := by
              intro c hc b hb
              by_cases hknown : b ∈ seen.add a
              · exact .inl hknown
              refine .inr (List.mem_append.mpr ?_)
              rcases mem_add.mp hc with rfl | hc
              · exact .inl (List.mem_reverse.mpr (List.mem_filter.mpr ⟨hb, by simpa using hknown⟩))
              · rcases hseen c hc b hb with h | h
                · exact absurd (mem_add.mpr (.inr h)) hknown
                · rcases List.mem_cons.mp h with rfl | h
                  · exact absurd (mem_add.mpr (.inl rfl)) hknown
                  · exact .inr h
            obtain ⟨hkept, hclosed⟩ := ih (by rw [List.length_append]; omega) hseen'
            refine ⟨?_, hclosed⟩
            rintro c (hc | hc)
            · exact hkept c (.inl (mem_add.mpr (.inr hc)))
            · rcases List.mem_cons.mp hc with rfl | hc
              · exact hkept _ (.inl (mem_add.mpr (.inl rfl)))
              · exact hkept c (.inr (List.mem_append_right _ hc))

/-- Swept from some items, with a turn for each push, the set is what is reachable from them. -/
theorem mem_sweep {all roots : List α} (hnodup : all.Nodup) (hall : ∀ a, next a ≠ [] → a ∈ all) {fuel : Nat}
    (hfuel : roots.length + (all.map fun a => (next a).length).sum ≤ fuel) {b : α} :
    b ∈ sweep next fuel roots empty ↔ ∃ r ∈ roots, ReflTransGen (fun a b => b ∈ next a) r b := by
  constructor
  · exact sweep_reaches (fun a ha => absurd ha (not_mem_empty a)) fun a ha => ⟨a, ha, .refl⟩
  · rintro ⟨r, hr, hrb⟩
    have hfilter : all.filter (· ∉ (empty : OrderedSet α)) = all := List.filter_eq_self.mpr fun a _ => by simp
    rw [← hfilter] at hfuel
    obtain ⟨hkept, hclosed⟩ := sweep_closed hnodup hall hfuel fun a ha => absurd ha (not_mem_empty a)
    induction hrb with
    | refl => exact hkept r (.inr hr)
    | tail _ hb ih => exact hclosed _ ih _ hb

end OrderedSet
