import Mathlib.Data.List.Basic
import Mathlib.Data.List.Nodup
import Mathlib.Logic.Relation
import Mathlib.Tactic.Common

/-!
# A walk that enters each node once

What is made of a node is made of what its edges come to, in turn; a node that was entered before comes to the same
whatever it is. The nodes entered are those that are reached (`all_reached`), the walk ends (`ends`), and two walks of one
graph come to the same if and only if they make the same of every node entered (`all_eq_iff`).
-/

namespace Visit

variable {α β : Type} [DecidableEq α]

/-- What the edges come to, in turn. An edge leads to a node, or to what is known. -/
def all (f : α → List α → Option (β × List α)) : List (α ⊕ β) → List α → Option (List β × List α)
  | [], seen => some ([], seen)
  | .inr b :: es, seen => (all f es seen).map fun r => (b :: r.1, r.2)
  | .inl x :: es, seen => (f x seen).bind fun r => (all f es r.2).map fun s => (r.1 :: s.1, s.2)

/-- The walk, with the nodes entered so far; `none` where it is deeper than the fuel. -/
def fold (next : α → List (α ⊕ β)) (make : α → List β → β) (again : β) : Nat → α → List α → Option (β × List α)
  | 0, _, _ => none
  | fuel + 1, x, seen =>
    if x ∈ seen then some (again, seen)
    else (all (fold next make again fuel) (next x) (seen ++ [x])).map fun r => (make x r.1, r.2)

/-- An edge leads from one node to the other. -/
def Step (next : α → List (α ⊕ β)) (x y : α) : Prop := .inl y ∈ next x

variable {next next' : α → List (α ⊕ β)} {make make' : α → List β → β} {again : β} {x y z : α} {seen log nodes : List α}
  {fuel : Nat} {es : List (α ⊕ β)}

/-! ## The nodes entered -/

/-- The nodes entered after some: each once, with all that it leads to, and reached from the first. -/
structure Entered (next : α → List (α ⊕ β)) (roots seen log : List α) : Prop where
  grown : ∃ new, log = seen ++ new
  nodup : seen.Nodup → log.Nodup
  enters : ∀ x ∈ roots, x ∈ log
  closed : ∀ y ∈ log, y ∉ seen → ∀ z, Step next y z → z ∈ log
  reached : ∀ y ∈ log, y ∉ seen → ∃ x ∈ roots, Relation.ReflTransGen (Step next) x y

omit [DecidableEq α] in
theorem Entered.mono {roots : List α} (h : Entered next roots seen log) (hx : x ∈ seen) : x ∈ log := by
  obtain ⟨new, rfl⟩ := h.grown
  exact List.mem_append_left _ hx

/-- The nodes some edges lead to. -/
def targets : List (α ⊕ β) → List α
  | [] => []
  | .inl x :: es => x :: targets es
  | .inr _ :: es => targets es

omit [DecidableEq α] in
theorem mem_targets : x ∈ targets es ↔ .inl x ∈ es := by
  induction es with
  | nil => simp [targets]
  | cons e es ih =>
      cases e with
      | inl y => rw [targets, List.mem_cons, List.mem_cons, ih, Sum.inl.injEq]
      | inr b => rw [targets, List.mem_cons, ih]; simp

theorem all_entered {f : α → List α → Option (β × List α)} {bs : List β}
    (hf : ∀ x seen b log, f x seen = some (b, log) → Entered next [x] seen log) (h : all f es seen = some (bs, log)) :
    Entered next (targets es) seen log := by
  induction es generalizing seen bs log with
  | nil =>
      cases h
      exact ⟨⟨[], (List.append_nil _).symm⟩, id, fun _ h => absurd h List.not_mem_nil, fun y hy hn => absurd hy hn,
        fun y hy hn => absurd hy hn⟩
  | cons e es ih =>
      cases e with
      | inr b =>
          rw [all, Option.map_eq_some_iff] at h
          obtain ⟨⟨cs, log'⟩, hrest, heq⟩ := h
          cases heq
          exact ih hrest
      | inl x =>
          rw [all, Option.bind_eq_some_iff] at h
          obtain ⟨⟨b, mid⟩, hx, h⟩ := h
          rw [Option.map_eq_some_iff] at h
          obtain ⟨⟨cs, log'⟩, hrest, heq⟩ := h
          cases heq
          have hfirst := hf x seen b mid hx
          have hlast := ih hrest
          refine ⟨?_, fun hnodup => hlast.nodup (hfirst.nodup hnodup), ?_, ?_, ?_⟩
          · obtain ⟨new, rfl⟩ := hfirst.grown
            obtain ⟨new', rfl⟩ := hlast.grown
            exact ⟨new ++ new', List.append_assoc _ _ _⟩
          · intro y hy
            rcases List.mem_cons.mp hy with rfl | hy
            · exact hlast.mono (hfirst.enters y List.mem_cons_self)
            · exact hlast.enters y hy
          · intro y hy hn z hz
            by_cases hmid : y ∈ mid
            · exact hlast.mono (hfirst.closed y hmid hn z hz)
            · exact hlast.closed y hy hmid z hz
          · intro y hy hn
            by_cases hmid : y ∈ mid
            · obtain ⟨r, hr, hway⟩ := hfirst.reached y hmid hn
              exact ⟨r, by rw [List.mem_singleton.mp hr]; exact List.mem_cons_self, hway⟩
            · obtain ⟨r, hr, hway⟩ := hlast.reached y hy hmid
              exact ⟨r, List.mem_cons_of_mem _ hr, hway⟩

theorem fold_entered {b : β} (h : fold next make again fuel x seen = some (b, log)) : Entered next [x] seen log := by
  induction fuel generalizing x seen b log with
  | zero => cases h
  | succ fuel ih =>
      rw [fold] at h
      split at h
      · rename_i hx
        cases h
        exact ⟨⟨[], (List.append_nil _).symm⟩, id, fun y hy => List.mem_singleton.mp hy ▸ hx, fun y hy hn => absurd hy hn,
          fun y hy hn => absurd hy hn⟩
      · rename_i hx
        rw [Option.map_eq_some_iff] at h
        obtain ⟨⟨bs, log'⟩, hall, heq⟩ := h
        cases heq
        have hrest := all_entered (fun x seen b log h => ih h) hall
        have hxlog : x ∈ log' := hrest.mono (List.mem_append_right _ List.mem_cons_self)
        refine ⟨?_, ?_, fun y hy => List.mem_singleton.mp hy ▸ hxlog, ?_, ?_⟩
        · obtain ⟨new, rfl⟩ := hrest.grown
          exact ⟨x :: new, by rw [List.append_assoc, List.singleton_append]⟩
        · intro hnodup
          refine hrest.nodup (List.nodup_append.mpr ⟨hnodup, List.nodup_cons.mpr ⟨List.not_mem_nil, List.nodup_nil⟩, ?_⟩)
          rintro y hy z hz rfl
          exact hx (List.mem_singleton.mp hz ▸ hy)
        · intro y hy hn z hz
          by_cases hyx : y = x
          · subst hyx
            exact hrest.enters z (mem_targets.mpr hz)
          · exact hrest.closed y hy (by simp [hn, hyx]) z hz
        · intro y hy hn
          refine ⟨x, List.mem_cons_self, ?_⟩
          by_cases hyx : y = x
          · rw [hyx]
          · obtain ⟨r, hr, hway⟩ := hrest.reached y hy (by simp [hn, hyx])
            exact .head (mem_targets.mp hr) hway

/-- From a node alone, the nodes entered are those that are reached, each entered once. -/
theorem all_reached {bs : List β} (h : all (fold next make again fuel) (next x) [x] = some (bs, log)) :
    log.Nodup ∧ ∀ y, y ∈ log ↔ Relation.ReflTransGen (Step next) x y := by
  have hentered := all_entered (fun x seen b log h => fold_entered h) h
  have hx : x ∈ log := hentered.mono List.mem_cons_self
  refine ⟨hentered.nodup (List.nodup_singleton x), fun y => ⟨fun hy => ?_, fun hway => ?_⟩⟩
  · by_cases hyx : y = x
    · rw [hyx]
    · obtain ⟨r, hr, hway⟩ := hentered.reached y hy (by simp [hyx])
      exact .head (mem_targets.mp hr) hway
  · induction hway with
    | refl => exact hx
    | @tail y z _ hstep ih =>
        by_cases hyx : y = x
        · subst hyx
          exact hentered.enters z (mem_targets.mpr hstep)
        · exact hentered.closed y ih (by simp [hyx]) z hstep

/-! ## The walk ends -/

/-- The nodes still to be entered. -/
def left (nodes seen : List α) : List α := nodes.filter (· ∉ seen)

theorem left_append (new : List α) : (left nodes (seen ++ new)).length ≤ (left nodes seen).length := by
  unfold left
  refine (List.monotone_filter_right nodes fun y hy => ?_).length_le
  simp only [List.mem_append, not_or, Bool.decide_and, Bool.and_eq_true, decide_eq_true_eq] at hy ⊢
  exact hy.1

theorem left_enter (hx : x ∈ nodes) (hn : x ∉ seen) : (left nodes (seen ++ [x])).length < (left nodes seen).length := by
  have hsub : (left nodes (seen ++ [x])).Sublist (left nodes seen) := by
    refine List.monotone_filter_right nodes fun y hy => ?_
    simp only [List.mem_append, not_or, Bool.decide_and, Bool.and_eq_true, decide_eq_true_eq] at hy ⊢
    exact hy.1
  rcases Nat.lt_or_ge (left nodes (seen ++ [x])).length (left nodes seen).length with h | h
  · exact h
  · have heq := hsub.eq_of_length_le h
    have hmem : x ∈ left nodes seen := by simp [left, hx, hn]
    rw [← heq] at hmem
    simp [left] at hmem

theorem all_ends {f : α → List α → Option (β × List α)} {bound : ℕ}
    (hf : ∀ x seen, x ∈ nodes → (left nodes seen).length < bound → ∃ r, f x seen = some r)
    (hgrown : ∀ x seen b log, f x seen = some (b, log) → ∃ new, log = seen ++ new)
    (hes : ∀ y, .inl y ∈ es → y ∈ nodes) (hleft : (left nodes seen).length < bound) : ∃ r, all f es seen = some r := by
  induction es generalizing seen with
  | nil => exact ⟨_, rfl⟩
  | cons e es ih =>
      have hrest := fun y hy => hes y (List.mem_cons_of_mem e hy)
      cases e with
      | inr b =>
          obtain ⟨r, hr⟩ := ih hrest hleft
          exact ⟨_, by rw [all, hr]; rfl⟩
      | inl x =>
          obtain ⟨⟨b, mid⟩, hx⟩ := hf x seen (hes x List.mem_cons_self) hleft
          obtain ⟨new, rfl⟩ := hgrown x seen b mid hx
          obtain ⟨r, hr⟩ := ih hrest (Nat.lt_of_le_of_lt (left_append new) hleft)
          exact ⟨_, by rw [all, hx, Option.bind_some, hr]; rfl⟩

theorem fold_ends (hclosed : ∀ x ∈ nodes, ∀ y, Step next x y → y ∈ nodes) (hx : x ∈ nodes)
    (hfuel : (left nodes seen).length < fuel) : ∃ r, fold next make again fuel x seen = some r := by
  induction fuel generalizing x seen with
  | zero => omega
  | succ fuel ih =>
      rw [fold]
      split
      · exact ⟨_, rfl⟩
      · rename_i hn
        have hless := left_enter hx hn
        obtain ⟨r, hr⟩ := all_ends (fun x seen hx hless => ih hx hless)
          (fun x seen b log h => (fold_entered h).grown) (hclosed x hx) (Nat.lt_of_lt_of_le hless (Nat.le_of_lt_succ hfuel))
        exact ⟨_, by rw [hr]; rfl⟩

/-- With fuel for every node, the walk ends. -/
theorem ends (hclosed : ∀ x ∈ nodes, ∀ y, Step next x y → y ∈ nodes) (hx : x ∈ nodes) (hfuel : nodes.length ≤ fuel) :
    ∃ r, all (fold next make again fuel) (next x) [x] = some r := by
  have hless : (left nodes [x]).length < fuel := by
    have hall : (left nodes []).length ≤ nodes.length := List.length_filter_le _ _
    exact Nat.lt_of_lt_of_le (Nat.lt_of_lt_of_le (left_enter hx List.not_mem_nil) hall) hfuel
  exact all_ends (fun y seen hy hless => fold_ends hclosed hy hless) (fun x seen b log h => (fold_entered h).grown)
    (hclosed x hx) hless

/-! ## Two walks of one graph -/

/-- What two walks of one graph came to after some nodes: the same nodes entered, alike results, and the same result if
and only if nothing differs on a node entered. -/
structure Level (Alike : β → β → Prop) (Agree : α → Prop) (seen : List α) (r r' : β × List α) : Prop where
  log : r.2 = r'.2
  alike : Alike r.1 r'.1
  eq_iff : r.1 = r'.1 ↔ ∀ y ∈ r.2, y ∉ seen → Agree y

variable {Alike : β → β → Prop} {Agree Same : α → Prop}

theorem all_level {f f' : α → List α → Option (β × List α)} {es es' : List (α ⊕ β)} {bs bs' : List β} {log' : List α}
    (hf : ∀ x seen r r', f x seen = some r → f' x seen = some r' → Level Alike Agree seen r r')
    (hentered : ∀ x seen b log, f x seen = some (b, log) → Entered next [x] seen log)
    (hes : List.Forall₂ (Sum.LiftRel Eq Alike) es es')
    (h : all f es seen = some (bs, log)) (h' : all f' es' seen = some (bs', log')) :
    log = log' ∧ List.Forall₂ Alike bs bs' ∧ (bs = bs' ↔ es = es' ∧ ∀ y ∈ log, y ∉ seen → Agree y) := by
  induction hes generalizing seen bs bs' log log' with
  | nil =>
      cases h
      cases h'
      exact ⟨rfl, .nil, ⟨fun _ => ⟨rfl, fun y hy hn => absurd hy hn⟩, fun _ => rfl⟩⟩
  | cons hedge _ ih =>
      cases hedge with
      | inr hb =>
          rw [all, Option.map_eq_some_iff] at h h'
          obtain ⟨⟨cs, mid⟩, hrest, heq⟩ := h
          obtain ⟨⟨cs', mid'⟩, hrest', heq'⟩ := h'
          cases heq
          cases heq'
          obtain ⟨hlog, halike, hiff⟩ := ih hrest hrest'
          refine ⟨hlog, .cons hb halike, ?_⟩
          rw [List.cons.injEq, List.cons.injEq, hiff, Sum.inr.injEq, and_assoc]
      | @inl x _ hx =>
          subst hx
          rw [all, Option.bind_eq_some_iff] at h h'
          obtain ⟨⟨b, mid⟩, hx, h⟩ := h
          obtain ⟨⟨b', mid'⟩, hx', h'⟩ := h'
          rw [Option.map_eq_some_iff] at h h'
          obtain ⟨⟨cs, rest⟩, hrest, heq⟩ := h
          obtain ⟨⟨cs', rest'⟩, hrest', heq'⟩ := h'
          cases heq
          cases heq'
          have hlevel := hf x seen _ _ hx hx'
          obtain rfl : mid = mid' := hlevel.log
          obtain ⟨hlog, halike, hiff⟩ := ih hrest hrest'
          have hfirst := hentered x seen b mid hx
          have hlast := all_entered hentered hrest
          refine ⟨hlog, .cons hlevel.alike halike, ?_⟩
          rw [List.cons.injEq, List.cons.injEq, hiff, hlevel.eq_iff]
          refine ⟨fun ⟨hone, hes, hother⟩ => ⟨⟨rfl, hes⟩, fun y hy hn => ?_⟩, fun ⟨⟨_, hes⟩, hall⟩ =>
            ⟨fun y hy => hall y (hlast.mono hy), hes, fun y hy hn => hall y hy fun h => hn (hfirst.mono h)⟩⟩
          by_cases hmid : y ∈ mid
          · exact hone y hmid hn
          · exact hother y hy hmid

theorem fold_level (hedges : ∀ x, List.Forall₂ (Sum.LiftRel Eq Alike) (next x) (next' x)) (hagain : Alike again again)
    (hmake : ∀ x bs bs', List.Forall₂ Alike bs bs' →
      Alike (make x bs) (make' x bs') ∧ (make x bs = make' x bs' ↔ bs = bs' ∧ Same x))
    {r r' : β × List α} (h : fold next make again fuel x seen = some r) (h' : fold next' make' again fuel x seen = some r') :
    Level Alike (fun y => next y = next' y ∧ Same y) seen r r' := by
  induction fuel generalizing x seen r r' with
  | zero => cases h
  | succ fuel ih =>
      rw [fold] at h h'
      by_cases hx : x ∈ seen
      · rw [if_pos hx] at h h'
        cases h
        cases h'
        exact ⟨rfl, hagain, by simp +contextual⟩
      · rw [if_neg hx, Option.map_eq_some_iff] at h h'
        obtain ⟨⟨bs, log⟩, hall, heq⟩ := h
        obtain ⟨⟨bs', log'⟩, hall', heq'⟩ := h'
        cases heq
        cases heq'
        have hentered := all_entered (fun x seen b log h => fold_entered h) hall
        obtain ⟨hlog, halike, hiff⟩ := all_level (fun x seen r r' => ih) (fun x seen b log h => fold_entered h) (hedges x)
          hall hall'
        refine ⟨hlog, (hmake x bs bs' halike).1, ?_⟩
        rw [(hmake x bs bs' halike).2, hiff]
        have hxlog : x ∈ log := hentered.mono (List.mem_append_right _ List.mem_cons_self)
        refine ⟨fun ⟨⟨hnext, hrest⟩, hsame⟩ y hy hn => ?_, fun hall => ⟨⟨(hall x hxlog hx).1, fun y hy hn => ?_⟩,
          (hall x hxlog hx).2⟩⟩
        · by_cases hyx : y = x
          · exact hyx ▸ ⟨hnext, hsame⟩
          · exact hrest y hy (by simp [hn, hyx])
        · exact hall y hy fun h => hn (List.mem_append_left _ h)

/-- Two walks from one node enter the same nodes, and come to the same edges' results if and only if nothing differs on a
node entered after it. -/
theorem all_eq_iff (hedges : ∀ x, List.Forall₂ (Sum.LiftRel Eq Alike) (next x) (next' x)) (hagain : Alike again again)
    (hmake : ∀ x bs bs', List.Forall₂ Alike bs bs' →
      Alike (make x bs) (make' x bs') ∧ (make x bs = make' x bs' ↔ bs = bs' ∧ Same x))
    {bs bs' : List β} {log' : List α} (h : all (fold next make again fuel) (next x) [x] = some (bs, log))
    (h' : all (fold next' make' again fuel) (next' x) [x] = some (bs', log')) :
    log = log' ∧ List.Forall₂ Alike bs bs' ∧
      (bs = bs' ↔ next x = next' x ∧ ∀ y ∈ log, y ≠ x → next y = next' y ∧ Same y) := by
  obtain ⟨hlog, halike, hiff⟩ := all_level (fun x seen r r' => fold_level hedges hagain hmake)
    (fun x seen b log h => fold_entered h) (hedges x) h h'
  exact ⟨hlog, halike, by simpa only [List.mem_singleton] using hiff⟩

end Visit
