import Cash.Deep.Copy
import Mathlib.Data.List.Induction

/-!
# What `deep_copy` keeps

The objects there were before are never changed. What the memo holds for one of them stays, and is its copy, all of it, or one
that a generator on the stack still fills (`Kept`); and each generator waits for the copy of what the one above it copies
(`Inv`).
-/

namespace Cash.Deep

open Flat (Reduce Result inTurn)

variable {ρ σ δ ε : Type}

/-- The dict that pairs make that are put into it one by one. -/
def keyed (same : Nat → Nat → Bool) (pairs : List (Nat × Nat)) : List (Nat × Nat) :=
  pairs.foldl (fun d p => put same p.1 p.2 d) []

theorem keyed_append (same : Nat → Nat → Bool) (pairs : List (Nat × Nat)) (key value : Nat) :
    keyed same (pairs ++ [(key, value)]) = put same key value (keyed same pairs) := by
  rw [keyed, List.foldl_append]
  rfl

namespace Obj

def pairs : Obj ρ σ δ ε → List (Nat × Nat)
  | .dict pairs => pairs
  | .reduced r => r.pairs.getD []
  | _ => []

def state : Obj ρ σ δ ε → Option Nat
  | .reduced r => r.state
  | _ => none

/-- The objects that an object holds. -/
def kids : Obj ρ σ δ ε → List Nat
  | .list items | .tuple items => items
  | .dict pairs => inTurn pairs
  | .reduced r => r.args :: (r.items.getD [] ++ (inTurn (r.pairs.getD []) ++ r.state.toList))
  | _ => []

/-- Its copy is made first and filled then. -/
def Filled : Obj ρ σ δ ε → Prop
  | .list _ | .dict _ | .reduced _ => True
  | _ => False

/-- It has a copy of its own. -/
def HasCopy : Obj ρ σ δ ε → Prop
  | .list _ | .dict _ | .reduced _ | .tuple _ | .apart _ => True
  | _ => False

/-- The copy `c` of an object `x`, of the copies of what it holds. -/
def mapped (code : Code ρ σ δ ε) (heap : Nat → Obj ρ σ δ ε) (x c : Nat) (f : Nat → Nat) : Obj ρ σ δ ε → Obj ρ σ δ ε
  | .apart data =>
      match code.own x data with
      | .made data => .apart data
      | .found found => heap found
      | .raised _ => .apart data
  | .list items => .list (items.map f)
  | .dict pairs => .dict (keyed (code.same c) (pairs.map (Prod.map f f)))
  | .tuple items => .tuple (items.map f)
  | .reduced r =>
      match code.rebuild r (f r.args) with
      | .found found => heap found
      | _ => .reduced { r with
          args := f r.args, items := r.items.map (List.map f), pairs := r.pairs.map (List.map (Prod.map f f)),
          state := r.state.map f }
  | o => o

/-- The copy of an object that is filled, so far. -/
def partly (same : Nat → Nat → Bool) (args : Nat) (items : List Nat) (pairs : List (Nat × Nat)) (state : Option Nat) :
    Obj ρ σ δ ε → Obj ρ σ δ ε
  | .list _ => .list items
  | .dict _ => .dict (keyed same pairs)
  | .reduced r => .reduced { r with
      args := args, items := r.items.map fun _ => items, pairs := r.pairs.map fun _ => pairs, state := state }
  | o => o

/-- The arguments of a reduce. -/
def args : Obj ρ σ δ ε → Nat
  | .reduced r => r.args
  | _ => 0

variable {o : Obj ρ σ δ ε} {code : Code ρ σ δ ε} {heap : Nat → Obj ρ σ δ ε} {same : Nat → Nat → Bool} {f g : Nat → Nat}
  {obj copied args : Nat} {items : List Nat} {pairs : List (Nat × Nat)} {state : Option Nat}

theorem Filled.hasCopy (h : o.Filled) : o.HasCopy := by
  cases o with
  | list _ => trivial
  | dict _ => trivial
  | reduced _ => trivial
  | shared => exact h.elim
  | apart _ => exact h.elim
  | tuple _ => exact h.elim
  | named => exact h.elim
  | unreduced _ => exact h.elim

/-- Filled with the copies of all it holds, it is the copy of an object that is not rebuilt as one that was there. -/
theorem partly_all (h : o.Filled) (hmade : ∀ r, o = .reduced r → ∀ y, code.rebuild r (f r.args) ≠ .found y) :
    o.partly (code.same copied) (f o.args) (o.items.map f) (o.pairs.map (Prod.map f f)) (o.state.map f) =
      o.mapped code heap obj copied f := by
  cases o with
  | list _ => rfl
  | dict _ => rfl
  | reduced r =>
      have hr := hmade r rfl
      rw [mapped]
      split
      · rename_i y hy
        exact absurd hy (hr y)
      · cases r with
        | mk rebuild args items pairs state setter => cases items <;> cases pairs <;> rfl
  | shared => exact h.elim
  | apart _ => exact h.elim
  | tuple _ => exact h.elim
  | named => exact h.elim
  | unreduced _ => exact h.elim

theorem partly_congr {args' : Nat} (h : ∀ r, o = .reduced r → args' = args) :
    o.partly same args' items pairs state = o.partly same args items pairs state := by
  cases o with
  | reduced r => rw [h r rfl]
  | _ => rfl

theorem append_partly (item : Nat) :
    (o.partly same args items pairs state).append item = o.partly same args (items ++ [item]) pairs state := by
  cases o with
  | reduced r =>
      cases r with
      | mk rebuild args items pairs state setter => cases items <;> rfl
  | _ => rfl

theorem setitem_partly (key value : Nat) :
    (o.partly same args items pairs state).setitem same key value = o.partly same args items (pairs ++ [(key, value)]) state := by
  cases o with
  | dict _ => exact congrArg _ (keyed_append same pairs key value).symm
  | reduced r =>
      cases r with
      | mk rebuild args items pairs state setter => cases pairs <;> rfl
  | _ => rfl

theorem setState_partly (s : Nat) :
    (o.partly same args items pairs state).setState s = o.partly same args items pairs (some s) := by
  cases o <;> rfl

theorem mem_kids_item {x : Nat} (h : x ∈ o.items) : x ∈ o.kids := by
  cases o with
  | list _ => exact h
  | tuple _ => exact h
  | reduced r => exact List.mem_cons_of_mem _ (List.mem_append_left _ h)
  | _ => cases h

theorem mem_kids_pair {x : Nat} (h : x ∈ inTurn o.pairs) : x ∈ o.kids := by
  cases o with
  | dict _ => exact h
  | reduced r => exact List.mem_cons_of_mem _ (List.mem_append_right _ (List.mem_append_left _ h))
  | _ => cases h

theorem mem_kids_state {x : Nat} (h : o.state = some x) : x ∈ o.kids := by
  cases o with
  | reduced r =>
      exact List.mem_cons_of_mem _ (List.mem_append_right _ (List.mem_append_right _ (Option.mem_toList.2 h)))
  | _ => cases h

/-- What an object holds is among its arguments, its items, its pairs, or its state. -/
theorem mem_kids {x : Nat} (h : x ∈ o.kids) :
    (∃ r, o = .reduced r ∧ x = r.args) ∨ x ∈ o.items ∨ x ∈ inTurn o.pairs ∨ o.state = some x := by
  cases o with
  | list _ => exact .inr (.inl h)
  | tuple _ => exact .inr (.inl h)
  | dict _ => exact .inr (.inr (.inl h))
  | reduced r =>
      rcases List.mem_cons.1 h with rfl | h
      · exact .inl ⟨r, rfl, rfl⟩
      · rcases List.mem_append.1 h with h | h
        · exact .inr (.inl h)
        · rcases List.mem_append.1 h with h | h
          · exact .inr (.inr (.inl h))
          · exact .inr (.inr (.inr (Option.mem_toList.1 h)))
  | _ => cases h

theorem mem_inTurn {x : Nat} : x ∈ inTurn pairs ↔ ∃ p ∈ pairs, x = p.1 ∨ x = p.2 := by
  simp [inTurn, List.mem_flatMap]

theorem map_pairs_congr (h : ∀ x ∈ inTurn pairs, f x = g x) : pairs.map (Prod.map f f) = pairs.map (Prod.map g g) :=
  List.map_congr_left fun p hp => Prod.ext (h p.1 (mem_inTurn.2 ⟨p, hp, .inl rfl⟩)) (h p.2 (mem_inTurn.2 ⟨p, hp, .inr rfl⟩))

theorem mapped_congr (h : ∀ x ∈ o.kids, f x = g x) : o.mapped code heap obj copied f = o.mapped code heap obj copied g := by
  cases o with
  | list items => exact congrArg _ (List.map_congr_left h)
  | tuple items => exact congrArg _ (List.map_congr_left h)
  | dict pairs => exact congrArg (fun pairs => Obj.dict (keyed (code.same copied) pairs)) (map_pairs_congr h)
  | reduced r =>
      have hargs := h r.args List.mem_cons_self
      have hitems : r.items.map (List.map f) = r.items.map (List.map g) := Option.map_congr fun xs hxs =>
        List.map_congr_left fun x hx => h x (mem_kids_item (by rw [items, hxs]; exact hx))
      have hpairs : r.pairs.map (List.map (Prod.map f f)) = r.pairs.map (List.map (Prod.map g g)) :=
        Option.map_congr fun xs hxs => map_pairs_congr fun x hx => h x (mem_kids_pair (by rw [Obj.pairs, hxs]; exact hx))
      have hstate : r.state.map f = r.state.map g := Option.map_congr fun x hx => h x (mem_kids_state hx)
      rw [mapped, mapped, hargs, hitems, hpairs, hstate]
  | _ => rfl

end Obj

/-! ## What stands for an object -/

/-- What a copy begins with. -/
structure Start (ρ σ δ ε : Type) where
  code : Code ρ σ δ ε
  heap : Nat → Obj ρ σ δ ε
  next : Nat
  memo : Nat → Option Nat
  value : Nat

/-- What is held was made, and so was what the memo holds, and what a call hands back that was there. Nothing is put into an
object that is rebuilt as one that was there. -/
structure Start.Closed (s : Start ρ σ δ ε) : Prop where
  kids : ∀ x < s.next, ∀ y ∈ (s.heap x).kids, y < s.next
  memo : ∀ x c, s.memo x = some c → c < s.next
  value : s.value < s.next
  own : ∀ x < s.next, ∀ data found, s.heap x = .apart data → s.code.own x data = .found found → found < s.next
  rebuild : ∀ x < s.next, ∀ r args found, s.heap x = .reduced r → s.code.rebuild r args = .found found →
    found < s.next ∧ r.items.getD [] = [] ∧ r.pairs.getD [] = [] ∧ r.state = none

/-- An object that was there stands for another, or for itself. -/
inductive Stands (s : Start ρ σ δ ε) (x : Nat) : Nat → Prop
  | tuple (items : List Nat) (h : s.heap x = .tuple items) : Stands s x x
  | own (data : δ) (found : Nat) (h : s.heap x = .apart data) (hfound : s.code.own x data = .found found) : Stands s x found
  | rebuilt (r : Reduce ρ σ) (args found : Nat) (h : s.heap x = .reduced r) (hfound : s.code.rebuild r args = .found found) :
      Stands s x found

/-- What stands for an object in the copy. -/
def copyOf (heap : Nat → Obj ρ σ δ ε) (memo : Nat → Option Nat) (x : Nat) : Option Nat :=
  match heap x with
  | .shared => some x
  | .named => some ((memo x).getD x)
  | _ => memo x

def image (heap : Nat → Obj ρ σ δ ε) (memo : Nat → Option Nat) (x : Nat) : Nat := (copyOf heap memo x).getD x

section

variable {s : Start ρ σ δ ε} {heap : Nat → Obj ρ σ δ ε} {memo memo' : Nat → Option Nat} {t t' : Store ρ σ δ ε}
  {x y c obj copied : Nat}

theorem copyOf_of_hasCopy (h : (heap x).HasCopy) : copyOf heap memo x = memo x := by
  unfold copyOf
  split
  · rename_i hx
    rw [hx] at h
    exact h.elim
  · rename_i hx
    rw [hx] at h
    exact h.elim
  · rfl

theorem image_of_copyOf (h : copyOf heap memo x = some c) : image heap memo x = c := by rw [image, h, Option.getD_some]

/-- What stands for an object still does. -/
def Grows (heap : Nat → Obj ρ σ δ ε) (memo memo' : Nat → Option Nat) : Prop :=
  ∀ x c, copyOf heap memo x = some c → copyOf heap memo' x = some c

theorem Grows.image_eq (h : Grows heap memo memo') (hx : ∃ c, copyOf heap memo x = some c) :
    image heap memo' x = image heap memo x := by
  obtain ⟨c, hc⟩ := hx
  rw [image_of_copyOf hc, image_of_copyOf (h x c hc)]

theorem grows_update (hnone : memo x = none) (hcopy : (heap x).HasCopy) : Grows heap memo (Function.update memo x (some c)) := by
  intro y d hd
  by_cases hy : y = x
  · subst hy
    rw [copyOf_of_hasCopy hcopy, hnone] at hd
    cases hd
  · have hsame : copyOf heap (Function.update memo x (some c)) y = copyOf heap memo y := by
      unfold copyOf
      rw [Function.update_of_ne hy]
    rw [hsame, hd]

theorem update_eq_some (h : Function.update memo x (some c) y = some copied) : y = x ∧ copied = c ∨ memo y = some copied := by
  by_cases hyx : y = x
  · subst hyx
    rw [Function.update_self] at h
    exact .inl ⟨rfl, (Option.some.inj h).symm⟩
  · rw [Function.update_of_ne hyx] at h
    exact .inr h

theorem update_of_some (hnone : memo x = none) (hy : memo y = some copied) :
    Function.update memo x (some c) y = some copied := by
  have hyx : y ≠ x := by
    rintro rfl
    rw [hnone] at hy
    cases hy
  rw [Function.update_of_ne hyx, hy]

/-- The copy of an object is all there. -/
structure Done (s : Start ρ σ δ ε) (t : Store ρ σ δ ε) (x c : Nat) : Prop where
  cell : t.heap c = (s.heap x).mapped s.code s.heap x c (image s.heap t.memo)
  kids : ∀ y ∈ (s.heap x).kids, ∃ d, copyOf s.heap t.memo y = some d

theorem Done.grows (h : Done s t x c) (hgrows : Grows s.heap t.memo t'.memo) (hheap : t'.heap c = t.heap c) : Done s t' x c where
  cell := by rw [hheap, h.cell, Obj.mapped_congr fun y hy => hgrows.image_eq (h.kids y hy)]
  kids y hy := by
    obtain ⟨d, hd⟩ := h.kids y hy
    exact ⟨d, hgrows y d hd⟩

/-- What an entry of the memo is for, and what it holds. -/
structure Entry (s : Start ρ σ δ ε) (t : Store ρ σ δ ε) (x c : Nat) : Prop where
  lt : x < s.next
  hasCopy : (s.heap x).HasCopy
  bound : c < t.next
  fresh : s.next ≤ c ∨ Stands s x c

/-- What the copy keeps of the objects and the memo, while the copies of some objects are filled. -/
structure Kept (s : Start ρ σ δ ε) (t : Store ρ σ δ ε) (opened : List Nat) : Prop where
  old : ∀ x < s.next, t.heap x = s.heap x
  next : s.next ≤ t.next
  given : ∀ x c, s.memo x = some c → t.memo x = some c
  entry : ∀ x c, t.memo x = some c → s.memo x = none → Entry s t x c ∧ (x ∈ opened ∨ Done s t x c)
  once : ∀ x y c, t.memo x = some c → t.memo y = some c → s.next ≤ c → x = y

variable {opened : List Nat}

/-- What the memo holds was made. -/
theorem Kept.bound (h : Kept s t opened) (hs : s.Closed) (hx : t.memo x = some c) : c < t.next := by
  cases hgiven : s.memo x with
  | none => exact (h.entry x c hx hgiven).1.bound
  | some d =>
      have hd := h.given x d hgiven
      rw [hx] at hd
      cases hd
      exact Nat.lt_of_lt_of_le (hs.memo x c hgiven) h.next

theorem Kept.new (h : Kept s t opened) (hs : s.Closed) (hnone : t.memo x = none) (hlt : x < s.next)
    (hcopy : (s.heap x).HasCopy) (o : Obj ρ σ δ ε) : Kept s (t.new x o) (x :: opened) := by
  have hgrows : Grows s.heap t.memo (t.new x o).memo := grows_update hnone hcopy
  refine ⟨fun y hy => ?_, Nat.le_succ_of_le h.next, fun y d hy => ?_, fun y d hy hgiven => ?_, fun y z d hy hz hd => ?_⟩
  · rw [← h.old y hy]
    exact Function.update_of_ne (Nat.ne_of_lt (Nat.lt_of_lt_of_le hy h.next)) _ _
  · exact update_of_some hnone (h.given y d hy)
  · rcases update_eq_some hy with ⟨rfl, rfl⟩ | hy
    · exact ⟨⟨hlt, hcopy, Nat.lt_succ_self _, .inl h.next⟩, .inl List.mem_cons_self⟩
    · obtain ⟨hentry, hdone⟩ := h.entry y d hy hgiven
      refine ⟨⟨hentry.lt, hentry.hasCopy, Nat.lt_succ_of_lt hentry.bound, hentry.fresh⟩, ?_⟩
      exact hdone.imp (List.mem_cons_of_mem _) fun hdone =>
        hdone.grows hgrows (Function.update_of_ne (Nat.ne_of_lt hentry.bound) _ _)
  · rcases update_eq_some hy with ⟨rfl, rfl⟩ | hy'
    · rcases update_eq_some hz with ⟨rfl, -⟩ | hz'
      · rfl
      · exact absurd (h.bound hs hz') (Nat.lt_irrefl _)
    · rcases update_eq_some hz with ⟨rfl, rfl⟩ | hz'
      · exact absurd (h.bound hs hy') (Nat.lt_irrefl _)
      · exact h.once y z d hy' hz' hd

theorem Kept.close (h : Kept s t (x :: opened)) (hdone : ∀ c, t.memo x = some c → Done s t x c) : Kept s t opened where
  old := h.old
  next := h.next
  given := h.given
  once := h.once
  entry y c hy hgiven := by
    obtain ⟨hentry, hopen⟩ := h.entry y c hy hgiven
    refine ⟨hentry, ?_⟩
    rcases hopen with hopen | hopen
    · rcases List.mem_cons.1 hopen with rfl | hopen
      · exact .inr (hdone c hy)
      · exact .inl hopen
    · exact .inr hopen

theorem Kept.change (h : Kept s t opened) (hmemo : t.memo x = some c) (hfresh : s.next ≤ c) (hopen : x ∈ opened)
    (f : Obj ρ σ δ ε → Obj ρ σ δ ε) : Kept s (t.change c f) opened where
  old y hy := by
    rw [← h.old y hy]
    exact Function.update_of_ne (Nat.ne_of_lt (Nat.lt_of_lt_of_le hy hfresh)) _ _
  next := h.next
  given := h.given
  once := h.once
  entry y d hy hgiven := by
    obtain ⟨hentry, hdone⟩ := h.entry y d hy hgiven
    refine ⟨⟨hentry.lt, hentry.hasCopy, hentry.bound, hentry.fresh⟩, ?_⟩
    by_cases hd : d = c
    · subst hd
      rw [h.once y x d hy hmemo hfresh]
      exact .inl hopen
    · exact hdone.imp_right fun hdone => hdone.grows (fun _ _ hc => hc) (Function.update_of_ne hd _ _)

theorem Stands.lt {found : Nat} (hs : s.Closed) (hlt : x < s.next) (h : Stands s x found) : found < s.next := by
  cases h with
  | tuple => exact hlt
  | own data found h hfound => exact hs.own x hlt data found h hfound
  | rebuilt r args found h hfound => exact (hs.rebuild x hlt r args found h hfound).1

theorem Stands.hasCopy {found : Nat} (h : Stands s x found) : (s.heap x).HasCopy := by
  cases h with
  | tuple items h => exact h ▸ trivial
  | own data found h => exact h ▸ trivial
  | rebuilt r args found h => exact h ▸ trivial

/-- An object that was there stands for an object. -/
theorem Kept.keep {found : Nat} (h : Kept s t opened) (hs : s.Closed) (hnone : t.memo x = none) (hlt : x < s.next)
    (hstands : Stands s x found) (hdone : Done s (t.keep x found) x found) : Kept s (t.keep x found) opened := by
  have hgrows : Grows s.heap t.memo (t.keep x found).memo := grows_update hnone hstands.hasCopy
  have hfound := hstands.lt hs hlt
  refine ⟨h.old, h.next, fun y d hy => ?_, fun y d hy hgiven => ?_, fun y z d hy hz hd => ?_⟩
  · exact update_of_some hnone (h.given y d hy)
  · rcases update_eq_some hy with ⟨rfl, rfl⟩ | hy
    · exact ⟨⟨hlt, hstands.hasCopy, Nat.lt_of_lt_of_le hfound h.next, .inr hstands⟩, .inr hdone⟩
    · obtain ⟨hentry, hdone⟩ := h.entry y d hy hgiven
      exact ⟨⟨hentry.lt, hentry.hasCopy, hentry.bound, hentry.fresh⟩, hdone.imp_right fun hdone => hdone.grows hgrows rfl⟩
  · rcases update_eq_some hy with ⟨rfl, rfl⟩ | hy
    · exact absurd hfound (Nat.not_lt.2 hd)
    · rcases update_eq_some hz with ⟨rfl, rfl⟩ | hz
      · exact absurd hfound (Nat.not_lt.2 hd)
      · exact h.once y z d hy hz hd

/-- A tuple that holds nothing that is copied is its own copy. -/
theorem Kept.done_tuple (h : Kept s t opened) {items : List Nat} (hnone : t.memo x = none) (hlt : x < s.next)
    (htuple : s.heap x = .tuple items) (hitems : ∀ y ∈ items, copyOf s.heap t.memo y = some y) : Done s (t.keep x x) x x where
  cell := by
    have hgrows : Grows s.heap t.memo (t.keep x x).memo := grows_update hnone (htuple ▸ trivial)
    have hmap : items.map (image s.heap (t.keep x x).memo) = items := by
      rw [List.map_congr_left fun z hz => image_of_copyOf (hgrows z z (hitems z hz)), List.map_id']
    change t.heap x = _
    rw [h.old x hlt, htuple, Obj.mapped, hmap]
  kids z hz := by
    rw [htuple] at hz
    exact ⟨z, grows_update hnone (htuple ▸ trivial) z z (hitems z hz)⟩

/-! ## Copies that are filled -/

/-- The copy of an object has what was put in it so far, and these are still to come. -/
structure Filling (s : Start ρ σ δ ε) (t : Store ρ σ δ ε) (obj copied : Nat) (items : List Nat) (pairs : List (Nat × Nat))
    (state : Option Nat) : Prop where
  memo : t.memo obj = some copied
  fresh : s.next ≤ copied
  lt : obj < s.next
  filled : (s.heap obj).Filled
  state_eq : (s.heap obj).state = state
  args : ∀ r, s.heap obj = .reduced r → ∃ c, copyOf s.heap t.memo r.args = some c
  made : ∀ r, s.heap obj = .reduced r → ∀ y, s.code.rebuild r (image s.heap t.memo r.args) ≠ .found y
  cell : ∃ done pairsDone, (s.heap obj).items = done ++ items ∧ (s.heap obj).pairs = pairsDone ++ pairs ∧
    (∀ y ∈ done ++ inTurn pairsDone, ∃ c, copyOf s.heap t.memo y = some c) ∧
    t.heap copied = (s.heap obj).partly (s.code.same copied) (image s.heap t.memo (s.heap obj).args)
      (done.map (image s.heap t.memo))
      (pairsDone.map (Prod.map (image s.heap t.memo) (image s.heap t.memo))) none

variable {items rest : List Nat} {pairs morePairs : List (Nat × Nat)} {state : Option Nat} {part k v k' v' : Nat}

theorem Filling.grows (h : Filling s t obj copied items pairs state) (hgrows : Grows s.heap t.memo t'.memo)
    (hheap : t'.heap copied = t.heap copied) : Filling s t' obj copied items pairs state where
  memo := by
    have hcopy := hgrows obj copied (by rw [copyOf_of_hasCopy h.filled.hasCopy, h.memo])
    rwa [copyOf_of_hasCopy h.filled.hasCopy] at hcopy
  fresh := h.fresh
  lt := h.lt
  filled := h.filled
  state_eq := h.state_eq
  args r hr := (h.args r hr).imp fun c hc => hgrows _ c hc
  made r hr := by
    rw [hgrows.image_eq (h.args r hr)]
    exact h.made r hr
  cell := by
    obtain ⟨done, pairsDone, hitems, hpairs, hset, hcell⟩ := h.cell
    refine ⟨done, pairsDone, hitems, hpairs, fun y hy => (hset y hy).imp fun c hc => hgrows y c hc, ?_⟩
    have hdone : done.map (image s.heap t'.memo) = done.map (image s.heap t.memo) :=
      List.map_congr_left fun y hy => hgrows.image_eq (hset y (List.mem_append_left _ hy))
    have hpairsDone : pairsDone.map (Prod.map (image s.heap t'.memo) (image s.heap t'.memo)) =
        pairsDone.map (Prod.map (image s.heap t.memo) (image s.heap t.memo)) :=
      Obj.map_pairs_congr fun y hy => hgrows.image_eq (hset y (List.mem_append_right _ hy))
    rw [hheap, hcell, hdone, hpairsDone]
    exact (Obj.partly_congr fun r hr => by rw [hr]; exact hgrows.image_eq (h.args r hr)).symm

/-- A copy is made, to be filled. -/
theorem Filling.new {args : Nat} (hnone : t.memo obj = none) (hlt : obj < s.next) (hnext : s.next ≤ t.next)
    (hfilled : (s.heap obj).Filled) (hargs : ∀ r, s.heap obj = .reduced r → copyOf s.heap t.memo r.args = some args ∧
      ∀ y, s.code.rebuild r args ≠ .found y) :
    Filling s (t.new obj ((s.heap obj).partly (s.code.same t.next) args [] [] none)) obj t.next (s.heap obj).items
      (s.heap obj).pairs (s.heap obj).state where
  memo := Function.update_self ..
  fresh := hnext
  lt := hlt
  filled := hfilled
  state_eq := rfl
  args r hr := ⟨args, grows_update hnone hfilled.hasCopy _ _ (hargs r hr).1⟩
  made r hr := by
    have hsame := image_of_copyOf (grows_update (c := t.next) hnone hfilled.hasCopy _ _ (hargs r hr).1)
    change ∀ y, s.code.rebuild r (image s.heap (Function.update t.memo obj (some t.next)) r.args) ≠ .found y
    rw [hsame]
    exact (hargs r hr).2
  cell := by
    refine ⟨[], [], rfl, rfl, fun _ hy => (by cases hy), ?_⟩
    refine (Function.update_self ..).trans (Obj.partly_congr fun r hr => ?_)
    rw [hr]
    exact (image_of_copyOf (grows_update hnone hfilled.hasCopy _ _ (hargs r hr).1)).symm

theorem Filling.item (h : Filling s t obj copied (part :: rest) pairs state) (hc : copyOf s.heap t.memo part = some c) :
    Filling s (t.change copied (.append c)) obj copied rest pairs state where
  memo := h.memo
  fresh := h.fresh
  lt := h.lt
  filled := h.filled
  state_eq := h.state_eq
  args := h.args
  made := h.made
  cell := by
    obtain ⟨done, pairsDone, hitems, hpairs, hset, hcell⟩ := h.cell
    refine ⟨done ++ [part], pairsDone, by rw [hitems, List.append_assoc, List.singleton_append], hpairs, fun y hy => ?_, ?_⟩
    · rcases List.mem_append.1 hy with hy | hy
      · rcases List.mem_append.1 hy with hy | hy
        · exact hset y (List.mem_append_left _ hy)
        · rw [List.mem_singleton.1 hy]
          exact ⟨c, hc⟩
      · exact hset y (List.mem_append_right _ hy)
    · refine (Function.update_self ..).trans ?_
      rw [hcell, Obj.append_partly, List.map_append, List.map_singleton]
      exact congrArg (fun x => Obj.partly _ _ (_ ++ [x]) _ _ _) (image_of_copyOf hc).symm

theorem Filling.pair (h : Filling s t obj copied items ((k, v) :: morePairs) state) (hk : copyOf s.heap t.memo k = some k')
    (hv : copyOf s.heap t.memo v = some v') : Filling s (t.change copied (.setitem (s.code.same copied) k' v')) obj copied items morePairs state where
  memo := h.memo
  fresh := h.fresh
  lt := h.lt
  filled := h.filled
  state_eq := h.state_eq
  args := h.args
  made := h.made
  cell := by
    obtain ⟨done, pairsDone, hitems, hpairs, hset, hcell⟩ := h.cell
    refine ⟨done, pairsDone ++ [(k, v)], hitems, by rw [hpairs, List.append_assoc, List.singleton_append], fun y hy => ?_, ?_⟩
    · rcases List.mem_append.1 hy with hy | hy
      · exact hset y (List.mem_append_left _ hy)
      · obtain ⟨p, hp, hy⟩ := Obj.mem_inTurn.1 hy
        rcases List.mem_append.1 hp with hp | hp
        · exact hset y (List.mem_append_right _ (Obj.mem_inTurn.2 ⟨p, hp, hy⟩))
        · rw [List.mem_singleton.1 hp] at hy
          rcases hy with rfl | rfl
          · exact ⟨k', hk⟩
          · exact ⟨v', hv⟩
    · refine (Function.update_self ..).trans ?_
      rw [hcell, Obj.setitem_partly, List.map_append, List.map_singleton]
      refine congrArg (fun x => Obj.partly _ _ _ (_ ++ [x]) _ _) ?_
      exact Prod.ext (image_of_copyOf hk).symm (image_of_copyOf hv).symm

/-- All that an object holds has its copy. -/
theorem Filling.kids (h : Filling s t obj copied [] [] state) (hstate : ∀ y, state = some y → ∃ c, copyOf s.heap t.memo y = some c) :
    ∀ y ∈ (s.heap obj).kids, ∃ c, copyOf s.heap t.memo y = some c := by
  intro y hy
  obtain ⟨done, pairsDone, hitems, hpairs, hset, -⟩ := h.cell
  rw [List.append_nil] at hitems hpairs
  rcases Obj.mem_kids hy with ⟨r, hr, rfl⟩ | hy | hy | hy
  · exact h.args r hr
  · exact hset y (List.mem_append_left _ (hitems ▸ hy))
  · exact hset y (List.mem_append_right _ (hpairs ▸ hy))
  · exact hstate y (h.state_eq.symm.trans hy)

theorem Filling.done (h : Filling s t obj copied [] [] none) : Done s t obj copied where
  cell := by
    obtain ⟨done, pairsDone, hitems, hpairs, hset, hcell⟩ := h.cell
    rw [List.append_nil] at hitems hpairs
    rw [hcell, ← hitems, ← hpairs, ← Obj.partly_all h.filled h.made, h.state_eq]
    rfl
  kids := h.kids fun _ hy => by cases hy

theorem Filling.state_done {x : Nat} (h : Filling s t obj copied [] [] (some x)) (hc : copyOf s.heap t.memo x = some c) :
    Done s (t.change copied (.setState c)) obj copied where
  cell := by
    obtain ⟨done, pairsDone, hitems, hpairs, hset, hcell⟩ := h.cell
    rw [List.append_nil] at hitems hpairs
    refine (Function.update_self ..).trans ?_
    rw [hcell, Obj.setState_partly, ← hitems, ← hpairs]
    refine Eq.trans ?_ (Obj.partly_all h.filled h.made)
    rw [h.state_eq, Option.map_some]
    exact congrArg (fun x => Obj.partly _ _ _ _ (some x) _) (image_of_copyOf hc).symm
  kids := h.kids fun y hy => by
    cases hy
    exact ⟨c, hc⟩

end

/-! ## Generators -/

namespace Frame

def obj : Frame ρ σ → Nat
  | .item obj .. | .key obj .. | .value obj .. | .tuple obj .. | .args obj _ | .state obj .. => obj

/-- The part whose copy it waits for. -/
def part : Frame ρ σ → Nat
  | .item _ _ x .. | .key _ _ x .. | .value _ _ _ x .. | .tuple _ _ x _ | .state _ _ x => x
  | .args _ r => r.args

/-- The object whose copy it fills. -/
def filling : Frame ρ σ → Option Nat
  | .item obj .. | .key obj .. | .value obj .. | .state obj .. => some obj
  | _ => none

def copied : Frame ρ σ → Option Nat
  | .item _ copied .. | .key _ copied .. | .value _ copied .. | .state _ copied _ => some copied
  | _ => none

/-- The object whose arguments it waits for. -/
def making : Frame ρ σ → Option Nat
  | .args obj _ => some obj
  | _ => none

/-- The object, unless it is a tuple: no other generator is for it. -/
def held : Frame ρ σ → Option Nat
  | .tuple .. => none
  | F => some F.obj

/-- What a generator on the stack keeps. -/
def Ok (s : Start ρ σ δ ε) (t : Store ρ σ δ ε) (making : List Nat) : Frame ρ σ → Prop
  | .item obj copied x rest pairs more => Filling s t obj copied (x :: rest) pairs more
  | .key obj copied k v rest more => Filling s t obj copied [] ((k, v) :: rest) more
  | .value obj copied newKey v rest more =>
      ∃ k, copyOf s.heap t.memo k = some newKey ∧ Filling s t obj copied [] ((k, v) :: rest) more
  | .tuple obj items x rest => obj < s.next ∧ ∃ done, s.heap obj = .tuple (done ++ x :: rest) ∧
      (∀ y ∈ done, ∃ c, copyOf s.heap t.memo y = some c) ∧ items = done.map (image s.heap t.memo)
  | .args obj r => obj < s.next ∧ s.heap obj = .reduced r ∧ t.memo obj = none ∧ obj ∈ making
  | .state obj copied x => Filling s t obj copied [] [] (some x)

end Frame

variable {s : Start ρ σ δ ε} {t t' : Store ρ σ δ ε} {st st' : State ρ σ δ ε} {F : Frame ρ σ}
  {stack : List (Frame ρ σ)} {making making' : List Nat} {x y c obj copied : Nat}

theorem Filling.part_mem_item {rest : List Nat} {pairs : List (Nat × Nat)} {state : Option Nat} {part : Nat}
    (h : Filling s t obj copied (part :: rest) pairs state) : part ∈ (s.heap obj).kids := by
  obtain ⟨done, pairsDone, hitems, -⟩ := h.cell
  exact Obj.mem_kids_item (by rw [hitems]; simp)

theorem Filling.part_mem_pair {items : List Nat} {k v : Nat} {morePairs : List (Nat × Nat)} {state : Option Nat}
    (h : Filling s t obj copied items ((k, v) :: morePairs) state) : k ∈ (s.heap obj).kids ∧ v ∈ (s.heap obj).kids := by
  obtain ⟨done, pairsDone, -, hpairs, -⟩ := h.cell
  have hmem : (k, v) ∈ (s.heap obj).pairs := by rw [hpairs]; simp
  exact ⟨Obj.mem_kids_pair (Obj.mem_inTurn.2 ⟨_, hmem, .inl rfl⟩), Obj.mem_kids_pair (Obj.mem_inTurn.2 ⟨_, hmem, .inr rfl⟩)⟩

namespace Frame

theorem Ok.lt (h : F.Ok s t making) : F.obj < s.next := by
  cases F with
  | item => exact h.lt
  | key => exact h.lt
  | value => exact h.choose_spec.2.lt
  | tuple => exact h.1
  | args => exact h.1
  | state => exact h.lt

/-- A generator waits for what its object holds. -/
theorem Ok.part_mem (h : F.Ok s t making) : F.part ∈ (s.heap F.obj).kids := by
  cases F with
  | item obj copied item rest pairs state => exact h.part_mem_item
  | key obj copied k v rest state => exact h.part_mem_pair.1
  | value obj copied newKey v rest state => exact h.choose_spec.2.part_mem_pair.2
  | tuple obj items item rest =>
      obtain ⟨-, done, htuple, -⟩ := h
      have hmem : item ∈ (s.heap obj).items := by
        rw [htuple]
        exact List.mem_append_right _ List.mem_cons_self
      exact Obj.mem_kids_item hmem
  | args obj r =>
      obtain ⟨-, hr, -⟩ := h
      change r.args ∈ (s.heap obj).kids
      rw [hr]
      exact List.mem_cons_self
  | state obj copied state => exact Obj.mem_kids_state h.state_eq

theorem Ok.memo (h : F.Ok s t making) (hc : F.copied = some c) : F.held = some F.obj ∧ t.memo F.obj = some c ∧ s.next ≤ c := by
  cases F with
  | item => cases hc; exact ⟨rfl, h.memo, h.fresh⟩
  | key => cases hc; exact ⟨rfl, h.memo, h.fresh⟩
  | value => cases hc; exact ⟨rfl, h.choose_spec.2.memo, h.choose_spec.2.fresh⟩
  | tuple => cases hc
  | args => cases hc
  | state => cases hc; exact ⟨rfl, h.memo, h.fresh⟩

/-- A generator is told neither by what is copied elsewhere nor by what is made elsewhere. -/
theorem Ok.keep (h : F.Ok s t making) (hgrows : Grows s.heap t.memo t'.memo)
    (hheap : ∀ c, F.copied = some c → t'.heap c = t.heap c)
    (hmaking : ∀ x, F.making = some x → t.memo x = none → x ∈ making → t'.memo x = none ∧ x ∈ making') :
    F.Ok s t' making' := by
  cases F with
  | item => exact h.grows hgrows (hheap _ rfl)
  | key => exact h.grows hgrows (hheap _ rfl)
  | value =>
      obtain ⟨k, hk, hfilling⟩ := h
      exact ⟨k, hgrows _ _ hk, hfilling.grows hgrows (hheap _ rfl)⟩
  | tuple obj items item rest =>
      obtain ⟨hlt, done, htuple, hset, rfl⟩ := h
      refine ⟨hlt, done, htuple, fun y hy => (hset y hy).imp fun c hc => hgrows y c hc, ?_⟩
      exact List.map_congr_left fun y hy => (hgrows.image_eq (hset y hy)).symm
  | args obj r =>
      obtain ⟨hlt, hr, hnone, hmem⟩ := h
      exact ⟨hlt, hr, hmaking obj rfl hnone hmem⟩
  | state => exact h.grows hgrows (hheap _ rfl)

end Frame

/-- Each generator waits for the object of the one above it, and the last for the value. -/
def Awaits (value : Nat) : List (Frame ρ σ) → Nat → Prop
  | [], x => x = value
  | F :: stack, x => F.part = x ∧ Awaits value stack F.obj

/-- What the generators keep that wait for an object. -/
structure Below (s : Start ρ σ δ ε) (st : State ρ σ δ ε) (x : Nat) : Prop where
  frames : ∀ F ∈ st.stack, F.Ok s st.toStore st.making
  nodup : (st.stack.filterMap Frame.held).Nodup
  making : ∀ y ∈ st.making, ∃ r, .args y r ∈ st.stack
  awaits : Awaits s.value st.stack x

/-- What every turn of `deep_copy` keeps. -/
structure Inv (s : Start ρ σ δ ε) (st : State ρ σ δ ε) (x : Nat) : Prop where
  kept : Kept s st.toStore (st.stack.filterMap Frame.filling)
  below : Below s st x
  mode : st.mode = .start x ∧ x < s.next ∨ ∃ c, st.mode = .send c ∧ copyOf s.heap st.memo x = some c

/-- The object that is started is the one that is waited for. -/
theorem Inv.of_start (hi : Inv s st x) (hmode : st.mode = .start obj) : obj = x ∧ obj < s.next := by
  rcases hi.mode with ⟨hx, hlt⟩ | ⟨c, hc, -⟩
  · rw [hmode] at hx
    cases hx
    exact ⟨rfl, hlt⟩
  · rw [hmode] at hc
    cases hc

theorem inv_send (hkept : Kept s st.toStore (st.stack.filterMap Frame.filling)) (hbelow : Below s st x)
    (hcopy : copyOf s.heap st.memo x = some c) : Inv s (st.send c) x :=
  ⟨hkept, ⟨hbelow.frames, hbelow.nodup, hbelow.making, hbelow.awaits⟩, .inr ⟨c, rfl, hcopy⟩⟩

theorem inv_ask (hs : s.Closed) (hok : F.Ok s st.toStore st.making) (hframes : ∀ G ∈ st.stack, G.Ok s st.toStore st.making)
    (hnodup : ((F :: st.stack).filterMap Frame.held).Nodup) (hmaking : ∀ y ∈ st.making, ∃ r, .args y r ∈ F :: st.stack)
    (hawaits : Awaits s.value st.stack F.obj) (hkept : Kept s st.toStore ((F :: st.stack).filterMap Frame.filling)) :
    Inv s (st.ask F F.part) F.part where
  kept := hkept
  below := ⟨List.forall_mem_cons.2 ⟨hok, hframes⟩, hnodup, hmaking, rfl, hawaits⟩
  mode := .inl ⟨rfl, hs.kids _ hok.lt _ hok.part_mem⟩

theorem Below.new (h : Below s st x) (hkept : Kept s st.toStore (stack.filterMap Frame.filling)) (hs : s.Closed)
    (hnone : st.memo obj = none) (hcopy : (s.heap obj).HasCopy) (hmaking : ∀ F ∈ st.stack, F.making ≠ some obj)
    (o : Obj ρ σ δ ε) : Below s (st.new obj o) x where
  frames F hF := (h.frames F hF).keep (grows_update hnone hcopy)
    (fun _ hc => Function.update_of_ne (Nat.ne_of_lt (hkept.bound hs ((h.frames F hF).memo hc).2.1)) _ _)
    (fun y hy hnone' hmem => ⟨(Function.update_of_ne (fun heq : y = obj => hmaking F hF (heq ▸ hy)) _ _).trans hnone', hmem⟩)
  nodup := h.nodup
  making := h.making
  awaits := h.awaits

theorem Below.keep {found : Nat} (h : Below s st x) (hnone : st.memo obj = none) (hcopy : (s.heap obj).HasCopy)
    (hmaking : ∀ F ∈ st.stack, F.making ≠ some obj) : Below s (st.keep obj found) x where
  frames F hF := (h.frames F hF).keep (grows_update hnone hcopy) (fun _ _ => rfl)
    (fun y hy hnone' hmem => ⟨(Function.update_of_ne (fun heq : y = obj => hmaking F hF (heq ▸ hy)) _ _).trans hnone', hmem⟩)
  nodup := h.nodup
  making := h.making
  awaits := h.awaits

theorem Below.change {opened : List Nat} (h : Below s st x) (hkept : Kept s st.toStore opened)
    (hmemo : st.memo obj = some copied) (hfresh : s.next ≤ copied) (hnew : obj ∉ st.stack.filterMap Frame.held)
    (f : Obj ρ σ δ ε → Obj ρ σ δ ε) : Below s (st.change copied f) x where
  frames F hF := by
    refine (h.frames F hF).keep (fun _ _ hc => hc) (fun c hc => ?_) fun y _ hnone hmem => ⟨hnone, hmem⟩
    obtain ⟨hheld, hmemo', -⟩ := (h.frames F hF).memo hc
    refine Function.update_of_ne (fun heq => hnew ?_) _ _
    subst heq
    rw [hkept.once _ _ _ hmemo hmemo' hfresh]
    exact List.mem_filterMap.2 ⟨F, hF, hheld⟩
  nodup := h.nodup
  making := h.making
  awaits := h.awaits

/-- An object that was there is sent as the copy of an object. -/
theorem inv_keep {found : Nat} (hs : s.Closed) (hkept : Kept s st.toStore (st.stack.filterMap Frame.filling))
    (hbelow : Below s st obj) (hnone : st.memo obj = none) (hlt : obj < s.next) (hmaking : ∀ F ∈ st.stack, F.making ≠ some obj)
    (hstands : Stands s obj found) (hdone : Done s (st.toStore.keep obj found) obj found) :
    Inv s ((st.keep obj found).send found) obj := by
  refine inv_send (hkept.keep hs hnone hlt hstands hdone) (hbelow.keep hnone hstands.hasCopy hmaking) ?_
  rw [copyOf_of_hasCopy hstands.hasCopy]
  exact Function.update_self ..

theorem inv_fill (hs : s.Closed) {items : List Nat} {pairs : List (Nat × Nat)} {state : Option Nat}
    (hkept : Kept s st.toStore (obj :: st.stack.filterMap Frame.filling)) (hbelow : Below s st obj)
    (hnew : obj ∉ st.stack.filterMap Frame.held) (hf : Filling s st.toStore obj copied items pairs state) :
    ∃ x, Inv s (st.fill obj copied items pairs state) x := by
  have hnodup : (obj :: st.stack.filterMap Frame.held).Nodup := List.nodup_cons.2 ⟨hnew, hbelow.nodup⟩
  have hmaking (F : Frame ρ σ) (y : Nat) (hy : y ∈ st.making) : ∃ r, .args y r ∈ F :: st.stack :=
    (hbelow.making y hy).imp fun r hr => List.mem_cons_of_mem _ hr
  cases items with
  | cons item rest =>
      exact ⟨item, inv_ask (F := .item obj copied item rest pairs state) hs hf hbelow.frames hnodup (hmaking _) hbelow.awaits hkept⟩
  | nil =>
      cases pairs with
      | cons p rest =>
          exact ⟨p.1, inv_ask (F := .key obj copied p.1 p.2 rest state) hs hf hbelow.frames hnodup (hmaking _) hbelow.awaits hkept⟩
      | nil =>
          cases state with
          | some state =>
              exact ⟨state, inv_ask (F := .state obj copied state) hs hf hbelow.frames hnodup (hmaking _) hbelow.awaits hkept⟩
          | none =>
              refine ⟨obj, inv_send (hkept.close fun c hc => ?_) hbelow ?_⟩
              · rw [hf.memo] at hc
                cases hc
                exact hf.done
              · rw [copyOf_of_hasCopy hf.filled.hasCopy, hf.memo]

/-- No generator waits for the arguments of an object that has none. -/
theorem Below.making_ne (h : Below s st x) (hobj : ∀ r, s.heap obj ≠ .reduced r) : ∀ F ∈ st.stack, F.making ≠ some obj := by
  intro F hF heq
  cases F with
  | args obj' r =>
      cases heq
      exact hobj r (h.frames _ hF).2.1
  | _ => cases heq

theorem inv_copyTuple (hs : s.Closed) {done rest : List Nat} (hkept : Kept s st.toStore (st.stack.filterMap Frame.filling))
    (hbelow : Below s st obj) (hlt : obj < s.next) (htuple : s.heap obj = .tuple (done ++ rest))
    (hset : ∀ y ∈ done, ∃ c, copyOf s.heap st.memo y = some c) :
    ∃ x, Inv s (st.copyTuple obj (done.map (image s.heap st.memo)) rest) x := by
  cases rest with
  | cons item rest =>
      exact ⟨item, inv_ask (F := .tuple obj (done.map (image s.heap st.memo)) item rest) hs ⟨hlt, done, htuple, hset, rfl⟩
        hbelow.frames hbelow.nodup (fun y hy => (hbelow.making y hy).imp fun r hr => List.mem_cons_of_mem _ hr) hbelow.awaits
        hkept⟩
  | nil =>
      have hcopy : (s.heap obj).HasCopy := htuple ▸ trivial
      rw [List.append_nil] at htuple
      rw [State.copyTuple]
      cases hmemo : st.memo obj with
      | some copied => exact ⟨obj, inv_send hkept hbelow (by rw [copyOf_of_hasCopy hcopy, hmemo])⟩
      | none =>
          have hmaking : ∀ F ∈ st.stack, F.making ≠ some obj :=
            hbelow.making_ne fun r hr => by rw [htuple] at hr; cases hr
          dsimp only
          split
          · rename_i hsame
            rw [hkept.old obj hlt, htuple] at hsame
            have hitems (y : Nat) (hy : y ∈ done) : copyOf s.heap st.memo y = some y := by
              obtain ⟨c, hc⟩ := hset y hy
              have himage : image s.heap st.memo y = y :=
                List.map_inj_left.1 (hsame.trans (List.map_id' done).symm) y hy
              rw [image_of_copyOf hc] at himage
              rw [hc, himage]
            exact ⟨obj, inv_keep hs hkept hbelow hmemo hlt hmaking (.tuple done htuple)
              (hkept.done_tuple hmemo hlt htuple hitems)⟩
          · have hgrows : Grows s.heap st.memo (st.toStore.new obj (.tuple (done.map (image s.heap st.memo)))).memo :=
              grows_update hmemo hcopy
            have hnew := hkept.new hs hmemo hlt hcopy (.tuple (done.map (image s.heap st.memo)))
            have hstands : (st.new obj (.tuple (done.map (image s.heap st.memo)))).memo obj = some st.next :=
              Function.update_self ..
            refine ⟨obj, inv_send (hnew.close fun c hc => ?_)
              (hbelow.new hkept hs hmemo hcopy hmaking _) (by rw [copyOf_of_hasCopy hcopy, hstands])⟩
            rw [show (st.toStore.new obj _).memo obj = some st.next from hstands] at hc
            cases hc
            refine ⟨(Function.update_self ..).trans ?_, fun y hy => ?_⟩
            · rw [htuple, Obj.mapped]
              exact congrArg _ (List.map_congr_left fun y hy => (hgrows.image_eq (hset y hy)).symm)
            · rw [htuple] at hy
              exact (hset y hy).imp fun c hc => hgrows y c hc

/-- No generator is for an object that has no copy yet and whose arguments are not copied. -/
theorem Below.notMem_held (h : Below s st x) (hnone : st.memo obj = none) (hmaking : ∀ F ∈ st.stack, F.making ≠ some obj) :
    obj ∉ st.stack.filterMap Frame.held := by
  intro hmem
  obtain ⟨F, hF, hheld⟩ := List.mem_filterMap.1 hmem
  cases hcopied : F.copied with
  | some c =>
      obtain ⟨hheld', hmemo, -⟩ := (h.frames F hF).memo hcopied
      rw [hheld'] at hheld
      cases hheld
      rw [hmemo] at hnone
      cases hnone
  | none =>
      cases F with
      | args obj' r => cases hheld; exact hmaking _ hF rfl
      | tuple => cases hheld
      | item => cases hcopied
      | key => cases hcopied
      | value => cases hcopied
      | state => cases hcopied

theorem inv_new (hs : s.Closed) (args : Nat) (hkept : Kept s st.toStore (st.stack.filterMap Frame.filling))
    (hbelow : Below s st obj) (hnone : st.memo obj = none) (hlt : obj < s.next) (hfilled : (s.heap obj).Filled)
    (hmaking : ∀ F ∈ st.stack, F.making ≠ some obj)
    (hargs : ∀ r, s.heap obj = .reduced r → copyOf s.heap st.memo r.args = some args ∧
      ∀ y, s.code.rebuild r args ≠ .found y) :
    ∃ x, Inv s ((st.new obj ((s.heap obj).partly (s.code.same st.next) args [] [] none)).fill obj st.next (s.heap obj).items
      (s.heap obj).pairs (s.heap obj).state) x :=
  inv_fill hs (hkept.new hs hnone hlt hfilled.hasCopy _) (hbelow.new hkept hs hnone hfilled.hasCopy hmaking _)
    (hbelow.notMem_held hnone hmaking) (Filling.new hnone hlt hkept.next hfilled hargs)

/-- An own `__deepcopy__` made the copy. -/
theorem inv_own {data data' : δ} (hs : s.Closed) (hkept : Kept s st.toStore (st.stack.filterMap Frame.filling))
    (hbelow : Below s st obj) (hnone : st.memo obj = none) (hlt : obj < s.next) (hobj : s.heap obj = .apart data)
    (hmaking : ∀ F ∈ st.stack, F.making ≠ some obj) (hown : s.code.own obj data = .made data') :
    Inv s ((st.new obj (.apart data')).send st.next) obj := by
  have hcopy : (s.heap obj).HasCopy := hobj ▸ trivial
  have hstands : (st.toStore.new obj (.apart data')).memo obj = some st.next := Function.update_self ..
  refine inv_send ((hkept.new hs hnone hlt hcopy _).close fun c hc => ?_) (hbelow.new hkept hs hnone hcopy hmaking _)
    ((copyOf_of_hasCopy hcopy).trans hstands)
  rw [hstands] at hc
  cases hc
  refine ⟨(Function.update_self ..).trans ?_, fun y hy => ?_⟩
  · rw [hobj, Obj.mapped, hown]
  · rw [hobj] at hy
    cases hy

/-- An own `__deepcopy__` handed back an object that was there. -/
theorem inv_found_own {data : δ} {found : Nat} (hs : s.Closed) (hkept : Kept s st.toStore (st.stack.filterMap Frame.filling))
    (hbelow : Below s st obj) (hnone : st.memo obj = none) (hlt : obj < s.next) (hobj : s.heap obj = .apart data)
    (hmaking : ∀ F ∈ st.stack, F.making ≠ some obj) (hown : s.code.own obj data = .found found) :
    Inv s ((st.keep obj found).send found) obj := by
  refine inv_keep hs hkept hbelow hnone hlt hmaking (.own data found hobj hown) ⟨?_, fun y hy => ?_⟩
  · rw [hobj, Obj.mapped, hown]
    exact hkept.old found (hs.own obj hlt data found hobj hown)
  · rw [hobj] at hy
    cases hy

/-- The arguments of an object are to be copied. -/
theorem inv_args {r : Reduce ρ σ} (hs : s.Closed) (hkept : Kept s st.toStore (st.stack.filterMap Frame.filling))
    (hbelow : Below s st obj) (hnone : st.memo obj = none) (hlt : obj < s.next) (hobj : s.heap obj = .reduced r)
    (hnot : obj ∉ st.making) :
    Inv s ({ st with making := obj :: st.making }.ask (.args obj r) r.args) r.args := by
  have hmaking (F : Frame ρ σ) (hF : F ∈ st.stack) : F.making ≠ some obj := by
    intro heq
    cases F with
    | args obj' r' =>
        cases heq
        exact hnot (hbelow.frames _ hF).2.2.2
    | _ => cases heq
  refine inv_ask (F := .args obj r) hs ⟨hlt, hobj, hnone, List.mem_cons_self⟩ (fun G hG => ?_)
    (List.nodup_cons.2 ⟨hbelow.notMem_held hnone hmaking, hbelow.nodup⟩) (fun y hy => ?_) hbelow.awaits hkept
  · exact (hbelow.frames G hG).keep (fun _ _ hc => hc) (fun _ _ => rfl)
      fun y _ hnone hmem => ⟨hnone, List.mem_cons_of_mem _ hmem⟩
  · rcases List.mem_cons.1 hy with rfl | hy
    · exact ⟨r, List.mem_cons_self⟩
    · exact (hbelow.making y hy).imp fun r' hr' => List.mem_cons_of_mem _ hr'

theorem copyOf_of_shared {heap : Nat → Obj ρ σ δ ε} {memo : Nat → Option Nat} (h : (heap x).isShared = true) :
    copyOf heap memo x = some x := by
  unfold copyOf
  cases hx : heap x with
  | shared => rfl
  | _ => rw [hx] at h; cases h

theorem copyOf_of_memo {heap : Nat → Obj ρ σ δ ε} {memo : Nat → Option Nat} (h : ¬ (heap x).isShared = true)
    (hmemo : memo x = some c) : copyOf heap memo x = some c := by
  unfold copyOf
  cases hx : heap x with
  | shared => rw [hx] at h; exact absurd rfl h
  | named => rw [hmemo]; rfl
  | _ => exact hmemo

theorem inv_start (hs : s.Closed) (hi : Inv s st x) (hmode : st.mode = .start obj) (h : st.start s.code obj = .ok st') :
    ∃ y, Inv s st' y := by
  obtain ⟨rfl, hlt⟩ := hi.of_start hmode
  obtain ⟨hkept, hbelow, -⟩ := hi
  rw [State.start, hkept.old obj hlt] at h
  split at h
  · cases h
    exact ⟨obj, inv_send hkept hbelow (copyOf_of_shared ‹_›)⟩
  · rename_i hshared
    cases hmemo : st.memo obj with
    | some copied =>
        rw [hmemo] at h
        cases h
        exact ⟨obj, inv_send hkept hbelow (copyOf_of_memo hshared hmemo)⟩
    | none =>
        rw [hmemo] at h
        cases hobj : s.heap obj with
        | shared =>
            rw [hobj] at hshared
            exact absurd rfl hshared
        | named =>
            rw [hobj] at h
            cases h
            refine ⟨obj, inv_send hkept hbelow ?_⟩
            unfold copyOf
            rw [hobj, hmemo]
            rfl
        | apart data =>
            rw [hobj] at h
            dsimp only at h
            have hmaking : ∀ F ∈ st.stack, F.making ≠ some obj :=
              hbelow.making_ne fun r hr => by rw [hobj] at hr; cases hr
            cases hown : s.code.own obj data with
            | made data' =>
                rw [hown] at h
                cases h
                exact ⟨obj, inv_own hs hkept hbelow hmemo hlt hobj hmaking hown⟩
            | found found =>
                rw [hown] at h
                cases h
                exact ⟨obj, inv_found_own hs hkept hbelow hmemo hlt hobj hmaking hown⟩
            | raised e =>
                rw [hown] at h
                cases h
        | list items =>
            rw [hobj] at h
            cases h
            have hnew := inv_new hs 0 hkept hbelow hmemo hlt (hobj ▸ trivial)
              (hbelow.making_ne fun r hr => by rw [hobj] at hr; cases hr) fun r hr => by rw [hobj] at hr; cases hr
            rw [hobj] at hnew
            exact hnew
        | dict pairs =>
            rw [hobj] at h
            cases h
            have hnew := inv_new hs 0 hkept hbelow hmemo hlt (hobj ▸ trivial)
              (hbelow.making_ne fun r hr => by rw [hobj] at hr; cases hr) fun r hr => by rw [hobj] at hr; cases hr
            rw [hobj] at hnew
            exact hnew
        | tuple items =>
            rw [hobj] at h
            cases h
            have htuple : s.heap obj = .tuple ([] ++ items) := hobj
            have hset : ∀ y ∈ ([] : List Nat), ∃ c, copyOf s.heap st.memo y = some c := fun _ hy => by cases hy
            exact inv_copyTuple hs hkept hbelow hlt htuple hset
        | reduced r =>
            rw [hobj] at h
            dsimp only at h
            split at h
            · cases h
            · rename_i hnot
              cases h
              exact ⟨r.args, inv_args hs hkept hbelow hmemo hlt hobj hnot⟩
        | unreduced e =>
            rw [hobj] at h
            cases h

theorem State.eq_of_after {raised : Option ε} (h : State.after raised st = .ok st') : st = st' := by
  cases raised with
  | none =>
      cases h
      rfl
  | some e => cases h

/-- Where the arguments of an object are copied, the generators below its own keep what they did. -/
theorem Below.of_args {r : Reduce ρ σ} (hframes : ∀ G ∈ stack, G.Ok s st.toStore st.making)
    (hnodup : ((.args obj r :: stack).filterMap Frame.held).Nodup)
    (hmaking : ∀ y ∈ st.making, ∃ r', .args y r' ∈ .args obj r :: stack) (hawaits : Awaits s.value stack obj) :
    (∀ G ∈ stack, G.making ≠ some obj) ∧
      Below s { st with stack := stack, making := st.making.filter (· ≠ obj) } obj := by
  obtain ⟨hnew, hrest⟩ := List.nodup_cons.1 hnodup
  have hne (G : Frame ρ σ) (hG : G ∈ stack) : G.making ≠ some obj := by
    intro heq
    cases G with
    | args obj' r' =>
        cases heq
        exact hnew (List.mem_filterMap.2 ⟨_, hG, rfl⟩)
    | _ => cases heq
  refine ⟨hne, fun G hG => ?_, hrest, fun y hy => ?_, hawaits⟩
  · refine (hframes G hG).keep (fun _ _ hc => hc) (fun _ _ => rfl) fun y hy hnone' hmem' => ⟨hnone', ?_⟩
    refine List.mem_filter.2 ⟨hmem', decide_eq_true fun heq => hne G hG (heq ▸ hy)⟩
  · obtain ⟨hy, hyne⟩ := List.mem_filter.1 hy
    obtain ⟨r', hr'⟩ := hmaking y hy
    rcases List.mem_cons.1 hr' with heq | hr'
    · cases heq
      simp at hyne
    · exact ⟨r', hr'⟩

/-- An object is rebuilt as one that was there, into which nothing is put. -/
theorem inv_rebuilt {r : Reduce ρ σ} {found : Nat} (hs : s.Closed)
    (hkept : Kept s st.toStore (st.stack.filterMap Frame.filling)) (hbelow : Below s st obj) (hnone : st.memo obj = none)
    (hlt : obj < s.next) (hobj : s.heap obj = .reduced r) (hmaking : ∀ F ∈ st.stack, F.making ≠ some obj)
    (hcopy : copyOf s.heap st.memo r.args = some c) (hgives : s.code.rebuild r c = .found found) :
    Inv s ((st.keep obj found).fill obj found (r.items.getD []) (r.pairs.getD []) r.state) obj := by
  obtain ⟨hfound, hitems, hpairs, hstate⟩ := hs.rebuild obj hlt r c found hobj hgives
  have hgrows : Grows s.heap st.memo (st.toStore.keep obj found).memo := grows_update hnone (hobj ▸ trivial)
  rw [hitems, hpairs, hstate]
  refine inv_keep hs hkept hbelow hnone hlt hmaking (.rebuilt r c found hobj hgives) ⟨?_, fun y hy => ?_⟩
  · have hargs : image s.heap (st.toStore.keep obj found).memo r.args = c := image_of_copyOf (hgrows _ _ hcopy)
    rw [hobj, Obj.mapped, hargs, hgives]
    exact hkept.old found hfound
  · rw [hobj] at hy
    rcases Obj.mem_kids hy with ⟨r', hr', rfl⟩ | hy | hy | hy
    · cases hr'
      exact ⟨c, hgrows _ _ hcopy⟩
    · rw [Obj.items, hitems] at hy
      cases hy
    · rw [Obj.pairs, hpairs] at hy
      cases hy
    · rw [Obj.state, hstate] at hy
      cases hy

theorem inv_resume (hs : s.Closed) (hi : Inv s st x) (hmode : st.mode = .send c) (hstack : st.stack = F :: stack)
    (h : { st with stack := stack }.resume s.code c F = .ok st') : ∃ y, Inv s st' y := by
  obtain ⟨hkept, ⟨hframes, hnodup, hmaking, hawaits⟩, hwaits⟩ := hi
  rw [hmode] at hwaits
  rcases hwaits with ⟨hx, -⟩ | ⟨c', hc, hcopy⟩
  · cases hx
  · cases hc
    rw [hstack] at hkept hframes hnodup hmaking hawaits
    obtain ⟨rfl, hawaits⟩ := hawaits
    obtain ⟨hok, hframes'⟩ := List.forall_mem_cons.1 hframes
    -- What a generator keeps, unless it waits for arguments, the ones below it keep when it is gone.
    have hbelow (hF : F.making = none) (hrest : (stack.filterMap Frame.held).Nodup) :
        Below s { st with stack := stack } F.obj := by
      refine ⟨hframes', hrest, fun y hy => ?_, hawaits⟩
      obtain ⟨r, hr⟩ := hmaking y hy
      rcases List.mem_cons.1 hr with rfl | hr
      · cases hF
      · exact ⟨r, hr⟩
    cases F with
    | item obj copied item rest pairs state =>
        obtain ⟨hnew, hrest⟩ := List.nodup_cons.1 hnodup
        have hfilling : Filling s st.toStore obj copied (item :: rest) pairs state := hok
        rw [← State.eq_of_after h]
        exact inv_fill hs (hkept.change hfilling.memo hfilling.fresh List.mem_cons_self _)
          ((hbelow rfl hrest).change hkept hfilling.memo hfilling.fresh hnew _) hnew (hfilling.item hcopy)
    | key obj copied k v rest state =>
        obtain ⟨hnew, hrest⟩ := List.nodup_cons.1 hnodup
        cases h
        exact ⟨v, inv_ask (F := .value obj copied c v rest state) hs ⟨k, hcopy, hok⟩ hframes' hnodup
          (fun y hy => ((hbelow rfl hrest).making y hy).imp fun r hr => List.mem_cons_of_mem _ hr) hawaits hkept⟩
    | value obj copied newKey v rest state =>
        obtain ⟨hnew, hrest⟩ := List.nodup_cons.1 hnodup
        obtain ⟨k, hk, hfilling⟩ := hok
        rw [← State.eq_of_after h]
        exact inv_fill hs (hkept.change hfilling.memo hfilling.fresh List.mem_cons_self _)
          ((hbelow rfl hrest).change hkept hfilling.memo hfilling.fresh hnew _) hnew (hfilling.pair hk hcopy)
    | tuple obj items item rest =>
        obtain ⟨hlt, done, htuple, hset, rfl⟩ := hok
        have htuple' : s.heap obj = .tuple ((done ++ [item]) ++ rest) := by
          rw [htuple, List.append_assoc, List.singleton_append]
        have hset' : ∀ y ∈ done ++ [item], ∃ c, copyOf s.heap st.memo y = some c := by
          intro y hy
          rcases List.mem_append.1 hy with hy | hy
          · exact hset y hy
          · rw [List.mem_singleton.1 hy]
            exact ⟨c, hcopy⟩
        have hcopies : done.map (image s.heap st.memo) ++ [c] = (done ++ [item]).map (image s.heap st.memo) := by
          rw [List.map_append, List.map_singleton]
          exact congrArg (fun d => _ ++ [d]) (image_of_copyOf hcopy).symm
        cases h
        rw [hcopies]
        exact inv_copyTuple hs hkept (hbelow rfl hnodup) hlt htuple' hset'
    | args obj r =>
        obtain ⟨hlt, hobj, hnone, -⟩ := hok
        obtain ⟨hne, hbelow'⟩ := Below.of_args hframes' hnodup hmaking hawaits
        rw [State.resume] at h
        cases hgives : s.code.rebuild r c with
        | made =>
            rw [hgives] at h
            cases h
            have hnext := inv_new hs c hkept hbelow' hnone hlt (hobj ▸ trivial) hne fun r' hr' => by
              rw [hobj] at hr'
              cases hr'
              refine ⟨hcopy, fun y hy => ?_⟩
              rw [hgives] at hy
              cases hy
            rw [hobj] at hnext
            exact hnext
        | found found =>
            rw [hgives] at h
            cases h
            exact ⟨obj, inv_rebuilt hs hkept hbelow' hnone hlt hobj hne hcopy hgives⟩
        | raised e =>
            rw [hgives] at h
            cases h
    | state obj copied part =>
        obtain ⟨hnew, hrest⟩ := List.nodup_cons.1 hnodup
        have hfilling : Filling s st.toStore obj copied [] [] (some part) := hok
        rw [← State.eq_of_after h]
        refine ⟨obj, inv_send ((hkept.change hfilling.memo hfilling.fresh List.mem_cons_self _).close fun c' hc' => ?_)
          ((hbelow rfl hrest).change hkept hfilling.memo hfilling.fresh hnew _) ?_⟩
        · rw [show (Store.change _ _ _).memo obj = some copied from hfilling.memo] at hc'
          cases hc'
          exact hfilling.state_done hcopy
        · exact (copyOf_of_hasCopy hfilling.filled.hasCopy).trans hfilling.memo

end Cash.Deep
