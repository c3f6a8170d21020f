import Cash.Iters.KeyCopies

/-!
# What is split off a call, and what the key build reads of it
-/

namespace Cash.Iters

open Tee

variable {σ α ε : Type} [DecidableEq σ]

/-! ## What is split -/

/-! ### Iterators taken out -/

theorem islice_of_ends {given : Nat → Given α ε} {n limit : Nat} (calls : Nat) (hn : n < limit)
    (hitems : ∀ k < n, ∃ x, given (calls + k) = .item x) (hstop : given (calls + n) = .stop) :
    ∃ items, islice given limit calls = .ok (items, calls + n + 1) ∧ items.length = n ∧
      ∀ k x, items[k]? = some x → given (calls + k) = .item x := by
  induction n generalizing limit calls with
  | zero =>
      obtain ⟨limit, rfl⟩ := Nat.exists_eq_succ_of_ne_zero (Nat.ne_of_gt hn)
      refine ⟨[], ?_, rfl, fun k x h => by simp at h⟩
      rw [Nat.add_zero] at hstop
      rw [islice, hstop]
  | succ n ih =>
      obtain ⟨limit, rfl⟩ := Nat.exists_eq_succ_of_ne_zero (Nat.ne_of_gt (Nat.zero_lt_of_lt hn))
      obtain ⟨x, hx⟩ := hitems 0 (Nat.succ_pos n)
      rw [Nat.add_zero] at hx
      obtain ⟨items, hrest, hlength, hgiven⟩ := ih (calls + 1) (Nat.lt_of_succ_lt_succ hn)
        (fun k hk => by rw [Nat.add_assoc, Nat.add_comm 1 k]; exact hitems (k + 1) (Nat.succ_lt_succ hk))
        (by rw [Nat.add_assoc, Nat.add_comm 1 n]; exact hstop)
      refine ⟨x :: items, ?_, by rw [List.length_cons, hlength], ?_⟩
      · rw [islice, hx]
        simp only [hrest]
        rw [Nat.add_right_comm calls 1 n, Nat.add_assoc calls n 1]
      · intro k y hy
        cases k with
        | zero =>
            rw [List.getElem?_cons_zero] at hy
            cases hy
            exact hx
        | succ k =>
            rw [← hgiven k y hy, Nat.add_assoc, Nat.add_comm 1 k]

/-- What is taken out before the limit ended. -/
theorem ends_of_islice {given : Nat → Given α ε} {limit calls calls' : Nat} {items : List α}
    (h : islice given limit calls = .ok (items, calls')) (hshort : items.length < limit) :
    (∀ k < items.length, ∃ x, given (calls + k) = .item x) ∧ given (calls + items.length) = .stop := by
  induction limit generalizing calls items with
  | zero => exact absurd hshort (Nat.not_lt_zero _)
  | succ limit ih =>
      rw [islice] at h
      split at h
      · rename_i x hx
        split at h
        · rename_i rest calls'' hrest
          cases h
          rw [List.length_cons] at hshort ⊢
          obtain ⟨hitems, hstop⟩ := ih hrest (Nat.lt_of_succ_lt_succ hshort)
          constructor
          · intro k hk
            cases k with
            | zero => exact ⟨x, hx⟩
            | succ k =>
                obtain ⟨y, hy⟩ := hitems k (Nat.lt_of_succ_lt_succ hk)
                exact ⟨y, by rw [← hy, Nat.add_assoc, Nat.add_comm 1 k]⟩
          · rw [← hstop, Nat.add_assoc, Nat.add_comm 1]
        · cases h
      · rename_i hstop
        cases h
        exact ⟨fun k hk => absurd hk (Nat.not_lt_zero k), hstop⟩
      · cases h

namespace OneShot

variable {it : OneShot α ε} {n : Nat}

/-- A generator that is closed. -/
def Closed (it : OneShot α ε) (n : Nat) : Prop := iteratorPosition it n = some (.generator .closed none)

theorem Closed.stop (h : it.Closed n) : it.given n = .stop := by
  rw [Closed, iteratorPosition] at h
  cases hkind : it.kind with
  | generator state lasti =>
      rw [hkind] at h
      simp only [Option.some.injEq, Position.generator.injEq] at h
      exact it.stays state lasti hkind n h.1
  | other lengthHint =>
      rw [hkind] at h
      simp only at h
      split at h
      · cases h
      · split at h <;> cases h

theorem closed_succ (hgen : it.isGenerator = true) (h : it.given n = .stop) : it.Closed (n + 1) := by
  rw [isGenerator] at hgen
  cases hkind : it.kind with
  | generator state lasti =>
      obtain ⟨hstate, hlasti⟩ := it.closes state lasti hkind n h
      rw [Closed, iteratorPosition, hkind]
      simp only [hstate, hlasti]
  | other lengthHint =>
      rw [hkind] at hgen
      cases hgen

/-- A generator that stopped gives nothing more. -/
theorem stop_add (hgen : it.isGenerator = true) (h : it.given n = .stop) (k : Nat) : it.given (n + k) = .stop := by
  induction k with
  | zero => exact h
  | succ k ih => exact (closed_succ hgen ih).stop

end OneShot

namespace Call

variable {c : Call σ α ε} {i j : σ} {o : Nat} {copies copies' : KeyCopies σ} {st st' : World σ α}
  {args done : List (σ × Option Nat)}

/-! ### Arguments -/

theorem lookup_join {l : List (σ × Option Nat)} (hnodup : (l.map Prod.fst).Nodup) :
    (l.lookup i).join = some o ↔ (i, some o) ∈ l := by
  induction l with
  | nil => simp
  | cons arg l ih =>
      obtain ⟨j, value⟩ := arg
      obtain ⟨hj, hnodup⟩ := List.nodup_cons.mp hnodup
      by_cases hij : i = j
      · subst hij
        rw [List.lookup_cons_self, Option.join_some, List.mem_cons, Prod.mk.injEq]
        constructor
        · rintro rfl
          exact .inl ⟨rfl, rfl⟩
        · rintro (⟨_, h⟩ | h)
          · exact h.symm
          · exact absurd (List.mem_map_of_mem h) hj
      · have hne : (i == j) = false := by simpa using hij
        rw [List.lookup_cons, hne, List.mem_cons, Prod.mk.injEq]
        simp only [hij, false_and, false_or]
        exact ih hnodup

theorem owner_eq : c.owner i = some o ↔ (i, some o) ∈ c.args := lookup_join c.nodup

omit [DecidableEq σ] in
theorem hashed_generator (h : c.hashed o = true) : (c.heap o).isGenerator = true := by
  rw [hashed] at h
  split at h
  · cases h
  · exact (Bool.and_eq_true_iff.mp h).1

/-- It is split when it is come to. -/
def isSplit (c : Call σ α ε) (o : Nat) : Bool := c.keyFn || c.hashed o

/-- The key's copy of what an argument is. -/
def keyCopy (c : Call σ α ε) (i : σ) (o : Nat) : Copy σ := if c.keyFn then .tee o (i, .key) (i, .body) else .listed (i, .key)

def bodyCopy (c : Call σ α ε) (i : σ) (o : Nat) : Copy σ := if c.keyFn then .tee o (i, .body) (i, .key) else .listed (i, .body)

/-- What is split of the arguments so far. -/
structure Inv (c : Call σ α ε) (done : List (σ × Option Nat)) (copies : KeyCopies σ) : Prop where
  split : ∀ i o, (i, some o) ∈ done → c.isSplit o = true → copies.args i = some (c.keyCopy i o) ∧
    ∃ before, ⟨i, o, before, c.bodyCopy i o⟩ ∈ copies.splits
  unsplit : ∀ i, (∀ o, (i, some o) ∈ done → c.isSplit o = false) → copies.args i = c.own i
  nodup : (copies.splits.map Split.slot).Nodup
  sound : ∀ s ∈ copies.splits, (s.slot, some s.original) ∈ done ∧ c.isSplit s.original = true ∧
    s.copy = c.bodyCopy s.slot s.original

theorem Inv.start : Inv c [] ⟨c.own, [], false⟩ where
  split _ _ h := absurd h List.not_mem_nil
  unsplit _ _ := rfl
  nodup := List.nodup_nil
  sound _ h := absurd h List.not_mem_nil

/-- An argument that is not split. -/
theorem Inv.skip {value : Option Nat} (h : Inv c done copies) (hvalue : ∀ o, value = some o → c.isSplit o = false) :
    Inv c (done ++ [(i, value)]) copies := by
  have hmem : ∀ j o, (j, some o) ∈ done ++ [(i, value)] → c.isSplit o = true → (j, some o) ∈ done := by
    intro j o hj ho
    refine (List.mem_append.mp hj).resolve_right fun hlast => ?_
    obtain ⟨-, rfl⟩ := Prod.mk.inj (List.mem_singleton.mp hlast)
    rw [hvalue o rfl] at ho
    cases ho
  refine ⟨fun j o hj ho => h.split j o (hmem j o hj ho) ho, ?_, h.nodup, ?_⟩
  · exact fun j hj => h.unsplit j fun o ho => hj o (List.mem_append_left _ ho)
  · exact fun s hs => ⟨List.mem_append_left _ (h.sound s hs).1, (h.sound s hs).2⟩

/-- An argument that is split. -/
theorem Inv.add {before : Option Position} {refused : Bool} (h : Inv c done copies) (ho : c.isSplit o = true)
    (hnew : i ∉ done.map Prod.fst) :
    Inv c (done ++ [(i, some o)]) ⟨Function.update copies.args i (some (c.keyCopy i o)),
      copies.splits ++ [⟨i, o, before, c.bodyCopy i o⟩], refused⟩ := by
  have hne : ∀ j value, (j, value) ∈ done → j ≠ i := by
    rintro j value hj rfl
    exact hnew (List.mem_map_of_mem hj)
  constructor
  · intro j o' hj ho'
    rcases List.mem_append.mp hj with hj | hj
    · obtain ⟨hargs, before', hsplit⟩ := h.split j o' hj ho'
      refine ⟨?_, before', List.mem_append_left _ hsplit⟩
      rw [← hargs]
      exact Function.update_of_ne (hne j _ hj) _ _
    · cases List.mem_singleton.mp hj
      exact ⟨Function.update_self .., before, List.mem_append_right _ List.mem_cons_self⟩
  · intro j hj
    have hji : j ≠ i := by
      rintro rfl
      rw [hj o (List.mem_append_right _ List.mem_cons_self)] at ho
      cases ho
    rw [← h.unsplit j fun o' ho' => hj o' (List.mem_append_left _ ho')]
    exact Function.update_of_ne hji _ _
  · rw [List.map_append, List.map_singleton, List.nodup_append]
    refine ⟨h.nodup, List.nodup_cons.mpr ⟨List.not_mem_nil, List.nodup_nil⟩, ?_⟩
    intro j hj j' hj'
    obtain ⟨s, hs, rfl⟩ := List.mem_map.mp hj
    obtain rfl := List.mem_singleton.mp hj'
    exact hne _ _ (h.sound s hs).1
  · intro s hs
    rcases List.mem_append.mp hs with hs | hs
    · exact ⟨List.mem_append_left _ (h.sound s hs).1, (h.sound s hs).2⟩
    · obtain rfl := List.mem_singleton.mp hs
      exact ⟨List.mem_append_right _ List.mem_cons_self, ho, rfl⟩

/-! ### Generators that are taken out -/

/-- The items taken out are queued for both copies. -/
def taken (st : World σ α) (i : σ) (o : Nat) (items : List α) (calls : Nat) : World σ α :=
  (State.enqueue (State.enqueue { st with calls := Function.update st.calls o calls } (some (i, .key)) items)
    (some (i, .body)) items)

@[simp] theorem calls_taken {items : List α} {calls : Nat} : (taken st i o items calls).calls = Function.update st.calls o calls :=
  State.calls_enqueue.trans State.calls_enqueue

@[simp] theorem queued_taken {items : List α} {calls : Nat} : (taken st i o items calls).queued (i, .body) = items :=
  Function.update_self ..

theorem queued_taken_ne {items : List α} {calls : Nat} (hij : j ≠ i) :
    (taken st i o items calls).queued (j, .body) = st.queued (j, .body) := by
  have hne : ∀ side : Side, ((j, Side.body) : σ × Side) ≠ (i, side) := fun side h => hij (Prod.mk.inj h).1
  exact (Function.update_of_ne (hne _) _ _).trans (Function.update_of_ne (hne _) _ _)

theorem splitIterator_hashed {items : List α} {calls : Nat} (hkey : c.keyFn = false) (ho : c.hashed o = true)
    (h : islice (c.given o) (materialisedItems + 1) (st.calls o) = .ok (items, calls)) (hlen : items.length ≤ materialisedItems) :
    c.splitIterator i o st = .ok (some (c.keyCopy i o, c.bodyCopy i o, false), taken st i o items calls) := by
  rw [splitIterator, keyCopy, bodyCopy, hkey, ho, h]
  simp only [Bool.false_eq_true, if_false, if_true, if_neg (Nat.not_lt_of_le hlen)]
  rfl

/-- Split when the generator had been taken out. -/
def Late (st : World σ α) (s : Split σ) : Prop :=
  s.before = some (.generator .closed none) ∧ st.queued (s.slot, .body) = []

/-- Where generators stand once they were taken out. -/
structure Drained (c : Call σ α ε) (done : List (σ × Option Nat)) (splits : List (Split σ)) (st : World σ α) : Prop where
  fresh : ∀ o, (∀ i, (i, some o) ∉ done) → st.calls o = 0
  plain : ∀ o, c.hashed o = false → st.calls o = 0
  closed : ∀ i o, (i, some o) ∈ done → c.hashed o = true → (c.heap o).Closed (st.calls o)
  first : ∀ i o, (i, some o) ∈ done → c.hashed o = true → ∃ s ∈ splits, s.original = o ∧
    s.before = iteratorPosition (c.heap o) 0 ∧ ∀ n, ahead c.given (.listed (s.slot, .body)) st n = c.given o n
  split : ∀ s ∈ splits, s.before = iteratorPosition (c.heap s.original) 0 ∧
    (∀ n, ahead c.given (.listed (s.slot, .body)) st n = c.given s.original n) ∨ Late st s
  late : ∀ s ∈ splits, ∀ t ∈ splits, s.slot ≠ t.slot → s.original = t.original → Late st s ∨ Late st t

omit [DecidableEq σ] in
theorem Drained.start : Drained c [] [] (.start : World σ α) where
  fresh _ _ := rfl
  plain _ _ := rfl
  closed _ _ h := absurd h List.not_mem_nil
  first _ _ h := absurd h List.not_mem_nil
  split _ h := absurd h List.not_mem_nil
  late _ h := absurd h List.not_mem_nil

omit [DecidableEq σ] in
theorem Drained.skip {splits : List (Split σ)} {value : Option Nat} (h : Drained c done splits st)
    (hvalue : ∀ o, value = some o → c.hashed o = false) : Drained c (done ++ [(i, value)]) splits st := by
  have hmem : ∀ j o, (j, some o) ∈ done ++ [(i, value)] → c.hashed o = true → (j, some o) ∈ done := by
    intro j o hj ho
    refine (List.mem_append.mp hj).resolve_right fun hlast => ?_
    obtain ⟨-, rfl⟩ := Prod.mk.inj (List.mem_singleton.mp hlast)
    rw [hvalue o rfl] at ho
    cases ho
  exact ⟨fun o ho => h.fresh o fun j hj => ho j (List.mem_append_left _ hj), h.plain,
    fun j o hj ho => h.closed j o (hmem j o hj ho) ho, fun j o hj ho => h.first j o (hmem j o hj ho) ho, h.split, h.late⟩

/-- What is taken out of one generator leaves the splits before as they were. -/
theorem Drained.add {splits : List (Split σ)} {items : List α} {calls : Nat} {before : Option Position} {copy : Copy σ}
    (h : Drained c done splits st) (hslots : ∀ s ∈ splits, s.slot ≠ i) (ho : c.hashed o = true)
    (hclosed : (c.heap o).Closed calls)
    (hsplit : before = iteratorPosition (c.heap o) 0 ∧
      (∀ n, ahead c.given (.listed (i, .body)) (taken st i o items calls) n = c.given o n) ∧ (∀ s ∈ splits, s.original ≠ o) ∨
      before = some (.generator .closed none) ∧ items = [] ∧ ∃ j, (j, some o) ∈ done) :
    Drained c (done ++ [(i, some o)]) (splits ++ [⟨i, o, before, copy⟩]) (taken st i o items calls) := by
  have hother : ∀ o', o' ≠ o → (taken st i o items calls).calls o' = st.calls o' := by
    intro o' hne
    rw [calls_taken, Function.update_of_ne hne]
  have hlate : ∀ s ∈ splits, Late st s → Late (taken st i o items calls) s := fun s hs h =>
    ⟨h.1, (queued_taken_ne (hslots s hs)).trans h.2⟩
  have hahead : ∀ s ∈ splits, ∀ n, ahead c.given (.listed (s.slot, .body)) (taken st i o items calls) n =
      ahead c.given (.listed (s.slot, .body)) st n := by
    intro s hs
    have hqueued : (taken st i o items calls).pending (.listed (s.slot, .body)) = st.pending (.listed (s.slot, .body)) :=
      queued_taken_ne (hslots s hs)
    exact ahead_congr hqueued fun _ h => by cases h
  have hnew : before = some (.generator .closed none) ∧ items = [] ∧ (∃ j, (j, some o) ∈ done) →
      Late (taken st i o items calls) ⟨i, o, before, copy⟩ := fun h => ⟨h.1, queued_taken.trans h.2.1⟩
  constructor
  · intro o' hfresh
    have hne : o' ≠ o := by
      rintro rfl
      exact hfresh i (List.mem_append_right _ List.mem_cons_self)
    rw [hother o' hne]
    exact h.fresh o' fun j hj => hfresh j (List.mem_append_left _ hj)
  · intro o' ho'
    have hne : o' ≠ o := by
      rintro rfl
      rw [ho] at ho'
      cases ho'
    rw [hother o' hne]
    exact h.plain o' ho'
  · intro j o' hj ho'
    by_cases heq : o' = o
    · subst heq
      rw [calls_taken, Function.update_self]
      exact hclosed
    · rw [hother o' heq]
      refine h.closed j o' ((List.mem_append.mp hj).resolve_right fun hlast => heq ?_) ho'
      exact Option.some.inj (Prod.mk.inj (List.mem_singleton.mp hlast)).2
  · intro j o' hj ho'
    have hold : (∃ j, (j, some o') ∈ done) → ∃ s ∈ splits ++ [⟨i, o, before, copy⟩], s.original = o' ∧
        s.before = iteratorPosition (c.heap o') 0 ∧
          ∀ n, ahead c.given (.listed (s.slot, .body)) (taken st i o items calls) n = c.given o' n := by
      rintro ⟨j, hj⟩
      obtain ⟨s, hs, horiginal, hbefore, hgiven⟩ := h.first j o' hj ho'
      exact ⟨s, List.mem_append_left _ hs, horiginal, hbefore, fun n => (hahead s hs n).trans (hgiven n)⟩
    rcases List.mem_append.mp hj with hj | hj
    · exact hold ⟨j, hj⟩
    · cases List.mem_singleton.mp hj
      rcases hsplit with ⟨hbefore, hgiven, -⟩ | ⟨-, -, hdone⟩
      · exact ⟨_, List.mem_append_right _ List.mem_cons_self, rfl, hbefore, hgiven⟩
      · exact hold hdone
  · intro s hs
    rcases List.mem_append.mp hs with hs | hs
    · refine (h.split s hs).imp (fun h => ⟨h.1, fun n => ?_⟩) (hlate s hs)
      rw [← h.2 n]
      exact hahead s hs n
    · obtain rfl := List.mem_singleton.mp hs
      exact hsplit.imp (fun h => ⟨h.1, h.2.1⟩) hnew
  · intro s hs t ht hst hsame
    rcases List.mem_append.mp hs with hs | hs
    · rcases List.mem_append.mp ht with ht | ht
      · exact (h.late s hs t ht hst hsame).imp (hlate s hs) (hlate t ht)
      · obtain rfl := List.mem_singleton.mp ht
        rcases hsplit with ⟨-, -, hfirst⟩ | hlast
        · exact absurd hsame (hfirst s hs)
        · exact .inr (hnew hlast)
    · obtain rfl := List.mem_singleton.mp hs
      rcases List.mem_append.mp ht with ht | ht
      · rcases hsplit with ⟨-, -, hfirst⟩ | hlast
        · exact absurd hsame.symm (hfirst t ht)
        · exact .inl (hnew hlast)
      · obtain rfl := List.mem_singleton.mp ht
        exact absurd rfl hst

/-! ### The loop -/

/-- Where the loop stands as long as nothing was too long. -/
structure Loop (c : Call σ α ε) (done : List (σ × Option Nat)) (copies : KeyCopies σ) (st : World σ α) : Prop
    extends Inv c done copies where
  accepted : copies.refused = false
  keyed : c.keyFn = true → st = .start ∧ ∀ s ∈ copies.splits, s.before = iteratorPosition (c.heap s.original) 0
  drained : c.keyFn = false → Drained c done copies.splits st

theorem Loop.skip {value : Option Nat} (h : Loop c done copies st) (hvalue : ∀ o, value = some o → c.isSplit o = false) :
    Loop c (done ++ [(i, value)]) copies st where
  toInv := h.toInv.skip hvalue
  accepted := h.accepted
  keyed := h.keyed
  drained hkey := (h.drained hkey).skip fun o ho => (Bool.or_eq_false_iff.mp (hvalue o ho)).2

/-- What is taken out of a generator that ends: all it gives the first time, and nothing after. -/
theorem Loop.islice (h : Loop c done copies st) (hkey : c.keyFn = false) (ho : c.hashed o = true) (hends : c.Ends o) :
    ∃ items calls, islice (c.given o) (materialisedItems + 1) (st.calls o) = .ok (items, calls) ∧
      items.length ≤ materialisedItems ∧ (c.heap o).Closed calls ∧
      (iteratorPosition (c.heap o) (st.calls o) = iteratorPosition (c.heap o) 0 ∧
          (∀ n, ahead c.given (.listed (i, .body)) (taken st i o items calls) n = c.given o n) ∧
          (∀ s ∈ copies.splits, s.original ≠ o) ∨
        iteratorPosition (c.heap o) (st.calls o) = some (.generator .closed none) ∧ items = [] ∧
          ∃ j, (j, some o) ∈ done) := by
  have hgen := hashed_generator ho
  have hdrained := h.drained hkey
  by_cases hdone : ∃ j, (j, some o) ∈ done
  · obtain ⟨j, hj⟩ := hdone
    have hclosed := hdrained.closed j o hj ho
    have hstop : c.given o (st.calls o) = .stop := hclosed.stop
    refine ⟨[], st.calls o + 1, ?_, Nat.zero_le _, OneShot.closed_succ hgen hstop, .inr ⟨hclosed, rfl, j, hj⟩⟩
    rw [Iters.islice, hstop]
  · have hfresh := not_exists.mp hdone
    obtain ⟨n, hn, hitems, hstop⟩ := hends
    obtain ⟨items, htaken, hlen, hgiven⟩ := islice_of_ends 0 (Nat.lt_succ_of_le hn)
      (fun k hk => by rw [Nat.zero_add]; exact hitems k hk) (by rw [Nat.zero_add]; exact hstop)
    rw [hdrained.fresh o hfresh]
    refine ⟨items, _, htaken, hlen ▸ hn, ?_, .inl ⟨rfl, ?_, ?_⟩⟩
    · rw [Nat.zero_add]
      exact OneShot.closed_succ hgen hstop
    · intro k
      rw [ahead, State.pending, Handle.listed, State.queuedFor, queued_taken]
      cases hk : items[k]? with
      | some x =>
          have hx := hgiven k x hk
          rw [Nat.zero_add] at hx
          exact hx.symm
      | none =>
          obtain ⟨m, rfl⟩ := Nat.exists_eq_add_of_le (hlen ▸ List.getElem?_eq_none_iff.mp hk)
          exact (OneShot.stop_add hgen hstop m).symm
    · rintro s hs rfl
      exact hfresh s.slot (h.sound s hs).1

/-- One argument, as long as its generator ends. -/
theorem Loop.step {value : Option Nat} (h : Loop c done copies st) (hnew : i ∉ done.map Prod.fst)
    (hends : c.keyFn = false → ∀ o, value = some o → c.hashed o = true → c.Ends o) (rest : List (σ × Option Nat)) :
    ∃ copies' st', c.splitLoop ((i, value) :: rest) copies st = c.splitLoop rest copies' st' ∧
      Loop c (done ++ [(i, value)]) copies' st' := by
  cases value with
  | none => exact ⟨copies, st, rfl, h.skip fun o ho => by cases ho⟩
  | some o =>
      by_cases hkey : c.keyFn = true
      · obtain ⟨rfl, hbefore⟩ := h.keyed hkey
        have hsplit : c.splitIterator i o .start = .ok (some (c.keyCopy i o, c.bodyCopy i o, false), .start) := by
          rw [splitIterator, keyCopy, bodyCopy, hkey]
          rfl
        refine ⟨_, _, by rw [splitLoop, hsplit], ?_, ?_, fun _ => ⟨rfl, ?_⟩, fun hfalse => ?_⟩
        · exact h.toInv.add (by rw [isSplit, hkey]; rfl) hnew
        · rw [h.accepted]
          rfl
        · intro s hs
          rcases List.mem_append.mp hs with hs | hs
          · exact hbefore s hs
          · obtain rfl := List.mem_singleton.mp hs
            rfl
        · rw [hkey] at hfalse
          cases hfalse
      have hkey := Bool.eq_false_iff.mpr hkey
      by_cases ho : c.hashed o = true
      · have hslots : ∀ s ∈ copies.splits, s.slot ≠ i := by
          rintro s hs rfl
          exact hnew (List.mem_map_of_mem (h.sound s hs).1)
        obtain ⟨items, calls, htaken, hlen, hclosed, hfirst⟩ := h.islice hkey ho (hends hkey o rfl ho)
        refine ⟨_, _, by rw [splitLoop, splitIterator_hashed hkey ho htaken hlen], ?_, ?_, ?_, ?_⟩
        · exact h.toInv.add (by rw [isSplit, ho, Bool.or_true]) hnew
        · rw [h.accepted]
          rfl
        · intro htrue
          rw [hkey] at htrue
          cases htrue
        · exact fun _ => (h.drained hkey).add hslots ho hclosed hfirst
      · have ho := Bool.eq_false_iff.mpr ho
        refine ⟨copies, st, ?_, h.skip fun o' ho' => ?_⟩
        · rw [splitLoop, splitIterator, hkey, ho]
          rfl
        · cases ho'
          rw [isSplit, hkey, ho]
          rfl

/-- The loop, as long as the generators end. -/
theorem Loop.splitLoop {rest : List (σ × Option Nat)} (h : Loop c done copies st) (hnodup : ((done ++ rest).map Prod.fst).Nodup)
    (hends : c.keyFn = false → ∀ i o, (i, some o) ∈ rest → c.hashed o = true → c.Ends o) :
    ∃ copies' st', c.splitLoop rest copies st = .ok (copies', st') ∧ Loop c (done ++ rest) copies' st' := by
  induction rest generalizing done copies st with
  | nil => exact ⟨copies, st, rfl, by rwa [List.append_nil]⟩
  | cons arg rest ih =>
      obtain ⟨i, value⟩ := arg
      have hnew : i ∉ done.map Prod.fst := by
        rw [List.map_append, List.nodup_append] at hnodup
        exact fun hi => hnodup.2.2 i hi i List.mem_cons_self rfl
      obtain ⟨copies', st', hstep, h'⟩ := h.step hnew
        (fun hkey o ho => hends hkey i o (ho ▸ List.mem_cons_self)) rest
      rw [hstep]
      rw [List.append_cons] at hnodup ⊢
      exact ih h' hnodup fun hkey j o hj => hends hkey j o (List.mem_cons_of_mem _ hj)

/-! ### Generators that are too long -/

theorem splitIterator_cases {r : Option (Copy σ × Copy σ × Bool)} (hkey : c.keyFn = false)
    (h : c.splitIterator i o st = .ok (r, st')) :
    c.hashed o = false ∧ r = none ∧ st' = st ∨
      ∃ items calls forKey forBody refused, islice (c.given o) (materialisedItems + 1) (st.calls o) = .ok (items, calls) ∧
        r = some (forKey, forBody, refused) ∧ (refused = false → items.length ≤ materialisedItems) ∧
        ∀ o', o' ≠ o → st'.calls o' = st.calls o' := by
  rw [splitIterator, hkey, if_neg Bool.false_ne_true] at h
  split at h
  · split at h
    · cases h
    rename_i items calls htaken
    simp only at h
    split at h
    · cases h
      refine .inr ⟨items, calls, _, _, true, htaken, rfl, fun h => (by cases h), fun o' hne => ?_⟩
      rw [State.calls_enqueue]
      exact Function.update_of_ne hne _ _
    · rename_i hlen
      cases h
      refine .inr ⟨items, calls, _, _, false, htaken, rfl, fun _ => Nat.le_of_not_lt hlen, fun o' hne => ?_⟩
      rw [State.calls_enqueue, State.calls_enqueue]
      exact Function.update_of_ne hne _ _
  · rename_i ho
    cases h
    exact .inl ⟨Bool.eq_false_iff.mpr ho, rfl, rfl⟩

/-- Where nothing was too long and nothing raised, every generator taken out ends. -/
theorem ends_of_splitLoop {rest : List (σ × Option Nat)} (hkey : c.keyFn = false)
    (h : c.splitLoop rest copies st = .ok (copies', st')) (haccepted : copies'.refused = false) :
    copies.refused = false ∧ ∀ i o, (i, some o) ∈ rest → c.hashed o = true → st.calls o = 0 → c.Ends o := by
  induction rest generalizing copies st with
  | nil =>
      cases h
      exact ⟨haccepted, fun i o h => absurd h List.not_mem_nil⟩
  | cons arg rest ih =>
      obtain ⟨i, value⟩ := arg
      cases value with
      | none =>
          obtain ⟨hcopies, hrest⟩ := ih h
          refine ⟨hcopies, fun j o hj => hrest j o ((List.mem_cons.mp hj).resolve_left ?_)⟩
          simp
      | some o =>
          rw [Call.splitLoop] at h
          split at h
          · cases h
          · rename_i st₁ hsplit
            obtain ⟨hcopies, hrest⟩ := ih h
            rcases splitIterator_cases hkey hsplit with ⟨ho, -, rfl⟩ | ⟨_, _, _, _, _, _, hr, _⟩
            · refine ⟨hcopies, fun j o' hj ho' => hrest j o' ((List.mem_cons.mp hj).resolve_left ?_) ho'⟩
              rintro heq
              cases heq
              rw [ho] at ho'
              cases ho'
            · cases hr
          · rename_i forKey forBody refused st₁ hsplit
            obtain ⟨hcopies, hrest⟩ := ih h
            obtain ⟨hcopies, hrefused⟩ := Bool.or_eq_false_iff.mp hcopies
            rcases splitIterator_cases hkey hsplit with ⟨_, hr, _⟩ | ⟨items, calls, _, _, _, htaken, hr, hlen, hother⟩
            · cases hr
            cases hr
            refine ⟨hcopies, fun j o' hj ho' hzero => ?_⟩
            by_cases heq : o' = o
            · subst heq
              rw [hzero] at htaken
              obtain ⟨hitems, hstop⟩ := ends_of_islice htaken (Nat.lt_succ_of_le (hlen hrefused))
              simp only [Nat.zero_add] at hitems hstop
              exact ⟨items.length, hlen hrefused, hitems, hstop⟩
            · refine hrest j o' ((List.mem_cons.mp hj).resolve_left ?_) ho' ((hother o' heq).trans hzero)
              rintro h
              cases h
              exact heq rfl

end Call

/-! ## What the key build reads -/

namespace Call

variable {c : Call σ α ε} {i j : σ} {o : Nat} {copies : KeyCopies σ} {st : World σ α} {args : σ → Option (Copy σ)}

/-! ### The arguments of the body -/

theorem bodyArguments_of_not_mem {splits : List (Split σ)} (h : ∀ s ∈ splits, s.slot ≠ i) :
    c.bodyArguments splits st args i = args i := by
  induction splits generalizing args with
  | nil => rfl
  | cons s splits ih =>
      obtain ⟨hs, hsplits⟩ := List.forall_mem_cons.mp h
      exact (ih hsplits).trans (Function.update_of_ne (Ne.symm hs) _ _)

theorem bodyArguments_of_mem {splits : List (Split σ)} (hnodup : (splits.map Split.slot).Nodup) {s : Split σ} (hs : s ∈ splits) :
    c.bodyArguments splits st args s.slot = some (if c.kept st s then .original s.original else s.copy) := by
  induction splits generalizing args with
  | nil => cases hs
  | cons t splits ih =>
      obtain ⟨ht, hnodup⟩ := List.nodup_cons.mp hnodup
      rcases List.mem_cons.mp hs with rfl | hs
      · have hnot : ∀ t ∈ splits, t.slot ≠ s.slot := fun t htmem heq => ht (heq ▸ List.mem_map_of_mem htmem)
        exact (bodyArguments_of_not_mem hnot).trans (Function.update_self ..)
      · exact ih hnodup hs

theorem own_eq (ho : c.owner i = some o) : c.own i = some (.original o) := by
  rw [own, plain, ho, Option.map_some]

theorem own_none (ho : c.owner i = none) : c.own i = none := by
  rw [own, plain, ho, Option.map_none]

/-- The body's argument where the iterator is not split. -/
theorem Loop.body_unsplit (h : Loop c c.args copies st) {read : World σ α} (ho : c.owner i = some o)
    (hsplit : c.isSplit o = false) : c.bodyArguments copies.splits read c.own i = some (.original o) := by
  rw [bodyArguments_of_not_mem, own_eq ho]
  rintro s hs rfl
  obtain ⟨hmem, hs, -⟩ := h.sound s hs
  rw [owner_eq.mpr hmem] at ho
  cases ho
  rw [hsplit] at hs
  cases hs

theorem Loop.body_none (h : Loop c c.args copies st) {read : World σ α} (ho : c.owner i = none) :
    c.bodyArguments copies.splits read c.own i = none := by
  rw [bodyArguments_of_not_mem, own_none ho]
  rintro s hs rfl
  rw [owner_eq.mpr (h.sound s hs).1] at ho
  cases ho

/-- And where it is. -/
theorem Loop.body_split (h : Loop c c.args copies st) (read : World σ α) (ho : c.owner i = some o) (hsplit : c.isSplit o = true) :
    ∃ s ∈ copies.splits, s.slot = i ∧ s.original = o ∧
      c.bodyArguments copies.splits read c.own i = some (if c.kept read s then .original o else c.bodyCopy i o) := by
  obtain ⟨-, before, hmem⟩ := h.split i o (owner_eq.mp ho) hsplit
  exact ⟨_, hmem, rfl, rfl, bodyArguments_of_mem h.nodup hmem⟩

theorem Loop.key_split (h : Loop c c.args copies st) (ho : c.owner i = some o) (hsplit : c.isSplit o = true) :
    copies.args i = some (c.keyCopy i o) := (h.split i o (owner_eq.mp ho) hsplit).1

theorem Loop.key_unsplit (h : Loop c c.args copies st) (ho : c.owner i = some o) (hsplit : c.isSplit o = false) :
    copies.args i = some (.original o) := by
  rw [h.unsplit, own_eq ho]
  intro o' ho'
  rw [owner_eq.mpr ho'] at ho
  cases ho
  exact hsplit

theorem Loop.key_none (h : Loop c c.args copies st) (ho : c.owner i = none) : copies.args i = none := by
  rw [h.unsplit, own_none ho]
  intro o' ho'
  rw [owner_eq.mpr ho'] at ho
  cases ho

/-- A handle on what an argument is: it has a queue of its own, and what it draws is queued for the key's copy. -/
structure Handles (i : σ) (o : Nat) (h : Copy σ) : Prop where
  queue : h.queue = none ∨ h.queue = some (i, .body)
  source : h.source = none ∨ h.source = some o
  partner : h.partner = none ∨ h.partner = some (i, .key)

omit [DecidableEq σ] in
theorem handles_original : Handles i o (.original o) := ⟨.inl rfl, .inr rfl, .inl rfl⟩

omit [DecidableEq σ] in
theorem handles_bodyCopy : Handles i o (c.bodyCopy i o) := by
  rw [bodyCopy]
  split
  · exact ⟨.inr rfl, .inr rfl, .inr rfl⟩
  · exact ⟨.inr rfl, .inl rfl, .inl rfl⟩

theorem Loop.handles (h : Loop c c.args copies st) {read : World σ α} {h' : Copy σ}
    (hi : c.bodyArguments copies.splits read c.own i = some h') : ∃ o, c.owner i = some o ∧ Handles i o h' := by
  cases ho : c.owner i with
  | none =>
      rw [h.body_none ho] at hi
      cases hi
  | some o =>
      refine ⟨o, rfl, ?_⟩
      cases hsplit : c.isSplit o with
      | false =>
          rw [h.body_unsplit ho hsplit] at hi
          cases hi
          exact handles_original
      | true =>
          obtain ⟨s, _, _, _, hbody⟩ := h.body_split read ho hsplit
          rw [hbody] at hi
          cases hi
          split
          · exact handles_original
          · exact handles_bodyCopy

theorem Loop.slots (h : Loop c c.args copies st) (read : World σ α) :
    Slots c.owner (c.bodyArguments copies.splits read c.own) where
  held i := by
    cases ho : c.owner i with
    | none =>
        rw [h.body_none ho]
        rfl
    | some o =>
        cases hsplit : c.isSplit o with
        | false =>
            rw [h.body_unsplit ho hsplit]
            rfl
        | true =>
            obtain ⟨s, _, _, _, hbody⟩ := h.body_split read ho hsplit
            rw [hbody]
            rfl
  source i h' o hi hsource := by
    obtain ⟨o', ho', hh⟩ := h.handles hi
    rcases hh.source with hnone | hsome
    · rw [hsource] at hnone
      cases hnone
    · rw [ho', ← hsome, hsource]
  apart i j h₁ h₂ hij hi hj hqueue heq := by
    obtain ⟨o₁, -, hh₁⟩ := h.handles hi
    obtain ⟨o₂, -, hh₂⟩ := h.handles hj
    have h₁q := hh₁.queue.resolve_left hqueue
    rw [heq] at hqueue
    rw [heq, hh₂.queue.resolve_left hqueue] at h₁q
    simp only [Option.some.injEq, Prod.mk.injEq, and_true] at h₁q
    exact hij h₁q.symm
  partner i j h₁ h₂ hi hj hpartner heq := by
    obtain ⟨o₁, -, hh₁⟩ := h.handles hi
    obtain ⟨o₂, -, hh₂⟩ := h.handles hj
    have h₁p := hh₁.partner.resolve_left hpartner
    rw [heq] at hpartner
    rw [heq, hh₂.queue.resolve_left hpartner] at h₁p
    cases h₁p

/-! ### A key function -/

/-- What is queued for the body while the key reads its own copies. -/
structure KeyRead (c : Call σ α ε) (st : World σ α) : Prop where
  key : ∀ i, st.queued (i, .key) = []
  given : ∀ i o x, c.owner i = some o → x ∈ st.queued (i, .body) → ∃ k < st.calls o, c.given o k = .item x
  queued : ∀ o k x, k < st.calls o → c.given o k = .item x → ∃ i, c.owner i = some o ∧ x ∈ st.queued (i, .body)
  single : ∀ i o, c.owner i = some o → ¬Shared c.owner o → st.queued (i, .body) = items (c.given o) (st.calls o)

theorem KeyRead.start : KeyRead c .start where
  key _ := rfl
  given _ _ _ _ h := absurd h List.not_mem_nil
  queued _ _ _ h := absurd h (Nat.not_lt_zero _)
  single _ _ _ _ := rfl

/-- What one reading of the key's copy leaves. -/
theorem next_tee (hkey : st.queued (i, .key) = []) :
    let st' := (next c.given (.tee o (i, .key) (i, .body)) st).2
    st'.calls = Function.update st.calls o (st.calls o + 1) ∧ (∀ j, st'.queued (j, .key) = st.queued (j, .key)) ∧
      (∀ j, j ≠ i → st'.queued (j, .body) = st.queued (j, .body)) ∧
      st'.queued (i, .body) = match c.given o (st.calls o) with
        | .item x => st.queued (i, .body) ++ [x]
        | _ => st.queued (i, .body) := by
  have hp : st.pending (.tee o (i, .key) (i, .body)) = [] := hkey
  rw [next_of_source hp rfl]
  refine ⟨State.calls_pass _, ?_, ?_, ?_⟩
  · intro j
    refine State.queuedFor_pass_ne (r := some (j, Side.key)) _ fun _ h => ?_
    cases h
  · intro j hij
    refine State.queuedFor_pass_ne (r := some (j, Side.body)) _ fun _ h => hij ?_
    cases h
    rfl
  · cases hg : c.given o (st.calls o) with
    | item x => exact Function.update_self ..
    | stop => rfl
    | raised e => rfl

theorem KeyRead.step (h : KeyRead c st) (ho : c.owner i = some o) :
    KeyRead c (next c.given (.tee o (i, .key) (i, .body)) st).2 := by
  obtain ⟨hcalls, hkey, hother, hself⟩ := next_tee (c := c) (o := o) (h.key i)
  have hcalls_ne : ∀ o', o' ≠ o → (next c.given (.tee o (i, .key) (i, .body)) st).2.calls o' = st.calls o' := by
    intro o' hne
    rw [hcalls, Function.update_of_ne hne]
  have hcalls_self : (next c.given (.tee o (i, .key) (i, .body)) st).2.calls o = st.calls o + 1 := by
    rw [hcalls, Function.update_self]
  have hcalls_le : ∀ o', st.calls o' ≤ (next c.given (.tee o (i, .key) (i, .body)) st).2.calls o' := by
    intro o'
    by_cases heq : o' = o
    · rw [heq, hcalls_self]
      exact Nat.le_succ _
    · exact Nat.le_of_eq (hcalls_ne o' heq).symm
  constructor
  · exact fun j => (hkey j).trans (h.key j)
  · intro j o' x hj hx
    by_cases hji : j = i
    · subst hji
      rw [ho] at hj
      cases hj
      rw [hself] at hx
      split at hx
      · rename_i y hy
        rcases List.mem_append.mp hx with hx | hx
        · obtain ⟨k, hk, hgiven⟩ := h.given j o x ho hx
          exact ⟨k, Nat.lt_of_lt_of_le hk (hcalls_le o), hgiven⟩
        · obtain rfl := List.mem_singleton.mp hx
          exact ⟨st.calls o, by rw [hcalls_self]; exact Nat.lt_succ_self _, hy⟩
      · obtain ⟨k, hk, hgiven⟩ := h.given j o x ho hx
        exact ⟨k, Nat.lt_of_lt_of_le hk (hcalls_le o), hgiven⟩
    · rw [hother j hji] at hx
      obtain ⟨k, hk, hgiven⟩ := h.given j o' x hj hx
      exact ⟨k, Nat.lt_of_lt_of_le hk (hcalls_le o'), hgiven⟩
  · intro o' k x hk hx
    have hold : k < st.calls o' → ∃ j, c.owner j = some o' ∧
        x ∈ (Tee.next c.given (.tee o (i, .key) (i, .body)) st).2.queued (j, .body) := by
      intro hk
      obtain ⟨j, hj, hqueued⟩ := h.queued o' k x hk hx
      refine ⟨j, hj, ?_⟩
      by_cases hji : j = i
      · subst hji
        rw [hself]
        split
        · exact List.mem_append_left _ hqueued
        · exact hqueued
      · rw [hother j hji]
        exact hqueued
    by_cases heq : o' = o
    · subst heq
      rw [hcalls_self] at hk
      rcases Nat.lt_succ_iff_lt_or_eq.mp hk with hk | rfl
      · exact hold hk
      · refine ⟨i, ho, ?_⟩
        rw [hself, hx]
        exact List.mem_append_right _ List.mem_cons_self
    · rw [hcalls_ne o' heq] at hk
      exact hold hk
  · intro j o' hj hshared
    by_cases hji : j = i
    · subst hji
      rw [ho] at hj
      cases hj
      rw [hself, hcalls_self, h.single j o ho hshared]
      cases hg : c.given o (st.calls o) with
      | item x => rw [items_succ hg]
      | stop => rw [items_succ_of_ne fun x => by rw [hg]; exact nofun]
      | raised e => rw [items_succ_of_ne fun x => by rw [hg]; exact nofun]
    · have hne : o' ≠ o := by
        rintro rfl
        exact hshared ⟨j, i, hji, hj, ho⟩
      rw [hother j hji, hcalls_ne o' hne]
      exact h.single j o' hj hshared

theorem countP_owner (i : σ) (reads : List σ) (o : Nat) :
    (i :: reads).countP (fun i => c.owner i = some o) =
      (if c.owner i = some o then 1 else 0) + reads.countP fun i => c.owner i = some o := by
  rw [List.countP_cons, Nat.add_comm]
  simp only [decide_eq_true_eq]

/-- What the key read of its copies. -/
theorem Loop.keyRead (h : Loop c c.args copies st) (hkey : c.keyFn = true) (reads : List σ) {read : World σ α}
    (hread : KeyRead c read) : KeyRead c (after c.given copies.args reads read) ∧
      ∀ o, (after c.given copies.args reads read).calls o = read.calls o + reads.countP fun i => c.owner i = some o := by
  induction reads generalizing read with
  | nil => exact ⟨hread, fun o => rfl⟩
  | cons i reads ih =>
      rw [after]
      cases ho : c.owner i with
      | none =>
          rw [pull_none (h.key_none ho)]
          obtain ⟨hrest, hcalls⟩ := ih hread
          refine ⟨hrest, fun o => ?_⟩
          rw [hcalls, countP_owner, ho, if_neg (by simp), Nat.zero_add]
      | some o =>
          have harg : copies.args i = some (.tee o (i, .key) (i, .body)) := by
            rw [h.key_split ho (by rw [isSplit, hkey]; rfl), keyCopy, hkey]
            rfl
          rw [pull_some harg]
          obtain ⟨hrest, hcalls⟩ := ih (hread.step ho)
          refine ⟨hrest, fun o' => ?_⟩
          rw [hcalls, (next_tee (hread.key i)).1, countP_owner, ho]
          by_cases heq : o = o'
          · subst heq
            rw [Function.update_self, if_pos rfl, Nat.add_assoc]
          · rw [Function.update_of_ne (Ne.symm heq), if_neg (by simpa using heq), Nat.zero_add]

/-! ### Registered hashers -/

/-- Where nothing but generators is split, the key build draws what it reads of the others and leaves what is queued for
the body. -/
theorem Loop.hashedRead (h : Loop c c.args copies st) (hkey : c.keyFn = false) (reads : List σ) (read : World σ α) :
    (∀ i, (after c.given copies.args reads read).queued (i, .body) = read.queued (i, .body)) ∧
      (∀ o, c.hashed o = true → (after c.given copies.args reads read).calls o = read.calls o) ∧
      ∀ o, c.hashed o = false → (after c.given copies.args reads read).calls o =
        read.calls o + reads.countP fun i => c.owner i = some o := by
  have hsplit : ∀ o, c.isSplit o = c.hashed o := fun o => by rw [isSplit, hkey, Bool.false_or]
  induction reads generalizing read with
  | nil => exact ⟨fun i => rfl, fun o _ => rfl, fun o _ => rfl⟩
  | cons i reads ih =>
      rw [after]
      cases ho : c.owner i with
      | none =>
          rw [pull_none (h.key_none ho)]
          obtain ⟨hqueued, hhashed, hplain⟩ := ih read
          refine ⟨hqueued, hhashed, fun o hfalse => ?_⟩
          rw [hplain o hfalse, countP_owner, ho, if_neg (by simp), Nat.zero_add]
      | some o =>
          cases hhash : c.hashed o with
          | true =>
              have harg : copies.args i = some (.listed (i, .key)) := by
                rw [h.key_split ho ((hsplit o).trans hhash), keyCopy, hkey]
                rfl
              rw [pull_some harg]
              obtain ⟨hqueued, hhashed, hplain⟩ := ih (next c.given (.listed (i, .key)) read).2
              have hcalls : ∀ o, (next c.given (.listed (i, .key)) read).2.calls o = read.calls o := fun o => calls_next (by simp [Handle.listed])
              refine ⟨fun j => (hqueued j).trans ?_, fun o' ho' => (hhashed o' ho').trans (hcalls o'), fun o' ho' => ?_⟩
              · have hkept : (next c.given (.listed (i, .key)) read).2.pending (.listed (j, .body)) = read.pending (.listed (j, .body)) :=
                  pending_next (fun _ heq => by cases heq) (fun hne => absurd rfl hne)
                exact hkept
              · have hne : o ≠ o' := by
                  rintro rfl
                  rw [hhash] at ho'
                  cases ho'
                rw [hplain o' ho', hcalls, countP_owner, ho, if_neg (by simpa using hne), Nat.zero_add]
          | false =>
              have harg : copies.args i = some (.original o) := h.key_unsplit ho ((hsplit o).trans hhash)
              rw [pull_some harg]
              obtain ⟨hqueued, hhashed, hplain⟩ := ih (next c.given (.original o) read).2
              refine ⟨fun j => (hqueued j).trans ?_, fun o' ho' => (hhashed o' ho').trans ?_, fun o' ho' => ?_⟩
              · have hkept : (next c.given (.original o) read).2.pending (.listed (j, .body)) = read.pending (.listed (j, .body)) :=
                  pending_next (fun hne => absurd rfl hne) (fun hne => absurd rfl hne)
                exact hkept
              · refine calls_next ?_
                rintro heq
                cases heq
                rw [hhash] at ho'
                cases ho'
              · rw [hplain o' ho', countP_owner, ho]
                by_cases heq : o = o'
                · subst heq
                  rw [calls_next_of_source rfl rfl, if_pos rfl, Nat.add_assoc]
                · rw [calls_next (by simpa [Handle.original] using heq), if_neg (by simpa using heq), Nat.zero_add]

end Call

end Cash.Iters
