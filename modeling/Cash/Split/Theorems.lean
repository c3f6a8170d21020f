import Cash.Split.Loop

/-!
# The split run of a loop
-/

namespace Cash.Split

open Iter

variable {σ α ε : Type}

/-! ## The items the halves are cut with -/

section

/-! ### A body without `break` and `continue` -/

/-- A signal that stays in the body. -/
def Signal.Stays : Signal ε → Prop
  | .done => True
  | .raise _ => True
  | .brk => False
  | .cont => False

theorem stays_endOf (e : Option ε) : (endOf e).Stays := by
  cases e <;> trivial

mutual
theorem Stmt.exec_stays (stmt : Stmt σ ε) (h : ∀ node ∈ stmt.walk, ¬(node = .brk ∨ node = .cont)) (s : σ) :
    (stmt.exec s).2.Stays := by
  cases stmt with
  | simple calls run =>
    simp only [Stmt.exec]
    exact stays_endOf _
  | brk => exact absurd (.inl rfl) (h .brk (by simp [Stmt.walk]))
  | cont => exact absurd (.inr rfl) (h .cont (by simp [Stmt.walk]))
  | cond calls test body orelse =>
    simp only [Stmt.walk, List.mem_append] at h
    simp only [Stmt.exec]
    split
    · exact execAll_stays body (fun node hn => h node (.inl (.inr hn))) _
    · exact execAll_stays orelse (fun node hn => h node (.inr hn)) _
    · trivial
  | inner calls body run =>
    simp only [Stmt.exec]
    exact stays_endOf _

theorem execAll_stays (body : List (Stmt σ ε)) (h : ∀ node ∈ walkAll body, ¬(node = .brk ∨ node = .cont)) (s : σ) :
    (execAll body s).2.Stays := by
  cases body with
  | nil => trivial
  | cons stmt rest =>
    simp only [walkAll, List.mem_append] at h
    have hstmt := Stmt.exec_stays stmt (fun node hn => h node (.inl hn)) s
    simp only [execAll]
    split
    · exact execAll_stays rest (fun node hn => h node (.inr hn)) _
    · exact hstmt
end

namespace For

variable {node : For σ α ε} {value : Value σ α} {s : σ} {k n : Nat}

theorem eligible_eq_some (h : node.eligible value s = some n) :
    node.orelse = [] ∧ ∀ m ∈ walkAll node.body, ¬(m = .brk ∨ m = .cont) := by
  unfold eligible at h
  split at h
  · cases h
  · next hhalf =>
    split at h
    · cases h
    split at h
    · cases h
    split at h
    · cases h
    split at h
    · cases h
    · next hnodes =>
      simp only [Bool.or_eq_true, Bool.not_eq_true', not_or, Bool.not_eq_false, List.isEmpty_iff] at hhalf
      simp only [List.any_eq_true, decide_eq_true_eq, not_exists, not_and] at hnodes
      exact ⟨hhalf.1, hnodes⟩

theorem pass_ne_stop (h : node.eligible value s = some n) (t : σ) (item : α) : (node.pass t item).2 ≠ .stop := by
  have hstays := fun t => execAll_stays node.body (eligible_eq_some h).2 t
  unfold pass
  split
  · simp
  · next t' _ =>
    have ht := hstays t'
    split
    · simp
    · simp
    · next hbrk => simp [hbrk, Signal.Stays] at ht
    · simp

/-! ### The split run as one run -/

/-- The items of the head, and those of the tail where the head comes to an end. -/
def cut (node : For σ α ε) (k : Nat) (value : Value σ α) (s : σ) : List α :=
  let head := runOver node.pass ((value.items s).take k) s
  (value.items s).take k ++
    match head.error with
    | some _ => []
    | none => (value.items head.state).drop k

theorem runSplit_eq (h : node.eligible value s = some n) :
    node.runSplit k value s = some (runOver node.pass (node.cut k value s) s) := by
  have hsplit : node.splitNodes k = some ({ node with iter := .slice node.iter none (some k), orelse := [] },
      { node with iter := .slice node.iter (some k) none, orelse := [] }) := by
    simp [splitNodes, (eligible_eq_some h).1]
  simp only [runSplit, hsplit, Option.bind_eq_bind, Option.bind_some, Option.pure_def, Option.some.injEq, cut]
  rw [runOver_append (pass_ne_stop h)]
  change (runOver node.pass _ s).andThen _ = _
  unfold Run.andThen
  split
  · rfl
  · next hnone => simp only [hnone]; rfl

theorem length_take_items : ((value.items s).take k).length = headLength k value s := List.length_take

theorem getElem?_cut_of_lt {i : Nat} (hi : i < headLength k value s) :
    (node.cut k value s)[i]? = (value.items s)[i]? := by
  unfold cut
  rw [List.getElem?_append_left (by rwa [length_take_items]), List.getElem?_take_of_lt]
  unfold headLength at hi
  omega

theorem getElem?_cut_of_le {i : Nat} (hi : headLength k value s ≤ i) {t : σ}
    (h : runOver node.pass ((value.items s).take k) s = ⟨(value.items s).take k, t, none⟩) :
    (node.cut k value s)[i]? = (value.items t)[i + (k - headLength k value s)]? := by
  have hk : headLength k value s ≤ k := Nat.min_le_left ..
  unfold cut
  rw [List.getElem?_append_right (by rwa [length_take_items]), h, length_take_items]
  rw [List.getElem?_drop, show k + (i - headLength k value s) = i + (k - headLength k value s) by omega]

/-- A loop that draws the head's items and comes past them ran the head. -/
theorem runOver_take (hhead : ∀ i t, node.Draws value s i t → i < headLength k value s →
      (value.items t)[i]? = (value.items s)[i]?) {u : σ} (hu : node.Draws value s (headLength k value s) u) :
    runOver node.pass ((value.items s).take k) s = ⟨(value.items s).take k, u, none⟩ := by
  apply runOver_of_reaches (fun i s => (value.items s)[i]?) (i := 0)
  · intro i t ht hi
    rw [Nat.sub_zero, length_take_items] at hi
    have hk : i < k := Nat.lt_of_lt_of_le hi (Nat.min_le_left ..)
    rw [hhead i t ht hi, Nat.sub_zero, List.getElem?_take_of_lt hk]
  · rwa [Nat.zero_add, length_take_items]

/-- The loop draws what the halves are cut with exactly when what it iterates stays in place. -/
theorem draws_cut_iff :
    (∀ i t, node.Draws value s i t → (value.items t)[i]? = (node.cut k value s)[i]?) ↔ node.Steady k value s := by
  constructor
  · intro hcut i t ht
    refine ⟨fun hi => by rw [hcut i t ht, getElem?_cut_of_lt hi], fun u hi hu => ?_⟩
    have hrun := runOver_take (fun j v hv hj => by rw [hcut j v hv, getElem?_cut_of_lt hj]) hu
    rw [hcut i t ht, getElem?_cut_of_le hi hrun]
  · intro hsteady i t ht
    rcases Nat.lt_or_ge i (headLength k value s) with hi | hi
    · rw [(hsteady i t ht).1 hi, getElem?_cut_of_lt hi]
    · obtain ⟨u, hu, -⟩ := Reaches.through ht (Nat.zero_le _) hi
      have hrun := runOver_take (fun j v hv hj => (hsteady j v hv).1 hj) hu
      rw [(hsteady i t ht).2 u hi hu, getElem?_cut_of_le hi hrun]

theorem split_iff (h : node.eligible value s = some n) :
    (∃ r fuel, node.runSplit k value s = some r ∧ node.direct value fuel s = some r) ↔ node.Steady k value s := by
  rw [← draws_cut_iff]
  have hone := iterate_eq_runOver_iff (fun i s => (value.items s)[i]?) node.pass
    (node.cut k value s) 0 s
  simp only [Nat.sub_zero] at hone
  simp only [runSplit_eq h, Option.some.injEq, exists_eq_left', exists_comm (α := Run σ α ε)]
  exact hone

end For

end

/-! ## When a split loop is the loop -/

namespace For

/-- A loop that `eligible` accepts runs as its two halves do, the same items in the same order to the same state and
error, exactly when it leaves in place what it iterates. -/
theorem runSplit_eq_direct_iff (node : For σ α ε) (value : Value σ α) (s : σ) (n k : Nat)
    (h : node.eligible value s = some n) :
    (∃ r fuel, node.runSplit k value s = some r ∧ node.direct value fuel s = some r) ↔ node.Steady k value s :=
  split_iff h

/-- A header whose items no pass changes, as a tuple, a range, a string and bytes always are. -/
theorem steady_of_unchanged {node : For σ α ε} {value : Value σ α} {s : σ} {k : Nat}
    (h : ∀ t x, value.items (node.pass t x).1 = value.items t) : node.Steady k value s := by
  have hdraws : ∀ i j u t, Reaches (fun i s => (value.items s)[i]?) node.pass i u j t → value.items t = value.items u := by
    intro i j u t ht
    induction ht with
    | refl => rfl
    | @pass i j u u' t x _ hp _ ih => rw [ih, ← h u x, hp]
  intro i t ht
  refine ⟨fun _ => by rw [hdraws _ _ _ _ ht], fun u hi hu => ?_⟩
  rw [hdraws _ _ _ _ ht, hdraws _ _ _ _ hu]
  unfold headLength at hi ⊢
  rcases Nat.le_total k (value.items s).length with hk | hk
  · rw [Nat.min_eq_left hk, Nat.sub_self, Nat.add_zero]
  · rw [Nat.min_eq_right hk] at hi ⊢
    rw [List.getElem?_eq_none hi, List.getElem?_eq_none (by omega)]

end For

/-! ### `for x in xs` -/

/-- The name `x` and the list `xs`. -/
abbrev Names := Nat × List Nat

def looping (body : Names → Names) : For Names Nat String where
  bind s x := ((x, s.2), none)
  iter := .expr "xs"
  body := [.simple [some "step"] fun s => (body s, none)]
  orelse := []

/-- A body that counts up `x` leaves the list in place. -/
theorem runSplit_counting :
    ∃ r fuel, (looping fun s => (s.1 + 1, s.2)).runSplit 5 (.list Prod.snd) (0, [0, 1, 2, 3, 4, 5]) = some r ∧
      (looping fun s => (s.1 + 1, s.2)).direct (.list Prod.snd) fuel (0, [0, 1, 2, 3, 4, 5]) = some r :=
  (For.runSplit_eq_direct_iff (looping fun s => (s.1 + 1, s.2)) (.list Prod.snd) (0, [0, 1, 2, 3, 4, 5]) 6 5
    (by decide)).mpr (For.steady_of_unchanged fun _ _ => rfl)

/-- `xs.pop()`. -/
def popping : For Names Nat String := looping fun s => (s.1, s.2.dropLast)

/-- A list popped in each pass: the loop takes three of its six items, the head its first five. -/
theorem popped_list :
    popping.eligible (.list Prod.snd) (0, [0, 1, 2, 3, 4, 5]) = some 6 ∧
    (popping.direct (.list Prod.snd) 4 (0, [0, 1, 2, 3, 4, 5])).map (·.items) = some [0, 1, 2] ∧
    (popping.runSplit 5 (.list Prod.snd) (0, [0, 1, 2, 3, 4, 5])).map (·.items) = some [0, 1, 2, 3, 4] ∧
    ¬∃ r fuel, popping.runSplit 5 (.list Prod.snd) (0, [0, 1, 2, 3, 4, 5]) = some r ∧
      popping.direct (.list Prod.snd) fuel (0, [0, 1, 2, 3, 4, 5]) = some r := by
  have h : popping.eligible (.list Prod.snd) (0, [0, 1, 2, 3, 4, 5]) = some 6 := by decide
  refine ⟨h, rfl, rfl, fun hsame => ?_⟩
  have hthree : popping.Draws (.list Prod.snd) (0, [0, 1, 2, 3, 4, 5]) 3 (2, [0, 1, 2]) :=
    .pass rfl rfl (.pass rfl rfl (.pass rfl rfl .refl))
  have hplace := ((For.split_iff h).mp hsame 3 _ hthree).1 (by decide)
  exact absurd hplace (by decide)

end Cash.Split
