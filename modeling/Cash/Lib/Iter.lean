import Mathlib.Data.List.Basic

/-!
# A loop over items, and over what a changing source draws

`runOver` takes its items from a list that no longer changes; `iterate` asks for item `i` in the state it is in. Which
items a source must draw for the two to be one run (`iterate_eq_runOver_iff`).
-/

namespace Iter

variable {σ α ε : Type*}

/-- How one pass leaves the loop. -/
inductive Leave (ε : Type*)
  | next
  | stop
  | raise (e : ε)

/-- A finished run: the items it took, the state it left, and the error it ended with. -/
@[ext]
structure Run (σ α ε : Type*) where
  items : List α
  state : σ
  error : Option ε

namespace Run

def push (x : α) (r : Run σ α ε) : Run σ α ε := { r with items := x :: r.items }

@[simp] theorem push_items (x : α) (r : Run σ α ε) : (r.push x).items = x :: r.items := rfl
@[simp] theorem push_state (x : α) (r : Run σ α ε) : (r.push x).state = r.state := rfl
@[simp] theorem push_error (x : α) (r : Run σ α ε) : (r.push x).error = r.error := rfl

theorem push_inj {x y : α} {r t : Run σ α ε} (h : r.push x = t.push y) : x = y ∧ r = t := by
  have hitems := congrArg Run.items h
  simp only [push_items, List.cons.injEq] at hitems
  exact ⟨hitems.1, Run.ext hitems.2 (by simpa using congrArg Run.state h) (by simpa using congrArg Run.error h)⟩

/-- A run, and another where it ended. -/
def andThen (r : Run σ α ε) (next : σ → Run σ α ε) : Run σ α ε :=
  match r.error with
  | some _ => r
  | none => { next r.state with items := r.items ++ (next r.state).items }

theorem push_andThen (x : α) (r : Run σ α ε) (next : σ → Run σ α ε) :
    (r.push x).andThen next = (r.andThen next).push x := by
  unfold andThen
  cases h : r.error with
  | some e => simp [h]
  | none => simp [h, push]

end Run

variable (draw : Nat → σ → Option α) (pass : σ → α → σ × Leave ε)

def runOver : List α → σ → Run σ α ε
  | [], s => ⟨[], s, none⟩
  | x :: xs, s =>
    match pass s x with
    | (s, .next) => (runOver xs s).push x
    | (s, .stop) => ⟨[x], s, none⟩
    | (s, .raise e) => ⟨[x], s, some e⟩

/-- The loop from item `i` on; none when the fuel is used up. -/
def iterate : Nat → Nat → σ → Option (Run σ α ε)
  | 0, _, _ => none
  | fuel + 1, i, s =>
    match draw i s with
    | none => some ⟨[], s, none⟩
    | some x =>
      match pass s x with
      | (s, .next) => (iterate fuel (i + 1) s).map (·.push x)
      | (s, .stop) => some ⟨[x], s, none⟩
      | (s, .raise e) => some ⟨[x], s, some e⟩

/-- The loop about to draw item `i` in state `s` comes to draw item `j` in state `t`. -/
inductive Reaches : Nat → σ → Nat → σ → Prop
  | refl {i : Nat} {s : σ} : Reaches i s i s
  | pass {i j : Nat} {s s' t : σ} {x : α} : draw i s = some x → pass s x = (s', .next) → Reaches (i + 1) s' j t →
      Reaches i s j t

variable {draw pass}

theorem Reaches.le {i j : Nat} {s t : σ} (h : Reaches draw pass i s j t) : i ≤ j := by
  induction h with
  | refl => exact Nat.le_refl _
  | pass _ _ _ ih => omega

/-- The loop comes to each item in one state only. -/
theorem Reaches.unique {i j : Nat} {s t u : σ} (h : Reaches draw pass i s j t) (h' : Reaches draw pass i s j u) :
    t = u := by
  induction h with
  | refl =>
    cases h' with
    | refl => rfl
    | pass _ _ h' => exact absurd h'.le (by omega)
  | pass hx hs h ih =>
    cases h' with
    | refl => exact absurd h.le (by omega)
    | pass hx' hs' h' =>
      cases hx.symm.trans hx'
      cases hs.symm.trans hs'
      exact ih h'

theorem runOver_append (hstop : ∀ s x, (pass s x).2 ≠ .stop) (xs ys : List α) (s : σ) :
    runOver pass (xs ++ ys) s = (runOver pass xs s).andThen (runOver pass ys) := by
  induction xs generalizing s with
  | nil => rfl
  | cons x xs ih =>
    rw [List.cons_append]
    unfold runOver
    rcases h : pass s x with ⟨s', _ | _ | e⟩
    · simp only [ih, Run.push_andThen]
    · exact absurd (congrArg Prod.snd h) (hstop s x)
    · rfl

/-- A loop past the items of a run that it drew ended that run without an error, in the state it is in. -/
theorem runOver_of_reaches (draw : Nat → σ → Option α) {xs : List α} {i : Nat} {s u : σ}
    (hdraw : ∀ j t, Reaches draw pass i s j t → j - i < xs.length → draw j t = xs[j - i]?)
    (h : Reaches draw pass i s (i + xs.length) u) : runOver pass xs s = ⟨xs, u, none⟩ := by
  induction xs generalizing i s with
  | nil =>
    obtain rfl := Reaches.unique .refl h
    rfl
  | cons x xs ih =>
    have hx : draw i s = some x := by simpa using hdraw i s .refl (by simp)
    rw [List.length_cons, show i + (xs.length + 1) = i + 1 + xs.length by omega] at h
    generalize hj : i + 1 + xs.length = j at h
    cases h with
    | refl => omega
    | pass hx' hp h =>
      subst hj
      cases hx.symm.trans hx'
      simp only [runOver, hp]
      rw [ih (fun j t hj hlt => ?_) h]
      · rfl
      · have hle := hj.le
        have hcons := hdraw j t (.pass hx hp hj) (by simp only [List.length_cons]; omega)
        rwa [show j - i = j - (i + 1) + 1 by omega, List.getElem?_cons_succ] at hcons

theorem Reaches.through {i j k : Nat} {s u : σ} (h : Reaches draw pass i s k u) (hij : i ≤ j) (hjk : j ≤ k) :
    ∃ t, Reaches draw pass i s j t ∧ Reaches draw pass j t k u := by
  induction h with
  | @refl i s =>
    obtain rfl : i = j := by omega
    exact ⟨s, .refl, .refl⟩
  | @pass i k s s' u x hx hp h ih =>
    rcases Nat.eq_or_lt_of_le hij with rfl | hlt
    · exact ⟨s, .refl, .pass hx hp h⟩
    · obtain ⟨t, hto, hfrom⟩ := ih hlt hjk
      exact ⟨t, .pass hx hp hto, hfrom⟩

theorem head_runOver (xs : List α) (s : σ) : (runOver pass xs s).items.head? = xs.head? := by
  cases xs with
  | nil => rfl
  | cons x xs =>
    unfold runOver
    rcases pass s x with ⟨s', _ | _ | e⟩ <;> rfl

theorem head_iterate {fuel i : Nat} {s : σ} {r : Run σ α ε} (h : iterate draw pass fuel i s = some r) :
    r.items.head? = draw i s := by
  cases fuel with
  | zero => cases h
  | succ fuel =>
    unfold iterate at h
    cases hx : draw i s with
    | none => simpa [hx] using congrArg (Option.map (·.items.head?)) h.symm
    | some x =>
      rcases hp : pass s x with ⟨s', _ | _ | e⟩
      · simp only [hx, hp, Option.map_eq_some_iff] at h
        obtain ⟨r, -, rfl⟩ := h
        rfl
      · simpa [hx, hp] using congrArg (Option.map (·.items.head?)) h.symm
      · simpa [hx, hp] using congrArg (Option.map (·.items.head?)) h.symm

/-- The loop is the run over `xs` exactly when each item it comes to draw is the one of `xs`, or none as in `xs`. -/
theorem iterate_eq_runOver_iff (draw : Nat → σ → Option α) (pass : σ → α → σ × Leave ε) (xs : List α) (i : Nat) (s : σ) :
    (∃ fuel, iterate draw pass fuel i s = some (runOver pass xs s)) ↔
      ∀ j t, Reaches draw pass i s j t → draw j t = xs[j - i]? := by
  constructor
  · rintro ⟨fuel, h⟩ j t hj
    induction hj generalizing xs fuel with
    | @refl i s => rw [← head_iterate h, head_runOver, Nat.sub_self, List.head?_eq_getElem?]
    | @pass i j s s' t x hx hp hj ih =>
      cases xs with
      | nil => simpa [hx, runOver] using head_iterate h
      | cons y xs =>
        have hy : some y = some x := by rw [← hx, ← head_iterate h, head_runOver, List.head?_cons]
        cases hy
        cases fuel with
        | zero => cases h
        | succ fuel =>
          simp only [iterate, hx, runOver, hp, Option.map_eq_some_iff] at h
          obtain ⟨r, hr, hpush⟩ := h
          have hle := hj.le
          rw [ih xs fuel (by rw [hr, (Run.push_inj hpush).2]), show j - i = j - (i + 1) + 1 by omega,
            List.getElem?_cons_succ]
  · intro h
    induction xs generalizing i s with
    | nil =>
      have hx : draw i s = none := by simpa using h i s .refl
      exact ⟨1, by simp [iterate, hx, runOver]⟩
    | cons x xs ih =>
      have hx : draw i s = some x := by simpa using h i s .refl
      rcases hp : pass s x with ⟨s', _ | _ | e⟩
      · obtain ⟨fuel, hfuel⟩ := ih (i + 1) s' fun j t hj => by
          have hle := hj.le
          rw [h j t (.pass hx hp hj), show j - i = j - (i + 1) + 1 by omega, List.getElem?_cons_succ]
        exact ⟨fuel + 1, by simp [iterate, hx, runOver, hp, hfuel]⟩
      · exact ⟨1, by simp [iterate, hx, runOver, hp]⟩
      · exact ⟨1, by simp [iterate, hx, runOver, hp]⟩

end Iter
