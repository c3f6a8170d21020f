import Mathlib.Data.List.Forall2
import Mathlib.Data.Option.Basic
import Mathlib.Tactic.Common

/-!
# Places in a graph

A graph gives each node the nodes it holds, in order. A place below a node is a list of positions; two graphs that are
related step by step have related nodes at every place.
-/

namespace Cash

variable {ν μ : Type}

/-- The node at a place: the node itself, or the place below one that it holds. -/
def place (kids : ν → List ν) : ν → List Nat → Option ν
  | x, [] => some x
  | x, i :: p => (kids x)[i]?.bind fun y => place kids y p

variable {kids : ν → List ν} {kids' : μ → List μ}

@[simp] theorem place_nil (x : ν) : place kids x [] = some x := rfl

theorem place_cons (x : ν) (i : Nat) (p : List Nat) :
    place kids x (i :: p) = (kids x)[i]?.bind fun y => place kids y p := rfl

theorem place_cons_eq_some {x z : ν} {i : Nat} {p : List Nat} :
    place kids x (i :: p) = some z ↔ ∃ y, (kids x)[i]? = some y ∧ place kids y p = some z := by
  rw [place_cons, Option.bind_eq_some_iff]

theorem place_append (x : ν) (p q : List Nat) :
    place kids x (p ++ q) = (place kids x p).bind fun y => place kids y q := by
  induction p generalizing x with
  | nil => rfl
  | cons i p ih =>
    rw [List.cons_append, place_cons, place_cons, Option.bind_assoc]
    congr 1
    funext y
    exact ih y

/-- One step further down. -/
theorem place_concat {x y z : ν} {p : List Nat} {i : Nat} (hy : place kids x p = some y)
    (hz : (kids y)[i]? = some z) : place kids x (p ++ [i]) = some z := by
  rw [place_append, hy, Option.bind_some, place_cons, hz]
  rfl

/-- What holds of a node and of all that a node it holds of holds, holds at every place. -/
theorem place_induction {P : ν → Prop} (hstep : ∀ x, P x → ∀ y ∈ kids x, P y) {x y : ν} {p : List Nat} (hx : P x)
    (hy : place kids x p = some y) : P y := by
  induction p generalizing x with
  | nil =>
    cases hy
    exact hx
  | cons i p ih =>
    obtain ⟨z, hz, hy⟩ := place_cons_eq_some.mp hy
    exact ih (hstep x hx z (List.mem_of_getElem? hz)) hy

/-- Related nodes hold related nodes. -/
def Simulates (kids : ν → List ν) (kids' : μ → List μ) (R : ν → μ → Prop) : Prop :=
  ∀ x y, R x y → List.Forall₂ R (kids x) (kids' y)

theorem Simulates.place {R : ν → μ → Prop} (h : Simulates kids kids' R) {x : ν} {y : μ} (hxy : R x y) (p : List Nat) :
    Option.Rel R (place kids x p) (place kids' y p) := by
  induction p generalizing x y with
  | nil => exact .some hxy
  | cons i p ih =>
    rw [place_cons, place_cons]
    have hkids := (List.forall₂_iff_get.mp (h x y hxy))
    by_cases hi : i < (kids x).length
    · have hi' : i < (kids' y).length := hkids.1 ▸ hi
      rw [List.getElem?_eq_getElem hi, List.getElem?_eq_getElem hi']
      exact ih (hkids.2 i hi hi')
    · have hi' : ¬ i < (kids' y).length := hkids.1 ▸ hi
      rw [List.getElem?_eq_none (by omega), List.getElem?_eq_none (by omega)]
      exact .none

end Cash
