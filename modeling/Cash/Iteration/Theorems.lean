import Cash.Iteration.Lemmas

/-!
# When two passes of a loop are two keys
-/

namespace Cash.Iteration

open Py Literal Items

variable {O : Type} {w : World O}

/-! ## What the passes hold -/

/-- What an assignment of the value leaves under a name. -/
def assigned (w : World O) (t : Target) (v : Value O) (k : Str) : Option (Value O) :=
  (assign w t v).bind fun writes => lastFrom none writes k

/-- The digests of contents and of identities are told apart. -/
structure World.Fresh (w : World O) : Prop where
  injective : Function.Injective w.computeHash
  apart : ∀ v n, w.computeHash v ≠ w.identityPrefix ++ decimal n

variable {t : Target} {v v' : Value O} {ns ns' : Namespace O} {parent : Context O} {count count' : Nat} {p p' : Pass O}

mutual

theorem plainOf_inj : ∀ {x y : Value O} {p : Plain}, plainOf x = some p → plainOf y = some p → x = y
  | .prim a, y, p, hx, hy => by
      cases hx
      cases y with
      | prim b =>
          cases hy
          rfl
      | tuple ys =>
          rw [plainOf, Option.map_eq_some_iff] at hy
          obtain ⟨ps, -, hps⟩ := hy
          cases hps
      | list ys => cases hy
      | obj o => cases hy
  | .tuple xs, y, p, hx, hy => by
      rw [plainOf, Option.map_eq_some_iff] at hx
      obtain ⟨ps, hps, rfl⟩ := hx
      cases y with
      | prim b => cases hy
      | tuple ys =>
          rw [plainOf, Option.map_eq_some_iff] at hy
          obtain ⟨qs, hqs, hqp⟩ := hy
          cases hqp
          rw [plainsOf_inj hps hqs]
      | list ys => cases hy
      | obj o => cases hy
  | .list xs, y, p, hx, hy => by cases hx
  | .obj o, y, p, hx, hy => by cases hx

theorem plainsOf_inj : ∀ {xs ys : List (Value O)} {ps : List Plain}, plainsOf xs = some ps → plainsOf ys = some ps → xs = ys
  | [], ys, ps, hx, hy => by
      cases hx
      cases ys with
      | nil => rfl
      | cons y ys =>
          rw [plainsOf] at hy
          split at hy <;> cases hy
  | x :: xs, ys, ps, hx, hy => by
      rw [plainsOf] at hx
      split at hx
      · next p ps' hp hps =>
        cases hx
        cases ys with
        | nil => cases hy
        | cons y ys =>
            rw [plainsOf] at hy
            split at hy
            · next q qs hq hqs =>
              cases hy
              rw [plainOf_inj hp hq, plainsOf_inj hps hqs]
            · cases hy
      · cases hx

end

/-- What a pass without a starred name leaves. -/
structure Pass.Keeps (w : World O) (t : Target) (v : Value O) (parent : Context O) (count : Nat) (p : Pass O) : Prop where
  bindings : ∀ k ∈ t.names, ∃ x, assigned w t v k = some x ∧ p.bindings.lookup k = some x ∧
    p.context.shownAt w k = some (keyOf w p.digests k x)
  digests : p.digests = loopVarDigests w count p.bindings
  others : ∀ k ∉ t.names, p.context.shownAt w k = parent.shownAt w k

section

variable {x y : Value O} {k : Str}

end

mutual

def codeOf : Value Empty → Plain
  | .prim p => .prim p
  | .tuple items => .tuple (.prim (.bool true) :: codesOf items)
  | .list items => .tuple (.prim (.bool false) :: codesOf items)

def codesOf : List (Value Empty) → List Plain
  | [] => []
  | v :: vs => codeOf v :: codesOf vs

end

mutual

theorem codeOf_inj : ∀ {x y : Value Empty}, codeOf x = codeOf y → x = y
  | .prim a, y, h => by
      cases y with
      | prim b => rw [Plain.prim.inj h]
      | tuple ys => cases h
      | list ys => cases h
      | obj o => cases o
  | .tuple xs, y, h => by
      cases y with
      | prim b => cases h
      | tuple ys => rw [codesOf_inj (List.cons.inj (Plain.tuple.inj h)).2]
      | list ys => cases h
      | obj o => cases o
  | .list xs, y, h => by
      cases y with
      | prim b => cases h
      | tuple ys => cases h
      | list ys => rw [codesOf_inj (List.cons.inj (Plain.tuple.inj h)).2]
      | obj o => cases o
  | .obj o, y, h => by cases o

theorem codesOf_inj : ∀ {xs ys : List (Value Empty)}, codesOf xs = codesOf ys → xs = ys
  | [], ys, h => by
      cases ys with
      | nil => rfl
      | cons y ys => cases h
  | x :: xs, ys, h => by
      cases ys with
      | nil => cases h
      | cons y ys => rw [codeOf_inj (List.cons.inj h).1, codesOf_inj (List.cons.inj h).2]

end

/-- No objects; a value's digest spells it. -/
def spelled : World Empty where
  iter o := o.elim
  hashable o := o.elim
  artist o := o.elim
  computeHash v := 104 :: (codeOf v).repr fun _ => false
  identityPrefix := str "identity:"
  printable _ := false

def one (n : Int) : Value Empty := .prim (.int n)

end Cash.Iteration
