import Mathlib.Data.List.Basic
import Mathlib.Logic.Relation

/-!
# Words without squares

A square is a block that comes twice in a row. A word is square-free if it has none. When a square-free word gets one more
letter, the shortest square it then ends in tells how it ends. Where letters are put on what is there already, that square
lies within the letters put on, or holds all of them, or is cut where they start.
-/

namespace Squares

variable {α : Type} {a : α} {u v w w' x p q o : List α}

def SquareFree (w : List α) : Prop := ∀ p x q, w = p ++ x ++ x ++ q → x = []

/-- The word ends in `x` twice, and in no shorter square. -/
def EndsIn (w p x : List α) : Prop :=
  w = p ++ x ++ x ∧ x ≠ [] ∧ ∀ q y, w = q ++ y ++ y → y ≠ [] → x.length ≤ y.length

theorem SquareFree.suffix_right (h : SquareFree (u ++ v)) : SquareFree v := by
  rintro p x q rfl
  exact h (u ++ p) x q (by simp only [List.append_assoc])

/-- A square-free word with one more letter, and what is left of it. -/
def Settles (w w' : List α) : Prop := (SquareFree w ∧ w' = w) ∨ ∃ p x, EndsIn w p x ∧ w' = p ++ x

/-- The second half of a square is dropped. -/
def Drops (w w' : List α) : Prop := ∃ p x q, w = p ++ x ++ x ++ q ∧ w' = p ++ x ++ q

def Leads : List α → List α → Prop := Relation.ReflTransGen Drops

theorem Leads.refl (w : List α) : Leads w w := Relation.ReflTransGen.refl

theorem Leads.trans (h : Leads u v) (h' : Leads v w) : Leads u w := Relation.ReflTransGen.trans h h'

theorem Leads.append (h : Leads u v) (p q : List α) : Leads (p ++ u ++ q) (p ++ v ++ q) := by
  induction h with
  | refl => exact Leads.refl _
  | tail _ hdrops ih =>
      obtain ⟨o, x, e, rfl, rfl⟩ := hdrops
      exact ih.tail ⟨p ++ o, x, e ++ q, by simp only [List.append_assoc], by simp only [List.append_assoc]⟩

theorem Settles.leads (h : Settles w w') : Leads w w' := by
  rcases h with ⟨-, rfl⟩ | ⟨p, x, ⟨rfl, -⟩, rfl⟩
  · exact Leads.refl _
  · exact .single ⟨p, x, [], by rw [List.append_nil], by rw [List.append_nil]⟩

theorem Leads.mem_iff (h : Leads u v) : a ∈ v ↔ a ∈ u := by
  induction h with
  | refl => exact Iff.rfl
  | tail _ hdrops ih =>
      obtain ⟨p, x, q, rfl, rfl⟩ := hdrops
      rw [← ih]
      simp only [List.mem_append, or_self, or_assoc]

theorem append_eq_suffix (h : u ++ v = p ++ x) (hle : x.length ≤ v.length) : ∃ y, v = y ++ x ∧ p = u ++ y := by
  rcases List.append_eq_append_iff.mp h with ⟨y, rfl, rfl⟩ | ⟨y, rfl, rfl⟩
  · exact ⟨y, rfl, rfl⟩
  · rw [List.length_append] at hle
    have hy := List.eq_nil_of_length_eq_zero (by omega : y.length = 0)
    subst hy
    exact ⟨[], rfl, by rw [List.append_nil, List.append_nil]⟩

/-- A square that begins before `v` has its second half begin inside it: of `v` only the rest is left. -/
def CutsAt (f v : List α) : Prop := ∃ h y z, y ≠ [] ∧ z ≠ [] ∧ f = h ++ z ∧ v = y ++ z ++ y

theorem Settles.kept (hv : Settles v v') (hends : ∀ q y, v = q ++ y ++ y → y = []) : SquareFree v ∧ v' = v := by
  rcases hv with hkept | ⟨q, y, ⟨hy, hne, -⟩, -⟩
  · exact hkept
  · exact absurd (hends q y hy) hne

theorem Settles.eq_of_endsIn (hv : Settles v v') (hends : EndsIn v p x) : v' = p ++ x := by
  obtain ⟨hx, hne, hleast⟩ := hends
  rcases hv with ⟨hfree, -⟩ | ⟨q, y, ⟨hy, hne', hleast'⟩, rfl⟩
  · exact absurd (hfree p x [] (by rw [hx, List.append_nil])) hne
  · have hlen := Nat.le_antisymm (hleast q y hy hne') (hleast' p x hx hne)
    exact (List.append_inj_left' (hy.symm.trans hx) hlen.symm)

/-- What is left when a letter comes to `v`, put on `f`: what is left of it alone, put on `f` or on less; or a cut. -/
theorem Settles.front {f s : List α} (hs : Settles (f ++ v ++ [a]) s) (hv : Settles (v ++ [a]) v') :
    (∃ f', f' <+: f ∧ s = f' ++ v') ∨ SquareFree (v ++ [a]) ∧ CutsAt f (v ++ [a]) := by
  rw [List.append_assoc] at hs
  rcases hs with ⟨hfree, rfl⟩ | ⟨p, x, ⟨hsquare, hne, hleast⟩, rfl⟩
  · obtain ⟨-, rfl⟩ := hv.kept fun q y hy => hfree.suffix_right q y [] (by rw [hy, List.append_nil])
    exact .inl ⟨f, List.prefix_refl f, rfl⟩
  · have hwithin : ∀ q y, v ++ [a] = q ++ y ++ y → y ≠ [] → x.length ≤ y.length := by
      intro q y hy hy'
      apply hleast (f ++ q) y _ hy'
      rw [hy]
      simp only [List.append_assoc]
    rcases Nat.lt_or_ge (v ++ [a]).length (2 * x.length) with hlt | hge
    · -- The letters put on end in no square of their own.
      obtain ⟨hown, rfl⟩ := hv.kept fun q y hy => by
        by_contra hy'
        have hlen := congrArg List.length hy
        have hle := hwithin q y hy hy'
        have hpos := List.length_pos_iff.mpr hy'
        simp only [List.length_append, List.length_singleton] at hlen hlt
        omega
      rcases Nat.lt_or_ge x.length (v ++ [a]).length with hcut | hwhole
      · obtain ⟨y, hy, hp⟩ := append_eq_suffix hsquare (Nat.le_of_lt hcut)
        have hlen : (v ++ [a]).length = y.length + x.length := by rw [hy, List.length_append]
        obtain ⟨z, hx, rfl⟩ := append_eq_suffix hp (by omega)
        have hxlen : x.length = z.length + y.length := by rw [hx, List.length_append]
        refine .inr ⟨hown, p, y, z, List.length_pos_iff.mp (by omega), List.length_pos_iff.mp (by omega), rfl, ?_⟩
        rw [hy, hx, List.append_assoc]
      · obtain ⟨y, hy, rfl⟩ := append_eq_suffix hsquare.symm hwhole
        refine .inl ⟨p ++ y, ⟨v ++ [a] ++ y, ?_⟩, ?_⟩
        · rw [hy]
          simp only [List.append_assoc]
        · rw [hy, List.append_assoc]
    · obtain ⟨y, hy, hp⟩ := append_eq_suffix hsquare (by omega)
      have hlen : (v ++ [a]).length = y.length + x.length := by rw [hy, List.length_append]
      obtain ⟨z, rfl, rfl⟩ := append_eq_suffix hp.symm (by omega)
      rw [hv.eq_of_endsIn ⟨hy, hne, hwithin⟩]
      exact .inl ⟨f, List.prefix_refl f, List.append_assoc _ _ _⟩

/-- The last letter of `u`, put on `r`, can come to a cut. -/
def Cuts (r u : List α) : Prop := ∃ f v a, CutsAt f (v ++ [a]) ∧ SquareFree (f ++ v) ∧ SquareFree (v ++ [a]) ∧
  Leads u (v ++ [a]) ∧ Leads (r ++ u) (f ++ v ++ [a])

end Squares
