import Cash.Lib.Py
import Mathlib.Data.List.Basic
import Mathlib.Data.List.DropRight
import Mathlib.Tactic.Common

/-!
# The texts of numbers

What `repr` says of an `int` and of a `float`. A number's text is read off the front of a longer text in one way only, when
what follows does not go on with it (`signed_append`).
-/

namespace Literal

open Py

/-! ## Runs of characters -/

/-- A text that does not go on with a character of the class. -/
def Ends (P : Nat → Prop) (s : Str) : Prop := ∀ c ∈ s.head?, ¬P c

theorem span_unique {P : Nat → Prop} {p q s t : Str} (hp : ∀ c ∈ p, P c) (hq : ∀ c ∈ q, P c) (hs : Ends P s) (ht : Ends P t)
    (h : p ++ s = q ++ t) : p = q ∧ s = t := by
  induction p generalizing q with
  | nil =>
      cases q with
      | nil => exact ⟨rfl, h⟩
      | cons c q =>
          rw [List.nil_append] at h
          rw [h] at hs
          exact absurd (hq c List.mem_cons_self) (hs c rfl)
  | cons c p ih =>
      cases q with
      | nil =>
          rw [List.nil_append] at h
          rw [← h] at ht
          exact absurd (hp c List.mem_cons_self) (ht c rfl)
      | cons d q =>
          rw [List.cons_append, List.cons_append, List.cons.injEq] at h
          obtain ⟨rfl, h⟩ := h
          obtain ⟨rfl, hrest⟩ := ih (fun c hc => hp c (List.mem_cons_of_mem _ hc)) (fun c hc => hq c (List.mem_cons_of_mem _ hc)) h
          exact ⟨rfl, hrest⟩

def IsDigit (c : Nat) : Prop := 48 ≤ c ∧ c ≤ 57

instance : DecidablePred IsDigit := fun c => inferInstanceAs (Decidable (48 ≤ c ∧ c ≤ 57))

theorem isDigit_decimal (n : Nat) : ∀ c ∈ decimal n, IsDigit c := by
  intro c hc
  rw [decimal] at hc
  split at hc
  · obtain rfl := List.mem_singleton.mp hc
    exact ⟨by omega, by omega⟩
  · obtain ⟨d, hd, rfl⟩ := List.mem_map.mp hc
    have := Nat.digits_lt_base (by omega) (List.mem_reverse.mp hd)
    exact ⟨by omega, by omega⟩

theorem decimal_ne_nil (n : Nat) : decimal n ≠ [] := by
  rw [decimal]
  split
  · exact List.cons_ne_nil _ _
  · next hn =>
    rw [Ne, List.map_eq_nil_iff, List.reverse_eq_nil_iff, Nat.digits_eq_nil_iff_eq_zero]
    exact hn

/-- The number that digits stand for. -/
def readDecimal (s : Str) : Nat := s.foldl (fun n c => 10 * n + (c - 48)) 0

theorem readDecimal_decimal (n : Nat) : readDecimal (decimal n) = n := by
  rw [readDecimal, decimal]
  split
  · next hn => exact hn.symm
  · rw [List.foldl_map, List.foldl_reverse]
    have hfold : ∀ ds : List Nat, ds.foldr (fun d n => 10 * n + (48 + d - 48)) 0 = Nat.ofDigits 10 ds := by
      intro ds
      induction ds with
      | nil => rfl
      | cons d ds ih =>
          rw [List.foldr_cons, ih, Nat.ofDigits_cons]
          omega
    rw [hfold, Nat.ofDigits_digits]

theorem readDecimal_zero (s : Str) : readDecimal (48 :: s) = readDecimal s := rfl

/-! ## Numerals -/

/-- Digits, with a fraction and with an exponent or without. -/
structure Numeral where
  whole : Str
  frac : Option Str
  /-- Is it negative, and its digits. -/
  exp : Option (Bool × Str)

namespace Numeral

def fracText (n : Numeral) : Str :=
  match n.frac with
  | none => []
  | some digits => 46 :: digits

def expText (n : Numeral) : Str :=
  match n.exp with
  | none => []
  | some (negative, digits) => 101 :: (if negative then 45 else 43) :: digits

def text (n : Numeral) : Str := n.whole ++ (n.fracText ++ n.expText)

structure Good (n : Numeral) : Prop where
  whole : ∀ c ∈ n.whole, IsDigit c
  nonempty : n.whole ≠ []
  frac : ∀ ds ∈ n.frac, ∀ c ∈ ds, IsDigit c
  exp : ∀ e ∈ n.exp, ∀ c ∈ e.2, IsDigit c

/-- What a numeral can go on with. -/
def IsMore (c : Nat) : Prop := IsDigit c ∨ c = 46 ∨ c = 101

instance : DecidablePred IsMore := fun c => inferInstanceAs (Decidable (IsDigit c ∨ c = 46 ∨ c = 101))

variable {m n : Numeral} {s t : Str}

theorem ends_expText (hs : Ends IsMore s) : Ends (fun c => IsDigit c ∨ c = 46) (n.expText ++ s) := by
  intro c hc hmore
  rw [expText] at hc
  split at hc
  · exact hs c hc (hmore.imp_right .inl)
  · cases hc
    rcases hmore with hdigit | hdot
    · exact absurd hdigit (by decide)
    · cases hdot

theorem ends_fracText (hs : Ends IsMore s) : Ends IsDigit (n.fracText ++ (n.expText ++ s)) := by
  intro c hc hdigit
  rw [fracText] at hc
  split at hc
  · exact ends_expText hs c hc (.inl hdigit)
  · cases hc
    exact absurd hdigit (by decide)

theorem expText_append (hm : m.Good) (hn : n.Good) (hs : Ends IsMore s) (ht : Ends IsMore t)
    (h : m.expText ++ s = n.expText ++ t) : m.exp = n.exp ∧ s = t := by
  have hmore : ∀ {s : Str}, Ends IsMore s → Ends IsDigit s := fun hs c hc hd => hs c hc (.inl hd)
  unfold expText at h
  cases hme : m.exp with
  | none =>
      cases hne : n.exp with
      | none =>
          rw [hme, hne] at h
          exact ⟨rfl, h⟩
      | some e =>
          rw [hme, hne] at h
          refine absurd (.inr (.inr rfl)) (hs 101 ?_)
          rw [show s = _ from h]
          rfl
  | some d =>
      cases hne : n.exp with
      | none =>
          rw [hme, hne] at h
          refine absurd (.inr (.inr rfl)) (ht 101 ?_)
          rw [← show _ = t from h]
          rfl
      | some e =>
          rw [hme, hne] at h
          simp only [List.cons_append, List.cons.injEq, true_and] at h
          obtain ⟨hsign, h⟩ := h
          obtain ⟨hdigits, hrest⟩ := span_unique (hm.exp d hme) (hn.exp e hne) (hmore hs) (hmore ht) h
          have hneg : d.1 = e.1 := by
            revert hsign
            cases d.1 <;> cases e.1 <;> decide
          exact ⟨congrArg some (Prod.ext hneg hdigits), hrest⟩

theorem text_append (hm : m.Good) (hn : n.Good) (hs : Ends IsMore s) (ht : Ends IsMore t) (h : m.text ++ s = n.text ++ t) :
    m = n ∧ s = t := by
  simp only [text, List.append_assoc] at h
  obtain ⟨hwhole, h⟩ := span_unique hm.whole hn.whole (ends_fracText hs) (ends_fracText ht) h
  have hfrac : m.frac = n.frac ∧ m.expText ++ s = n.expText ++ t := by
    have hdot : ∀ {n : Numeral} {s ds u : Str}, Ends IsMore s → n.expText ++ s ≠ (46 :: ds) ++ u := by
      intro n s ds u hs heq
      exact absurd (.inr rfl) (ends_expText (n := n) hs 46 (by rw [heq]; rfl))
    unfold fracText at h
    cases hmf : m.frac with
    | none =>
        cases hnf : n.frac with
        | none =>
            rw [hmf, hnf] at h
            exact ⟨rfl, h⟩
        | some ds =>
            rw [hmf, hnf] at h
            exact absurd h (hdot hs)
    | some ds =>
        cases hnf : n.frac with
        | none =>
            rw [hmf, hnf] at h
            exact absurd h.symm (hdot ht)
        | some es =>
            rw [hmf, hnf] at h
            simp only [List.cons_append, List.cons.injEq, true_and] at h
            obtain ⟨rfl, hexp⟩ := span_unique (hm.frac ds hmf) (hn.frac es hnf)
              (fun c hc hd => ends_expText hs c hc (.inl hd)) (fun c hc hd => ends_expText ht c hc (.inl hd)) h
            exact ⟨rfl, hexp⟩
  obtain ⟨hexp, hrest⟩ := expText_append hm hn hs ht hfrac.2
  refine ⟨?_, hrest⟩
  cases m
  cases n
  cases hwhole
  cases hfrac.1
  cases hexp
  rfl

/-! The number a numeral stands for: its digits, less the zeros at either end, and where the point is. -/

def all (n : Numeral) : Str := n.whole ++ n.frac.getD []

def expValue (n : Numeral) : Int :=
  match n.exp with
  | none => 0
  | some (negative, digits) => if negative then -(readDecimal digits : Int) else readDecimal digits

def value (n : Numeral) : Str × Int :=
  ((n.all.dropWhile (· = 48)).rdropWhile (· = 48), n.whole.length - (n.all.takeWhile (· = 48)).length + n.expValue)

/-- Digits between zeros. -/
theorem value_of {digits : Str} {a b : Nat} (h : n.all = List.replicate a 48 ++ (digits ++ List.replicate b 48))
    (hhead : digits.head? ≠ some 48) (hlast : digits.getLast? ≠ some 48) (hne : digits ≠ []) :
    n.value = (digits, n.whole.length - a + n.expValue) := by
  have hzeros : ∀ c ∈ List.replicate a 48, decide (c = 48) = true := by
    intro c hc
    rw [List.eq_of_mem_replicate hc]
    rfl
  obtain ⟨d, ds, rfl⟩ := List.exists_cons_of_ne_nil hne
  have hd : d ≠ 48 := fun h => hhead (congrArg some h)
  have hdrop : n.all.dropWhile (· = 48) = d :: ds ++ List.replicate b 48 := by
    rw [h, List.dropWhile_append_of_pos hzeros, List.cons_append, List.dropWhile_cons_of_neg (by simpa using hd)]
  have htake : n.all.takeWhile (· = 48) = List.replicate a 48 := by
    rw [h, List.takeWhile_append_of_pos hzeros, List.cons_append, List.takeWhile_cons_of_neg (by simpa using hd),
      List.append_nil]
  have hback : (d :: ds ++ List.replicate b 48).rdropWhile (· = 48) = d :: ds := by
    rw [List.rdropWhile, List.reverse_append, List.dropWhile_append_of_pos, List.dropWhile_eq_self_iff.mpr,
      List.reverse_reverse]
    · intro hpos
      have hget : (d :: ds).reverse[0] ≠ 48 := by
        intro heq
        apply hlast
        rw [← List.head?_reverse, List.head?_eq_getElem?, List.getElem?_eq_getElem hpos, heq]
      simpa using hget
    · intro c hc
      rw [List.eq_of_mem_replicate (List.mem_reverse.mp hc)]
      rfl
  rw [value, hdrop, htake, hback, List.length_replicate]

end Numeral

/-! ## Floats -/

/-- A positive number `0.d₁d₂… * 10 ^ point`, by the shortest digits that read back as the float. -/
structure Decimal where
  digits : Str
  point : Int
  isDigit : ∀ c ∈ digits, IsDigit c
  nonempty : digits ≠ []
  head : digits.head? ≠ some 48
  last : digits.getLast? ≠ some 48
deriving DecidableEq

/-- The exponent's digits, two at least. -/
def twoDigits (n : Nat) : Str := if n < 10 then 48 :: decimal n else decimal n

namespace Decimal

/-- The digits as a float's text has them. A float that is a whole number ends in `.0`, but not as a part of a complex. -/
def numeral (dot0 : Bool) (d : Decimal) : Numeral :=
  if d.point ≤ -4 ∨ 16 < d.point then
    ⟨d.digits.take 1, if d.digits.length = 1 then none else some (d.digits.drop 1),
      some (decide (d.point < 1), twoDigits (d.point - 1).natAbs)⟩
  else if d.point ≤ 0 then ⟨[48], some (List.replicate (-d.point).toNat 48 ++ d.digits), none⟩
  else if d.point < d.digits.length then
    ⟨d.digits.take d.point.toNat, some (d.digits.drop d.point.toNat), none⟩
  else
    ⟨d.digits ++ List.replicate (d.point.toNat - d.digits.length) 48, if dot0 then some [48] else none, none⟩

theorem isDigit_twoDigits (n : Nat) : ∀ c ∈ twoDigits n, IsDigit c := by
  intro c hc
  rw [twoDigits] at hc
  split at hc
  · rcases List.mem_cons.mp hc with rfl | hc
    · exact ⟨by omega, by omega⟩
    · exact isDigit_decimal n c hc
  · exact isDigit_decimal n c hc

theorem readDecimal_twoDigits (n : Nat) : readDecimal (twoDigits n) = n := by
  rw [twoDigits]
  split
  · rw [readDecimal_zero, readDecimal_decimal]
  · exact readDecimal_decimal n

theorem isDigit_zeros (n : Nat) : ∀ c ∈ List.replicate n 48, IsDigit c := by
  intro c hc
  rw [List.eq_of_mem_replicate hc]
  exact ⟨by omega, by omega⟩

variable (dot0 : Bool) (d : Decimal)

theorem good_numeral : (d.numeral dot0).Good := by
  have hpos := List.length_pos_iff.mpr d.nonempty
  rw [numeral]
  split
  · refine ⟨fun c hc => d.isDigit c (List.mem_of_mem_take hc), ?_, ?_, ?_⟩
    · rw [Ne, List.take_eq_nil_iff]
      rintro (h | h)
      · cases h
      · exact d.nonempty h
    · intro ds hds c hc
      dsimp only at hds
      split at hds
      · cases hds
      · cases hds
        exact d.isDigit c (List.mem_of_mem_drop hc)
    · intro e he c hc
      cases he
      exact isDigit_twoDigits _ c hc
  split
  · refine ⟨isDigit_zeros 1, List.cons_ne_nil _ _, ?_, fun e he => by cases he⟩
    intro ds hds c hc
    cases hds
    rcases List.mem_append.mp hc with hc | hc
    · exact isDigit_zeros _ c hc
    · exact d.isDigit c hc
  split
  · next hpoint _ =>
    refine ⟨fun c hc => d.isDigit c (List.mem_of_mem_take hc), ?_, ?_, fun e he => by cases he⟩
    · rw [Ne, List.take_eq_nil_iff]
      rintro (h | h)
      · omega
      · exact d.nonempty h
    · intro ds hds c hc
      cases hds
      exact d.isDigit c (List.mem_of_mem_drop hc)
  · refine ⟨?_, ?_, ?_, fun e he => by cases he⟩
    · intro c hc
      rcases List.mem_append.mp hc with hc | hc
      · exact d.isDigit c hc
      · exact isDigit_zeros _ c hc
    · rw [Ne, List.append_eq_nil_iff]
      exact fun h => d.nonempty h.1
    · intro ds hds c hc
      dsimp only at hds
      split at hds
      · cases hds
        exact isDigit_zeros 1 c hc
      · cases hds

theorem value_numeral : (d.numeral dot0).value = (d.digits, d.point) := by
  have hpos := List.length_pos_iff.mpr d.nonempty
  rw [numeral]
  split
  · have hall : ∀ e, Numeral.all ⟨d.digits.take 1, if d.digits.length = 1 then none else some (d.digits.drop 1), e⟩ =
        List.replicate 0 48 ++ (d.digits ++ List.replicate 0 48) := by
      intro e
      simp only [Numeral.all, List.replicate_zero, List.nil_append, List.append_nil]
      split
      · next hone => rw [Option.getD_none, List.append_nil, List.take_of_length_le (Nat.le_of_eq hone)]
      · rw [Option.getD_some, List.take_append_drop]
    rw [Numeral.value_of (hall _) d.head d.last d.nonempty]
    refine Prod.ext rfl ?_
    simp only [Numeral.expValue, List.length_take, readDecimal_twoDigits]
    split <;> next h => simp only [decide_eq_true_eq] at h; omega
  split
  · next hpoint =>
    have hall : Numeral.all ⟨[48], some (List.replicate (-d.point).toNat 48 ++ d.digits), none⟩ =
        List.replicate (1 + (-d.point).toNat) 48 ++ (d.digits ++ List.replicate 0 48) := by
      simp only [Numeral.all, Option.getD_some, List.replicate_zero, List.append_nil, List.replicate_add, List.replicate_one,
        List.append_assoc]
    rw [Numeral.value_of hall d.head d.last d.nonempty]
    refine Prod.ext rfl ?_
    simp only [Numeral.expValue, List.length_singleton]
    omega
  split
  · have hall : Numeral.all ⟨d.digits.take d.point.toNat, some (d.digits.drop d.point.toNat), none⟩ =
        List.replicate 0 48 ++ (d.digits ++ List.replicate 0 48) := by
      simp only [Numeral.all, Option.getD_some, List.replicate_zero, List.nil_append, List.append_nil, List.take_append_drop]
    rw [Numeral.value_of hall d.head d.last d.nonempty]
    refine Prod.ext rfl ?_
    simp only [Numeral.expValue, List.length_take]
    omega
  · have hall : ∃ b, Numeral.all ⟨d.digits ++ List.replicate (d.point.toNat - d.digits.length) 48,
        if dot0 then some [48] else none, none⟩ = List.replicate 0 48 ++ (d.digits ++ List.replicate b 48) := by
      cases dot0 with
      | false => exact ⟨_, List.append_nil _⟩
      | true =>
          refine ⟨d.point.toNat - d.digits.length + 1, ?_⟩
          simp only [Numeral.all, if_true, Option.getD_some, List.replicate_zero, List.nil_append, List.replicate_add,
            List.replicate_one, List.append_assoc]
    obtain ⟨b, hall⟩ := hall
    rw [Numeral.value_of hall d.head d.last d.nonempty]
    refine Prod.ext rfl ?_
    simp only [Numeral.expValue, List.length_append, List.length_replicate]
    omega

end Decimal

theorem Decimal.numeral_injective (dot0 : Bool) : Function.Injective (Decimal.numeral dot0) := by
  intro d e h
  have hvalue := congrArg Numeral.value h
  rw [value_numeral, value_numeral] at hvalue
  cases d
  cases e
  cases hvalue
  rfl

/-- A float. -/
inductive Double
  | nan
  | inf (negative : Bool)
  | zero (negative : Bool)
  | finite (negative : Bool) (d : Decimal)
deriving DecidableEq

/-- What stands after the sign of a number. -/
inductive Unsigned
  | nan
  | inf
  | digits (n : Numeral)

namespace Unsigned

def text : Unsigned → Str
  | nan => str "nan"
  | inf => str "inf"
  | digits n => n.text

def Good : Unsigned → Prop
  | digits n => n.Good
  | _ => True

theorem head_text {u : Unsigned} (hu : u.Good) (s : Str) :
    ∃ c rest, u.text ++ s = c :: rest ∧ (c = 110 ∧ u = nan ∨ c = 105 ∧ u = inf ∨ IsDigit c ∧ ∃ n, u = digits n) := by
  cases u with
  | nan => exact ⟨110, _, rfl, .inl ⟨rfl, rfl⟩⟩
  | inf => exact ⟨105, _, rfl, .inr (.inl ⟨rfl, rfl⟩)⟩
  | digits n =>
      obtain ⟨c, rest, hwhole⟩ := List.exists_cons_of_ne_nil hu.nonempty
      refine ⟨c, rest ++ (n.fracText ++ n.expText) ++ s, ?_, .inr (.inr ⟨hu.whole c ?_, n, rfl⟩)⟩
      · rw [text, Numeral.text, hwhole]
        rfl
      · rw [hwhole]
        exact List.mem_cons_self

theorem text_append {u v : Unsigned} {s t : Str} (hu : u.Good) (hv : v.Good) (hs : Ends Numeral.IsMore s)
    (ht : Ends Numeral.IsMore t) (h : u.text ++ s = v.text ++ t) : u = v ∧ s = t := by
  obtain ⟨c, rest, hc, hcase⟩ := head_text hu s
  obtain ⟨d, rest', hd, hcase'⟩ := head_text hv t
  have hcd : c = d := by
    rw [hc, hd] at h
    exact (List.cons.injEq .. ▸ h).1
  cases hcd
  have hne : ∀ {c : Nat}, IsDigit c → c ≠ 110 ∧ c ≠ 105 := by
    intro c hc
    unfold IsDigit at hc
    omega
  rcases hcase with ⟨rfl, rfl⟩ | ⟨rfl, rfl⟩ | ⟨hdigit, n, rfl⟩ <;>
    rcases hcase' with ⟨h', rfl⟩ | ⟨h', rfl⟩ | ⟨hdigit', m, rfl⟩
  · exact ⟨rfl, List.append_cancel_left h⟩
  · cases h'
  · exact absurd rfl (hne hdigit').1
  · cases h'
  · exact ⟨rfl, List.append_cancel_left h⟩
  · exact absurd rfl (hne hdigit').2
  · exact absurd h' (hne hdigit).1
  · exact absurd h' (hne hdigit).2
  · obtain ⟨rfl, hrest⟩ := Numeral.text_append hu hv hs ht h
    exact ⟨rfl, hrest⟩

end Unsigned

/-- A sign, only where the number is negative. -/
def signed (negative : Bool) (u : Unsigned) : Str := if negative then 45 :: u.text else u.text

/-- A sign in either case. -/
def withSign (negative : Bool) (u : Unsigned) : Str := (if negative then 45 else 43) :: u.text

theorem signed_append {a b : Bool} {u v : Unsigned} {s t : Str} (hu : u.Good) (hv : v.Good) (hs : Ends Numeral.IsMore s)
    (ht : Ends Numeral.IsMore t) (h : signed a u ++ s = signed b v ++ t) : (a = b ∧ u = v) ∧ s = t := by
  have hminus : ∀ {u v : Unsigned} {s t : Str}, v.Good → 45 :: (u.text ++ s) ≠ v.text ++ t := by
    intro u v s t hv heq
    obtain ⟨c, rest, hc, hcase⟩ := Unsigned.head_text hv t
    rw [hc] at heq
    obtain ⟨rfl, -⟩ := List.cons.injEq .. ▸ heq
    rcases hcase with ⟨h, -⟩ | ⟨h, -⟩ | ⟨h, -⟩
    · cases h
    · cases h
    · exact absurd h (by decide)
  unfold signed at h
  cases a <;> cases b
  · obtain ⟨rfl, hrest⟩ := Unsigned.text_append hu hv hs ht h
    exact ⟨⟨rfl, rfl⟩, hrest⟩
  · exact absurd h.symm (hminus hu)
  · exact absurd h (hminus hv)
  · obtain ⟨rfl, hrest⟩ := Unsigned.text_append hu hv hs ht (List.cons.injEq .. ▸ h).2
    exact ⟨⟨rfl, rfl⟩, hrest⟩

namespace Double

def negative : Double → Bool
  | nan => false
  | inf negative => negative
  | zero negative => negative
  | finite negative _ => negative

def unsigned (dot0 : Bool) : Double → Unsigned
  | nan => .nan
  | inf _ => .inf
  | zero _ => .digits ⟨[48], if dot0 then some [48] else none, none⟩
  | finite _ d => .digits (d.numeral dot0)

theorem good_unsigned (dot0 : Bool) (x : Double) : (x.unsigned dot0).Good := by
  cases x with
  | nan => trivial
  | inf => trivial
  | zero =>
      refine ⟨Decimal.isDigit_zeros 1, List.cons_ne_nil _ _, ?_, fun e he => by cases he⟩
      intro ds hds c hc
      dsimp only at hds
      split at hds
      · cases hds
        exact Decimal.isDigit_zeros 1 c hc
      · cases hds
  | finite negative d => exact d.good_numeral dot0

theorem ext_unsigned (dot0 : Bool) {x y : Double} (hneg : x.negative = y.negative)
    (h : x.unsigned dot0 = y.unsigned dot0) : x = y := by
  have hzero : ∀ d : Decimal, d.numeral dot0 ≠ ⟨[48], if dot0 then some [48] else none, none⟩ := by
    intro d heq
    have hvalue := congrArg (fun n => n.value.1) heq
    rw [d.value_numeral] at hvalue
    apply d.nonempty
    rw [show d.digits = _ from hvalue]
    cases dot0 <;> rfl
  cases x <;> cases y <;> first | (cases h; done) | skip
  · rfl
  · cases hneg
    rfl
  · cases hneg
    rfl
  · exact absurd (Unsigned.digits.inj h).symm (hzero _)
  · exact absurd (Unsigned.digits.inj h) (hzero _)
  · cases hneg
    rw [Decimal.numeral_injective dot0 (Unsigned.digits.inj h)]

end Double

end Literal
