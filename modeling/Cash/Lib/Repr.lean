import Cash.Lib.Numeral
import Mathlib.Data.List.Forall2

/-!
# What `repr` says of plain constants

Numbers, strings, byte strings, `None`, `True` and `False`, and tuples of texts. A constant's text is read off the front of
a longer text in one way only, when what follows does not go on with it (`Prim.repr_append`).
-/

namespace Literal

open Py

/-! ## Strings -/

/-- The lowest `n` hexadecimal digits. -/
def hexDigits : Nat → Nat → Str
  | 0, _ => []
  | n + 1, c => hexDigits n (c / 16) ++ [hex.digit (c % 16)]

@[simp] theorem length_hexDigits (n c : Nat) : (hexDigits n c).length = n := by
  induction n generalizing c with
  | zero => rfl
  | succ n ih => rw [hexDigits, List.length_append, ih, List.length_singleton]

def hexValue (s : Str) : Nat := s.foldl (fun n c => 16 * n + (if c < 58 then c - 48 else c - 87)) 0

theorem hexValue_hexDigits {n c : Nat} (h : c < 16 ^ n) : hexValue (hexDigits n c) = c := by
  induction n generalizing c with
  | zero =>
      rw [Nat.pow_zero] at h
      rw [hexDigits, Nat.lt_one_iff.mp h]
      rfl
  | succ n ih =>
      have hdiv : c / 16 < 16 ^ n := by
        rw [Nat.pow_succ] at h
        exact Nat.div_lt_of_lt_mul (by omega)
      have hdigit : (if hex.digit (c % 16) < 58 then hex.digit (c % 16) - 48 else hex.digit (c % 16) - 87) = c % 16 := by
        unfold hex.digit
        split <;> split <;> omega
      have hrec := ih hdiv
      rw [hexValue] at hrec
      rw [hexValue, hexDigits, List.foldl_append, hrec, List.foldl_cons, List.foldl_nil, hdigit]
      omega

/-- The first `n` characters as a number, and the rest. -/
def readHex (n : Nat) (s : Str) : Nat × Str := (hexValue (s.take n), s.drop n)

theorem readHex_append {n c : Nat} (h : c < 16 ^ n) (s : Str) : readHex n (hexDigits n c ++ s) = (c, s) := by
  rw [readHex, List.take_left' (length_hexDigits n c), List.drop_left' (length_hexDigits n c), hexValue_hexDigits h]

/-- One character between the quotes. Which characters from 128 on are printable is Unicode's. -/
def escape (printable : Nat → Bool) (quote c : Nat) : Str :=
  if c = quote ∨ c = 92 then [92, c]
  else if c = 9 then [92, 116]
  else if c = 10 then [92, 110]
  else if c = 13 then [92, 114]
  else if c < 32 ∨ c = 127 then [92, 120] ++ hexDigits 2 c
  else if c < 127 ∨ 0x110000 ≤ c ∨ printable c then [c]
  else if c < 256 then [92, 120] ++ hexDigits 2 c
  else if c < 65536 then [92, 117] ++ hexDigits 4 c
  else [92, 85] ++ hexDigits 8 c

/-- The character that a text between quotes begins with, and the rest. -/
def unescape : Str → Nat × Str
  | 92 :: 116 :: s => (9, s)
  | 92 :: 110 :: s => (10, s)
  | 92 :: 114 :: s => (13, s)
  | 92 :: 120 :: s => readHex 2 s
  | 92 :: 117 :: s => readHex 4 s
  | 92 :: 85 :: s => readHex 8 s
  | 92 :: c :: s => (c, s)
  | c :: s => (c, s)
  | [] => (0, [])

def IsQuote (q : Nat) : Prop := q = 39 ∨ q = 34

variable {printable : Nat → Bool} {q : Nat} {s t : Str}

theorem unescape_escape (hq : IsQuote q) (c : Nat) (s : Str) : unescape (escape printable q c ++ s) = (c, s) := by
  have hself : ∀ {c : Nat}, c ≠ 92 → unescape (c :: s) = (c, s) := by
    intro c hc
    rw [unescape.eq_8]
    all_goals
      intros
      simp_all
  rw [escape]
  split
  · next h =>
    rcases h with rfl | rfl
    · rcases hq with rfl | rfl <;> rfl
    · rfl
  split
  · next h => rw [h]; rfl
  split
  · next h => rw [h]; rfl
  split
  · next h => rw [h]; rfl
  split
  · exact readHex_append (by omega) s
  split
  · exact hself (by omega)
  split
  · exact readHex_append (by omega) s
  split
  · exact readHex_append (by omega) s
  · exact readHex_append (by omega) s

theorem head_escape (hq : IsQuote q) (c : Nat) : ∃ d rest, escape printable q c = d :: rest ∧ d ≠ q := by
  have hslash : 92 ≠ q := by
    rcases hq with rfl | rfl <;> decide
  unfold escape
  split_ifs with h
  all_goals first | exact ⟨92, _, rfl, hslash⟩ | skip
  exact ⟨c, [], rfl, fun heq => h (.inl heq)⟩

/-- What stands between the quotes, and the closing quote. -/
def quoted (printable : Nat → Bool) (quote : Nat) (s : Str) : Str := s.flatMap (escape printable quote) ++ [quote]

theorem quoted_append (hq : IsQuote q) {a b : Str} (h : quoted printable q a ++ s = quoted printable q b ++ t) :
    a = b ∧ s = t := by
  induction a generalizing b with
  | nil =>
      cases b with
      | nil => exact ⟨rfl, (List.cons.injEq .. ▸ h).2⟩
      | cons c b =>
          obtain ⟨d, rest, hd, hne⟩ := head_escape hq c
          rw [quoted, quoted, List.flatMap_cons, hd] at h
          exact absurd (List.cons.injEq .. ▸ h).1.symm hne
  | cons c a ih =>
      cases b with
      | nil =>
          obtain ⟨d, rest, hd, hne⟩ := head_escape hq c
          rw [quoted, quoted, List.flatMap_cons, hd] at h
          exact absurd (List.cons.injEq .. ▸ h).1 hne
      | cons c' b =>
          simp only [quoted, List.flatMap_cons, List.append_assoc] at h
          have hread := congrArg unescape h
          rw [unescape_escape hq, unescape_escape hq] at hread
          obtain ⟨rfl, hrest⟩ := Prod.mk.inj hread
          rw [← List.append_assoc, ← List.append_assoc (List.flatMap _ b)] at hrest
          obtain ⟨rfl, hst⟩ := ih hrest
          exact ⟨rfl, hst⟩

/-- `'`, but `"` where the text has the first and not the second. -/
def quoteOf (s : Str) : Nat := if 39 ∈ s ∧ 34 ∉ s then 34 else 39

theorem isQuote_quoteOf (s : Str) : IsQuote (quoteOf s) := by
  rw [quoteOf]
  split
  · exact .inr rfl
  · exact .inl rfl

/-- `repr(s)`. -/
def strRepr (printable : Nat → Bool) (s : Str) : Str := quoteOf s :: quoted printable (quoteOf s) s

/-- `repr(b)` of a byte string. -/
def bytesRepr (b : Bytes) : Str := 98 :: strRepr (fun _ => false) (b.map UInt8.toNat)

theorem strRepr_append {a b : Str} (h : strRepr printable a ++ s = strRepr printable b ++ t) : a = b ∧ s = t := by
  rw [strRepr, strRepr, List.cons_append, List.cons_append, List.cons.injEq] at h
  obtain ⟨hquote, h⟩ := h
  rw [← hquote] at h
  exact quoted_append (isQuote_quoteOf a) h

theorem bytesRepr_append {a b : Bytes} (h : bytesRepr a ++ s = bytesRepr b ++ t) : a = b ∧ s = t := by
  obtain ⟨hmap, hrest⟩ := strRepr_append (List.cons.injEq .. ▸ h).2
  exact ⟨List.map_injective_iff.mpr (fun _ _ => UInt8.toNat_inj.mp) hmap, hrest⟩

/-! ## Constants -/

/-- A constant that holds no other. -/
inductive Prim
  | none
  | bool (b : Bool)
  | int (n : Int)
  | float (x : Double)
  | complex (re im : Double)
  | str (s : Str)
  | bytes (b : Bytes)
deriving DecidableEq

def intPart (n : Int) : Unsigned := .digits ⟨decimal n.natAbs, Option.none, Option.none⟩

def complexRepr (re im : Double) : Str :=
  if re = .zero false then signed im.negative (im.unsigned false) ++ [106]
  else 40 :: (signed re.negative (re.unsigned false) ++ (withSign im.negative (im.unsigned false) ++ [106, 41]))

/-- `repr(c)`. -/
def Prim.repr (printable : Nat → Bool) : Prim → Str
  | none => Py.str "None"
  | bool b => if b then Py.str "True" else Py.str "False"
  | int n => signed (n < 0) (intPart n)
  | float x => signed x.negative (x.unsigned true)
  | complex re im => complexRepr re im
  | str s => strRepr printable s
  | bytes b => bytesRepr b

namespace Prim

/-- What a constant's text can go on with. -/
def IsMore (c : Nat) : Prop := Numeral.IsMore c ∨ c = 106

instance : DecidablePred IsMore := fun c => inferInstanceAs (Decidable (Numeral.IsMore c ∨ c = 106))

/-- The kinds of text that the first character tells apart. -/
inductive Kind
  | word
  | number
  | paren
  | str
  | bytes
deriving DecidableEq

def kind : Prim → Kind
  | none => .word
  | bool _ => .word
  | int _ => .number
  | float _ => .number
  | complex re _ => if re = .zero false then .number else .paren
  | str _ => .str
  | bytes _ => .bytes

/-- The kind of text that a character begins. -/
def kindOf (c : Nat) : Option Kind :=
  if c = 78 ∨ c = 84 ∨ c = 70 then some .word
  else if c = 40 then some .paren
  else if c = 39 ∨ c = 34 then some .str
  else if c = 98 then some .bytes
  else if c = 45 ∨ c = 105 ∨ c = 110 ∨ IsDigit c then some .number
  else Option.none

/-- The number of a text that is one, and what stands after it. -/
def parts : Prim → Bool × Unsigned × Str
  | int n => (n < 0, intPart n, [])
  | float x => (x.negative, x.unsigned true, [])
  | complex _ im => (im.negative, im.unsigned false, [106])
  | _ => (false, .nan, [])

theorem repr_of_number {p : Prim} (h : p.kind = .number) :
    p.repr printable = signed p.parts.1 p.parts.2.1 ++ p.parts.2.2 := by
  cases p with
  | int n => exact (List.append_nil _).symm
  | float x => exact (List.append_nil _).symm
  | complex re im =>
      rw [kind] at h
      split at h
      · next hre => exact if_pos hre
      · cases h
  | none => cases h
  | bool b => cases h
  | str s => cases h
  | bytes b => cases h

theorem good_intPart (n : Int) : (intPart n).Good :=
  ⟨isDigit_decimal _, decimal_ne_nil _, fun ds hds => (by cases hds), fun e he => (by cases he)⟩

theorem good_parts (p : Prim) : p.parts.2.1.Good := by
  cases p with
  | int n => exact good_intPart n
  | float x => exact x.good_unsigned true
  | complex re im => exact im.good_unsigned false
  | none => trivial
  | bool b => trivial
  | str s => trivial
  | bytes b => trivial

theorem head_signed {u : Unsigned} (hu : u.Good) (negative : Bool) (s : Str) :
    ∃ c rest, signed negative u ++ s = c :: rest ∧ kindOf c = some .number := by
  rw [signed]
  split
  · exact ⟨45, _, rfl, rfl⟩
  · obtain ⟨c, rest, hc, hcase⟩ := Unsigned.head_text hu s
    refine ⟨c, rest, hc, ?_⟩
    rcases hcase with ⟨rfl, -⟩ | ⟨rfl, -⟩ | ⟨hdigit, -⟩
    · rfl
    · rfl
    · have hbounds := hdigit
      unfold IsDigit at hbounds
      rw [kindOf, if_neg (by omega), if_neg (by omega), if_neg (by omega), if_neg (by omega),
        if_pos (.inr (.inr (.inr hdigit)))]

theorem head_repr (p : Prim) (s : Str) : ∃ c rest, p.repr printable ++ s = c :: rest ∧ kindOf c = some p.kind := by
  have hnumber : ∀ p : Prim, p.kind = .number → ∃ c rest, p.repr printable ++ s = c :: rest ∧ kindOf c = some .number := by
    intro p hp
    rw [repr_of_number hp, List.append_assoc]
    exact head_signed p.good_parts _ _
  cases p with
  | none => exact ⟨78, _, rfl, rfl⟩
  | bool b => cases b <;> exact ⟨_, _, rfl, rfl⟩
  | int n => exact hnumber (int n) rfl
  | float x => exact hnumber (float x) rfl
  | complex re im =>
      by_cases hre : re = .zero false
      · rw [kind, if_pos hre]
        exact hnumber (complex re im) (if_pos hre)
      · rw [kind, if_neg hre, repr, complexRepr, if_neg hre]
        exact ⟨40, _, rfl, rfl⟩
  | str s' =>
      refine ⟨quoteOf s', _, rfl, ?_⟩
      rcases isQuote_quoteOf s' with h | h <;> rw [h] <;> rfl
  | bytes b => exact ⟨98, _, rfl, rfl⟩

/-- Brackets that close, commas and blanks begin no constant's text. -/
theorem repr_ne_of_kindOf {c : Nat} (hc : kindOf c = Option.none) (p : Prim) (s t : Str) :
    p.repr printable ++ s ≠ c :: t := by
  intro h
  obtain ⟨d, rest, hd, hkind⟩ := head_repr p s
  rw [hd, List.cons.injEq] at h
  rw [h.1, hc] at hkind
  cases hkind

theorem int_ne_float (n : Int) (x : Double) : intPart n ≠ x.unsigned true := by
  intro h
  cases x with
  | nan => cases h
  | inf negative => cases h
  | zero negative => cases congrArg Numeral.frac (Unsigned.digits.inj h)
  | finite negative d =>
      have hfrac := congrArg Numeral.frac (Unsigned.digits.inj h)
      have hexp := congrArg Numeral.exp (Unsigned.digits.inj h)
      rw [Decimal.numeral] at hfrac hexp
      split_ifs at hfrac hexp
      all_goals first | (cases hexp; done) | (cases hfrac; done) | contradiction

theorem parts_inj {p q : Prim} (hp : p.kind = .number) (hq : q.kind = .number) (h : p.parts = q.parts) : p = q := by
  have hzero : ∀ {re im : Double}, (complex re im).kind = .number → re = .zero false := by
    intro re im hk
    rw [kind] at hk
    split at hk
    · assumption
    · cases hk
  cases p <;> first | (cases hp; done) | skip
  all_goals cases q <;> first | (cases hq; done) | skip
  · next m n =>
    simp only [parts, Prod.mk.injEq, decide_eq_decide, and_true, intPart, Unsigned.digits.injEq, Numeral.mk.injEq] at h
    have habs := decimal_injective h.2
    rw [show m = n by omega]
  · next n x => exact absurd (congrArg (·.2.1) h) (int_ne_float n x)
  · cases congrArg (·.2.2) h
  · next x n => exact absurd (congrArg (·.2.1) h).symm (int_ne_float n x)
  · next x y => rw [Double.ext_unsigned true (congrArg (·.1) h) (congrArg (·.2.1) h)]
  · cases congrArg (·.2.2) h
  · cases congrArg (·.2.2) h
  · cases congrArg (·.2.2) h
  · next re im re' im' =>
    rw [hzero hp, hzero hq, Double.ext_unsigned false (congrArg (·.1) h) (congrArg (·.2.1) h)]

theorem ends_cons {P : Nat → Prop} {c : Nat} {s : Str} (h : ¬P c) : Ends P (c :: s) := by
  intro d hd
  cases hd
  exact h

theorem complexRepr_append {re im re' im' : Double} {s t : Str} (hre : re ≠ .zero false) (hre' : re' ≠ .zero false)
    (h : complexRepr re im ++ s = complexRepr re' im' ++ t) : (re = re' ∧ im = im') ∧ s = t := by
  have hplus : ∀ (b : Bool) (u : Unsigned) (s : Str), Ends Numeral.IsMore (withSign b u ++ s) := by
    intro b u s
    refine ends_cons ?_
    cases b <;> decide
  rw [complexRepr, complexRepr, if_neg hre, if_neg hre', List.cons_append, List.cons_append, List.cons.injEq] at h
  obtain ⟨-, h⟩ := h
  simp only [List.append_assoc] at h
  obtain ⟨⟨hneg, hu⟩, h⟩ := signed_append (re.good_unsigned false) (re'.good_unsigned false) (hplus _ _ _) (hplus _ _ _) h
  simp only [withSign, List.cons_append, List.cons.injEq] at h
  obtain ⟨hsign, h⟩ := h
  have hneg' : im.negative = im'.negative := by
    revert hsign
    cases im.negative <;> cases im'.negative <;> decide
  obtain ⟨hu', h⟩ := Unsigned.text_append (im.good_unsigned false) (im'.good_unsigned false)
    (ends_cons (by decide)) (ends_cons (by decide)) h
  simp only [List.nil_append, List.cons.injEq, true_and] at h
  exact ⟨⟨Double.ext_unsigned false hneg hu, Double.ext_unsigned false hneg' hu'⟩, h⟩

theorem ends_parts (p : Prim) {s : Str} (hs : Ends IsMore s) : Ends Numeral.IsMore (p.parts.2.2 ++ s) := by
  have hs' : Ends Numeral.IsMore s := fun c hc hmore => hs c hc (.inl hmore)
  cases p with
  | complex re im => exact ends_cons (by decide)
  | none | bool | int | float | str | bytes => exact hs'

theorem tail_parts (p : Prim) : p.parts.2.2 = [] ∨ p.parts.2.2 = [106] := by
  cases p with
  | complex re im => exact .inr rfl
  | none | bool | int | float | str | bytes => exact .inl rfl

/-- A constant is read off the front of a text in one way. -/
theorem repr_append {p q : Prim} {s t : Str} (hs : Ends IsMore s) (ht : Ends IsMore t)
    (h : p.repr printable ++ s = q.repr printable ++ t) : p = q ∧ s = t := by
  have hkind : p.kind = q.kind := by
    obtain ⟨c, rest, hc, hp⟩ := head_repr p s
    obtain ⟨d, rest', hd, hq⟩ := head_repr q t
    rw [hc, hd, List.cons.injEq] at h
    rw [h.1, hq] at hp
    exact (Option.some.inj hp).symm
  by_cases hnumber : p.kind = .number
  · rw [repr_of_number hnumber, repr_of_number (hkind ▸ hnumber), List.append_assoc, List.append_assoc] at h
    obtain ⟨⟨hneg, hu⟩, h⟩ := signed_append p.good_parts q.good_parts (ends_parts p hs) (ends_parts q ht) h
    have htail : p.parts.2.2 = q.parts.2.2 ∧ s = t := by
      rcases tail_parts p with hp | hp <;> rcases tail_parts q with hq | hq <;> rw [hp, hq] at h ⊢
      · exact ⟨rfl, h⟩
      · exact absurd (.inr rfl) (hs 106 (by rw [show s = _ from h]; rfl))
      · exact absurd (.inr rfl) (ht 106 (by rw [← show _ = t from h]; rfl))
      · exact ⟨rfl, (List.cons.injEq .. ▸ h).2⟩
    exact ⟨parts_inj hnumber (hkind ▸ hnumber) (Prod.ext hneg (Prod.ext hu htail.1)), htail.2⟩
  · have hparen : ∀ {re im : Double}, ¬(complex re im).kind = .number → re ≠ .zero false := by
      intro re im hk hre
      exact hk (if_pos hre)
    cases p with
    | int n => exact absurd rfl hnumber
    | float x => exact absurd rfl hnumber
    | none =>
        cases q with
        | none => exact ⟨rfl, List.append_cancel_left h⟩
        | bool b => cases b <;> cases h
        | complex re im => rw [kind, kind] at hkind; split at hkind <;> cases hkind
        | int | float | str | bytes => cases hkind
    | bool b =>
        cases q with
        | none => cases b <;> cases h
        | bool b' =>
            cases b <;> cases b'
            · exact ⟨rfl, List.append_cancel_left h⟩
            · cases h
            · cases h
            · exact ⟨rfl, List.append_cancel_left h⟩
        | complex re im => rw [kind, kind] at hkind; split at hkind <;> cases hkind
        | int | float | str | bytes => cases hkind
    | complex re im =>
        cases q with
        | complex re' im' =>
            obtain ⟨⟨rfl, rfl⟩, hrest⟩ := complexRepr_append (hparen hnumber) (hparen (hkind ▸ hnumber)) h
            exact ⟨rfl, hrest⟩
        | int | float => exact absurd hkind hnumber
        | none | bool | str | bytes => rw [show (complex re im).kind = .paren from if_neg (hparen hnumber)] at hkind; cases hkind
    | str a =>
        cases q with
        | str b =>
            obtain ⟨rfl, hrest⟩ := strRepr_append h
            exact ⟨rfl, hrest⟩
        | complex re im => rw [kind, kind] at hkind; split at hkind <;> cases hkind
        | none | bool | int | float | bytes => cases hkind
    | bytes a =>
        cases q with
        | bytes b =>
            obtain ⟨rfl, hrest⟩ := bytesRepr_append h
            exact ⟨rfl, hrest⟩
        | complex re im => rw [kind, kind] at hkind; split at hkind <;> cases hkind
        | none | bool | int | float | str => cases hkind

/-- The first part of a complex is no constant that a tuple's text goes on after. -/
theorem repr_append_ne {p : Prim} {a b : Bool} {u v : Unsigned} {s t : Str} (hu : u.Good) (hs : Ends IsMore s)
    (hsign : Ends (fun c => c = 43 ∨ c = 45) s) : p.repr printable ++ s ≠ signed a u ++ (withSign b v ++ t) := by
  intro h
  have hplus : Ends Numeral.IsMore (withSign b v ++ t) := by
    refine ends_cons ?_
    cases b <;> decide
  obtain ⟨c, rest, hc, hp⟩ := head_repr p s
  obtain ⟨d, rest', hd, hq⟩ := head_signed hu a (withSign b v ++ t)
  rw [hc, hd, List.cons.injEq] at h
  have hnumber : p.kind = .number := by
    rw [h.1, hq] at hp
    exact (Option.some.inj hp).symm
  have hsame : p.repr printable ++ s = signed a u ++ (withSign b v ++ t) := by rw [hc, hd, h.1, h.2]
  rw [repr_of_number hnumber, List.append_assoc] at hsame
  obtain ⟨-, htail⟩ := signed_append p.good_parts hu (ends_parts p hs) hplus hsame
  rcases tail_parts p with hnil | hj
  · rw [hnil, List.nil_append] at htail
    refine hsign (if b then 45 else 43) (by rw [htail]; rfl) ?_
    cases b
    · exact .inl rfl
    · exact .inr rfl
  · rw [hj, List.singleton_append, withSign, List.cons_append, List.cons.injEq] at htail
    cases b <;> cases htail.1

end Prim

/-! ## Texts side by side -/

/-- `sep.join(texts)`. -/
def join (sep : Str) : List Str → Str
  | [] => []
  | [x] => x
  | x :: y :: xs => x ++ (sep ++ join sep (y :: xs))

section Join

variable {α : Type} {f : α → Str} {R : α → α → Prop} {More : Nat → Prop} {sep s t : Str}

/-- What neither an item's text nor the separator begins with. -/
structure Closes (f : α → Str) (sep s : Str) : Prop where
  item : ∀ x u, f x ++ u ≠ s
  sep : ∀ u, sep ++ u ≠ s

/-- Texts that are each read in one way are read in one way side by side. -/
theorem join_append {xs ys : List α}
    (hread : ∀ x ∈ xs, ∀ y u v, Ends More u → Ends More v → f x ++ u = f y ++ v → R x y ∧ u = v)
    (hsep : ∀ u, Ends More (sep ++ u)) (hs : Ends More s) (ht : Ends More t) (hsc : Closes f sep s) (htc : Closes f sep t)
    (h : join sep (xs.map f) ++ s = join sep (ys.map f) ++ t) : List.Forall₂ R xs ys ∧ s = t := by
  have hends : ∀ (xs : List α) {s : Str}, Ends More s → Closes f sep s →
      ∃ u, Ends More u ∧ (xs = [] ∧ u = s ∨ ∃ x xs', xs = x :: xs' ∧ u = sep ++ (join sep (xs.map f) ++ s)) := by
    intro xs s hs hsc
    cases xs with
    | nil => exact ⟨s, hs, .inl ⟨rfl, rfl⟩⟩
    | cons x xs' => exact ⟨_, hsep _, .inr ⟨x, xs', rfl, rfl⟩⟩
  have hcons : ∀ (x : α) (xs : List α) {s u : Str},
      (xs = [] ∧ u = s ∨ ∃ y xs', xs = y :: xs' ∧ u = sep ++ (join sep (xs.map f) ++ s)) →
      join sep ((x :: xs).map f) ++ s = f x ++ u := by
    intro x xs s u hu
    rcases hu with ⟨rfl, rfl⟩ | ⟨y, xs', rfl, rfl⟩
    · rfl
    · simp only [List.map_cons, join, List.append_assoc]
  induction xs generalizing ys with
  | nil =>
      cases ys with
      | nil => exact ⟨.nil, h⟩
      | cons y ys =>
          obtain ⟨u, -, hu⟩ := hends ys ht htc
          rw [hcons y ys hu] at h
          exact absurd h.symm (hsc.item y u)
  | cons x xs ih =>
      obtain ⟨u, hus, hu⟩ := hends xs hs hsc
      rw [hcons x xs hu] at h
      cases ys with
      | nil => exact absurd h (htc.item x u)
      | cons y ys =>
          obtain ⟨v, hvs, hv⟩ := hends ys ht htc
          rw [hcons y ys hv] at h
          obtain ⟨hR, huv⟩ := hread x List.mem_cons_self y u v hus hvs h
          subst huv
          have hrest : join sep (xs.map f) ++ s = join sep (ys.map f) ++ t := by
            rcases hu with ⟨rfl, rfl⟩ | ⟨x', xs', rfl, rfl⟩
            · rcases hv with ⟨rfl, rfl⟩ | ⟨y', ys', rfl, hv⟩
              · rfl
              · exact absurd hv.symm (hsc.sep _)
            · rcases hv with ⟨rfl, hv⟩ | ⟨y', ys', rfl, hv⟩
              · exact absurd hv (htc.sep _)
              · exact List.append_cancel_left hv
          obtain ⟨hall, hst⟩ := ih (fun x hx => hread x (List.mem_cons_of_mem _ hx)) hrest
          exact ⟨.cons hR hall, hst⟩

end Join

/-- `repr` of a tuple with these texts of its items. -/
def tupleRepr : List Str → Str
  | [] => Py.str "()"
  | [x] => 40 :: (x ++ [44, 41])
  | x :: y :: xs => 40 :: (join (Py.str ", ") (x :: y :: xs) ++ [41])

section Tuple

variable {α : Type} {f : α → Str} {R : α → α → Prop} {More : Nat → Prop} {s t : Str}

/-- A tuple is read in one way, when its items are and none begins with a bracket that closes or with a blank. -/
theorem tupleRepr_append {xs ys : List α}
    (hread : ∀ x ∈ xs, ∀ y u v, Ends More u → Ends More v → f x ++ u = f y ++ v → R x y ∧ u = v)
    (hmore : ¬More 44 ∧ ¬More 41) (hhead : ∀ x u v, f x ++ u ≠ 41 :: v)
    (h : tupleRepr (xs.map f) ++ s = tupleRepr (ys.map f) ++ t) : List.Forall₂ R xs ys ∧ s = t := by
  have hcomma : ∀ u, Ends More (44 :: u) := fun u => Prim.ends_cons hmore.1
  have hsep : ∀ u, Ends More (Py.str ", " ++ u) := fun u => Prim.ends_cons hmore.1
  have hparen : ∀ u, Ends More (41 :: u) := fun u => Prim.ends_cons hmore.2
  have hcloses : ∀ u, Closes f (Py.str ", ") (41 :: u) := fun u => ⟨fun x v => hhead x v u, fun v hv => by cases hv⟩
  cases xs with
  | nil =>
      cases ys with
      | nil => exact ⟨.nil, List.append_cancel_left h⟩
      | cons y ys =>
          cases ys with
          | nil =>
              simp only [List.map_cons, List.map_nil, tupleRepr, List.cons_append, List.append_assoc] at h
              exact absurd (List.cons.inj h).2.symm (hhead y _ _)
          | cons y' ys =>
              simp only [List.map_cons, List.map_nil, tupleRepr, join, List.cons_append, List.append_assoc] at h
              exact absurd (List.cons.inj h).2.symm (hhead y _ _)
  | cons x xs =>
      cases xs with
      | nil =>
          cases ys with
          | nil =>
              simp only [List.map_cons, List.map_nil, tupleRepr, List.cons_append, List.append_assoc] at h
              exact absurd (List.cons.inj h).2 (hhead x _ _)
          | cons y ys =>
              cases ys with
              | nil =>
                  simp only [List.map_cons, List.map_nil, tupleRepr, List.cons_append, List.append_assoc] at h
                  obtain ⟨hR, hrest⟩ := hread x List.mem_cons_self y _ _ (hcomma _) (hcomma _) (List.cons.inj h).2
                  exact ⟨.cons hR .nil, (List.cons.inj (List.cons.inj hrest).2).2⟩
              | cons y' ys =>
                  simp only [List.map_cons, List.map_nil, tupleRepr, join, List.cons_append, List.append_assoc] at h
                  obtain ⟨-, hrest⟩ := hread x List.mem_cons_self y _ _ (hcomma _) (hsep _) (List.cons.inj h).2
                  cases hrest
      | cons x' xs =>
          cases ys with
          | nil =>
              simp only [List.map_cons, List.map_nil, tupleRepr, join, List.cons_append, List.append_assoc] at h
              exact absurd (List.cons.inj h).2 (hhead x _ _)
          | cons y ys =>
              cases ys with
              | nil =>
                  simp only [List.map_cons, List.map_nil, tupleRepr, join, List.cons_append, List.append_assoc] at h
                  obtain ⟨-, hrest⟩ := hread x List.mem_cons_self y _ _ (hsep _) (hcomma _) (List.cons.inj h).2
                  cases hrest
              | cons y' ys =>
                  rw [List.map_cons, List.map_cons, List.map_cons, List.map_cons, tupleRepr, tupleRepr, List.cons_append,
                    List.cons_append, List.append_assoc, List.append_assoc] at h
                  obtain ⟨hall, hrest⟩ : List.Forall₂ R (x :: x' :: xs) (y :: y' :: ys) ∧ 41 :: s = 41 :: t :=
                    join_append hread hsep (hparen _) (hparen _) (hcloses _) (hcloses _) (List.cons.inj h).2
                  exact ⟨hall, (List.cons.inj hrest).2⟩

end Tuple

/-! ## Constants in tuples -/

/-- A constant, or a tuple of such. -/
inductive Plain
  | prim (p : Prim)
  | tuple (items : List Plain)

namespace Plain

mutual

/-- `repr(c)`. -/
def repr (printable : Nat → Bool) : Plain → Str
  | .prim p => p.repr printable
  | .tuple items => tupleRepr (reprs printable items)

def reprs (printable : Nat → Bool) : List Plain → List Str
  | [] => []
  | c :: cs => repr printable c :: reprs printable cs

end

/-- What a text in a tuple can go on with; a sign after a bracket and a number makes them a complex. -/
def IsMore (c : Nat) : Prop := Prim.IsMore c ∨ c = 43 ∨ c = 45

instance : DecidablePred IsMore := fun c => inferInstanceAs (Decidable (Prim.IsMore c ∨ c = 43 ∨ c = 45))

theorem ends_prim {s : Str} (hs : Ends IsMore s) : Ends Prim.IsMore s := fun c hc hmore => hs c hc (.inl hmore)

variable {printable : Nat → Bool} {s t : Str}

theorem reprs_eq (cs : List Plain) : reprs printable cs = cs.map (repr printable) := by
  induction cs with
  | nil => rfl
  | cons c cs ih => rw [reprs, ih, List.map_cons]

theorem head_tupleRepr (xs : List Str) (s : Str) : ∃ rest, tupleRepr xs ++ s = 40 :: rest := by
  cases xs with
  | nil => exact ⟨_, rfl⟩
  | cons x xs => cases xs <;> exact ⟨_, rfl⟩

theorem repr_ne_of_kindOf {c : Nat} (hc : Prim.kindOf c = Option.none) (p : Plain) (s t : Str) :
    p.repr printable ++ s ≠ c :: t := by
  cases p with
  | prim p => exact p.repr_ne_of_kindOf hc s t
  | tuple xs =>
      intro h
      obtain ⟨rest, hrest⟩ := head_tupleRepr (reprs printable xs) s
      rw [repr, hrest] at h
      rw [← (List.cons.inj h).1] at hc
      cases hc

/-- A constant whose text begins with a bracket is a complex. -/
theorem paren_append {p : Prim} {r : Str} (h : p.repr printable ++ s = 40 :: r) :
    ∃ a u b v t, u.Good ∧ r = signed a u ++ (withSign b v ++ t) := by
  obtain ⟨c, rest, hc, hkind⟩ : ∃ c rest, p.repr printable ++ s = c :: rest ∧ Prim.kindOf c = some p.kind := p.head_repr s
  rw [h, List.cons.injEq] at hc
  rw [← hc.1] at hkind
  cases p with
  | complex re im =>
      have hre : re ≠ .zero false := by
        intro hre
        rw [Prim.kind, if_pos hre] at hkind
        cases hkind
      rw [Prim.repr, complexRepr, if_neg hre, List.cons_append, List.append_assoc, List.append_assoc] at h
      exact ⟨_, _, _, _, _, re.good_unsigned false, (List.cons.inj h).2.symm⟩
  | none | bool | int | float | str | bytes => cases hkind

theorem prim_ne_tuple {p : Prim} {xs : List Plain} :
    (Plain.prim p).repr printable ++ s ≠ (Plain.tuple xs).repr printable ++ t := by
  intro h
  rw [repr, repr, reprs_eq] at h
  have hnumber : ∀ {a b u v} {r s : Str}, u.Good → (∃ c rest, r = c :: rest ∧ Prim.kindOf c ≠ some .number) →
      r ≠ signed a u ++ (withSign b v ++ s) := by
    rintro a b u v r s hu ⟨c, rest, rfl, hc⟩ heq
    obtain ⟨d, rest', hd, hkind⟩ := Prim.head_signed hu a (withSign b v ++ s)
    rw [hd, List.cons.injEq] at heq
    exact hc (heq.1 ▸ hkind)
  have hitem : ∀ {x : Plain} {w : Str} {a b u v} {s : Str}, u.Good → Ends IsMore w →
      x.repr printable ++ w ≠ signed a u ++ (withSign b v ++ s) := by
    intro x w a b u v s hu hw
    cases x with
    | prim q => exact Prim.repr_append_ne hu (ends_prim hw) fun c hc hsign => hw c hc (.inr hsign)
    | tuple ys =>
        obtain ⟨rest, hrest⟩ := head_tupleRepr (reprs printable ys) w
        exact hnumber hu ⟨40, rest, hrest, by decide⟩
  have hcomma : ∀ w : Str, Ends IsMore (44 :: w) := fun w => Prim.ends_cons (by decide)
  cases xs with
  | nil =>
      obtain ⟨a, u, b, v, w, hu, hr⟩ := paren_append (show p.repr printable ++ s = 40 :: 41 :: t from h)
      exact hnumber hu ⟨41, t, rfl, by decide⟩ hr
  | cons x xs =>
      cases xs with
      | nil =>
          rw [List.map_cons, List.map_nil, tupleRepr, List.cons_append, List.append_assoc] at h
          obtain ⟨a, u, b, v, w, hu, hr⟩ := paren_append h
          exact hitem hu (hcomma _) hr
      | cons y xs =>
          rw [List.map_cons, List.map_cons, tupleRepr, join, List.cons_append, List.append_assoc, List.append_assoc,
            List.append_assoc] at h
          obtain ⟨a, u, b, v, w, hu, hr⟩ := paren_append h
          exact hitem hu (hcomma _) hr

/-- A constant is read off the front of a text in one way, tuples at any depth included. -/
theorem repr_append (x : Plain) : ∀ (y : Plain) (s t : Str), Ends IsMore s → Ends IsMore t →
    x.repr printable ++ s = y.repr printable ++ t → x = y ∧ s = t := by
  refine @Plain.rec (fun x => ∀ (y : Plain) (s t : Str), Ends IsMore s → Ends IsMore t →
      x.repr printable ++ s = y.repr printable ++ t → x = y ∧ s = t)
    (fun xs => ∀ x ∈ xs, ∀ (y : Plain) (s t : Str), Ends IsMore s → Ends IsMore t →
      x.repr printable ++ s = y.repr printable ++ t → x = y ∧ s = t) ?_ ?_ ?_ ?_ x
  · intro p y s t hs ht h
    cases y with
    | prim q =>
        obtain ⟨rfl, hst⟩ := Prim.repr_append (ends_prim hs) (ends_prim ht) h
        exact ⟨rfl, hst⟩
    | tuple ys => exact absurd h prim_ne_tuple
  · intro xs ih y s t hs ht h
    cases y with
    | prim q => exact absurd h.symm prim_ne_tuple
    | tuple ys =>
        rw [repr, repr, reprs_eq, reprs_eq] at h
        obtain ⟨hall, hst⟩ := tupleRepr_append ih (by decide) (fun x u v => repr_ne_of_kindOf rfl x u v) h
        rw [List.forall₂_eq_eq_eq] at hall
        exact ⟨congrArg tuple hall, hst⟩
  · exact fun x hx => absurd hx List.not_mem_nil
  · intro x xs hx hxs y hy
    rcases List.mem_cons.mp hy with rfl | hy
    · exact hx
    · exact hxs y hy

end Plain

end Literal
