import Cash.Lib.Bytes
import Mathlib.Data.List.Basic
import Mathlib.Data.Nat.Digits.Defs

/-!
# Plain Python values

The values a pickle of plain data can hold, and what the operations of the language do with them when they
are applied to a value of any type: subscripts, `int()`, iteration, dict lookups by a string key.
-/

namespace Py

/-- A `str`: its code points (a pickle may hold lone surrogates). -/
abbrev Str := List Nat

instance decidableMemStr (s : Str) (names : List Str) : Decidable (s ∈ names) := inferInstance

/-- The `str` of a literal. -/
def str (s : String) : Str := s.toList.map Char.toNat

/-- `str(n)` for a number. -/
def decimal (n : Nat) : Str := if n = 0 then [48] else (Nat.digits 10 n).reverse.map (48 + ·)

theorem decimal_injective : Function.Injective decimal := by
  have hmap : Function.Injective (List.map fun d : Nat => 48 + d) :=
    List.map_injective_iff.mpr (fun _ _ h => Nat.add_left_cancel h)
  have hzero : ∀ n, n ≠ 0 → decimal n ≠ decimal 0 := by
    intro n hn heq
    rw [decimal, if_neg hn, decimal, if_pos rfl] at heq
    have hdigits : (Nat.digits 10 n).reverse = [0] := hmap heq
    rw [List.reverse_eq_iff] at hdigits
    have hof := Nat.ofDigits_digits 10 n
    rw [hdigits] at hof
    exact hn hof.symm
  intro m n heq
  by_cases hm : m = 0
  · by_cases hn : n = 0
    · rw [hm, hn]
    · rw [hm] at heq
      exact absurd heq.symm (hzero n hn)
  · by_cases hn : n = 0
    · rw [hn] at heq
      exact absurd heq (hzero m hm)
    · rw [decimal, if_neg hm, decimal, if_neg hn] at heq
      exact Nat.digits_inj_iff.mp (List.reverse_injective (hmap heq))

/-- A `float`: `m * 2 ^ e`, an infinity or a nan. -/
inductive Flt
  | fin (m e : Int)
  | inf (negative : Bool)
  | nan
deriving DecidableEq, Repr

/-- A plain value. -/
inductive Val
  | none
  | bool (b : Bool)
  | int (n : Int)
  | float (x : Flt)
  | complex (re im : Flt)
  | str (s : Str)
  | bytes (b : Bytes)
  | bytearray (b : Bytes)
  | list (items : List Val)
  | tuple (items : List Val)
  | set (items : List Val)
  | frozenset (items : List Val)
  /-- The items, in insertion order. -/
  | dict (items : List (Val × Val))

/-- The errors of the language. -/
inductive Err
  | typeError
  | attributeError
  | indexError
  | keyError
  | valueError
  | overflowError
deriving DecidableEq, Repr

/-! ## Dicts -/

abbrev Items := List (Val × Val)

/-- Is this the key `k`? Only a `str` equals a `str`. -/
def Val.isStr (k : Str) : Val → Bool
  | .str s => s = k
  | _ => false

/-- `k in d`. -/
def Items.has (d : Items) (k : Str) : Bool := d.any fun p => p.1.isStr k

/-- `d.get(k)` for a string key: `none` is Python's `None`, stored or not. -/
def Items.get (d : Items) (k : Str) : Option Val :=
  match d.find? fun p => p.1.isStr k with
  | none => none
  | some (_, .none) => none
  | some (_, v) => some v

/-- `d.pop(k, None)`: what is left. -/
def Items.pop (d : Items) (k : Str) : Items := d.filter fun p => !p.1.isStr k

/-- `{**d, k: v}`. -/
def Items.with (d : Items) (k : Str) (v : Val) : Items :=
  if d.has k then d.map fun p => if p.1.isStr k then (p.1, v) else p
  else d ++ [(.str k, v)]

/-- Is the float this integer? -/
def Flt.isInt (n : Int) : Flt → Bool
  | .fin m e => if 0 ≤ e then m * 2 ^ e.toNat = n else m = n * 2 ^ (-e).toNat
  | _ => false

/-- Does this value, as a dict key, equal the integer `n`? -/
def Val.isInt (n : Int) : Val → Bool
  | .int k => k = n
  | .bool b => (if b then 1 else 0) = n
  | .float x => x.isInt n
  | .complex x y => x.isInt n && y.isInt 0
  | _ => false

/-! ## Subscripts and `int()` -/

/-- `v[i]` for a small index. -/
def Val.item (v : Val) (i : Nat) : Except Err Val :=
  match v with
  | .list items => (items[i]?).elim (.error .indexError) .ok
  | .tuple items => (items[i]?).elim (.error .indexError) .ok
  | .str s => (s[i]?).elim (.error .indexError) fun c => .ok (.str [c])
  | .bytes b => (b[i]?).elim (.error .indexError) fun c => .ok (.int c.toNat)
  | .bytearray b => (b[i]?).elim (.error .indexError) fun c => .ok (.int c.toNat)
  | .dict items => (items.find? fun p => p.1.isInt i).elim (.error .keyError) fun p => .ok p.2
  | _ => .error .typeError

/-- `int(x)` for a float: its integer part. -/
def Flt.toInt : Flt → Except Err Int
  | .fin m e => .ok (if 0 ≤ e then m * 2 ^ e.toNat else m.tdiv (2 ^ (-e).toNat))
  | .inf _ => .error .overflowError
  | .nan => .error .valueError

/-- `int(v)`. How a text is parsed is the interpreter's (`parse`: digits of any script, a limit on how
many). -/
def Val.toInt (parse : Str → Option Int) (v : Val) : Except Err Int :=
  match v with
  | .bool b => .ok (if b then 1 else 0)
  | .int n => .ok n
  | .float x => x.toInt
  | .str s => (parse s).elim (.error .valueError) .ok
  | .bytes b => (parse (b.map UInt8.toNat)).elim (.error .valueError) .ok
  | .bytearray b => (parse (b.map UInt8.toNat)).elim (.error .valueError) .ok
  | _ => .error .typeError

/-! ## Truth, iteration and hashing -/

/-- `bool(v)`. -/
def Val.truthy : Val → Bool
  | .none => false
  | .bool b => b
  | .int n => n ≠ 0
  | .float (.fin m _) => m ≠ 0
  | .complex (.fin m _) (.fin n _) => m ≠ 0 || n ≠ 0
  | .str s => s ≠ []
  | .bytes b => b ≠ []
  | .bytearray b => b ≠ []
  | .list items => !items.isEmpty
  | .tuple items => !items.isEmpty
  | .set items => !items.isEmpty
  | .frozenset items => !items.isEmpty
  | .dict items => !items.isEmpty
  | _ => true

/-- `list(v)`: a dict gives its keys. -/
def Val.iterate : Val → Except Err (List Val)
  | .list items => .ok items
  | .tuple items => .ok items
  | .set items => .ok items
  | .frozenset items => .ok items
  | .dict items => .ok (items.map (·.1))
  | .str s => .ok (s.map fun c => .str [c])
  | .bytes b => .ok (b.map fun c => .int c.toNat)
  | .bytearray b => .ok (b.map fun c => .int c.toNat)
  | _ => .error .typeError

mutual

/-- `hash(v)` returns. -/
def Val.hashable : Val → Bool
  | .bytearray _ => false
  | .list _ => false
  | .set _ => false
  | .dict _ => false
  | .tuple items => Val.allHashable items
  | _ => true

def Val.allHashable : List Val → Bool
  | [] => true
  | v :: rest => v.hashable && Val.allHashable rest

end

/-! ## Strings -/

/-- `s.encode("utf-8")` returns: no surrogate in it. -/
def Str.isUtf8 (s : Str) : Bool := s.all fun c => c < 55296 || 57343 < c

/-- `s.endswith(suffix)`. -/
def Str.endsWith (s suffix : Str) : Bool := suffix.isSuffixOf s

/-- `v.hex` exists. -/
def Val.hasHex : Val → Bool
  | .bytes _ => true
  | .bytearray _ => true
  | .float _ => true
  | _ => false

/-- `v == b` for a `bytes`. -/
def Val.eqBytes (v : Val) (b : Bytes) : Bool :=
  match v with
  | .bytes b' => b' = b
  | .bytearray b' => b' = b
  | _ => false

/-- `b.hex()`. -/
def hex (b : Bytes) : Str := b.flatMap fun c => [digit (c.toNat / 16), digit (c.toNat % 16)]
where
  digit (n : Nat) : Nat := if n < 10 then 48 + n else 87 + n

/-! ## Lemmas -/

theorem hex_digit_inj {m n : Nat} (hm : m < 16) (hn : n < 16) (h : hex.digit m = hex.digit n) : m = n := by
  unfold hex.digit at h
  split at h <;> split at h <;> omega

theorem hex_injective : Function.Injective hex := by
  intro a
  induction a with
  | nil =>
      intro b h
      cases b with
      | nil => rfl
      | cons c b => simp [hex] at h
  | cons c a ih =>
      intro b h
      cases b with
      | nil => simp [hex] at h
      | cons c' b =>
          simp only [hex, List.flatMap_cons, List.cons_append, List.nil_append, List.cons.injEq] at h
          obtain ⟨h₁, h₂, h₃⟩ := h
          have hc := c.toNat_lt
          have hc' := c'.toNat_lt
          have h₁ := hex_digit_inj (by omega) (by omega) h₁
          have h₂ := hex_digit_inj (by omega) (by omega) h₂
          have hcc : c = c' := UInt8.toNat.inj (by omega)
          rw [hcc, ih h₃]

theorem not_mem_hex {n : Nat} (b : Bytes) (h : n < 48) : n ∉ hex b := by
  intro hn
  simp only [hex, List.mem_flatMap, List.mem_cons, List.not_mem_nil, or_false] at hn
  obtain ⟨c, _, hd⟩ := hn
  unfold hex.digit at hd
  split at hd <;> split at hd <;> omega

@[simp] theorem Val.isStr_str (k s : Str) : Val.isStr k (.str s) = decide (s = k) := rfl

/-- A key not there is added at the end. -/
theorem Items.with_of_has {d : Items} {k : Str} {v : Val} (h : d.has k = false) :
    d.with k v = d ++ [(.str k, v)] := by
  simp [Items.with, h]

theorem Items.not_isStr_of_has {d : Items} {k : Str} (h : d.has k = false) : ∀ p ∈ d, p.1.isStr k = false := by
  intro p hp
  simpa using (List.any_eq_false.mp h) p hp

theorem Items.get_with {d : Items} {k : Str} {b : Bytes} (h : d.has k = false) :
    (d.with k (.bytes b)).get k = some (.bytes b) := by
  have hfind : d.find? (fun p => p.1.isStr k) = none := by
    rw [List.find?_eq_none]
    intro p hp
    simp [Items.not_isStr_of_has h p hp]
  rw [Items.with_of_has h, Items.get, List.find?_append, hfind]
  simp

theorem Items.pop_with {d : Items} {k : Str} {v : Val} (h : d.has k = false) : (d.with k v).pop k = d := by
  rw [Items.with_of_has h, Items.pop, List.filter_append]
  have hall : d.filter (fun p => !p.1.isStr k) = d := by
    rw [List.filter_eq_self]
    intro p hp
    simp [Items.not_isStr_of_has h p hp]
  simp [hall]

end Py
