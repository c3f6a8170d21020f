import Cash.Lib.Repr
import Mathlib.Data.List.Lex
import Mathlib.Data.List.Sort

/-!
# The identity of compiled code

`bytecode_identity` of `source_norm.py`, of code whose nesting the interpreter's stack allows.
-/

namespace Cash.Bytecode

open Py Literal

/-- A code object, less its constants. -/
structure Header where
  coCode : Bytes
  coNames : List Str
  coVarnames : List Str
  coFreevars : List Str
  coArgcount : Nat
  coPosonlyargcount : Nat
  coKwonlyargcount : Nat
  coFlags : Nat
  coExceptiontable : Bytes
  coName : Str
deriving DecidableEq

/-- A constant. The items of a frozenset are in the order that a process gives them in. -/
inductive Const
  | prim (p : Prim)
  | tuple (items : List Const)
  | frozenset (items : List Const)
  | code (header : Header) (consts : List Const)
  /-- A constant of any other type, by the type's name. -/
  | other (typeName : { s : Str // 62 ∉ s })

structure Interpreter where
  /-- `sys.version_info >= (3, 14)`. -/
  since314 : Bool
  /-- The characters from 128 on that `repr` leaves as they are. -/
  printable : Nat → Bool

section

variable (py : Interpreter)

/-! ## The docstring -/

/-- Is `consts[0]` a docstring? -/
def hasDoc (h : Header) : List Const → Bool
  | .prim (.str _) :: _ => if py.since314 then h.coFlags.testBit 26 else h.coFlags.testBit 0 && h.coName.head? != some 60
  | _ => false

/-- `(None,) + consts[1:] if has_doc else consts`. -/
def masked {α : Type} (hasDoc : Bool) (none : α) (consts : List α) : List α :=
  if hasDoc then none :: consts.tail else consts

/-- `code_consts_without_docstring`. -/
def codeConstsWithoutDocstring (h : Header) (consts : List Const) : List Const :=
  masked (hasDoc py h consts) (.prim .none) consts

/-! ## The text -/

/-- `sorted(texts)`. -/
def sorted (texts : List Str) : List Str := texts.insertionSort (· ≤ ·)

/-- The atoms of a code object, with the texts of its constants. -/
def atoms (h : Header) (consts : List Str) : Str :=
  join [1] [hex h.coCode, tupleRepr (h.coNames.map (strRepr py.printable)),
    tupleRepr (h.coVarnames.map (strRepr py.printable)), join [44] consts]

mutual

/-- `_stabilize_const`. -/
def stabilizeConst : Const → Str
  | .prim p => p.repr py.printable
  | .code h consts =>
    str "code(" ++ (atoms py h (masked (hasDoc py h consts) (Prim.none.repr py.printable) (stabilizeConsts consts)) ++ [41])
  | .tuple items => 40 :: (join [44] (stabilizeConsts items) ++ [41])
  | .frozenset items => 123 :: (join [44] (sorted (stabilizeConsts items)) ++ [125])
  | .other typeName => 60 :: (typeName.1 ++ [62])

def stabilizeConsts : List Const → List Str
  | [] => []
  | c :: cs => stabilizeConst c :: stabilizeConsts cs

end

/-- `_code_atoms`. -/
def codeAtoms (h : Header) (consts : List Const) : Str :=
  atoms py h ((codeConstsWithoutDocstring py h consts).map (stabilizeConst py))

/-! ## The identity -/

/-- What a `__code__` attribute holds. -/
inductive Slot
  | none
  | code (header : Header) (consts : List Const)
  | foreign

/-- The attributes that are looked up on a callable. -/
structure Callable where
  code : Slot
  /-- `__code__` of its `__call__`. -/
  callCode : Slot

/-- The code object that is digested. -/
def Callable.found (fn : Callable) : Option (Header × List Const) :=
  let slot := match fn.code with
    | .none => fn.callCode
    | slot => slot
  match slot with
  | .code header consts => some (header, consts)
  | _ => Option.none

/-- The headers agree on what is written down of them. -/
def Header.Told (h k : Header) : Prop := h.coCode = k.coCode ∧ h.coNames = k.coNames ∧ h.coVarnames = k.coVarnames

/-- Constants alike at every level: their types and values, with the headers of nested code related, docstrings aside. -/
inductive Const.Alike (rel : Header → Header → Prop) : Const → Const → Prop
  | prim (p : Prim) : Alike rel (.prim p) (.prim p)
  | other (typeName : { s : Str // 62 ∉ s }) : Alike rel (.other typeName) (.other typeName)
  | tuple {xs ys : List Const} : List.Forall₂ (Alike rel) xs ys → Alike rel (.tuple xs) (.tuple ys)
  | frozenset {xs ys zs : List Const} : zs.Perm ys → List.Forall₂ (Alike rel) xs zs → Alike rel (.frozenset xs) (.frozenset ys)
  | code {h k : Header} {xs ys : List Const} : rel h k →
      List.Forall₂ (Alike rel) (codeConstsWithoutDocstring py h xs) (codeConstsWithoutDocstring py k ys) →
      Alike rel (.code h xs) (.code k ys)

end

end Cash.Bytecode
