import Cash.Lib.Py

/-!
# The arguments of a call

How a call binds to a signature (`inspect.Signature.bind` with `apply_defaults`), and the form of it that is hashed
into a key: `normalize_call_args`, `keyed_arguments` and `serialize_args`.
-/

namespace Cash.Args

open Py

variable {V H : Type}

def colon : Nat := 58

def star : Nat := 42

structure Param (V : Type) where
  name : Str
  default : Option V

/-- The parameters of a function, by their kinds, which stand in this order. A name never holds a colon or a star. -/
structure Signature (V : Type) where
  posonly : List (Param V)
  ordinary : List (Param V)
  varPositional : Option Str
  kwonly : List (Param V)
  varKeyword : Option Str
  nodup : (posonly.map (·.name) ++ ordinary.map (·.name) ++ varPositional.toList ++ kwonly.map (·.name) ++
    varKeyword.toList).Nodup
  identifiers : ∀ name ∈ posonly.map (·.name) ++ ordinary.map (·.name) ++ varPositional.toList ++
    kwonly.map (·.name) ++ varKeyword.toList, colon ∉ name ∧ star ∉ name

namespace Signature

/-- The parameters that hold one argument each, in the order of the signature. -/
def names (sig : Signature V) : List Str :=
  sig.posonly.map (·.name) ++ sig.ordinary.map (·.name) ++ sig.kwonly.map (·.name)

/-- The parameters a keyword binds to. -/
def keywords (sig : Signature V) : List Str := sig.ordinary.map (·.name) ++ sig.kwonly.map (·.name)

/-- All the parameters. -/
def parameters (sig : Signature V) : List Str :=
  sig.posonly.map (·.name) ++ sig.ordinary.map (·.name) ++ sig.varPositional.toList ++ sig.kwonly.map (·.name) ++
    sig.varKeyword.toList

end Signature

/-- The arguments as the caller wrote them. The keywords are a dict, in the caller's order. -/
structure Call (V : Type) where
  args : List V
  kwargs : List (Str × V)
  nodup : (kwargs.map (·.1)).Nodup

/-- `BoundArguments`, defaults applied. -/
structure Bound (V : Type) where
  /-- The parameters that hold one argument each, in the order of the signature. -/
  named : List (Str × V)
  varArgs : List V
  varKwargs : List (Str × V)

/-- Parameters that only take the arguments at their positions. -/
def bindPosonly : List (Param V) → List V → Option (List (Str × V))
  | [], _ => some []
  | p :: ps, v :: vs => (bindPosonly ps vs).map ((p.name, v) :: ·)
  | p :: ps, [] => do
    let v ← p.default
    let rest ← bindPosonly ps []
    return (p.name, v) :: rest

/-- Parameters that take the arguments at their positions or those of their names. -/
def bindNamed (kwargs : List (Str × V)) : List (Param V) → List V → Option (List (Str × V))
  | [], _ => some []
  | p :: ps, v :: vs =>
    if p.name ∈ kwargs.map (·.1) then none else (bindNamed kwargs ps vs).map ((p.name, v) :: ·)
  | p :: ps, [] => do
    let v ← (kwargs.lookup p.name).or p.default
    let rest ← bindNamed kwargs ps []
    return (p.name, v) :: rest

/-- The arguments after the positional parameters. -/
def varArgsOf (sig : Signature V) (call : Call V) : List V :=
  call.args.drop (sig.posonly.length + sig.ordinary.length)

/-- The keywords that name no parameter a keyword binds to. -/
def varKwargsOf (sig : Signature V) (call : Call V) : List (Str × V) :=
  call.kwargs.filter fun e => e.1 ∉ sig.keywords

/-- `sig.bind(*args, **kwargs)` and `apply_defaults()`; none where `bind` raises. -/
def bind (sig : Signature V) (call : Call V) : Option (Bound V) := do
  let posonly ← bindPosonly sig.posonly call.args
  let ordinary ← bindNamed call.kwargs sig.ordinary (call.args.drop sig.posonly.length)
  let kwonly ← bindNamed call.kwargs sig.kwonly []
  if varArgsOf sig call ≠ [] ∧ sig.varPositional = none then none
  else if varKwargsOf sig call ≠ [] ∧ sig.varKeyword = none then none
  else some ⟨posonly ++ ordinary ++ kwonly, varArgsOf sig call, varKwargsOf sig call⟩

/-! ## The forms -/

/-- What is hashed: arguments and keywords, both in order. -/
structure Form (V : Type) where
  args : List V
  kwargs : List (Str × V)

/-- The form as the caller wrote it. -/
def Call.raw (call : Call V) : Form V := ⟨call.args, call.kwargs⟩

/-- `f"{name}:{k}"`. -/
def varKey (name k : Str) : Str := name ++ colon :: k

/-- The `**kwargs` entries, under the parameter's own name. -/
def varEntries (sig : Signature V) (varKwargs : List (Str × V)) : List (Str × V) :=
  match sig.varKeyword with
  | some name => varKwargs.map fun e => (varKey name e.1, e.2)
  | none => []

/-- The form of bound arguments. -/
def Bound.form (sig : Signature V) (b : Bound V) : Form V := ⟨b.varArgs, b.named ++ varEntries sig b.varKwargs⟩

/-- `normalize_call_args`. -/
def normalizeCallArgs (sig : Signature V) (call : Call V) : Form V :=
  match bind sig call with
  | some b => b.form sig
  | none => call.raw

/-- `k.partition(":")[0]`. -/
def partition (k : Str) : Str := k.takeWhile (· ≠ colon)

/-- `keyed_arguments` with ignored parameters. -/
def keyedArguments (sig : Signature V) (ignored : List Str) (call : Call V) (normalized : Form V) : Form V :=
  match bind sig call with
  | none => normalized
  | some _ =>
    { args := if ∃ name, sig.varPositional = some name ∧ name ∈ ignored then [] else normalized.args
      kwargs := normalized.kwargs.filter fun e => e.1 ∉ ignored ∧ partition e.1 ∉ ignored }

/-- `serialize_args`, where `hash` is `hash_call_payload` and none stands for what it raises. A form that was
normalised is another object than the caller's. -/
def serializeArgs (sig : Signature V) (hash : Form V → Option H) (call : Call V) : Option H :=
  match hash (normalizeCallArgs sig call) with
  | some h => some h
  | none => if (bind sig call).isSome then hash call.raw else none

/-! ## What the forms are to tell apart -/

/-- The two bind equal values to every parameter that is not ignored. -/
def BindsAlike (sig : Signature V) (ignored : List Str) (b b' : Bound V) : Prop :=
  (∀ name ∈ sig.names, name ∉ ignored → ∀ v, (name, v) ∈ b.named ↔ (name, v) ∈ b'.named) ∧
    (∀ name, sig.varPositional = some name → name ∉ ignored → b.varArgs = b'.varArgs) ∧
    ∀ name, sig.varKeyword = some name → name ∉ ignored → b.varKwargs = b'.varKwargs

/-- The parameters the caller gave a value. -/
def passed (sig : Signature V) (call : Call V) : List Str :=
  ((sig.posonly ++ sig.ordinary).take call.args.length).map (·.name) ++
    (call.kwargs.map (·.1)).filter (· ∈ sig.keywords)

/-- `b'` binds as the call does to `b`, on what the caller passed. -/
def AgreesOnPassed (sig : Signature V) (call : Call V) (b b' : Bound V) : Prop :=
  (∀ name ∈ passed sig call, ∀ v, (name, v) ∈ b.named → (name, v) ∈ b'.named) ∧
    (b.varArgs ≠ [] → b'.varArgs = b.varArgs) ∧ (b.varKwargs ≠ [] → b'.varKwargs = b.varKwargs)

/-- The normalised form cannot be hashed and the raw one can. -/
def FallsBack (sig : Signature V) (hash : Form V → Option H) (call : Call V) : Prop :=
  hash (normalizeCallArgs sig call) = none ∧ hash call.raw ≠ none

/-- The raw form is not the normalised form, nor either form of a call that binds otherwise. -/
def Apart (sig : Signature V) (call : Call V) (b : Bound V) : Prop :=
  call.raw ≠ normalizeCallArgs sig call ∧ ∀ call' b', bind sig call' = some b' → ¬ AgreesOnPassed sig call b b' →
    call.raw ≠ normalizeCallArgs sig call' ∧ call.raw ≠ call'.raw

/-- The keywords the caller wrote are the names of the function's parameters in the order of the signature, then
only names that begin with the name of `**kwargs` and a colon, before what no parameter is called; and there are
arguments only for `*args`. -/
def NamesParameters (sig : Signature V) (call : Call V) : Prop :=
  (call.args ≠ [] → sig.varPositional.isSome) ∧
    ∃ keys : List Str, (∀ k ∈ keys, k ∉ sig.keywords ∧ sig.varKeyword.isSome) ∧
      call.kwargs.map (·.1) = sig.names ++ keys.map (varKey (sig.varKeyword.getD []))

end Cash.Args
