import Cash.Lib.Py
import Cash.Payload.Walk

/-!
# The key part of one argument

`ArgHasher.arg_hash`: what each step finds out about the argument is a field, and the first step that answers wins.
-/

namespace Cash.Payload

open Py

/-- What is registered with an `ArgHasher`: whether each table has an entry, and what a hasher registered for `dict`
says of `{}`. -/
structure Hasher where
  overrideHashers : Bool
  typeHashers : Bool
  frozenArrays : Bool
  frozenContainers : Bool
  keywords : Option Str
  keywords_table : keywords.isSome = true → overrideHashers = true ∨ typeHashers = true

/-- `override_hashers or type_hashers or _frozen.arrays or _frozen.containers`. -/
def Hasher.hooked (hasher : Hasher) : Bool :=
  hasher.overrideHashers || hasher.typeHashers || hasher.frozenArrays || hasher.frozenContainers

/-- An argument as the steps of `arg_hash` see it. -/
structure Argument (hasher : Hasher) where
  /-- Its type is a primitive's, a leaf's or a container's of the language itself. -/
  builtin : Bool
  /-- `cash_key_hash`, for a class with a `__cash_key__`. -/
  cashKey : Option Str
  /-- `keys_by_registration_only`. -/
  registered : Bool
  /-- `_trusted_lineage`. -/
  lineage : Option Str
  /-- `_frozen_digest`. -/
  frozen : Option Str
  /-- The lineage and the content digest of the entry of `_memo` for this object. -/
  memo : Option (Str × Str)
  /-- The source hash of an overriding hasher, and its result. -/
  override : Option (Str × Str)
  /-- `carried_digest`. -/
  carried : Option Str
  /-- `_frame_memo_lookup`, for a copy-on-write frame. -/
  frame : Option Str
  /-- `builtin_hash`, read or handed on. -/
  content : Option Str
  /-- The source hash of a hasher registered for the type, and its result. -/
  typeHash : Option (Str × Str)
  /-- The module and the qualified name of a function that `code_value_stand_in` stands for by name. -/
  code : Option (Option Str × Option Str)
  builtin_none : builtin = true →
    cashKey = none ∧ lineage = none ∧ frame = none ∧ content = none ∧ code = none
  frozen_tables : frozen.isSome = true → hasher.frozenArrays = true ∨ hasher.frozenContainers = true
  override_table : override.isSome = true → hasher.overrideHashers = true
  typeHash_table : typeHash.isSome = true → hasher.typeHashers = true

/-- What `arg_hash` gives. -/
inductive Hashed
  | str (s : Str)
  /-- `("__cash_code_value__", module, qualname)`. -/
  | codeValue (module qualname : Option Str)
  | itself
deriving DecidableEq, Repr

/-- `f"{src_hash}:{hasher_fn(arg)}"`. -/
def hasherKey (hash : Str × Str) : Str := hash.1 ++ Py.str ":" ++ hash.2

namespace Argument

variable {hasher : Hasher}

/-- The digest `_memo` holds for the object, while its lineage is the same. -/
def remembered (a : Argument hasher) : Option Str :=
  match a.lineage, a.memo with
  | some lineage, some (at_, digest) => if at_ = lineage then some digest else none
  | _, _ => none

/-- The class's `__cash_key__` is asked: no registered hasher covers the type. -/
def keyedByClass (a : Argument hasher) : Option Str :=
  if (hasher.overrideHashers || hasher.typeHashers) && a.registered then none else a.cashKey

/-- The answers that are strings, in the order they are asked for, after `__cash_key__`. -/
def stringKey (a : Argument hasher) : Option Str :=
  a.frozen <|> a.remembered <|> a.override.map hasherKey <|> (a.lineage.bind fun _ => a.carried) <|> a.frame <|>
    a.content <|> a.lineage <|> a.typeHash.map hasherKey

/-- `arg_hash`. -/
def argHash (a : Argument hasher) : Hashed :=
  match a.keyedByClass <|> a.stringKey with
  | some s => .str s
  | none =>
    match a.code with
    | some (module, qualname) => .codeValue module qualname
    | none => .itself

end Argument

/-!
## The bytes of a call

`canonical_bytes` of values of built-in types, the two shortcuts that write the form of a call without a walk
(`canonical_call_bytes` and `canonical_marker_bytes`), and `hash_payload` of one argument.
-/

section

open Canon

/-! ### The walk of built-in values -/

section Walk

variable {env : Canon.Env} {ρ : Type} [DecidableEq ρ]

/-- `b"u" + content_dumps(form)`. -/
def unshared (env : Canon.Env) (form : Form) : Bytes := 117 :: env.dumps form

/-- `canonical_bytes(v)`, with the sorted frozensets that are remembered before and after. -/
def CanonicalBytes (h : Canon.Heap env ρ) (memo : Memo ρ) (v : ρ) (bytes : Bytes) (memo' : Memo ρ) : Prop :=
  ∃ form, StableKeyRepr h memo v (.form form) memo' ∧ bytes = unshared env form

/-! ### The shortcuts -/

/-- `_call_bytes`: the form of `(args, kwargs)` from the forms of its items. -/
def callForm (argForms : List Form) (kwargForms : List (Form × Form)) : Form :=
  .typed "tuple" [.typed "tuple" argForms, .typed "dict" (kwargForms.map fun p => .tuple [p.1, p.2])]

def callBytes (env : Canon.Env) (argForms : List Form) (kwargForms : List (Form × Form)) : Bytes :=
  unshared env (callForm argForms kwargForms)

/-- The primitive a reference names, which is its own form. -/
def primOf (h : Canon.Heap env ρ) (x : ρ) : Option Form :=
  match h.obj x with
  | .prim p => some (.prim p)
  | _ => none

def strOf (h : Canon.Heap env ρ) (x : ρ) : Option Form :=
  match h.obj x with
  | .prim (.str s) => some (.prim (.str s))
  | _ => none

/-- The forms of the name and the value of a keyword argument. -/
def kwargForm (h : Canon.Heap env ρ) (p : ρ × ρ) : Option (Form × Form) := do
  let value ← primOf h p.2
  let key ← strOf h p.1
  return (key, value)

/-- `canonical_call_bytes(args, kwargs)`. -/
def canonicalCallBytes (h : Canon.Heap env ρ) (args : List ρ) (kwargs : List (ρ × ρ)) : Option Bytes := do
  let argForms ← args.mapM (primOf h)
  let kwargForms ← kwargs.mapM (kwargForm h)
  return callBytes env argForms kwargForms

/-- `canonical_marker_bytes((kind, digest))`. -/
def canonicalMarkerBytes (env : Canon.Env) (kind digest : Str) : Bytes :=
  callBytes env [.typed "tuple" [.prim (.str kind), .prim (.str digest)]] []

/-- The form `_enter` gives a number is sent at once. -/
def EnterForm (h : Canon.Heap env ρ) (x : ρ) (form : Form) : Prop :=
  ∀ m : Machine ρ, m.phase = .enter x → step h m = .inl { m with phase := .send form }

end Walk

/-! ### One argument -/

variable {env : Env} {hasher : Hasher}

/-- A call with one argument. -/
structure Call (env : Env) (hasher : Hasher) (ρ : Type) [DecidableEq ρ] where
  world : World env ρ
  value : ρ
  answers : Argument hasher
  builtin_iff : answers.builtin = true ↔
    (∀ n, world.obj value ≠ .atom (.np n)) ∧ ∀ n, world.obj value ≠ .atom (.other n)
  /-- What a hasher registered for `tuple`, or for a base of it, says of the payload, which is a tuple. -/
  payload : Option Str
  payload_table : payload.isSome = true → hasher.overrideHashers = true ∨ hasher.typeHashers = true

/-- What an argument is in the payload: a string, a marker's kind and digest, or the value. -/
inductive Part (ρ : Type)
  | text (s : Str)
  | marker (kind digest : Str)
  | value (x : ρ)

/-- A name, or `None`. -/
def nameOf : Option Str → Prim
  | some s => .str s
  | none => .none

/-- `("__cash_code_value__", module, qualname)`, with its items. -/
def codeValueHeap (env : Env) (module qualname : Option Str) : Census.Heap env.toEnv (Fin 4) :=
  .alone fun
    | 0 => .tuple [1, 2, 3]
    | 1 => .atom (.prim (.str (str "__cash_code_value__")))
    | 2 => .atom (.prim (nameOf module))
    | 3 => .atom (.prim (nameOf qualname))

namespace Call

variable {ρ : Type} [DecidableEq ρ] (c : Call env hasher ρ)

/-- The value is an exact primitive that cannot be written into. -/
def primForm : Option Form :=
  match c.world.obj c.value with
  | .atom (.prim p) => some (.prim p)
  | _ => none

/-- `plain_key_part` of what `arg_hash` gives; none for an `OverflowError`. -/
def part : Option (Part ρ) :=
  match c.answers.argHash with
  | .str s => some (.text s)
  | .codeValue module qualname =>
    match Census.plainKeyPart env.toCensus (codeValueHeap env module qualname) 0 with
    | .marker kind digest => some (.marker kind digest)
    | _ => none
  | .itself =>
    match Census.plainKeyPart env.toCensus c.world.toHeap c.value with
    | .marker kind digest => some (.marker kind digest)
    | .value => some (.value c.value)
    | .overflowError => none

end Call

section Bytes

variable {ρ : Type} [DecidableEq ρ]

/-- An object keyed by its fields is met again elsewhere, so that the value is walked once more, without. -/
def State.metAgain (s : State ρ) : Prop :=
  s.fielded ≠ [] ∧ (s.left ≠ [] ∨ ¬s.fielded.Nodup ∨ ∃ x ∈ s.fielded, x ∈ s.seen)

/-- The form of what the argument is in the payload, and what the walk met. -/
inductive PartTerm (w : World env ρ) (fields : Bool) : Part ρ → Term → State ρ → Prop
  | text (s : Str) : PartTerm w fields (.text s) (.text s) .empty
  | marker (kind digest : Str) :
      PartTerm w fields (.marker kind digest) (.typed "tuple" [.text kind, .text digest]) .empty
  | value {x : ρ} {t : Term} {s : State ρ} : Walks w fields [] .empty x t s → PartTerm w fields (.value x) t s

/-- The form of `((part,), {})`. -/
def payloadTerm (hasher : Hasher) (part : Term) : Term :=
  .typed "tuple" [.typed "tuple" [part],
    match hasher.keywords with
    | some key => .hashed key
    | none => .typed "dict" []]

/-- The end of `canonical_bytes`. -/
def World.bytes (w : World env ρ) (s : State ρ) (t : Term) : Bytes :=
  if s.left = [] then 117 :: env.contentDumps t else 109 :: w.keyDumps t s.seen s.left

/-- `_payload_bytes` of one argument, which shares nothing with another (`shared_across`). -/
inductive PayloadBytes (c : Call env hasher ρ) (part : Part ρ) : Bytes → Prop
  | hooked {key : Str} : c.payload = some key → PayloadBytes c part (117 :: env.contentDumps (.hashed key))
  | first {t : Term} {s : State ρ} : c.payload = none → PartTerm c.world true part t s → ¬s.metAgain →
      PayloadBytes c part (c.world.bytes s (payloadTerm hasher t))
  | second {t t' : Term} {s s' : State ρ} : c.payload = none → PartTerm c.world true part t s → s.metAgain →
      PartTerm c.world false part t' s' → PayloadBytes c part (c.world.bytes s' (payloadTerm hasher t'))

/-- `hash_payload((value,), {})`, when it raises nothing. -/
inductive HashPayload (c : Call env hasher ρ) : Str → Prop
  | prims {form : Form} : hasher.hooked = false → c.primForm = some form →
      HashPayload c (env.sha256 (callBytes env.toEnv [form] []))
  | payload {part : Part ρ} {bytes : Bytes} : (hasher.hooked = false → c.primForm = none) → c.part = some part →
      PayloadBytes c part bytes → HashPayload c (env.sha256 bytes)

/-- `plain_value_digest(value)`. -/
def plainValueDigest (hasher : Hasher) (w : World env ρ) (x : ρ) : Option Str :=
  if hasher.hooked then none
  else if !w.isNode true x then none
  else match Census.plainKeyPart env.toCensus w.toHeap x with
    | .marker kind digest => some (env.sha256 (canonicalMarkerBytes env.toEnv kind digest))
    | _ => none

end Bytes

end

/-! ## The branches of `arg_hash` -/

section

open Canon

/-- What an argument is keyed by. -/
inductive Branch
  | cashKey | registered
  /-- An array's or a frame's content. -/
  | content
  | lineage
  /-- `code_value_stand_in`. -/
  | code
  /-- A marker of plain or JSON-like data. -/
  | plain
  /-- The value, walked as it is. -/
  | walked
  /-- `canonical_call_bytes`. -/
  | primitive
deriving DecidableEq, Repr

/-- The step of `arg_hash` that answers with a string, and the string. -/
def Argument.answer {hasher : Hasher} (a : Argument hasher) : Option (Branch × Str) :=
  a.keyedByClass.map (.cashKey, ·) <|> a.frozen.map (.content, ·) <|> a.remembered.map (.content, ·) <|>
    a.override.map (fun hash => (.registered, hasherKey hash)) <|>
    (a.lineage.bind fun _ => a.carried).map (.content, ·) <|> a.frame.map (.content, ·) <|>
    a.content.map (.content, ·) <|> a.lineage.map (.lineage, ·) <|>
    a.typeHash.map (fun hash => (.registered, hasherKey hash))

namespace Call

variable {env : Env} {hasher : Hasher} {ρ σ : Type} [DecidableEq ρ] [DecidableEq σ]

/-- The branch the argument takes; none when its marker is an `OverflowError`. -/
def branch (c : Call env hasher ρ) : Option Branch :=
  if hasher.hooked = false ∧ c.primForm.isSome then some .primitive
  else match c.answers.answer with
    | some (branch, _) => some branch
    | none =>
      if c.answers.code.isSome then some .code
      else match Census.plainKeyPart env.toCensus c.world.toHeap c.value with
        | .marker _ _ => some .plain
        | .value => some .walked
        | .overflowError => none

/-- The `str` the argument is. -/
def string (c : Call env hasher ρ) : Option Str :=
  match c.world.obj c.value with
  | .atom (.prim (.str s)) => some s
  | _ => none

/-- The string that stands for the argument with nothing around it: the answer of a step, or the argument itself. -/
def bare (c : Call env hasher ρ) : Option Str := c.answers.answer.map (·.2) <|> c.string

/-- The one argument is a function that its name stands for, the other the tuple that stands for it. -/
def StandsFor (c : Call env hasher ρ) (c' : Call env hasher σ) : Prop :=
  ∃ module qualname, c.answers.answer = none ∧ c.answers.code = some (module, qualname) ∧ c'.answers.answer = none ∧
    ∃ x y z, c'.world.obj c'.value = .tuple [x, y, z] ∧
      c'.world.obj x = .atom (.prim (.str (Py.str "__cash_code_value__"))) ∧
      c'.world.obj y = .atom (.prim (nameOf module)) ∧ c'.world.obj z = .atom (.prim (nameOf qualname))

/-- The arguments stand for each other: one bare string for both, or a function's name and the tuple of it. Where a
hasher is registered for the payload itself, it says the same of both. -/
def Clash (c : Call env hasher ρ) (c' : Call env hasher σ) : Prop :=
  match c.payload, c'.payload with
  | some key, some key' => key = key'
  | none, none => (∃ s, c.bare = some s ∧ c'.bare = some s) ∨ c.StandsFor c' ∨ c'.StandsFor c
  | _, _ => False

end Call

end

end Cash.Payload
