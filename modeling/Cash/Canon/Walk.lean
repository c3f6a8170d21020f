import Cash.Lib.Bytes
import Cash.Lib.Py
import Mathlib.Data.List.Lex
import Mathlib.Data.List.Sort
import Mathlib.Logic.Relation

/-!
# Values and their canonical forms

The values of exact built-in types and numpy numbers, as a graph of objects, and the forms
`canonical_form.py` rewrites them to. A form is a Python value itself: tuples over primitives.
-/

namespace Cash.Canon

open Py

section

/-- The exact primitives that cannot be written into (`IMMUTABLE_PRIMS`); a float is its bits. -/
inductive Prim
  | str (s : Str)
  | int (n : Int)
  | float (bits : UInt64)
  | bool (b : Bool)
  | none
  | bytes (bs : Bytes)
  | complex (re im : UInt64)
deriving DecidableEq, Repr

/-! ## Forms -/

inductive Form
  | prim (p : Prim)
  | bytearray (bs : Bytes)
  | tuple (items : List Form)

namespace Form

def str (s : String) : Form := .prim (.str (Py.str s))

/-- `("__cash_alias__", n)`. -/
def aliasOf (n : Nat) : Form := .tuple [str "__cash_alias__", .prim (.int n)]

/-- `("__cash_np__", char, raw)`. -/
def np (char : Nat) (raw : Bytes) : Form := .tuple [str "__cash_np__", .prim (.str [char]), .prim (.bytes raw)]

/-- `("__cash_type__", tag, canon)`. -/
def typed (tag : String) (canon : List Form) : Form := .tuple [str "__cash_type__", str tag, .tuple canon]

/-- The items of a dict's form, from the forms of its keys and values one after the other. -/
def pairs : List Form → List Form
  | k :: v :: rest => .tuple [k, v] :: pairs rest
  | _ => []

end Form

/-- What is outside the program: the size of a numpy number of a type, given by its `dtype.char`, and pickling
without the memo (`content_dumps`). -/
structure Env where
  itemsize : Nat → Nat
  itemsize_pos : ∀ char, 0 < itemsize char
  dumps : Form → Bytes

/-! ## Objects -/

variable {ρ : Type}

/-- A numpy number: `dtype.char` and `tobytes()`. -/
structure Np (env : Env) where
  char : Nat
  raw : Bytes
  size : raw.length = env.itemsize char

inductive Obj (env : Env) (ρ : Type)
  | prim (p : Prim)
  | bytearray (bs : Bytes)
  | np (n : Np env)
  | list (items : List ρ)
  | tuple (items : List ρ)
  | dict (items : List (ρ × ρ))
  /-- The items in the order of iteration. -/
  | set (items : List ρ)
  | frozenset (items : List ρ)

variable {env : Env}

namespace Obj

/-- The parts of a container, in the order they are walked. -/
def parts : Obj env ρ → List ρ
  | .list xs | .tuple xs | .set xs | .frozenset xs => xs
  | .dict items => items.flatMap fun p => [p.1, p.2]
  | _ => []

def isPrim : Obj env ρ → Bool
  | .prim _ => true
  | _ => false

/-- `isinstance(value, _MUTABLE_CONTAINERS)`. -/
def isMutableContainer : Obj env ρ → Bool
  | .list _ | .dict _ | .set _ => true
  | _ => false

/-- Can be written into, so that it counts which of its holders hold one object. -/
def isMutable : Obj env ρ → Bool
  | .bytearray _ => true
  | o => o.isMutableContainer

def isContainer : Obj env ρ → Bool
  | .prim _ | .bytearray _ | .np _ => false
  | _ => true

/-- What must be hashable: the items of sets and the keys of dicts. -/
def hashed : Obj env ρ → List ρ
  | .set xs | .frozenset xs => xs
  | .dict items => items.map (·.1)
  | _ => []

end Obj

/-- An object that can be an item of a set: it and all below it are immutable. -/
inductive Hashable (obj : ρ → Obj env ρ) : ρ → Prop
  | prim {x : ρ} {p : Prim} : obj x = .prim p → Hashable obj x
  | np {x : ρ} {n : Np env} : obj x = .np n → Hashable obj x
  | tuple {x : ρ} {xs : List ρ} : obj x = .tuple xs → (∀ y ∈ xs, Hashable obj y) → Hashable obj x
  | frozenset {x : ρ} {xs : List ρ} : obj x = .frozenset xs → (∀ y ∈ xs, Hashable obj y) → Hashable obj x

/-- The objects, by identity. -/
structure Heap (env : Env) (ρ : Type) where
  obj : ρ → Obj env ρ
  hashable : ∀ x, ∀ y ∈ (obj x).hashed, Hashable obj y

variable {σ : Type}

/-! ## Two graphs that are alike -/

/-- Objects of one type that hold related parts in one order, sets in any. -/
inductive Matches (R : ρ → σ → Prop) : Obj env ρ → Obj env σ → Prop
  | prim (p : Prim) : Matches R (.prim p) (.prim p)
  | bytearray (bs : Bytes) : Matches R (.bytearray bs) (.bytearray bs)
  | np (n : Np env) : Matches R (.np n) (.np n)
  | list {xs : List ρ} {ys : List σ} : List.Forall₂ R xs ys → Matches R (.list xs) (.list ys)
  | tuple {xs : List ρ} {ys : List σ} : List.Forall₂ R xs ys → Matches R (.tuple xs) (.tuple ys)
  | dict {xs : List (ρ × ρ)} {ys : List (σ × σ)} : List.Forall₂ (fun p q => R p.1 q.1 ∧ R p.2 q.2) xs ys →
      Matches R (.dict xs) (.dict ys)
  | set {xs : List ρ} {ys zs : List σ} : List.Forall₂ R xs zs → zs.Perm ys → Matches R (.set xs) (.set ys)
  | frozenset {xs : List ρ} {ys zs : List σ} : List.Forall₂ R xs zs → zs.Perm ys →
      Matches R (.frozenset xs) (.frozenset ys)

/-- The graphs are alike as far as `R` reaches: related objects match, and a mutable object is related to one
object only, on either side. -/
structure Alike (h₁ : Heap env ρ) (h₂ : Heap env σ) (R : ρ → σ → Prop) : Prop where
  objects : ∀ {a b}, R a b → Matches R (h₁.obj a) (h₂.obj b)
  one : ∀ {a b a' b'}, R a b → R a' b' → (h₁.obj a).isMutable = true → (a = a' ↔ b = b')

/-- The values are indistinguishable. -/
def Isomorphic (h₁ : Heap env ρ) (v : ρ) (h₂ : Heap env σ) (w : σ) : Prop := ∃ R, Alike h₁ h₂ R ∧ R v w

/-- `y` is a part of `x`. -/
def Heap.Part (h : Heap env ρ) (y x : ρ) : Prop := y ∈ (h.obj x).parts

/-- An object of the value is reachable from itself. -/
def Heap.Cyclic (h : Heap env ρ) (v : ρ) : Prop :=
  ∃ x, Relation.ReflTransGen (Function.swap h.Part) v x ∧ Relation.TransGen (Function.swap h.Part) x x

end

/-!
## The walk

`stable_key_repr` with no hook: `_walk`, which keeps the generators of `_object_steps` on a list, `_enter` and
the memo of sorted frozensets. A step of the machine is what happens from one `_enter`, `send` or `throw` to
the next.
-/

section

variable {ρ : Type} [DecidableEq ρ] {env : Env}

/-! ### The memo of sorted frozensets -/

def sortedSets : Nat := 256

def sortedSetMin : Nat := 256

/-- `_SORTED_SETS`, the least recently used entry first. An entry is found by the frozenset itself: its weak
reference tells it from a later object at the same address. -/
abbrev Memo (ρ : Type) := List (ρ × Form)

def Memo.get (memo : Memo ρ) (x : ρ) : Option Form := (memo.find? (·.1 = x)).map (·.2)

/-- `move_to_end`. -/
def Memo.use (memo : Memo ρ) (x : ρ) : Memo ρ := memo.filter (·.1 ≠ x) ++ memo.filter (·.1 = x)

/-- `_remember_sorted`. -/
def Memo.remember (memo : Memo ρ) (x : ρ) (form : Form) : Memo ρ :=
  let data := memo.filter (·.1 ≠ x) ++ [(x, form)]
  data.drop (data.length - sortedSets)

/-! ### The form of a container -/

/-- The items of a set, sorted by their pickled bytes. -/
def sortForms (env : Env) (items : List Form) : List Form :=
  items.mergeSort fun f g => decide ((env.dumps f).map (·.toNat) ≤ (env.dumps g).map (·.toNat))

/-- `_typed` of a container, from the forms of its parts. -/
def assemble (o : Obj env ρ) (items : List Form) : Form :=
  match o with
  | .list _ => .typed "list" items
  | .tuple _ => .typed "tuple" items
  | .dict _ => .typed "dict" (Form.pairs items)
  | .set _ => .typed "set" (sortForms env items)
  | .frozenset _ => .typed "frozenset" (sortForms env items)
  | _ => .tuple []

def recordsFrom : Nat := 8

/-- The numpy number the reference names. -/
def npOf (h : Heap env ρ) (x : ρ) : Option (Np env) :=
  match h.obj x with
  | .np n => some n
  | _ => none

/-- The bytes of an array, `size` at a time. -/
def slices (size : Nat) (raw : Bytes) : List Bytes :=
  (List.range (raw.length / size)).map fun i => (raw.drop (i * size)).take size

/-- `_numbers_form`: the forms of numpy numbers all of one type, read from one array of them. -/
def numbersForm (h : Heap env ρ) (items : List ρ) : Option (List Form) :=
  match items.mapM (npOf h) with
  | some (n :: ns) =>
    if ns.all (·.char = n.char) then
      some ((slices (env.itemsize n.char) ((n :: ns).flatMap (·.raw))).map (Form.np n.char))
    else none
  | _ => none

/-- What a list or tuple is made of when it is all numbers, asked of eight items or more. -/
def numbers (h : Heap env ρ) (x : ρ) : Option (List Form) :=
  match h.obj x with
  | .list xs | .tuple xs => if recordsFrom ≤ xs.length then numbersForm h xs else none
  | _ => none

/-- A frozenset whose form the memo may hold. -/
def memoable (h : Heap env ρ) (x : ρ) : Bool :=
  match h.obj x with
  | .frozenset xs => decide (sortedSetMin ≤ xs.length)
  | _ => false

/-! ### The machine -/

/-- A generator of `_object_steps`: the container, the forms so far and the parts left. -/
structure Frame (ρ : Type) where
  value : ρ
  items : List Form
  rest : List ρ

inductive Phase (ρ : Type)
  /-- `_enter(part)`. -/
  | enter (part : ρ)
  /-- The first `send` to the generator of a container. -/
  | start (value : ρ)
  | send (form : Form)
  /-- A `CyclicValueError` thrown into the generator. -/
  | throw

structure Machine (ρ : Type) where
  phase : Phase ρ
  frames : List (Frame ρ)
  /-- `walk.stack`. -/
  stack : List ρ
  /-- `walk.seen`: the number of a container is its position. -/
  seen : List ρ
  memo : Memo ρ

inductive Result
  | form (f : Form)
  | cyclicValueError

/-- The loop of a generator over its parts: a primitive is its own form and is not yielded. -/
def loop (h : Heap env ρ) : List Form → List ρ → List Form × List ρ
  | items, [] => (items, [])
  | items, x :: rest =>
    match h.obj x with
    | .prim p => loop h (items ++ [.prim p]) rest
    | _ => (items, x :: rest)

/-- The generator of `value` returns. -/
def Machine.finish (m : Machine ρ) (value : ρ) (frames : List (Frame ρ)) (form : Form) : Machine ρ :=
  { m with phase := .send form, frames := frames, stack := m.stack.erase value }

/-- The generator goes on to its next `yield` or its end. -/
def advance (h : Heap env ρ) (m : Machine ρ) (value : ρ) (items : List Form) (rest : List ρ)
    (frames : List (Frame ρ)) : Machine ρ :=
  match loop h items rest with
  | (items, []) =>
    let form := assemble (h.obj value) items
    -- only primitives were met: what a frozenset remembers
    let memo := if memoable h value && (h.obj value).parts.all (h.obj · |>.isPrim) then m.memo.remember value form
      else m.memo
    { m with memo := memo }.finish value frames form
  | (items, part :: rest) => { m with phase := .enter part, frames := ⟨value, items, rest⟩ :: frames }

/-- `_enter`, for a container. -/
def enterContainer (h : Heap env ρ) (m : Machine ρ) (x : ρ) : Machine ρ :=
  if x ∈ m.stack then { m with phase := .throw }
  else if (h.obj x).isMutableContainer then
    if x ∈ m.seen then { m with phase := .send (.aliasOf (m.seen.idxOf x)) }
    else { m with phase := .start x, seen := m.seen ++ [x] }
  else { m with phase := .start x }

/-- The start of `_object_steps`. -/
def startContainer (h : Heap env ρ) (m : Machine ρ) (x : ρ) : Machine ρ :=
  let m := { m with stack := x :: m.stack }
  match (if memoable h x then m.memo.get x else none), numbers h x with
  | some form, _ => { m with memo := m.memo.use x }.finish x m.frames form
  | none, some forms => m.finish x m.frames (assemble (h.obj x) forms)
  | none, none => advance h m x [] (h.obj x).parts m.frames

def step (h : Heap env ρ) (m : Machine ρ) : Machine ρ ⊕ Result :=
  match m.phase with
  | .enter x =>
    match h.obj x with
    | .prim p => .inl { m with phase := .send (.prim p) }
    | .bytearray bs =>
      if x ∈ m.seen then .inl { m with phase := .send (.aliasOf (m.seen.idxOf x)) }
      else .inl { m with phase := .send (.bytearray bs), seen := m.seen ++ [x] }
    | .np n => .inl { m with phase := .send (.np n.char n.raw) }
    | _ => .inl (enterContainer h m x)
  | .start x => .inl (startContainer h m x)
  | .send form =>
    match m.frames with
    | [] => .inr (.form form)
    | frame :: frames => .inl (advance h m frame.value (frame.items ++ [form]) frame.rest frames)
  | .throw =>
    match m.frames with
    | [] => .inr .cyclicValueError
    | frame :: frames => .inl { m with frames := frames, stack := m.stack.erase frame.value }

def Machine.initial (memo : Memo ρ) (v : ρ) : Machine ρ := ⟨.enter v, [], [], [], memo⟩

/-- The walk goes on from one machine to another. -/
abbrev Steps (h : Heap env ρ) : Machine ρ → Machine ρ → Prop :=
  Relation.ReflTransGen fun m m' => step h m = .inl m'

/-- `stable_key_repr(v)` ends with the result, and leaves the memo. -/
def StableKeyRepr (h : Heap env ρ) (memo : Memo ρ) (v : ρ) (r : Result) (memo' : Memo ρ) : Prop :=
  ∃ m, Steps h (.initial memo v) m ∧ step h m = .inr r ∧ m.memo = memo'

/-- The memos there can be: calls fill one, entries go when their frozensets do, and between the calls only
objects that can be written into change. -/
inductive Warm : Heap env ρ → Memo ρ → Prop
  | empty (h : Heap env ρ) : Warm h []
  | call {h : Heap env ρ} {memo memo' : Memo ρ} {v : ρ} {r : Result} : Warm h memo → StableKeyRepr h memo v r memo' →
      Warm h memo'
  | dropped {h : Heap env ρ} {memo : Memo ρ} (kept : ρ → Bool) : Warm h memo → Warm h (memo.filter fun e => kept e.1)
  | written {h h' : Heap env ρ} {memo : Memo ρ} : Warm h memo →
      (∀ x, (h.obj x).isMutable = false → h'.obj x = h.obj x) → Warm h' memo

end

end Cash.Canon
