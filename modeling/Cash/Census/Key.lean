import Cash.Canon.Walk
import Mathlib.Algebra.Order.BigOperators.Group.Finset

/-!
# Plain and JSON-like values

Exact lists, tuples and dicts over leaves, as a graph of objects with the number of references to each
(`_plain_data.py`), and what a pickle without the memo says of one. No clock test double is loaded (`fake_clock`).
-/

namespace Cash.Census

open Py Canon

section

/-- `PARSED_VALUE_TYPES`. -/
inductive Parsed
  | date | datetime | time | timedelta | decimal
deriving DecidableEq, Repr

/-- An object that is no container here: its exact type and its bits. -/
inductive Atom (env : Canon.Env)
  | prim (p : Prim)
  | bytearray (bs : Bytes)
  | parsed (type : Parsed) (bits : Bytes)
  | np (n : Np env)
  /-- Any other object. -/
  | other (n : Nat)

inductive Obj (env : Canon.Env) (ρ : Type)
  | atom (a : Atom env)
  | list (items : List ρ)
  | tuple (items : List ρ)
  | dict (items : List (ρ × ρ))

variable {env : Canon.Env} {ρ : Type}

/-- The references a container holds. -/
def Obj.parts : Obj env ρ → List ρ
  | .atom _ => []
  | .list xs | .tuple xs => xs
  | .dict items => items.flatMap fun p => [p.1, p.2]

/-- `_WRITABLE`. -/
def Obj.isWritable : Obj env ρ → Bool
  | .list _ | .dict _ | .atom (.bytearray _) => true
  | _ => false

/-- The objects, by identity, and how many references there are to each. -/
structure Heap (env : Canon.Env) (ρ : Type) [DecidableEq ρ] where
  obj : ρ → Obj env ρ
  refs : ρ → Nat
  counted : ∀ (x : ρ) (holders : List ρ), holders.Nodup → (holders.map fun c => (obj c).parts.count x).sum ≤ refs x

/-- The objects with no references to them but those they hold themselves. -/
def Heap.alone [DecidableEq ρ] [Fintype ρ] (obj : ρ → Obj env ρ) : Heap env ρ where
  obj := obj
  refs x := ∑ c, (obj c).parts.count x
  counted x holders hnodup := by
    rw [← List.sum_toFinset _ hnodup]
    exact Finset.sum_le_sum_of_subset (Finset.subset_univ _)

variable [DecidableEq ρ]

/-! ## Pickles -/

/-- The exact type of an object. -/
inductive Kind
  | str | int | float | bool | none | bytes | complex | bytearray
  | parsed (type : Parsed)
  | np (char : Nat)
  | other
  | list | tuple | dict
deriving DecidableEq, Repr

def Atom.kind : Atom env → Kind
  | .prim (.str _) => .str
  | .prim (.int _) => .int
  | .prim (.float _) => .float
  | .prim (.bool _) => .bool
  | .prim .none => .none
  | .prim (.bytes _) => .bytes
  | .prim (.complex _ _) => .complex
  | .bytearray _ => .bytearray
  | .parsed type _ => .parsed type
  | .np n => .np n.char
  | .other _ => .other

/-- What is pickled at a node: a value, a container or a type. -/
inductive Label (env : Canon.Env)
  | atom (a : Atom env)
  | list
  | tuple
  /-- The parts are the keys and values in turn. -/
  | dict
  | type (k : Kind)

/-- A value as its pickle without the memo sees it: every part is written where it is held. -/
inductive Data (env : Canon.Env)
  | node (label : Label env) (parts : List (Data env))

namespace Data

def list (parts : List (Data env)) : Data env := .node .list parts

def tuple (parts : List (Data env)) : Data env := .node .tuple parts

def atom (a : Atom env) : Data env := .node (.atom a) []

def int (n : Int) : Data env := atom (.prim (.int n))

def type (k : Kind) : Data env := .node (.type k) []

end Data

/-- The value, down to `n` levels; more than a value the census accepts has. -/
def Heap.data (h : Heap env ρ) : Nat → ρ → Data env
  | 0, _ => .list []
  | n + 1, x =>
    match h.obj x with
    | .atom a => .atom a
    | .list xs => .list (xs.map (h.data n))
    | .tuple xs => .tuple (xs.map (h.data n))
    | .dict items => .node .dict (items.flatMap fun p => [h.data n p.1, h.data n p.2])

/-- What else is outside the program: pickling without the memo (`pickle_unshared`) and with it (`pickle.dumps`), the
hex digest, the name of a type of numpy numbers, and `==` of two dict keys. -/
structure Env extends Canon.Env where
  pickle : Data toEnv → Bytes
  dumpsMemo : Data toEnv → Bytes
  sha256 : Bytes → Str
  npName : Nat → Bytes
  eq : Atom toEnv → Atom toEnv → Bool

end

/-!
## The census of plain data, and its key part

`sharing`, `dict_rows_unchecked` and `level_key_bytes` of `_plain_data.py`, `plain_census` and `_plain_key_part` of
`arg_hashing.py`. A reference count is what the heap says and what the frames of the census hold besides.
-/

section

variable {env : Canon.Env} {ρ : Type} [DecidableEq ρ]

/-! ### Levels -/

namespace Heap

variable (h : Heap env ρ)

/-- `LEAF_TYPES`; with `numbers`, the numpy numbers too. -/
def isLeaf (numbers : Bool) (x : ρ) : Bool :=
  match h.obj x with
  | .atom (.np _) => numbers
  | .atom (.other _) => false
  | .atom _ => true
  | _ => false

def isNumber (x : ρ) : Bool :=
  match h.obj x with
  | .atom (.np _) => true
  | _ => false

/-- `type(x) in PLAIN_SEQS`. -/
def isSeq (x : ρ) : Bool :=
  match h.obj x with
  | .list _ | .tuple _ => true
  | _ => false

def isDict (x : ρ) : Bool :=
  match h.obj x with
  | .dict _ => true
  | _ => false

/-- What the walk goes into: `TREE_NODES`, or `PLAIN_SEQS`. -/
def isNode (tree : Bool) (x : ρ) : Bool := h.isSeq x || tree && h.isDict x

def isWritable (x : ρ) : Bool := (h.obj x).isWritable

def items (x : ρ) : List ρ :=
  match h.obj x with
  | .list xs | .tuple xs => xs
  | _ => []

def pairs (x : ρ) : List (ρ × ρ) :=
  match h.obj x with
  | .dict items => items
  | _ => []

/-- Every item one level down: those of the lists and tuples, then the values of the dicts. -/
def flat (level : List ρ) : List ρ := level.flatMap h.items ++ level.flatMap fun x => (h.pairs x).map (·.2)

/-- The keys of the dicts of a level are leaves. -/
def keysLeaves (level : List ρ) : Bool := level.all fun x => (h.pairs x).all fun p => h.isLeaf false p.1

end Heap

def maxLevels : Nat := 16

/-- `_levels` and `tree_levels`, from the first level on, with `n` more to go; none for `_NotPlain`. -/
def levelsFrom (h : Heap env ρ) (tree numbers : Bool) (n : Nat) (flat : List ρ) : Option (List (List ρ)) :=
  if flat.all fun x => h.isLeaf numbers x || h.isNode tree x then
    if flat.all (h.isLeaf numbers) then some [flat]
    else match n with
      | 0 => none
      | n + 1 =>
        let level := flat.filter (h.isNode tree)
        if h.keysLeaves level then (levelsFrom h tree numbers n (h.flat level)).map (flat :: ·) else none
  else none

/-- The levels below a value. -/
def levels (h : Heap env ρ) (tree numbers : Bool) (v : ρ) : Option (List (List ρ)) :=
  if h.keysLeaves [v] then levelsFrom h tree numbers (maxLevels - 1) (h.flat [v]) else none

/-! ### Sharing -/

/-- `(level, position)`. -/
abbrev Place := Int × Nat

/-- Where a container is met again, and where it was first met. -/
abbrev Repeats := List (Place × Place)

/-- What `sharing` has found: `first`, whose objects are held too, `repeats` and the last item looked at. -/
structure Met (ρ : Type) where
  first : List (ρ × Place)
  repeats : Repeats
  item : Option ρ

/-- The loop over the items of a level that are referenced more than once. -/
def Met.level (counted : ρ → Bool) (depth : Int) : Nat → List ρ → Met ρ → Met ρ
  | _, [], met => met
  | pos, x :: items, met =>
    if counted x then
      Met.level counted depth (pos + 1) items <|
        match met.first.lookup x with
        | some place => { met with repeats := met.repeats ++ [((depth, pos), place)], item := some x }
        | none => { met with first := met.first ++ [(x, (depth, pos))], item := some x }
    else Met.level counted depth (pos + 1) items met

/-- What the generator's frame holds of the levels above: `level`, and for a tree `dicts` and `seqs`, which are of an
earlier level where this one has no dict. -/
def frameHolds (h : Heap env ρ) (tree : Bool) (level split : List ρ) : List ρ :=
  level ++
    (if tree then
      if level.any h.isDict then if level.all h.isDict then [] else level else split
    else [])

/-- `sys.getrefcount(x)` for an item of a level, less what every count has besides. -/
def refcount (h : Heap env ρ) (flat frame : List ρ) (met : Met ρ) (x : ρ) : Nat :=
  h.refs x + flat.count x + (if flat.all h.isWritable then 0 else (flat.filter h.isWritable).count x) +
    frame.count x + (met.first.map (·.1)).count x + met.item.toList.count x

/-- The loop of `sharing` over the levels. `rows` is what the tuples of a caller hold, of which those at level 1 count
once more (`held_twice_at`). -/
def sharingFrom (h : Heap env ρ) (tree : Bool) (rows : List ρ) : Int → List ρ → List ρ → List (List ρ) → Met ρ → Met ρ
  | _, _, _, [], met => met
  | depth, level, split, flat :: flats, met =>
    let items := flat.filter h.isWritable
    let base := 2 + (if flat.all h.isWritable then 0 else 1) + (if depth = 1 ∧ rows ≠ [] then 1 else 0)
    let frame := frameHolds h tree level split ++ rows
    let met := met.level (fun x => decide (base < refcount h flat frame met x)) depth 0 items
    sharingFrom h tree rows (depth + 1) (flat.filter (h.isNode tree)) (if level.any h.isDict then level else split)
      flats met

def Met.empty : Met ρ := ⟨[], [], none⟩

/-- `sharing(value, tree=tree)`: what was met, and whether numpy numbers are among the leaves. -/
def sharing (h : Heap env ρ) (tree : Bool) (v : ρ) : Option (Met ρ × Bool) :=
  if h.isNode tree v then
    (levels h tree (!tree) v).map fun flats =>
      (sharingFrom h tree [] 0 [v] [] flats .empty, !tree && flats.any (·.any h.isNumber))
  else none

/-! ### Rows -/

/-- The atom a key is. -/
def Heap.keyAtom (h : Heap env ρ) (x : ρ) : Option (Atom env) :=
  match h.obj x with
  | .atom a => some a
  | _ => none

/-- Two keys are equal; a tuple is never equal to a `str` or an `int`. -/
def keyEq (env : Env) (h : Heap env.toEnv ρ) (x y : ρ) : Bool :=
  match h.keyAtom x, h.keyAtom y with
  | some a, some b => env.eq a b
  | _, _ => false

/-- The key's type is `str` or `int`. -/
def isRowKey (h : Heap env ρ) (x : ρ) : Bool :=
  match h.obj x with
  | .atom (.prim (.str _)) | .atom (.prim (.int _)) => true
  | _ => false

def Heap.keys (h : Heap env ρ) (x : ρ) : List ρ := (h.pairs x).map (·.1)

def Heap.values (h : Heap env ρ) (x : ρ) : List ρ := (h.pairs x).map (·.2)

/-- The keys of two dicts are equal, in one order. -/
def sameKeys (env : Env) (h : Heap env.toEnv ρ) (x y : ρ) : Bool :=
  (h.keys x).length = (h.keys y).length && (List.zipWith (keyEq env h) (h.keys x) (h.keys y)).all id

/-- `dict_rows_unchecked`: the keys of the first dict, and the values of each. -/
def dictRowsUnchecked (env : Env) (h : Heap env.toEnv ρ) (v : ρ) : Option (List ρ × List (List ρ)) :=
  match h.obj v with
  | .list (row :: rows) =>
    if !(row :: rows).all h.isDict then none
    else if !rows.all (sameKeys env h row) then none
    else if (row :: rows).any (fun x => decide (1 < h.refs x)) && !decide (row :: rows).Nodup then none
    else if (h.keys row).isEmpty || !(h.keys row).all (isRowKey h) then none
    else some (h.keys row, (row :: rows).map h.values)
  | _ => none

/-- `sharing(rows, held_twice_at=1)`, for the rows of a list of dicts: their tuples are level 0. -/
def rowsSharing (h : Heap env ρ) (rows : List (List ρ)) : Option (Met ρ × Bool) :=
  (levelsFrom h false true (maxLevels - 2) rows.flatten).map fun flats =>
    (sharingFrom h false rows.flatten 1 [] [] flats .empty, flats.any (·.any h.isNumber))

/-- `shared_rows`. -/
def sharedRows (h : Heap env ρ) (v : ρ) : List (ρ × Place) :=
  (h.items v).zipIdx.filterMap fun (x, pos) => if 1 < h.refs x then some (x, (-1, pos)) else none

/-! ### The census -/

/-- What kind of plain data a value is. -/
inductive Found (ρ : Type)
  | plain
  | plainAliased (repeats : Repeats)
  | plainNumpy (repeats : Repeats)
  | dictRows (keys : List ρ) (rows : List (List ρ)) (repeats : Repeats)
  | tree (repeats : Repeats)

/-- `plain_census`: the kind, and the containers another argument could share. -/
def plainCensus (env : Env) (h : Heap env.toEnv ρ) (v : ρ) : Option (Found ρ × List (ρ × Place)) :=
  match sharing h false v with
  | some (met, numbers) =>
    some (if numbers then .plainNumpy met.repeats
      else if met.repeats.isEmpty then .plain else .plainAliased met.repeats, met.first)
  | none =>
    match (do
      let (keys, rows) ← dictRowsUnchecked env h v
      let (met, numbers) ← rowsSharing h rows
      if numbers then none else some (Found.dictRows keys rows met.repeats, met.first ++ sharedRows h v)) with
    | some found => some found
    | none => (sharing h true v).map fun (met, _) => (.tree met.repeats, met.first)

/-! ### The key part -/

def ascii (s : String) : Bytes := s.toList.map fun c => c.toNat.toUInt8

def Repeats.data (repeats : Repeats) : Data env :=
  let place := fun (p : Place) => Data.tuple [.int p.1, .int p.2]
  .tuple (repeats.map fun r => .tuple [place r.1, place r.2])

def Heap.kind (h : Heap env ρ) (x : ρ) : Kind :=
  match h.obj x with
  | .atom a => a.kind
  | .list _ => .list
  | .tuple _ => .tuple
  | .dict _ => .dict

def Heap.npOf (h : Heap env ρ) (x : ρ) : Option (Np env) :=
  match h.obj x with
  | .atom (.np n) => some n
  | _ => none

/-- The types of the numpy numbers of a level, sorted by name. -/
def npKinds (env : Env) (h : Heap env.toEnv ρ) (flat : List ρ) : List Nat :=
  (flat.filterMap fun x => (h.npOf x).map (·.char)).dedup.mergeSort
    fun c d => decide ((env.npName c).map (·.toNat) ≤ (env.npName d).map (·.toNat))

/-- The parts of a level of `level_key_bytes`. -/
def levelParts (env : Env) (h : Heap env.toEnv ρ) (flat : List ρ) : List Bytes :=
  let kinds := flat.map h.kind
  let seqs := flat.filter h.isSeq
  let rest := flat.filter fun x => !h.isSeq x && !h.isNumber x
  (match kinds.dedup with
    | [kind] => [env.dumpsMemo (.type kind)]
    | _ => [env.dumpsMemo (.list (kinds.map .type))]) ++
  (if seqs.isEmpty then [] else [env.dumpsMemo (.list (seqs.map fun x => .int (h.items x).length))]) ++
  ((npKinds env h flat).map fun c =>
    env.npName c ++ ((flat.filterMap h.npOf).filter fun n => n.char = c).flatMap (·.raw)) ++
  (if rest.isEmpty then [] else [env.pickle (.list (rest.map (h.data 1)))])

/-- The parts, each behind its length in 8 bytes; none for `OverflowError`. -/
def joinParts : List Bytes → Option Bytes
  | [] => some []
  | part :: parts =>
    if part.length < 256 ^ 8 then (joinParts parts).map fun joined => Bytes.le 8 part.length ++ part ++ joined else none

/-- `level_key_bytes`. -/
def levelKeyBytes (env : Env) (h : Heap env.toEnv ρ) (v : ρ) : Option Bytes :=
  match levels h false true v with
  | some flats =>
    joinParts (ascii (if h.kind v = .list then "list" else "tuple") :: flats.flatMap (levelParts env h))
  | none => none

/-- What an argument is keyed as: itself, or a marker that holds a digest of its content. -/
inductive KeyPart
  | value
  | marker (kind digest : Str)
  | overflowError
deriving DecidableEq, Repr

/-- `_plain_key_part`. -/
def plainKeyPart (env : Env) (h : Heap env.toEnv ρ) (v : ρ) : KeyPart :=
  let data := h.data (maxLevels + 1)
  match plainCensus env h v with
  | none => .value
  | some (.plainNumpy repeats, _) =>
    match levelKeyBytes env h v with
    | some bytes => .marker (str "__cash_plain_numpy__") (env.sha256 (bytes ++ env.dumpsMemo repeats.data))
    | none => .overflowError
  | some (.plain, _) => .marker (str "__cash_plain__") (env.sha256 (env.pickle (data v)))
  | some (.plainAliased repeats, _) =>
    .marker (str "__cash_plain_aliased__") (env.sha256 (env.pickle (.tuple [data v, repeats.data])))
  | some (.tree repeats, _) =>
    .marker (str "__cash_tree__") (env.sha256 (env.pickle (.tuple [data v, repeats.data])))
  | some (.dictRows keys rows repeats, _) =>
    let rowsData := .list (rows.map fun row => .tuple (row.map data))
    .marker (str "__cash_dict_rows__") (env.sha256 (env.pickle (.tuple
      (if repeats.isEmpty then [.tuple (keys.map data), rowsData]
        else [.tuple (keys.map data), rowsData, repeats.data]))))

end

end Cash.Census
