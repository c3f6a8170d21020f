import Cash.Sets.Table

/-!
# The records of a value followed to its sets

`blob_check`, `follow` and `apply_set_layouts`.
-/

namespace Cash.Sets

/-- What a walk tells apart: the exact containers, and any other object. -/
inductive Obj
  | list (items : List Id)
  | tuple (items : List Id)
  | dict (entries : List (Id × Id))
  | set (frozen : Bool) (table : Table)
  | other
deriving DecidableEq, Repr

/-- What each object is. -/
abbrev Heap := Id → Obj

/-- `is_set`, and the table. -/
def Obj.table? : Obj → Option Table
  | .set _ table => some table
  | _ => none

/-- The set with another table. -/
def Obj.setTable : Obj → Table → Obj
  | .set frozen _, table => .set frozen table
  | o, _ => o

/-- `MAGIC`. -/
def magic : Nat := 0x324c5343

/-- `SET_BYTES`. -/
def setBytes : Nat := 4 + 8 + 4 + 8

/-! ## `blob_check` -/

def blobWords (b : Bytes) : Nat → Nat → UInt64 → Option UInt64
  | 0, _, h => some h
  | n + 1, i, h => do
    let word ← getU64 b i
    blobWords b n (i + 8) (mix64 (h ^^^ UInt64.ofNat word) + 0x9e3779b97f4a7c15)

def blobCheck (b : Bytes) (n : Nat) : Option UInt64 := do
  let h ← blobWords b (n / 8) 0 (0x6a09e667f3bcc908 ^^^ UInt64.ofNat n)
  let i := 8 * (n / 8)
  if n ≤ b.length then return mix64 (h ^^^ UInt64.ofNat (Bytes.unle (b.slice i (n - i)))) else none

/-! ## `follow` -/

/-- `Cursor`. -/
structure Cursor where
  o : Option Id
  key : Option Id
  value : Option Id
  pos : Nat
  k : Int
deriving DecidableEq, Repr

namespace Cursor

/-- What `memset` makes. -/
def zero : Cursor := ⟨none, none, none, 0, 0⟩

/-- `cursor_start`, where it is not in `o` or is past `k`. -/
def startAt (c : Cursor) (o : Id) (k : Int) : Cursor := if c.o ≠ some o ∨ c.k > k then ⟨some o, none, none, 0, -1⟩ else c

/-- `PyDict_Next`, `n` times; false where the dict ends before. -/
def inDict (entries : List (Id × Id)) : Nat → Cursor → Bool × Cursor
  | 0, c => (true, c)
  | n + 1, c =>
    match entries[c.pos]? with
    | none => (false, c)
    | some (key, value) => inDict entries n { c with key := some key, value := some value, pos := c.pos + 1, k := c.k + 1 }

/-- The next element from `pos` on, with `n` slots left. -/
def seek (slots : List Slot) : Nat → Nat → Option (Nat × Option Id)
  | 0, pos => some (pos, none)
  | n + 1, pos => do
    match ← slots[pos]? with
    | .elem _ key => return (pos, some key)
    | _ => seek slots n (pos + 1)

/-- The element `n` further on; false where the table ends before. -/
def inSet (t : Table) : Nat → Cursor → Option (Bool × Cursor)
  | 0, c => some (true, c)
  | n + 1, c => do
    match ← seek t.slots (t.mask + 1 - c.pos) c.pos with
    | (pos, none) => return (false, { c with pos := pos })
    | (pos, some key) => inSet t n { c with key := some key, pos := pos + 1, k := c.k + 1 }

end Cursor

/-- One step of a path: inside, none for a step that is not there. A cursor with no key to give is none outside. -/
def followStep (heap : Heap) (left : List Id) (o : Id) (t : Nat) (c : Cursor) : Option (Option Id × Cursor) :=
  match heap o with
  | .list items => some (items[t]?, c)
  | .tuple items => some (items[t]?, c)
  | .dict entries =>
    let k := t / 2
    let c := c.startAt o k
    match c.inDict entries (k - c.k).toNat with
    | (false, c) => some (none, c)
    | (true, c) => do
      let o ← if t % 2 = 1 then c.value else c.key
      return (some o, c)
  | .set _ table =>
    if o ∈ left then some (none, c)
    else do
      let c := c.startAt o t
      match ← c.inSet table (t - c.k).toNat with
      | (false, c) => return (none, c)
      | (true, c) => return (some (← c.key), c)
  | .other => some (none, c)

/-- `follow`, from step `j` on, for `n` steps. -/
def follow (b : Bytes) (heap : Heap) (left : List Id) (path : Nat) :
    Nat → Nat → Id → List Cursor → Option (Option Id × List Cursor)
  | 0, _, o, cur => some (some o, cur)
  | n + 1, j, o, cur => do
    let t ← getU32 b (path + 4 * j)
    let c ← cur[j]?
    match ← followStep heap left o t c with
    | (none, c) => return (none, cur.set j c)
    | (some o, c) => follow b heap left path n (j + 1) o (cur.set j c)

/-! ## `apply_set_layouts` -/

/-- The loop over the records; `named` are the objects their paths led to. -/
structure State where
  heap : Heap
  p : Nat
  cur : List Cursor
  left : List Id
  laid : Nat
  inOrder : Nat
  kept : Nat
  named : List Id

inductive Outcome
  | returned (laid inOrder kept : Nat)
  | valueError | runtimeError
deriving DecidableEq, Repr

/-- What becomes of the object a path led to. -/
def layObject (b : Bytes) (st : State) (o : Option Id) (used mask nd check slots : Nat) :
    Option (Except Outcome State) :=
  match o.bind fun o => (st.heap o).table?.map (o, ·) with
  | none => some (.ok { st with kept := st.kept + 1 })
  | some (o, so) => do
    let st := { st with named := o :: st.named }
    match ← layOut b so used mask nd check slots with
    | .failed => return .error .runtimeError
    | .laid t =>
      return .ok { st with
        heap := Function.update st.heap o ((st.heap o).setTable t)
        laid := st.laid + 1
        cur := st.cur.map fun c => if c.o = some o then { c with o := none } else c }
    | .inOrder => return .ok { st with inOrder := st.inOrder + 1 }
    | .left => return .ok { st with kept := st.kept + 1, left := o :: st.left }

/-- One record, of those before `stop`. -/
def record (b : Bytes) (stop : Nat) (root : Id) (maxDepth : Nat) (st : State) : Option (Except Outcome State) :=
  if stop - st.p < 4 then some (.error .valueError)
  else do
    let depth ← getU32 b st.p
    if depth > maxDepth ∨ (stop - st.p - 4) / 4 < depth then return .error .valueError
    else
      let path := st.p + 4
      let head := path + 4 * depth
      if stop - head < setBytes then return .error .valueError
      else
        let used ← getU32 b head
        let nd ← getU32 b (head + 12)
        let mask ← getU64 b (head + 4)
        let check ← getU64 b (head + 16)
        if (stop - head - setBytes) / 4 < used + nd then return .error .valueError
        else
          let slots := head + setBytes
          let grown := st.cur ++ List.replicate (depth - st.cur.length) .zero
          let (o, cur) ← follow b st.heap st.left path depth 0 root grown
          layObject b { st with p := slots + 4 * (used + nd), cur := cur } o used mask nd check slots

/-- What a call leaves. -/
structure End where
  heap : Heap
  named : List Id
  outcome : Outcome

/-- The loop; none when the fuel is used up. -/
def records (b : Bytes) (stop : Nat) (root : Id) (maxDepth : Nat) : Nat → State → Option End
  | 0, _ => none
  | fuel + 1, st =>
    if st.p < stop then do
      match ← record b stop root maxDepth st with
      | .error outcome => return ⟨st.heap, st.named, outcome⟩
      | .ok st => records b stop root maxDepth fuel st
    else return ⟨st.heap, st.named, .returned st.laid st.inOrder st.kept⟩

/-- `apply_set_layouts`, with `max_depth` as the unsigned number it is compared as. -/
def applySetLayouts (heap : Heap) (root : Id) (layouts : Bytes) (maxDepth : Nat) : Option End :=
  let total := layouts.length
  if total < 12 then some ⟨heap, [], .valueError⟩
  else do
    if (← getU32 layouts 0) ≠ magic then return ⟨heap, [], .valueError⟩
    else if (← blobCheck layouts (total - 8)).toNat ≠ (← getU64 layouts (total - 8)) then
      return ⟨heap, [], .valueError⟩
    else records layouts (total - 8) root maxDepth total ⟨heap, 4, [], [], 0, 0, 0, []⟩

/-! ## Tables a lookup can use, and what a value reaches -/

/-! ### Lookups -/

/-- A lookup from this turn on comes to the slot `want`, past slots that are all taken. -/
inductive Finds (taken : Nat → Prop) (mask want : Nat) : Turn → Prop
  | here {t : Turn} {i : Nat} : i ≤ t.probes mask → t.start + i = want → (∀ k < i, taken (t.start + k)) →
      Finds taken mask want t
  | later {t : Turn} : (∀ k ≤ t.probes mask, taken (t.start + k)) → Finds taken mask want (t.next mask) →
      Finds taken mask want t

/-- The element of a slot, with its hash. -/
@[simp] def Slot.elem? : Slot → Option (UInt64 × Id)
  | .elem hash key => some (hash, key)
  | _ => none

@[simp] def Slot.isDummy (s : Slot) : Bool := s = .dummy

namespace Table

/-- The elements in the order of their slots. -/
def elems (t : Table) : List (UInt64 × Id) := t.slots.filterMap Slot.elem?

def dummies (t : Table) : Nat := t.slots.countP Slot.isDummy

/-- Slot `i` holds an element or a dummy. -/
def Taken (slots : List Slot) (i : Nat) : Prop := ∃ s, slots[i]? = some s ∧ s ≠ .empty

/-- A table of CPython's: a power of two of slots with an empty one among them, the counts it keeps, and each element
where a lookup of its hash finds it. -/
structure Sound (t : Table) : Prop where
  length : t.slots.length = t.mask + 1
  size : minSize ≤ t.mask + 1 ∧ (t.mask + 1) &&& t.mask = 0
  used : t.used = t.elems.length
  fill : t.fill = t.elems.length + t.dummies
  empty : .empty ∈ t.slots
  found : ∀ i hash key, t.slots[i]? = some (.elem hash key) → Finds (Taken t.slots) t.mask i (.first t.mask hash)

end Table

/-! ### Reachable objects -/

def Obj.children : Obj → List Id
  | .list items => items
  | .tuple items => items
  | .dict entries => entries.flatMap fun e => [e.1, e.2]
  | .set _ table => table.elems.map (·.2)
  | .other => []

/-- `root` reaches `o`. -/
inductive Reachable (heap : Heap) (root : Id) : Id → Prop
  | root : Reachable heap root root
  | child {o c : Id} : Reachable heap root o → c ∈ (heap o).children → Reachable heap root c

/-- The object as it was, or its set with the same elements in another sound table. -/
inductive Kept (a : Obj) : Obj → Prop
  | same : Kept a a
  | laid {frozen : Bool} {t t' : Table} : a = .set frozen t → t'.elems.Perm t.elems → t'.Sound → Kept a (.set frozen t')

end Cash.Sets
