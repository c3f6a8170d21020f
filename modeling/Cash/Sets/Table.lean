import Cash.Lib.Bytes

/-!
# The hash table of a set

`PySetObject` as `csets.c` reads it: `read_table`, `sort_items` and `hashes_check`, and where a lookup looks. A read of
C memory is an option: none outside the array. Running out of memory is left out.
-/

namespace Cash.Sets

abbrev Id := Nat

/-- An entry: a key with its hash, the dummy of a deleted one, or none. -/
inductive Slot
  | empty | dummy
  | elem (hash : UInt64) (key : Id)
deriving DecidableEq, Repr

/-- `PySetObject`. -/
structure Table where
  mask : Nat
  slots : List Slot
  fill : Nat
  used : Nat
deriving DecidableEq, Repr

/-- `Item`. -/
structure Item where
  hash : UInt64
  key : Id
  slot : Nat
deriving DecidableEq, Repr

/-- `LINEAR_PROBES`. -/
def linearProbes : Nat := 9

/-- `PERTURB_SHIFT`. -/
def perturbShift : Nat := 5

/-- `PySet_MINSIZE`. -/
def minSize : Nat := 8

/-! ## Where a lookup looks -/

/-- A turn of a lookup: the slot it begins at, and what is left of the hash. -/
structure Turn where
  perturb : Nat
  start : Nat

namespace Turn

def first (mask : Nat) (hash : UInt64) : Turn := ⟨hash.toNat, hash.toNat &&& mask⟩

def next (mask : Nat) (t : Turn) : Turn :=
  let perturb := t.perturb >>> perturbShift
  ⟨perturb, (t.start * 5 + 1 + perturb) % 2 ^ 64 &&& mask⟩

/-- How many slots the turn looks at after its first. -/
def probes (mask : Nat) (t : Turn) : Nat := if t.start + linearProbes ≤ mask then linearProbes else 0

end Turn

/-! ## `read_table` -/

/-- The elements and the dummies, from slot `i` on, for `n` slots. -/
def scan (slots : List Slot) : Nat → Nat → Option (List Item × List Nat)
  | 0, _ => some ([], [])
  | n + 1, i => do
    let slot ← slots[i]?
    let (items, dummies) ← scan slots n (i + 1)
    match slot with
    | .empty => return (items, dummies)
    | .dummy => return (items, i :: dummies)
    | .elem hash key => return (⟨hash, key, i⟩ :: items, dummies)

/-- The digit a pass of `sort_items` sorts by. -/
def digit (pass : Nat) (item : Item) : Nat := (item.hash.toNat >>> (16 * pass)) &&& 65535

/-- `sort_items`: four stable passes. -/
def sortItems (items : List Item) : List Item :=
  (List.range 4).foldl (fun items pass => items.mergeSort fun a b => digit pass a ≤ digit pass b) items

/-- `read_table`: the elements sorted by hash, and the dummies' slots; inside, none for its `RuntimeError`. -/
def readTable (t : Table) : Option (Option (List Item × List Nat)) := do
  let (items, dummies) ← scan t.slots (t.mask + 1) 0
  if items.length ≠ t.used then return none
  else return some (sortItems items, dummies.take (t.fill - t.used))

def mix64 (x : UInt64) : UInt64 :=
  let x := x ^^^ (x >>> 30)
  let x := x * 0xbf58476d1ce4e5b9
  let x := x ^^^ (x >>> 27)
  let x := x * 0x94d049bb133111eb
  x ^^^ (x >>> 31)

/-- `hashes_check`. -/
def hashesCheck (items : List Item) : UInt64 :=
  items.foldl (fun h item => mix64 (h ^^^ item.hash) + 0x9e3779b97f4a7c15)
    (0x243f6a8885a308d3 ^^^ UInt64.ofNat items.length)

/-!
## One record put in a table

`table_is_sound` and `lay_out`, on the bytes of the layouts and the place in them of the record's slots.
-/

/-- `UINT32_MAX`. -/
def uint32Max : Nat := 4294967295

/-- `get_u32`. -/
def getU32 (b : Bytes) (p : Nat) : Option Nat := if p + 4 ≤ b.length then some (Bytes.unle (b.slice p 4)) else none

/-- `get_u64`. -/
def getU64 (b : Bytes) (p : Nat) : Option Nat := if p + 8 ≤ b.length then some (Bytes.unle (b.slice p 8)) else none

/-! ### `table_is_sound` -/

/-- Each slot of the record taken once; inside, none where one is taken twice or is past the table. -/
def markTaken (slotAt : Nat → Option Nat) (mask : Nat) : Nat → Nat → List Bool → Option (Option (List Bool))
  | 0, _, taken => some (some taken)
  | n + 1, i, taken => do
    let s ← slotAt i
    if s > mask then return none
    else if ← taken[s]? then return none
    else markTaken slotAt mask n (i + 1) (taken.set s true)

/-- The slots of a turn from `j` on: whether `want` is met, or an empty slot before it. -/
def scanTurn (taken : List Bool) (want : Nat) : Nat → Nat → Option (Option Bool)
  | 0, _ => some none
  | n + 1, j =>
    if j = want then some (some true)
    else do
      if ← taken[j]? then scanTurn taken want n (j + 1) else return some false

/-- Whether a lookup comes to `want`, in this turn or one of the `turns` after it. -/
def onPath (taken : List Bool) (mask want : Nat) : Nat → Turn → Option Bool
  | turns, t => do
    match ← scanTurn taken want (t.probes mask + 1) t.start with
    | some found => return found
    | none =>
      match turns with
      | 0 => return false
      | turns + 1 => onPath taken mask want turns (t.next mask)

def allOnPath (taken : List Bool) (slotAt : Nat → Option Nat) (mask turns : Nat) : List Item → Nat → Option Bool
  | [], _ => some true
  | item :: items, i => do
    let want ← slotAt i
    if ← onPath taken mask want turns (.first mask item.hash) then allOnPath taken slotAt mask turns items (i + 1)
    else return false

/-- `table_is_sound`. -/
def tableIsSound (b : Bytes) (items : List Item) (mask nd slots dslots : Nat) : Option Bool :=
  let n := items.length
  let size := (mask + 1) % 2 ^ 64
  if size < minSize ∨ size &&& mask ≠ 0 ∨ mask ≥ uint32Max then some false
  else if n + nd ≥ size ∨ size > 16 * (n + nd) + 64 then some false
  else do
    let slotAt := fun i => if i < n then getU32 b (slots + 4 * i) else getU32 b (dslots + 4 * (i - n))
    match ← markTaken slotAt mask (n + nd) 0 (List.replicate size false) with
    | none => return false
    | some taken => allOnPath taken slotAt mask (64 + size) items 0

/-! ### `lay_out` -/

/-- `so` already has the slots of the record. -/
def sameSlots (b : Bytes) (slots : Nat) : List Item → Nat → Option Bool
  | [], _ => some true
  | item :: items, i => do
    if item.slot = (← getU32 b (slots + 4 * i)) then sameSlots b slots items (i + 1) else return false

/-- A write to the table; none outside it. -/
def put (table : List Slot) (i : Nat) (s : Slot) : Option (List Slot) :=
  if i < table.length then some (table.set i s) else none

def putItems (b : Bytes) (slots : Nat) : List Item → Nat → List Slot → Option (List Slot)
  | [], _, table => some table
  | item :: items, i, table => do
    let table ← put table (← getU32 b (slots + 4 * i)) (.elem item.hash item.key)
    putItems b slots items (i + 1) table

def putDummies (b : Bytes) (dslots : Nat) : Nat → Nat → List Slot → Option (List Slot)
  | 0, _, table => some table
  | n + 1, i, table => do
    let table ← put table (← getU32 b (dslots + 4 * i)) .dummy
    putDummies b dslots n (i + 1) table

/-- `LEFT`, `IN_ORDER`, or `LAID` with the table it has now; `failed` for a `RuntimeError`. -/
inductive Laid
  | left | inOrder | failed
  | laid (t : Table)
deriving DecidableEq, Repr

/-- `lay_out`. -/
def layOut (b : Bytes) (so : Table) (used mask nd check slots : Nat) : Option Laid :=
  if so.used ≠ used then some .left
  else do
    let dslots := slots + 4 * used
    match ← readTable so with
    | none => return .failed
    | some (items, _) =>
      if (hashesCheck items).toNat ≠ check then return .left
      else if ← (if so.mask = mask ∧ so.fill - so.used = nd then sameSlots b slots items 0 else some false) then
        return .inOrder
      else if ← tableIsSound b items mask nd slots dslots then
        let table ← putItems b slots items 0 (List.replicate (mask + 1) .empty)
        let table ← putDummies b dslots nd 0 table
        return .laid { mask := mask, slots := table, fill := items.length + nd, used := items.length }
      else return .left

end Cash.Sets
