import Cash.Lib.Py
import Cash.Lib.Bytes

/-!
# Arrow columns, and the fold of one

`content_hashers.py`: `fold_arrow_column` with `_arrow_layout`, `_gathers_pieces` and `_update_from_pieces`, and
`copy_pieces` of `cviews.c`. What pyarrow says of a type is a parameter, and so is the digest of a `BulkHasher`, a
function of the bytes it was given. Dictionary columns and the IPC stream of the other types are left out.
-/

namespace Cash.Arrow

/-- The predicates of `pa.types` that tell a type. -/
inductive TypeKind
  | boolean | string | binary | largeString | largeBinary | integer | floating | timestamp | date | time | duration
  | other
deriving DecidableEq

/-- What pyarrow says of a type: `str(t)`, its kind, and `t.bit_width`. -/
structure PyArrow (T : Type) where
  str : T → Bytes
  kind : T → TypeKind
  bitWidth : T → Nat

/-- The first part of what `_arrow_layout` gives. -/
inductive Layout
  | fixed | bool | offsets
deriving DecidableEq

def ascii (s : String) : Bytes := s.toList.map fun c => UInt8.ofNat c.toNat

def Layout.name : Layout → Bytes
  | .fixed => ascii "fixed"
  | .bool => ascii "bool"
  | .offsets => ascii "offsets"

variable {T : Type}

/-- `_arrow_layout`; none for the IPC stream. -/
def arrowLayout (pa : PyArrow T) (t : T) : Option (Layout × Nat) :=
  match pa.kind t with
  | .boolean => some (.bool, 1)
  | .string => some (.offsets, 4)
  | .binary => some (.offsets, 4)
  | .largeString => some (.offsets, 8)
  | .largeBinary => some (.offsets, 8)
  | .other => none
  | _ => if pa.bitWidth t % 8 = 0 then some (.fixed, pa.bitWidth t / 8) else none

/-- A chunk: its offset and length, and its buffers, `validity` of missing values, `first` of values, offsets or views,
and those after them. -/
structure Chunk where
  offset : Nat
  length : Nat
  validity : Option Bytes
  first : Bytes
  rest : List (Option Bytes)

structure Column (T : Type) where
  type : T
  chunks : List Chunk

/-- Bit `i` of a buffer. -/
def bit (b : Bytes) (i : Nat) : Bool := (b[i / 8]?.getD 0).toNat.testBit (i % 8)

namespace Chunk

/-- `chunk.is_valid()[i]`. -/
def isValid (c : Chunk) (i : Nat) : Bool :=
  match c.validity with
  | none => true
  | some bits => bit bits (c.offset + i)

/-- `np.flatnonzero(~chunk.is_valid())`. -/
def missing (c : Chunk) : List Nat := (List.range c.length).filter fun i => !c.isValid i

/-- `chunk.null_count`. -/
def nullCount (c : Chunk) : Nat := c.missing.length

/-- What the chunk adds to `nulls`. -/
def nulls (c : Chunk) (base : Nat) : Bytes :=
  if c.nullCount = 0 then [] else c.missing.flatMap fun i => Bytes.le 8 (i + base)

/-- The slice of a fixed-width chunk's values. -/
def fixedPiece (c : Chunk) (width : Nat) : Bytes :=
  c.first.slice (c.offset * width) ((c.offset + c.length) * width - c.offset * width)

/-- The booleans, false under a missing one, a byte each. -/
def boolBytes (c : Chunk) : Bytes :=
  (List.range c.length).map fun i =>
    let value := bit c.first (c.offset + i)
    let filled := if c.nullCount = 0 then value else c.isValid i && value
    if filled then 1 else 0

/-- Offset `i`; no offset is negative, so it is read unsigned. -/
def offsetAt (c : Chunk) (width i : Nat) : Nat := Bytes.unle (c.first.slice ((c.offset + i) * width) width)

/-- `np.diff(offsets)`. -/
def diffs (c : Chunk) (width : Nat) : Bytes :=
  (List.range c.length).flatMap fun i =>
    Bytes.le width ((c.offsetAt width (i + 1) + 256 ^ width - c.offsetAt width i) % 256 ^ width)

/-- The slice of the data buffer. -/
def dataSlice (c : Chunk) (width : Nat) : Bytes :=
  let lo := c.offsetAt width 0
  let hi := c.offsetAt width c.length
  match c.rest.head? with
  | some (some data) => if hi > lo then data.slice lo (hi - lo) else []
  | _ => []

end Chunk

/-! ## `_update_from_pieces` -/

/-- `copy_pieces`, from byte `skip` of the first of `pieces` on, with `room` left in the block: how many pieces are
behind, and the bytes; none for its `ValueError`. -/
def copyPieces : List Bytes → Nat → Nat → Option ((Nat × Nat) × Bytes)
  | [], skip, _ => some ((0, skip), [])
  | piece :: pieces, skip, room =>
    if room = 0 then some ((0, skip), [])
    else if skip > piece.length then none
    else
      let take := min (piece.length - skip) room
      let written := piece.slice skip take
      if skip + take ≥ piece.length then do
        let ((index, skip), more) ← copyPieces pieces 0 (room - take)
        return ((index + 1, skip), written ++ more)
      else some ((0, skip + take), written)

/-- A call of `copy_pieces` at an index. -/
def copyCall (pieces : List Bytes) (block : Nat) (s : Nat × Nat) : Option ((Nat × Nat) × Bytes) := do
  let ((read, skip), piece) ← copyPieces (pieces.drop s.1) s.2 block
  return ((s.1 + read, skip), piece)

/-- What `_update_from_pieces` hands the hasher, with a block of this many bytes. -/
def updateFromPieces (block : Nat) (pieces : List Bytes) : Option Bytes :=
  Reader.drain (fun s => decide (pieces.length ≤ s.1)) (copyCall pieces block) (pieces.flatten.length + pieces.length + 1)
    (0, 0)

/-! ## `fold_arrow_column` -/

/-- The rest of the install: the digest of a `BulkHasher`, whether there are kernels, the bytes of a leaf, and those of
a block. -/
structure Env where
  digest : Bytes → Bytes
  length_digest : ∀ b, (digest b).length = 32
  kernels : Bool
  leafBytes : Nat
  viewBlockBytes : Nat

/-- `_gathers_pieces`. -/
def gathersPieces (env : Env) (chunks : List Chunk) (width : Nat) : Bool :=
  if chunks.length < 2 ∨ env.kernels = false then false
  else (chunks.map (·.length)).sum * width < chunks.length * env.leafBytes

/-- What the loop over the chunks holds. -/
structure Acc where
  nulls : Bytes
  lengths : Bytes
  values : Bytes
  pieces : Option (List Bytes)
  base : Nat

def foldChunk (kind : Layout) (width : Nat) (acc : Acc) (c : Chunk) : Acc :=
  if c.length = 0 then acc
  else
    let acc := { acc with nulls := acc.nulls ++ c.nulls acc.base }
    let acc :=
      match kind with
      | .fixed =>
        match acc.pieces with
        | none => { acc with values := acc.values ++ c.fixedPiece width }
        | some pieces => { acc with pieces := some (pieces ++ [c.fixedPiece width]) }
      | .bool => { acc with values := acc.values ++ c.boolBytes }
      | .offsets => { acc with lengths := acc.lengths ++ c.diffs width, values := acc.values ++ c.dataSlice width }
    { acc with base := acc.base + c.length }

/-- What `values` was given when the gathered pieces are in too. -/
def Acc.gathered (block : Nat) (acc : Acc) : Option Bytes :=
  match acc.pieces with
  | none => some acc.values
  | some [] => some acc.values
  | some pieces => (updateFromPieces block pieces).map (acc.values ++ ·)

/-- `f"|arrow:{type}:{kind}:{base}|"`. -/
def header (type : Bytes) (kind : Layout) (base : Nat) : Bytes :=
  ascii "|arrow:" ++ type ++ ascii ":" ++ kind.name ++ ascii ":" ++ (Py.decimal base).map UInt8.ofNat ++ ascii "|"

/-- The bytes `fold_arrow_column` folds; none for a type that has no layout. -/
def foldArrowColumn (pa : PyArrow T) (env : Env) (column : Column T) : Option Bytes := do
  let (kind, width) ← arrowLayout pa column.type
  let pieces := if kind = .fixed ∧ gathersPieces env column.chunks width then some [] else none
  let acc := column.chunks.foldl (foldChunk kind width) ⟨[], [], [], pieces, 0⟩
  let values ← acc.gathered env.viewBlockBytes
  return header (pa.str column.type) kind acc.base ++
    (env.digest acc.nulls ++ env.digest acc.lengths ++ env.digest values)

end Cash.Arrow
