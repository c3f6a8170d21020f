import Cash.Arrow.Column
import Mathlib.Data.Set.Function

/-!
# View columns

`fold_view_column`, and `view_lengths_many` and `view_values_many` of `cviews.c`. Taking a data buffer the first time a
row points into it, and giving the interpreter lock up, are left out.
-/

namespace Cash.Arrow

/-- `VIEW_BYTES`. -/
def viewBytes : Nat := 16

/-- `INLINE_BYTES`. -/
def inlineBytes : Nat := 12

/-- `piece_t`. -/
structure Piece where
  views : Bytes
  datas : List (Option Bytes)
  validity : Option Bytes
  start : Nat
  stop : Nat

/-- `read_i32`. -/
def readI32 (b : Bytes) (p : Nat) : Int :=
  let n := Bytes.unle (b.slice p 4)
  if n < 2 ^ 31 then n else n - 2 ^ 32

namespace Piece

/-- The checks of `get_views`. -/
def inBounds (p : Piece) : Bool :=
  decide (p.start ≤ p.stop) && decide (p.stop ≤ p.views.length / viewBytes) &&
    match p.validity with
    | none => true
    | some bits => decide ((p.stop + 7) / 8 ≤ bits.length)

/-- `is_valid`. -/
def isValid (p : Piece) (row : Nat) : Bool :=
  match p.validity with
  | none => true
  | some bits => bit bits row

/-- The bytes a view shows; none for one that points outside its data buffers. -/
def value (p : Piece) (row : Nat) : Option Bytes :=
  let view := row * viewBytes
  let n := readI32 p.views view
  if n < 0 then none
  else if n ≤ inlineBytes then some (p.views.slice (view + 4) n.toNat)
  else
    let index := readI32 p.views (view + 8)
    let start := readI32 p.views (view + 12)
    if index < 0 ∨ start < 0 then none
    else
      match p.datas[index.toNat]? with
      | some (some data) => if start.toNat + n.toNat > data.length then none else some (data.slice start.toNat n.toNat)
      | _ => none

/-- The rows of a piece in `view_lengths_many`, `n` of them from `row` on, with room for `room` lengths. -/
def lengthRows (p : Piece) : Nat → Nat → Nat → Option (Nat × Bytes)
  | 0, row, _ => some (row, [])
  | n + 1, row, room =>
    if room = 0 then some (row, [])
    else
      let length := if p.isValid row then readI32 p.views (row * viewBytes) else 0
      if length < 0 then none
      else (p.lengthRows n (row + 1) (room - 1)).map fun (row, more) => (row, Bytes.le 8 length.toNat ++ more)

/-- The rows of a piece in `view_values_many`, `n` of them from byte `skip` of `row` on, with `room` bytes left. -/
def valueRows (p : Piece) : Nat → Nat → Nat → Nat → Option ((Nat × Nat) × Bytes)
  | 0, row, skip, _ => some ((row, skip), [])
  | n + 1, row, skip, room =>
    if room = 0 then some ((row, skip), [])
    else if !p.isValid row then p.valueRows n (row + 1) 0 room
    else
      match p.value row with
      | none => none
      | some value =>
        if skip > value.length then none
        else
          let take := value.length - skip
          if take > room then some ((row, skip + room), value.slice skip room)
          else (p.valueRows n (row + 1) 0 (room - take)).map fun (s, more) => (s, value.slice skip take ++ more)

end Piece

/-- `view_lengths_many`, from `row` of the first of `pieces` on: how many pieces are behind, the row, and the lengths. -/
def viewLengthsMany : List Piece → Nat → Nat → Option ((Nat × Nat) × Bytes)
  | [], row, _ => some ((0, row), [])
  | p :: pieces, row, room =>
    if room = 0 then some ((0, row), [])
    else if !p.inBounds then none
    else
      let first := max row p.start
      match p.lengthRows (p.stop - first) first room with
      | none => none
      | some (row, lengths) =>
        if row ≥ p.stop then
          (viewLengthsMany pieces 0 (room - (row - first))).map fun ((read, row), more) => ((read + 1, row), lengths ++ more)
        else some ((0, row), lengths)

/-- `view_values_many`, from byte `skip` of `row` of the first of `pieces` on. -/
def viewValuesMany : List Piece → Nat → Nat → Nat → Option ((Nat × Nat × Nat) × Bytes)
  | [], row, skip, _ => some ((0, row, skip), [])
  | p :: pieces, row, skip, room =>
    if room = 0 then some ((0, row, skip), [])
    else if !p.inBounds then none
    else
      let (first, skip) := if row < p.start then (p.start, 0) else (row, skip)
      match p.valueRows (p.stop - first) first skip room with
      | none => none
      | some ((row, skip), values) =>
        if row ≥ p.stop then
          (viewValuesMany pieces 0 0 (room - values.length)).map fun ((read, row, skip), more) =>
            ((read + 1, row, skip), values ++ more)
        else some ((0, row, skip), values)

/-- A call of `view_lengths_many` at an index, with a block of `block` bytes. -/
def lengthsCall (pieces : List Piece) (block : Nat) (s : Nat × Nat) : Option ((Nat × Nat) × Bytes) :=
  (viewLengthsMany (pieces.drop s.1) s.2 (block / 8)).map fun ((read, row), lengths) => ((s.1 + read, row), lengths)

/-- A call of `view_values_many` at an index. -/
def valuesCall (pieces : List Piece) (block : Nat) (s : Nat × Nat × Nat) : Option ((Nat × Nat × Nat) × Bytes) :=
  (viewValuesMany (pieces.drop s.1) s.2.1 s.2.2 block).map fun ((read, row, skip), values) =>
    ((s.1 + read, row, skip), values)

/-- The piece `fold_view_column` makes of a chunk. -/
def Chunk.piece (c : Chunk) : Piece where
  views := c.first
  datas := c.rest
  validity := if c.nullCount = 0 then none else c.validity
  start := c.offset
  stop := c.offset + c.length

def foldViewChunk (acc : Bytes × List Piece × Nat) (c : Chunk) : Bytes × List Piece × Nat :=
  if c.length = 0 then acc else (acc.1 ++ c.nulls acc.2.2, acc.2.1 ++ [c.piece], acc.2.2 + c.length)

/-- The bytes `fold_view_column` folds, in at most `fuel` calls for each stream; none for a `ValueError`, or when there
are more calls. -/
def foldViewColumn (env : Env) (fuel : Nat) (chunks : List Chunk) (large : Bytes) : Option Bytes := do
  let (nulls, pieces, base) := chunks.foldl foldViewChunk ([], [], 0)
  let lengths ← Reader.drain (fun s => decide (pieces.length ≤ s.1)) (lengthsCall pieces env.viewBlockBytes) fuel (0, 0)
  let values ← Reader.drain (fun s => decide (pieces.length ≤ s.1)) (valuesCall pieces env.viewBlockBytes) fuel (0, 0, 0)
  return header large .offsets base ++ (env.digest nulls ++ env.digest lengths ++ env.digest values)

/-!
## The rows of a column

What a column says, whatever its chunks: for each row whether it is there, and the bytes stored for it.
-/

section

variable {T : Type}

/-- A row. A missing boolean stores false, and a missing view no bytes. -/
structure Cell where
  valid : Bool
  bytes : Bytes
deriving DecidableEq

namespace Chunk

/-- The bytes of the data buffer. -/
def data (c : Chunk) : Bytes := (c.rest.head?.join).getD []

def cell (kind : Layout) (width : Nat) (c : Chunk) (i : Nat) : Cell where
  valid := c.isValid i
  bytes :=
    match kind with
    | .fixed => c.first.slice ((c.offset + i) * width) width
    | .bool => [if c.isValid i && bit c.first (c.offset + i) then 1 else 0]
    | .offsets => c.data.slice (c.offsetAt width i) (c.offsetAt width (i + 1) - c.offsetAt width i)

def cells (kind : Layout) (width : Nat) (c : Chunk) : List Cell := (List.range c.length).map (c.cell kind width)

/-- The buffers cover the rows, and offsets do not go back or past the data. -/
def Valid (kind : Layout) (width : Nat) (c : Chunk) : Prop :=
  match kind with
  | .fixed => (c.offset + c.length) * width ≤ c.first.length
  | .bool => True
  | .offsets => (∀ i < c.length, c.offsetAt width i ≤ c.offsetAt width (i + 1)) ∧
      c.offsetAt width c.length ≤ c.data.length ∧ c.offsetAt width c.length < 256 ^ width

/-- Each view that is there shows its bytes. -/
def viewCell (c : Chunk) (i : Nat) : Cell where
  valid := c.isValid i
  bytes := if c.isValid i then (c.piece.value (c.offset + i)).getD [] else []

def viewCells (c : Chunk) : List Cell := (List.range c.length).map c.viewCell

/-- The buffers cover the rows, and each view that is there points into them. -/
def ValidViews (c : Chunk) : Prop :=
  c.piece.inBounds ∧ ∀ i < c.length, c.isValid i → (c.piece.value (c.offset + i)).isSome

end Chunk

def Column.cells (kind : Layout) (width : Nat) (column : Column T) : List Cell :=
  column.chunks.flatMap (·.cells kind width)

/-- Every chunk of a column is valid, and an int64 counts its rows. -/
structure Column.Valid (kind : Layout) (width : Nat) (column : Column T) : Prop where
  chunks : ∀ c ∈ column.chunks, c.Valid kind width
  length : (column.cells kind width).length < 2 ^ 63

/-! ### The fold of rows -/

/-- The positions of the missing rows, from `base` on. -/
def nullsOf : Nat → List Cell → Bytes
  | _, [] => []
  | base, cell :: cells => (if cell.valid then [] else Bytes.le 8 base) ++ nullsOf (base + 1) cells

/-- The lengths, of rows kept by offsets. -/
def lengthsOf (kind : Layout) (width : Nat) (cells : List Cell) : Bytes :=
  if kind = .offsets then cells.flatMap fun cell => Bytes.le width cell.bytes.length else []

def valuesOf (cells : List Cell) : Bytes := cells.flatMap (·.bytes)

def foldRows (env : Env) (type : Bytes) (kind : Layout) (width : Nat) (cells : List Cell) : Bytes :=
  header type kind cells.length ++
    (env.digest (nullsOf 0 cells) ++ env.digest (lengthsOf kind width cells) ++ env.digest (valuesOf cells))

/-- What the three hashers of a column are given. -/
def streamsOf (kind : Layout) (width : Nat) (cells : List Cell) : List Bytes :=
  [nullsOf 0 cells, lengthsOf kind width cells, valuesOf cells]

/-- No two of these streams have one digest: what a digest being injective says of the streams at hand. -/
def Env.NoCollision (env : Env) (streams : List Bytes) : Prop := Set.InjOn env.digest {b | b ∈ streams}

namespace Column

/-- A column of a type with a layout, that is valid. -/
def Ok (pa : PyArrow T) (column : Column T) : Prop :=
  ∃ kind width, arrowLayout pa column.type = some (kind, width) ∧ column.Valid kind width

def rows (pa : PyArrow T) (column : Column T) : List Cell :=
  match arrowLayout pa column.type with
  | none => []
  | some (kind, width) => column.cells kind width

def streams (pa : PyArrow T) (column : Column T) : List Bytes :=
  match arrowLayout pa column.type with
  | none => []
  | some (kind, width) => streamsOf kind width (column.cells kind width)

end Column

end

end Cash.Arrow
