import Cash.Arrow.Views
import Cash.Lib.Memory

/-!
# Arrow chunks copied together

`copy_bits`, `view_data_sizes`, `copy_view_chunks` and `copy_fixed_chunks` of `cviews.c`. A `Py_ssize_t` is an `Int64`, whose
sums and products wrap. A copy that reads or writes outside a buffer ends `outside`; `view_data_sizes` reads the views and the
validity of a piece at the rows that the tests before have found in them.
-/

namespace Cash.ChunkCopy

open Arrow

/-- `INT32_MAX`. -/
def int32Max : Nat := 2 ^ 31 - 1

/-- How a call ends, with what its outputs hold. -/
inductive Outcome (O : Type)
  | done (outs : O)
  | valueError (message : String) (outs : O)
  | outside

/-- The pieces one after the other, up to the first error. -/
def copyAll {P O : Type} (copy : P → O → Outcome O) : List P → O → Outcome O
  | [], o => .done o
  | p :: pieces, o =>
    match copy p o with
    | .done o => copyAll copy pieces o
    | .valueError message o => .valueError message o
    | .outside => .outside

/-! ## `copy_bits` -/

/-- The source byte that a byte's high bits come from, if a bit of it is copied. -/
def highByte (src : Bytes) (next last : Nat) : Option Nat := if next ≤ last then (src[next]?).map (·.toNat) else some 0

/-- The loop over the bytes of the destination, `n` of them from the `i`-th on. -/
def copyShifted (off : Nat) (src : Bytes) (first shift last : Nat) : Nat → Nat → Bytes → Option Bytes
  | 0, _, dst => some dst
  | n + 1, i, dst => do
    let here := first + i
    let low ← src[here]?
    let high ← highByte src (here + 1) last
    let dst ← dst.write (off + i) [UInt8.ofNat (low.toNat >>> shift ||| high <<< (8 - shift))]
    copyShifted off src first shift last n (i + 1) dst

/-- The bytes with a bit to copy, and what else the last one gets. -/
def copyBytes (dst : Bytes) (off : Nat) (src : Bytes) (start rows : Nat) : Option Bytes :=
  let first := start / 8
  let shift := start % 8
  if shift = 0 then dst.copy off src first ((rows + 7) / 8)
  else copyShifted off src first shift ((start + rows - 1) / 8) ((rows + 7) / 8) 0 dst

/-- The bits past the rows in the last byte. -/
def clearPast (dst : Bytes) (last rows : Nat) : Option Bytes :=
  if rows % 8 = 0 then some dst
  else do
    let byte ← dst[last]?
    dst.write last [byte &&& UInt8.ofNat (2 ^ (rows % 8) - 1)]

/-- `copy_bits`, to byte `off` of `dst`. -/
def copyBits (dst : Bytes) (off : Nat) (src : Bytes) (start rows : Nat) : Option Bytes :=
  if (rows + 7) / 8 = 0 then some dst
  else do
    let dst ← copyBytes dst off src start rows
    clearPast dst (off + (rows + 7) / 8 - 1) rows

/-! ## Views -/

/-- `(views, datas, validity, start, stop, views_at, data_at, validity_at)`. -/
structure Placed where
  views : Bytes
  datas : List Bytes
  validity : Option Bytes
  start : Int64
  stop : Int64
  viewsAt : Int64
  dataAt : Int64
  validityAt : Option Int64

/-- The sentinel that stands for no `validity_at`. -/
def placeOf (validityAt : Option Int64) : Int := (validityAt.getD (-2)).toInt

structure ViewOuts where
  views : Bytes
  data : Bytes
  validity : Option Bytes

/-- `get_views`, and what it says when it refuses. -/
def getViews (views : Bytes) (validity : Option Bytes) (start stop : Int) : Option String :=
  if start < 0 ∨ stop < start then some "bad row range"
  else if views.length / viewBytes < stop then some "views buffer too short"
  else
    match validity with
    | none => none
    | some bits => if bits.length < (stop + 7) / 8 then some "validity buffer too short" else none

namespace Placed

/-- The first five of the fields. -/
def piece (p : Placed) : Piece where
  views := p.views
  datas := p.datas.map some
  validity := p.validity
  start := p.start.toInt.toNat
  stop := p.stop.toInt.toNat

end Placed

/-- The loop of `view_data_sizes`, over `n` rows from `row` on. -/
def dataSizeLoop (p : Piece) : Nat → Nat → Int64 → Option Int64
  | 0, _, total => some total
  | n + 1, row, total =>
    if !p.isValid row then dataSizeLoop p n (row + 1) total
    else
      let length := readI32 p.views (row * viewBytes)
      if length < 0 then none
      else dataSizeLoop p n (row + 1) (if length > inlineBytes then total + Int64.ofInt length else total)

def viewDataSizes : List Placed → Except String (List Int64)
  | [] => .ok []
  | p :: pieces =>
    match getViews p.views p.validity p.start.toInt p.stop.toInt with
    | some message => .error message
    | none =>
      match dataSizeLoop p.piece (p.piece.stop - p.piece.start) p.piece.start 0 with
      | none => .error "negative view length"
      | some total => (viewDataSizes pieces).map (total :: ·)

/-- What the loop over a piece's rows changes. -/
structure Copying where
  views : Bytes
  data : Bytes
  written : Nat

/-- What a row does. -/
inductive Moved
  | on (s : Copying)
  /-- It points into a data buffer that was not taken yet. -/
  | need (index : Nat)
  | bad (message : String)
  | outside

/-- A row, with these data buffers taken. -/
def copyRow (p : Placed) (taken : List Nat) (row : Nat) (s : Copying) : Moved :=
  let dest := p.viewsAt.toInt.toNat + (row - p.piece.start) * viewBytes
  let view := row * viewBytes
  let length := readI32 p.views view
  if !p.piece.isValid row then
    match s.views.write dest (Bytes.zeros viewBytes) with
    | some views => .on { s with views }
    | none => .outside
  else if length < 0 then .bad "negative view length"
  else if length ≤ inlineBytes then
    match s.views.write dest (p.views.slice view viewBytes) with
    | some views => .on { s with views }
    | none => .outside
  else
    let index := readI32 p.views (view + 8)
    let start := readI32 p.views (view + 12)
    if index < 0 ∨ index ≥ p.datas.length ∨ start < 0 then .bad "a view points outside its data buffers"
    else if index.toNat ∉ taken then .need index.toNat
    else
      let data := p.datas[index.toNat]?.getD []
      if start + length > data.length then .bad "a view points outside its data buffers"
      else if s.data.length - s.written < length ∨ s.written - p.dataAt.toInt + length > int32Max then .bad "data buffer too short"
      else
        match s.data.copy s.written data start length.toNat,
          s.views.write dest (p.views.slice view 8 ++ (Bytes.le 4 0 ++ Bytes.le 4 (s.written - p.dataAt.toInt).toNat)) with
        | some data, some views => .on ⟨views, data, s.written + length.toNat⟩
        | _, _ => .outside

/-- How the loop over the rows leaves off. -/
inductive Left
  | done (s : Copying)
  /-- The rest starts with this row again. -/
  | need (index : Nat) (n row : Nat) (s : Copying)
  | bad (message : String) (s : Copying)
  | outside

/-- The row's view and its validity bit are in the piece's buffers. -/
def Placed.within (p : Placed) (row : Nat) : Bool :=
  decide (row * viewBytes + viewBytes ≤ p.views.length) &&
    match p.validity with
    | none => true
    | some bits => decide (row < 8 * bits.length)

/-- `n` rows from `row` on. -/
def copyRows (p : Placed) (taken : List Nat) : Nat → Nat → Copying → Left
  | 0, _, s => .done s
  | n + 1, row, s =>
    if !p.within row then .outside
    else
      match copyRow p taken row s with
      | .on s => copyRows p taken n (row + 1) s
      | .need index => .need index (n + 1) row s
      | .bad message => .bad message s
      | .outside => .outside

/-- The rows, with a data buffer taken each time one is needed, up to `fuel` times. -/
def copyTaking (p : Placed) : Nat → List Nat → Nat → Nat → Copying → Left
  | 0, taken, n, row, s => copyRows p taken n row s
  | fuel + 1, taken, n, row, s =>
    match copyRows p taken n row s with
    | .need index n row s => copyTaking p fuel (index :: taken) n row s
    | left => left

/-- The tests of a piece's place in the outputs, as `copy_view_chunks` makes them. -/
def Placed.refused (p : Placed) (o : ViewOuts) : Option String :=
  let rows := p.stop.toInt - p.start.toInt
  let room := o.views.length - p.viewsAt.toInt
  if p.viewsAt.toInt < 0 ∨ p.dataAt.toInt < 0 ∨ p.viewsAt.toInt > o.views.length ∨ room < rows * viewBytes ∨ p.dataAt.toInt > o.data.length then
    some "output buffer too short"
  else if placeOf p.validityAt = -2 then none
  else
    match p.validity, o.validity with
    | some _, some out =>
      if placeOf p.validityAt < 0 ∨ placeOf p.validityAt > out.length ∨
          out.length - placeOf p.validityAt < (rows + 7) / 8 then
        some "validity buffer missing or too short"
      else none
    | _, _ => some "validity buffer missing or too short"

/-- The copy of the validity bits; none when it reads or writes outside. -/
def Placed.copyValidity (p : Placed) (o : ViewOuts) : Option ViewOuts :=
  if placeOf p.validityAt = -2 then some o
  else
    match p.validity, o.validity with
    | some bits, some out =>
      (copyBits out (placeOf p.validityAt).toNat bits p.piece.start (p.piece.stop - p.piece.start)).map
        fun out => { o with validity := some out }
    | _, _ => none

def copyViewPiece (p : Placed) (o : ViewOuts) : Outcome ViewOuts :=
  match getViews p.views p.validity p.start.toInt p.stop.toInt with
  | some message => .valueError message o
  | none =>
    match p.refused o with
    | some message => .valueError message o
    | none =>
      match p.copyValidity o with
      | none => .outside
      | some o =>
        match copyTaking p p.datas.length [] (p.piece.stop - p.piece.start) p.piece.start ⟨o.views, o.data, p.dataAt.toInt.toNat⟩ with
        | .done s => .done { o with views := s.views, data := s.data }
        | .bad message s => .valueError message { o with views := s.views, data := s.data }
        | .need .. => .outside
        | .outside => .outside

def copyViewChunks : List Placed → ViewOuts → Outcome ViewOuts := copyAll copyViewPiece

/-! ## Values of one width -/

/-- `(values, width, validity, start, stop, values_at, validity_at)`. -/
structure Fixed where
  values : Bytes
  width : Int64
  validity : Option Bytes
  start : Int64
  stop : Int64
  valuesAt : Int64
  validityAt : Option Int64

structure FixedOuts where
  values : Bytes
  validity : Option Bytes

/-- The validity bits of a piece, after its values. -/
def copyFixedValidity (p : Fixed) (rows : Int64) (o : FixedOuts) : Outcome FixedOuts :=
  if placeOf p.validityAt = -2 then .done o
  else
    match p.validity, o.validity with
    | some bits, some out =>
      if placeOf p.validityAt < 0 ∨ placeOf p.validityAt > out.length ∨
          out.length - placeOf p.validityAt < ((rows + 7) / 8).toInt then
        .valueError "validity buffer missing or too short" o
      else if bits.length < ((p.stop + 7) / 8).toInt then .valueError "validity buffer too short" o
      -- `copy_bits` counts its bytes by the same sum, and a negative number of them is outside
      else if ((rows + 7) / 8).toInt < 0 then .outside
      else
        match copyBits out (placeOf p.validityAt).toNat bits p.start.toInt.toNat rows.toInt.toNat with
        | none => .outside
        | some out => .done { o with validity := some out }
    | _, _ => .valueError "validity buffer missing or too short" o

def copyFixedPiece (p : Fixed) (o : FixedOuts) : Outcome FixedOuts :=
  let rows := p.stop - p.start
  let size := rows * p.width
  if p.width.toInt ≤ 0 ∨ p.start.toInt < 0 ∨ rows.toInt < 0 ∨ p.valuesAt.toInt < 0 ∨ p.valuesAt.toInt > o.values.length ∨
      o.values.length - p.valuesAt.toInt < size.toInt then
    .valueError "bad piece or output buffer too short" o
  else if p.values.length < (p.stop * p.width).toInt then .valueError "values buffer too short" o
  else
    -- a negative size is a `size_t` that no buffer has
    match o.values.copy p.valuesAt.toInt p.values (p.start * p.width).toInt size.toUInt64.toNat with
    | none => .outside
    | some values => copyFixedValidity p rows { o with values }

def copyFixedChunks : List Fixed → FixedOuts → Outcome FixedOuts := copyAll copyFixedPiece

/-!
## What a copy is for

A piece says for each of its rows whether it is missing, and else what it shows. A call keeps that, when every piece fits.
-/

/-- A row of a text piece: missing, or what its view shows. -/
def viewCell (p : Piece) (row : Nat) : Option (Option Bytes) := if p.isValid row then some (p.value row) else none

def viewCells (p : Piece) : List (Option (Option Bytes)) := (List.range' p.start (p.stop - p.start)).map (viewCell p)

namespace Placed

def rows (p : Placed) : Nat := p.piece.stop - p.piece.start

/-- A present row's view shows a value. -/
def Good (p : Placed) (row : Nat) : Prop := p.piece.isValid row = true → (p.piece.value row).isSome = true

/-- The bytes that a row adds to the data. -/
def rowData (p : Placed) (row : Nat) : Bytes :=
  if p.piece.isValid row ∧ (inlineBytes : Int) < readI32 p.views (row * viewBytes) then (p.piece.value row).getD [] else []

/-- The bytes that `n` rows from `row` on add to the data. -/
def dataFrom (p : Placed) (n row : Nat) : Bytes := ((List.range' row n).map p.rowData).flatten

def dataSize (p : Placed) : Nat := (p.dataFrom p.rows p.piece.start).length

/-- The piece is well formed, and its place is in the outputs. -/
structure Fits (p : Placed) (o : ViewOuts) : Prop where
  rows_in : 0 ≤ p.start.toInt ∧ p.start.toInt ≤ p.stop.toInt
  views_in : p.stop.toInt * viewBytes ≤ p.views.length
  bits_in : ∀ bits, p.validity = some bits → (p.stop.toInt + 7) / 8 ≤ bits.length
  good : ∀ row, p.piece.start ≤ row → row < p.piece.stop → p.Good row
  viewsAt_in : 0 ≤ p.viewsAt.toInt ∧ p.viewsAt.toInt + p.rows * viewBytes ≤ o.views.length
  dataAt_in : 0 ≤ p.dataAt.toInt ∧ p.dataAt.toInt + p.dataSize ≤ o.data.length
  size_le : p.dataSize ≤ int32Max
  validityAt_in : placeOf p.validityAt = -2 ∨ ∃ bits out, p.validity = some bits ∧ o.validity = some out ∧
    0 ≤ placeOf p.validityAt ∧ placeOf p.validityAt + ((p.rows + 7) / 8 : Nat) ≤ out.length

/-- Two pieces whose places in the outputs share no byte. -/
def Apart (p q : Placed) : Prop :=
  Bytes.Apart p.viewsAt.toInt.toNat (p.rows * viewBytes) q.viewsAt.toInt.toNat (q.rows * viewBytes) ∧
  Bytes.Apart p.dataAt.toInt.toNat p.dataSize q.dataAt.toInt.toNat q.dataSize ∧
  (placeOf p.validityAt = -2 ∨ placeOf q.validityAt = -2 ∨
    Bytes.Apart (placeOf p.validityAt).toNat ((p.rows + 7) / 8) (placeOf q.validityAt).toNat ((q.rows + 7) / 8))

/-- Whether byte `i` of the views, of the data or of the validity is in the piece's place. -/
def InViews (p : Placed) (i : Nat) : Prop := p.viewsAt.toInt.toNat ≤ i ∧ i < p.viewsAt.toInt.toNat + p.rows * viewBytes

def InData (p : Placed) (i : Nat) : Prop := p.dataAt.toInt.toNat ≤ i ∧ i < p.dataAt.toInt.toNat + p.dataSize

def InValidity (p : Placed) (i : Nat) : Prop := placeOf p.validityAt ≠ -2 ∧
  (placeOf p.validityAt).toNat ≤ i ∧ i < (placeOf p.validityAt).toNat + (p.rows + 7) / 8

/-- The piece as it is read back: its views, its data as the only buffer, and its validity from bit 0. -/
def back (p : Placed) (o : ViewOuts) : Piece where
  views := o.views.slice p.viewsAt.toInt.toNat (p.rows * viewBytes)
  datas := [some (o.data.slice p.dataAt.toInt.toNat p.dataSize)]
  validity :=
    if placeOf p.validityAt = -2 then none
    else o.validity.map fun out => out.slice (placeOf p.validityAt).toNat ((p.rows + 7) / 8)
  start := 0
  stop := p.rows

end Placed

/-- The lengths of the outputs. -/
def ViewOuts.size (o : ViewOuts) : Nat × Nat × Option Nat := (o.views.length, o.data.length, o.validity.map (·.length))

def ViewOuts.bitsAt (o : ViewOuts) (i : Nat) : Option UInt8 := o.validity.bind (·[i]?)

/-- Every byte outside the places of the pieces is as it was. -/
structure Untouched (pieces : List Placed) (o o' : ViewOuts) : Prop where
  views : ∀ i, (∀ p ∈ pieces, ¬ p.InViews i) → o'.views[i]? = o.views[i]?
  data : ∀ i, (∀ p ∈ pieces, ¬ p.InData i) → o'.data[i]? = o.data[i]?
  bits : ∀ i, (∀ p ∈ pieces, ¬ p.InValidity i) → o'.bitsAt i = o.bitsAt i

/-- A row of values of one width: missing, or its bytes. -/
def fixedCell (values : Bytes) (width : Nat) (validity : Option Bytes) (row : Nat) : Option Bytes :=
  match validity with
  | some bits => if bit bits row then some (values.slice (row * width) width) else none
  | none => some (values.slice (row * width) width)

namespace Fixed

def rows (p : Fixed) : Nat := (p.stop.toInt - p.start.toInt).toNat

/-- None of the products and sums of the piece's numbers leaves the 64 bits. -/
structure Exact (p : Fixed) : Prop where
  rows : -2 ^ 63 ≤ p.stop.toInt - p.start.toInt ∧ p.stop.toInt - p.start.toInt < 2 ^ 63 - 7
  stop : p.stop.toInt < 2 ^ 63 - 7
  size : -2 ^ 63 ≤ (p.stop.toInt - p.start.toInt) * p.width.toInt ∧ (p.stop.toInt - p.start.toInt) * p.width.toInt < 2 ^ 63
  values : -2 ^ 63 ≤ p.stop.toInt * p.width.toInt ∧ p.stop.toInt * p.width.toInt < 2 ^ 63

/-- The piece is well formed, and its place is in the outputs. -/
structure Fits (p : Fixed) (o : FixedOuts) : Prop where
  width_pos : 0 < p.width.toInt
  rows_in : 0 ≤ p.start.toInt ∧ p.start.toInt ≤ p.stop.toInt
  values_in : p.stop.toInt * p.width.toInt ≤ p.values.length
  valuesAt_in : 0 ≤ p.valuesAt.toInt ∧ p.valuesAt.toInt + (p.stop.toInt - p.start.toInt) * p.width.toInt ≤ o.values.length
  validityAt_in : placeOf p.validityAt = -2 ∨ ∃ bits out, p.validity = some bits ∧ o.validity = some out ∧
    (p.stop.toInt + 7) / 8 ≤ bits.length ∧
    0 ≤ placeOf p.validityAt ∧ placeOf p.validityAt + ((p.rows + 7) / 8 : Nat) ≤ out.length

def Apart (p q : Fixed) : Prop :=
  Bytes.Apart p.valuesAt.toInt.toNat (p.rows * p.width.toInt.toNat) q.valuesAt.toInt.toNat (q.rows * q.width.toInt.toNat) ∧
  (placeOf p.validityAt = -2 ∨ placeOf q.validityAt = -2 ∨
    Bytes.Apart (placeOf p.validityAt).toNat ((p.rows + 7) / 8) (placeOf q.validityAt).toNat ((q.rows + 7) / 8))

def cells (p : Fixed) : List (Option Bytes) :=
  (List.range' p.start.toInt.toNat p.rows).map (fixedCell p.values p.width.toInt.toNat p.validity)

/-- The rows as they are read back: their values from the piece's place on, and its validity from bit 0. -/
def backCells (p : Fixed) (o : FixedOuts) : List (Option Bytes) :=
  (List.range' 0 p.rows).map (fixedCell (o.values.slice p.valuesAt.toInt.toNat (p.rows * p.width.toInt.toNat))
    p.width.toInt.toNat
    (if placeOf p.validityAt = -2 then none
      else o.validity.map fun out => out.slice (placeOf p.validityAt).toNat ((p.rows + 7) / 8)))

end Fixed

/-- The lengths of the outputs. -/
def FixedOuts.size (o : FixedOuts) : Nat × Option Nat := (o.values.length, o.validity.map (·.length))

end Cash.ChunkCopy
