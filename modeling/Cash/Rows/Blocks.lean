import Cash.Lib.Significand
import Mathlib.Data.Rat.Floor

/-!
# Block fingerprints of a value made of rows

`fingerprint` and `compare`. What hashes a block of rows is a parameter, and of the clock is kept after how many blocks it
says that the rest would not be done in time. Quotients are the floats that `/` gives.
-/

namespace Cash.Rows

/-- `MAX_BLOCKS`. -/
def maxBlocks : Nat := 64

/-- `_MAX_REUSED_BLOCKS`. -/
def maxReusedBlocks : Nat := 4 * maxBlocks

/-- `MIN_ROWS`. -/
def minRows : Nat := 16

inductive Kind
  | ndarray
  | pandas
  | polars
  | arrays
deriving DecidableEq

/-- A value made of rows. Its head is what the digest of a block reads besides them: the dtype and the shape of a row, the
names and dtypes of the columns, the step of a range index. A frame's row has its label. -/
structure Value (Head Row : Type) where
  kind : Kind
  /-- `_plain_buffer` of an array, and whether a frame has `_plain_columns`. -/
  plain : Bool
  head : Head
  rows : List Row

/-- The rows of a slice. -/
def Value.part {Head Row : Type} (value : Value Head Row) (a b : Nat) : List Row := value.rows.extract a b

structure RowBlocks (D : Type) where
  kind : Kind
  rows : Nat
  block : Nat
  digests : List D

structure RowChange where
  rows : Nat
  changed : List (Nat × Nat)

/-- Why there is no fingerprint: `HashBudgetSpent`, or a block that cannot be hashed. -/
inductive Stopped
  | hashBudgetSpent
  | notHashable

/-- What hashes a block. -/
structure Hashes (Head Row D : Type) where
  /-- `digest` in `_array_fingerprint`. -/
  ofArray : Head → List Row → D
  /-- `digest` in `_columns_fingerprint`. -/
  ofColumns : Head → List Row → D
  /-- `_block_digest` of a slice, of a frame's row hashes or of a list of arrays, or `none` where it raises. -/
  blockDigest : Kind → Head → List Row → Option D

/-- `math.ceil(a / b)`. -/
def ceilQuotient (a b : Nat) : Nat := ⌈Significand.toBits 53 ((a : ℚ) / b)⌉₊

section Fingerprint

variable {Head Row D : Type}

/-- `row_count`. -/
def rowCount (value : Value Head Row) : Option (Kind × Nat) :=
  if value.kind = .arrays ∧ value.rows.length < minRows then none else some (value.kind, value.rows.length)

def spans (rows block : Nat) : List (Nat × Nat) :=
  (List.range (ceilQuotient rows block)).map fun i => (i * block, min ((i + 1) * block) rows)

/-- `_all_blocks`, and the loop of `fingerprint`: the clock is asked after each block but the last. -/
def allBlocks (digest : Nat → Nat → Except Stopped D) (spent : Nat → Bool) :
    Nat → List (Nat × Nat) → Except Stopped (List D)
  | _, [] => .ok []
  | done, span :: todo => do
      let d ← digest span.1 span.2
      if todo ≠ [] ∧ spent (done + 1) = true then .error .hashBudgetSpent
      else
        let rest ← allBlocks digest spent (done + 1) todo
        return d :: rest

/-- The digest of the rows that were the last, partial block of `like`. -/
def cutDigest (digest : Nat → Nat → Except Stopped D) (rows block : Nat) :
    Option (RowBlocks D) → Except Stopped (Option D)
  | none => .ok none
  | some like =>
      if like.rows % block ≠ 0 ∧ like.rows < rows then
        (digest (like.rows / block * block) like.rows).map some
      else .ok none

/-- What `_array_fingerprint`, `_columns_fingerprint` and the loop of `fingerprint` have in common. -/
def inBlocks (kind : Kind) (digest : Nat → Nat → Except Stopped D) (rows block : Nat) (like : Option (RowBlocks D))
    (spent : Nat → Bool) : Except Stopped (RowBlocks D × Option D) := do
  let digests ← allBlocks digest spent 0 (spans rows block)
  let cut ← cutDigest digest rows block like
  return (⟨kind, rows, block, digests⟩, cut)

/-- `_array_fingerprint`. -/
def arrayFingerprint (hashes : Hashes Head Row D) (value : Value Head Row) (rows block : Nat)
    (like : Option (RowBlocks D)) (spent : Nat → Bool) : Except Stopped (RowBlocks D × Option D) :=
  inBlocks .ndarray (fun a b => .ok (hashes.ofArray value.head (value.part a b))) rows block like spent

/-- `_columns_fingerprint`. -/
def columnsFingerprint (hashes : Hashes Head Row D) (value : Value Head Row) (rows block : Nat)
    (like : Option (RowBlocks D)) (spent : Nat → Bool) : Except Stopped (RowBlocks D × Option D) :=
  inBlocks .pandas (fun a b => .ok (hashes.ofColumns value.head (value.part a b))) rows block like spent

/-- The digest of a slice, by `_block_digest`. -/
def sliceDigest (hashes : Hashes Head Row D) (value : Value Head Row) (a b : Nat) : Except Stopped D :=
  match hashes.blockDigest value.kind value.head (value.part a b) with
  | some d => .ok d
  | none => .error .notHashable

/-- The earlier fingerprint, if its grid is taken over. -/
def taken (kind : Kind) (rows : Nat) (like : Option (RowBlocks D)) : Option (RowBlocks D) :=
  like.filter fun like => like.kind = kind ∧ 0 < like.block ∧ rows ≤ like.block * maxReusedBlocks

/-- The rows of a block. -/
def blockSize (rows : Nat) : Option (RowBlocks D) → Nat
  | some like => like.block
  | none => ceilQuotient rows maxBlocks

/-- A block that cannot be hashed is caught, a deadline is not. -/
def caught {α : Type} : Except Stopped α → Except Stopped (Option α)
  | .ok a => .ok (some a)
  | .error .notHashable => .ok none
  | .error .hashBudgetSpent => .error .hashBudgetSpent

/-- The three ways a value is cut into blocks. The row hashes of a frame that has no plain columns are all taken at once, so
the clock is asked before them and not again. -/
def cutValue (hashes : Hashes Head Row D) (value : Value Head Row) (rows block : Nat) (like : Option (RowBlocks D))
    (spent : Nat → Bool) : Except Stopped (RowBlocks D × Option D) :=
  if value.kind = .ndarray ∧ value.plain = true then arrayFingerprint hashes value rows block like spent
  else if value.kind = .pandas ∧ value.plain = true then columnsFingerprint hashes value rows block like spent
  else if value.kind = .pandas then
    if spent 0 = true then .error .hashBudgetSpent
    else inBlocks .pandas (sliceDigest hashes value) rows block like fun _ => false
  else inBlocks value.kind (sliceDigest hashes value) rows block like spent

/-- `fingerprint`. -/
def fingerprint (hashes : Hashes Head Row D) (value : Value Head Row) (like : Option (RowBlocks D))
    (deadline : Option (Nat → Bool)) : Except Stopped (Option (RowBlocks D × Option D)) :=
  match rowCount value with
  | none => .ok none
  | some (kind, rows) =>
      if rows < minRows then .ok none
      else
        let like := taken kind rows like
        caught (cutValue hashes value rows (blockSize rows like) like fun done => deadline.any (· done))

end Fingerprint

section Compare

variable {D : Type} [DecidableEq D]

/-- One turn of the first loop of `compare`: the rows of the block `i` that count as unchanged. -/
def sameIn (old new : RowBlocks D) (cut : Option D) (i : Nat) (digest : D) : List (Nat × Nat) :=
  let start := i * new.block
  let oldStop := min (start + new.block) old.rows
  let newStop := min (start + new.block) new.rows
  if oldStop = newStop then
    if new.digests[i]? = some digest then [(start, newStop)] else []
  else if oldStop < newStop ∧ cut = some digest then [(start, oldStop)]
  else []

/-- The first loop of `compare`. -/
def sameFrom (old new : RowBlocks D) (cut : Option D) : Nat → List D → List (Nat × Nat)
  | _, [] => []
  | i, digest :: digests =>
      if new.rows ≤ i * new.block then []
      else sameIn old new cut i digest ++ sameFrom old new cut (i + 1) digests

/-- `_extend`. -/
def extend (ranges : List (Nat × Nat)) (start stop : Nat) : List (Nat × Nat) :=
  match ranges.getLast? with
  | none => ranges ++ [(start, stop)]
  | some last => if last.2 = start then ranges.dropLast ++ [(last.1, stop)] else ranges ++ [(start, stop)]

/-- A turn of the second loop of `compare`, on `at` and `changed`. -/
def passed (state : Nat × List (Nat × Nat)) (same : Nat × Nat) : Nat × List (Nat × Nat) :=
  (same.2, if state.1 < same.1 then extend state.2 state.1 same.1 else state.2)

/-- The second loop of `compare` and the rows after it. -/
def changedAround (same : List (Nat × Nat)) (rows : Nat) : List (Nat × Nat) :=
  let state := same.foldl passed (0, [])
  if state.1 < rows then extend state.2 state.1 rows else state.2

/-- `compare`. -/
def compare (old new : RowBlocks D) (cut : Option D) : Option RowChange :=
  if old.kind ≠ new.kind ∨ old.block ≠ new.block then none
  else some ⟨new.rows, changedAround (sameFrom old new cut 0 old.digests) new.rows⟩

end Compare

end Cash.Rows
