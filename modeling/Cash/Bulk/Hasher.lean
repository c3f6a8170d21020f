import Cash.Lib.Blocks
import Cash.Lib.Bytes

/-!
# The tree digest of raw bytes

`bulk_digest.py`: `BulkHasher`, which takes the bytes in pieces, `bulk_digest`, which takes them at once, and
`fold_buffer`, which folds a buffer into a running hash. A hash is a function to 32 bytes; an exception other than the
`OverflowError` of a length is left out.
-/

namespace Cash.Bulk

open Blocks

/-- `ALGORITHM`. -/
inductive Algorithm
  | blake3 | sha256
deriving DecidableEq, Repr

/-- What `_scheme` finds in an install, and the hashes it calls. -/
structure Env where
  algorithm : Algorithm
  /-- `blake3(b).digest()`. -/
  blake3 : Bytes → Bytes
  /-- `hashlib.sha256(b).digest()`. -/
  sha256 : Bytes → Bytes
  length_blake3 : ∀ b, (blake3 b).length = 32
  length_sha256 : ∀ b, (sha256 b).length = 32

/-- `LEAF_BYTES`. -/
def leafBytes : Nat := 1048576

/-- `PARALLEL_MIN_BYTES`. -/
def parallelMinBytes : Nat := 8 <<< 20

/-- `TAG`. -/
def Algorithm.tag : Algorithm → Bytes
  | .blake3 => ("cash-bulk-blake3-tree-1".toList.map fun c => UInt8.ofNat c.toNat) ++ [0]
  | .sha256 => ("cash-bulk-sha256-tree-1".toList.map fun c => UInt8.ofNat c.toNat) ++ [0]

/-- `DIRECT_MAX_BYTES`. -/
def Algorithm.directMaxBytes : Algorithm → Nat
  | .blake3 => 16 * 1024
  | .sha256 => leafBytes

/-- `leaf_hasher(b).digest()`. -/
def Env.leafHash (env : Env) : Bytes → Bytes :=
  match env.algorithm with
  | .blake3 => env.blake3
  | .sha256 => env.sha256

/-- The threads of a call: how many there may be (`_THREADS`), and the order their writes happen in, any order of all
of them. -/
structure Threads where
  count : Nat
  order : List Nat → List Nat
  perm : ∀ writes, (order writes).Perm writes

/-- `bounds[k]`. -/
def bound (count threads k : Nat) : Nat := count * k / threads

/-- `range(first, stop)` for each worker. -/
def ranges (count threads : Nat) : List Nat :=
  (List.range threads).flatMap fun k => List.range' (bound count threads k) (bound count threads (k + 1) - bound count threads k)

/-- `_leaf_digests`. -/
def leafDigests (env : Env) (t : Threads) (view : Bytes) (count : Nat) : List (Option Bytes) :=
  let threads := min t.count (count * leafBytes / parallelMinBytes)
  if threads < 2 then (List.range count).map fun i => some (env.leafHash (block leafBytes view i))
  else
    (t.order (ranges count threads)).foldl (fun out i => out.set i (some (env.leafHash (block leafBytes view i))))
      (List.replicate count none)

/-- `n.to_bytes(8, "little")`; none for the `OverflowError`. -/
def toBytes (n : Nat) : Option Bytes := if n < 2 ^ 64 then some (Bytes.le 8 n) else none

/-- `BulkHasher`: the digests of the whole leaves, what of the next leaf is there (`_partial`), and the bytes so far. -/
structure Hasher where
  leaves : List (Option Bytes)
  part : Bytes
  total : Nat

namespace Hasher

def empty : Hasher := ⟨[], [], 0⟩

/-- `update` from `start` on, with no partial leaf. -/
def updateWhole (env : Env) (h : Hasher) (t : Threads) (view : Bytes) (start : Nat) : Hasher :=
  let whole := (view.length - start) / leafBytes
  let leaves := if whole = 0 then h.leaves else h.leaves ++ leafDigests env t (view.drop start) whole
  let rest := start + whole * leafBytes
  { h with leaves := leaves, part := if rest < view.length then view.drop rest else [] }

def update (env : Env) (h : Hasher) (t : Threads) (view : Bytes) : Hasher :=
  let n := view.length
  if n = 0 then h
  else
    let h := { h with total := h.total + n }
    if h.part = [] then updateWhole env h t view 0
    else
      let start := min n (leafBytes - h.part.length)
      let part := h.part ++ view.take start
      if part.length < leafBytes then { h with part := part }
      else updateWhole env { h with leaves := h.leaves ++ [some (env.leafHash part)], part := [] } t view start

/-- `digest`; none for an `OverflowError`, or where a leaf has no digest. -/
def digest (env : Env) (h : Hasher) : Option Bytes := do
  let total ← toBytes h.total
  let leaves ← h.leaves.mapM id
  let last := if h.part = [] then [] else env.leafHash h.part
  return env.sha256 (env.algorithm.tag ++ total ++ leaves.flatten ++ last)

/-- The pieces handed over in order. -/
def feed (env : Env) (pieces : List (Threads × Bytes)) : Hasher :=
  pieces.foldl (fun h piece => h.update env piece.1 piece.2) empty

end Hasher

/-- `bulk_digest`. -/
def bulkDigest (env : Env) (t : Threads) (view : Bytes) : Option Bytes := do
  let whole := view.length / leafBytes
  let total ← toBytes view.length
  let leaves ← (if whole = 0 then [] else leafDigests env t view whole).mapM id
  let last := if view.length > whole * leafBytes then env.leafHash (view.drop (whole * leafBytes)) else []
  return env.sha256 (env.algorithm.tag ++ total ++ leaves.flatten ++ last)

/-- `fold_buffer`: the running hash, as the bytes it was given, and the buffer. -/
def foldBuffer (env : Env) (stream : Bytes) (t : Threads) (view : Bytes) : Option Bytes := do
  let length ← toBytes view.length
  if view.length ≤ env.algorithm.directMaxBytes then
    return stream ++ 114 :: length ++ view
  else
    let digest ← bulkDigest env t view
    return stream ++ 116 :: length ++ digest

/-- A sequence of buffers folded into one running hash. -/
def foldBuffers (env : Env) (stream : Bytes) (buffers : List (Threads × Bytes)) : Option Bytes :=
  buffers.foldlM (fun stream buffer => foldBuffer env stream buffer.1 buffer.2) stream

/-!
## What a tree digest is of

`SHA-256(TAG, total length, digest of each leaf in order)`, for bytes taken as a whole.
-/

/-- The leaves the bytes are cut into, the last of them short. -/
def leaves (b : Bytes) : List Bytes :=
  blocks leafBytes b ++ if leftover leafBytes b = [] then [] else [leftover leafBytes b]

/-- What the root hashes. -/
def rootInput (env : Env) (b : Bytes) : Bytes :=
  env.algorithm.tag ++ Bytes.le 8 b.length ++ (leaves b).flatMap env.leafHash

def treeDigest (env : Env) (b : Bytes) : Option Bytes := (toBytes b.length).map fun _ => env.sha256 (rootInput env b)

/-- No two of the leaves and no two of the roots have one hash: what a hash being injective says of the bytes at hand. -/
structure Env.NoCollision (env : Env) (bs : List Bytes) : Prop where
  leaf : Set.InjOn env.leafHash {l | ∃ b ∈ bs, l ∈ leaves b}
  root : Set.InjOn env.sha256 {r | ∃ b ∈ bs, r = rootInput env b}

theorem Env.NoCollision.mono {env : Env} {bs cs : List Bytes} (h : env.NoCollision cs) (hsub : bs ⊆ cs) :
    env.NoCollision bs where
  leaf := by
    apply h.leaf.mono
    rintro l ⟨b, hb, hl⟩
    exact ⟨b, hsub hb, hl⟩
  root := by
    apply h.root.mono
    rintro r ⟨b, hb, hr⟩
    exact ⟨b, hsub hb, hr⟩

end Cash.Bulk
