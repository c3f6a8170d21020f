import Cash.Lib.Io
import Cash.Lib.Py

/-!
# Names of chunk files and the layout of a pack

A pack holds the chunks one write added: each at the next multiple of 64, followed by its crc32. Its name
is a digest of the digests of its members, in order.
-/

namespace Cash.Chunks

open Bytes Py

abbrev Digest := Bytes

def trailer : Nat := 4

def packAlign : Nat := 64

def chunkSuffix : Str := str ".chunk"

def packSuffix : Str := str ".pack"

def chunkName (digest : Digest) : Str := hex digest ++ chunkSuffix

/-- `pack_name`; `sha256` is `hashlib.sha256`. -/
def packName (sha256 : Bytes → Bytes) (members : List Digest) : Str := hex (sha256 members.flatten) ++ packSuffix

def aligned (offset : Nat) : Nat := padding packAlign offset

/-- `zlib.crc32(data).to_bytes(4, "big")`. -/
def crcOf (data : Bytes) : Bytes := crcBytes (crc32 data 0)

/-- Where a chunk is: `(file name, offset, bytes, crc32)`. -/
structure Place where
  name : Str
  offset : Nat
  nbytes : Nat
  crc : Bytes
deriving DecidableEq, Repr

/-- The bytes `_write_pack` writes, from `offset` on. -/
def packBytes : Nat → List Bytes → Bytes
  | _, [] => []
  | offset, view :: rest =>
      zeros (aligned offset) ++ view ++ crcOf view ++
        packBytes (offset + aligned offset + view.length + trailer) rest

/-- The offsets of chunks of these lengths, from `offset` on. -/
def packOffsets : Nat → List Nat → List Nat
  | _, [] => []
  | offset, n :: rest => (offset + aligned offset) :: packOffsets (offset + aligned offset + n + trailer) rest

/-- Where chunks of these lengths end. -/
def packEnd : Nat → List Nat → Nat
  | offset, [] => offset
  | offset, n :: rest => packEnd (offset + aligned offset + n + trailer) rest

/-- The places `_write_pack` records: one per member. -/
def packPlaces (name : Str) (offset : Nat) : List (Digest × Bytes) → List (Digest × Place)
  | [] => []
  | (digest, view) :: rest =>
      (digest, ⟨name, offset + aligned offset, view.length, crcOf view⟩) ::
        packPlaces name (offset + aligned offset + view.length + trailer) rest

/-!
## Reading chunks

`read_chunk`, `read_chunks` and `_read_pack`. The places come from an entry's metadata, which no checksum
covers: they are plain Python values of any type, and an operation on one may raise.
-/

/-- What the interpreter and the platform decide. -/
structure Env where
  /-- `pickle.loads`; `none` when it raises. -/
  loads : Bytes → Option Val
  /-- `_CAN_MAP`. -/
  canMap : Bool
  /-- `mmap` of the entry succeeds. -/
  mapsEntry : Bool
  /-- `mmap` of the file of this name in the chunk folder succeeds. -/
  mapsChunk : Str → Bool
  /-- `fh.read(n)` reserves `n` bytes before it reads. -/
  readReserves : Bool
  /-- `repr(v)` returns: no nesting past the recursion limit, no integer past the limit on digits. -/
  reprReturns : Val → Bool
  /-- `int(text)`; `none` when it raises. -/
  parseInt : Str → Option Int
  /-- `bytes.fromhex(v)`; `none` when it raises. -/
  fromHex : Val → Option Bytes
  /-- A file name that can be encoded for the file system, with no NUL in it. -/
  encodes : Str → Bool

/-- The files of the chunk folder; `none` when `open` raises an `OSError`. -/
abbrev ChunkDir := Str → Option Bytes

/-- A `ChunkError`. -/
inductive ChunkError
  | missing (name : Str)
  | wrongSize (name : Str) (size said : Nat)
  /-- The chunk file does not match its crc32; it has been removed (`_discard`). -/
  | checksum (name : Str)
  /-- The entry places the chunk where no chunk is. -/
  | place (digest : Digest) (place : Val)
  | outside (name : Str) (size : Nat) (offset : Int) (nbytes : Nat)
  | twoDifferent (name : Str) (offset : Nat)
  /-- `DamagedChunk`. -/
  | damaged (name : Str) (offset : Nat)

/-- What `read_chunks` may raise: a `ChunkError`, or an error of the language. -/
inductive ReadErr
  | chunk (e : ChunkError)
  | py (e : Err)

/-- `MAP_MIN_BYTES`. -/
def mapMinBytes : Nat := 1048576

/-- A part that is mapped costs nothing; the others are read into a new `bytearray`. -/
def allocUnless (mapped : Bool) (bytes bound : Nat) : Io ReadErr Unit :=
  if mapped then pure () else Io.alloc bytes bound

/-- `read_chunk`. -/
def readChunk (env : Env) (dir : ChunkDir) (digest : Digest) (nbytes : Nat) (crc : Bytes) : Io ReadErr Bytes :=
  let name := chunkName digest
  match dir name with
  | none => .throw (.chunk (.missing name))
  | some file =>
      if file.length ≠ nbytes + trailer then .throw (.chunk (.wrongSize name file.length (nbytes + trailer)))
      else do
        allocUnless (env.canMap && decide (mapMinBytes ≤ nbytes) && env.mapsChunk name) nbytes file.length
        let data := file.take nbytes
        if crcOf data ≠ crc then .throw (.chunk (.checksum name)) else pure data

/-- A chunk to read from a pack: `(index, offset, bytes, crc32)`. -/
structure Member where
  index : Nat
  offset : Int
  nbytes : Nat
  crc : Bytes
deriving DecidableEq, Repr

/-- `not name.endswith(PACK_SUFFIX) or os.sep in name or "/" in name`. -/
def badName : Val → Except Err Bool
  | .str s => .ok (!s.endsWith packSuffix || s.contains 47)
  | .bytes _ => .error .typeError
  | .bytearray _ => .error .typeError
  | _ => .error .attributeError

/-- Where `place` puts a chunk of `nbytes` bytes: the pack's name and the offset in it. -/
def parsePlace (env : Env) (digest : Digest) (nbytes : Nat) (place : Val) : Io ReadErr (Str × Int) := do
  let name ← Io.ofExcept ((place.item 0).mapError .py)
  let offset ← Io.ofExcept (((place.item 1).bind (·.toInt env.parseInt)).mapError .py)
  let n ← Io.ofExcept (((place.item 2).bind (·.toInt env.parseInt)).mapError .py)
  let bad ← Io.ofExcept ((if n ≠ nbytes then .ok true else badName name).mapError .py)
  if bad then
    -- The message shows the place.
    if env.reprReturns place then .throw (.chunk (.place digest place)) else .throw (.py .valueError)
  else
    match name with
    | .str s => pure (s, offset)
    | _ => .throw (.py .attributeError)

/-- `by_file.setdefault(name, []).append(member)`. -/
def addMember (name : Str) (m : Member) : List (Str × List Member) → List (Str × List Member)
  | [] => [(name, [m])]
  | (name', ms) :: rest => if name' = name then (name', ms ++ [m]) :: rest else (name', ms) :: addMember name m rest

/-- The chunks of one pack to be read: within the file, on a multiple of 64. -/
def checkMembers (env : Env) (name : Str) (size : Nat) : List Member → Io ReadErr Unit
  | [] => pure ()
  | m :: rest =>
      if m.offset < 0 ∨ m.offset % packAlign ≠ 0 ∨ (size : Int) < m.offset + m.nbytes + trailer then
        -- The message shows the offset.
        if env.reprReturns (.int m.offset) then .throw (.chunk (.outside name size m.offset m.nbytes))
        else .throw (.py .valueError)
      else checkMembers env name size rest

/-- The loop of `_read_pack`. `first`: the member read at each offset, `out`: what was read. -/
def readMembers (file : Bytes) (name : Str) (mapped : Bool) :
    List Member → List (Nat × Bytes) → List Member → Io ReadErr (List (Nat × Bytes))
  | _, out, [] => pure out
  | first, out, m :: rest =>
      match first.find? fun f => f.offset = m.offset with
      | some f =>
          if f.nbytes ≠ m.nbytes ∨ f.crc ≠ m.crc then .throw (.chunk (.twoDifferent name m.offset.toNat))
          else do
            -- The same bytes twice in one value: a copy of their own.
            let data := ((out.find? fun p => p.1 = f.index).map (·.2)).getD []
            Io.alloc data.length file.length
            readMembers file name mapped first (out ++ [(m.index, data)]) rest
      | none => do
          allocUnless mapped m.nbytes file.length
          let data := slice file m.offset.toNat m.nbytes
          if crcOf data ≠ m.crc then .throw (.chunk (.damaged name m.offset.toNat))
          else readMembers file name mapped (first ++ [m]) (out ++ [(m.index, data)]) rest

/-- `_read_pack`. -/
def readPack (env : Env) (dir : ChunkDir) (name : Str) (members : List Member) : Io ReadErr (List (Nat × Bytes)) :=
  if env.encodes name = false then .throw (.py .valueError)
  else
    match dir name with
    | none => .throw (.chunk (.missing name))
    | some file => do
        checkMembers env name file.length members
        let mapped := env.canMap && decide (mapMinBytes ≤ (members.map (·.nbytes)).sum) && env.mapsChunk name
        readMembers file name mapped [] [] members

/-- A chunk wanted: the index of its buffer, its digest and crc32, and the buffer's length. -/
structure Wanted where
  index : Nat
  digest : Digest
  crc : Bytes
  nbytes : Nat
deriving DecidableEq, Repr

/-- `(places or {}).get(digest.hex())`. -/
def placeOf (places : Option Items) (digest : Digest) : Option Val := (places.getD []).get (hex digest)

/-- The first loop of `read_chunks`: the chunks that are files of their own are read, the others sorted by
the pack they are in. -/
def sortWanted (env : Env) (dir : ChunkDir) (places : Option Items) :
    List (Str × List Member) → List (Nat × Bytes) → List Wanted →
      Io ReadErr (List (Str × List Member) × List (Nat × Bytes))
  | byFile, out, [] => pure (byFile, out)
  | byFile, out, w :: rest =>
      match placeOf places w.digest with
      | none => do
          let data ← readChunk env dir w.digest w.nbytes w.crc
          sortWanted env dir places byFile (out ++ [(w.index, data)]) rest
      | some place => do
          let (name, offset) ← parsePlace env w.digest w.nbytes place
          sortWanted env dir places (addMember name ⟨w.index, offset, w.nbytes, w.crc⟩ byFile) out rest

/-- The second loop of `read_chunks`. -/
def readPacks (env : Env) (dir : ChunkDir) :
    List (Nat × Bytes) → List (Str × List Member) → Io ReadErr (List (Nat × Bytes))
  | out, [] => pure out
  | out, (name, members) :: rest => do
      let found ← readPack env dir name members
      readPacks env dir (out ++ found) rest

/-- `read_chunks`. -/
def readChunks (env : Env) (dir : ChunkDir) (wanted : List Wanted) (places : Option Items) :
    Io ReadErr (List (Nat × Bytes)) := do
  let (byFile, out) ← sortWanted env dir places [] [] wanted
  readPacks env dir out byFile

end Cash.Chunks
