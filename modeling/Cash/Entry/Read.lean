import Cash.Chunks.Read
import Cash.Lib.Dict
import Mathlib.Data.List.Lex

/-!
# Entry files
-/

namespace Cash.Entry

open Bytes Py Chunks

/-!
## The layout of an entry file

A header (magic, length and room of the metadata), the pickled metadata padded to its room, and the
payload: the serialized value (`CSH2`), or a table, a pickle stream and the buffers it refers to (`CSH3`).
This is the writer; `struct.pack` raises on a number too large for its field, which is `none` here.
-/

def magic : Bytes := [67, 83, 72, 50]

def magicSplit : Bytes := [67, 83, 72, 51]

def headerSize : Nat := 12

def metaSlack : Nat := 64

def splitAlign : Nat := 64

/-- The bytes of `_SPLIT_HEAD`, `_COUNT` and `_CHUNK_REF`. -/
def splitHeadSize : Nat := 12

def countSize : Nat := 4

def chunkRefSize : Nat := 40

def checksumField : Str := str "_payload_crc32"

def placesField : Str := str "chunk_places"

def pad (offset : Nat) : Nat := padding splitAlign offset

/-- `struct.pack` of an unsigned number in `n` bytes. -/
def packUInt (n x : Nat) : Option Bytes := if x < 256 ^ n then some (le n x) else none

/-- `struct.pack` of a byte string in `n` bytes: cut, or filled with zeros. -/
def packBytesField (n : Nat) (b : Bytes) : Bytes := (b ++ zeros n).take n

/-- The digest and crc32 of each buffer kept in the chunk store, by its index (`stored_apart`). -/
abbrev StoredApart := Dict Nat (Digest × Bytes)

/-- `_CHUNK_REF.pack(i, *apart[i])`. -/
def packChunkRef (i : Nat) (ref : Digest × Bytes) : Option Bytes :=
  (packUInt 4 i).map fun index => index ++ packBytesField 32 ref.1 ++ packBytesField 4 ref.2

/-- The numbers `xs` in `n` bytes each, one after the other. -/
def packUInts (n : Nat) (xs : List Nat) : Option Bytes := (xs.mapM (packUInt n)).map List.flatten

/-- The table of a split payload. -/
def splitTable (stream : Bytes) (buffers : List Bytes) (apart : StoredApart) : Option Bytes := do
  let streamLen ← packUInt 8 stream.length
  let count ← packUInt 4 buffers.length
  let lengths ← packUInts 8 (buffers.map List.length)
  let nApart ← packUInt 4 apart.keys.length
  let refs ← (apart.keys.mergeSort (· ≤ ·)).mapM fun i => (apart.lookup i).bind (packChunkRef i)
  pure (streamLen ++ count ++ lengths ++ nApart ++ refs.flatten)

/-- The buffers written in the entry, each after its padding: from buffer `i` on, at `offset`. -/
def inlineChunks (apart : StoredApart) : Nat → Nat → List Bytes → List Bytes
  | _, _, [] => []
  | i, offset, buf :: rest =>
      if i ∈ apart then inlineChunks apart (i + 1) offset rest
      else
        (if pad offset = 0 then [] else [zeros (pad offset)]) ++
          buf :: inlineChunks apart (i + 1) (offset + pad offset + buf.length) rest

/-- `split_chunks`. -/
def splitChunks (stream : Bytes) (buffers : List Bytes) (apart : StoredApart) : Option (List Bytes) := do
  let table ← splitTable stream buffers apart
  let first := table ++ zeros (pad table.length)
  pure (first :: stream :: inlineChunks apart 0 (first.length + stream.length) buffers)

/-- `PackedEntry`. -/
structure PackedEntry where
  head : Bytes
  chunks : List Bytes
  checksum : Bytes
  size : Nat
deriving DecidableEq, Repr

/-- The file written from a packed entry: its head, then its chunks, in order. -/
def PackedEntry.file (e : PackedEntry) : Bytes := e.head ++ e.chunks.flatten

/-- `_checksum_of`. -/
def checksumOf (chunks : List Bytes) : Bytes := crcBytes (chunks.foldl (fun crc chunk => crc32 chunk crc) 0)

/-- `HEADER.pack`. -/
def packHeader (m : Bytes) (metaLen cap : Nat) : Option Bytes := do
  let metaLen ← packUInt 4 metaLen
  let cap ← packUInt 4 cap
  pure (m ++ metaLen ++ cap)

/-- The room for metadata of this length. -/
def metaCap (metaLen : Nat) (split : Bool) : Nat :=
  let cap := metaLen + metaSlack
  if split then cap + pad (headerSize + cap) else cap

/-- `pack_entry_parts`; `dumps` is `pickle.dumps`. -/
def packEntryParts (dumps : Items → Bytes) (metadata : Items) (chunks : List Bytes) (split : Bool)
    (checksum : Option Bytes) : Option PackedEntry := do
  let checksum := checksum.getD (checksumOf chunks)
  let metaBytes := dumps (metadata.with checksumField (.bytes checksum))
  let cap := metaCap metaBytes.length split
  let header ← packHeader (if split then magicSplit else magic) metaBytes.length cap
  let head := header ++ metaBytes ++ zeros (cap - metaBytes.length)
  pure ⟨head, chunks, checksum, head.length + (chunks.map List.length).sum⟩

/-- `pack_entry`. -/
def packEntry (dumps : Items → Bytes) (metadata : Items) (payload : Bytes) (checksum : Option Bytes) : Option Bytes :=
  (packEntryParts dumps metadata [payload] false checksum).map fun e => e.head ++ payload

/-- `packed_size`. -/
def packedSize (dumps : Items → Bytes) (metadata : Items) (payloadLen : Nat) : Nat :=
  headerSize + (dumps (metadata.with checksumField (.bytes (zeros 4)))).length + metaSlack + payloadLen

/-!
## Reading an entry file

`read_entry_and_checksum` with its two ways of reading a split payload, and `unpack_entry` for an entry
that is in memory. The file is its bytes, a position in it a number.
-/

/-- Why a file is no readable entry (`CorruptEntry`). -/
inductive Corrupt
  | truncatedHeader (size : Nat)
  | badMagic (found : Bytes)
  | metaLen (metaLen metaCap : Nat)
  | metadataTruncated
  | metadataDoesNotUnpickle
  | metadataIsNoDict
  | noChecksum
  | splitTruncated
  | chunkTable (index count : Nat)
  | splitSize (found said : Nat)
  | truncated
  | checksum (found : Bytes) (size : Nat)
  | chunk (e : ChunkError)

/-- What a read may raise. -/
inductive ReadError
  | os
  | corrupt (e : Corrupt)
  | py (e : Err)

/-- `SplitPayload`. -/
structure SplitPayload where
  stream : Bytes
  buffers : List Bytes
deriving DecidableEq, Repr

/-- The payload of an entry: the value in one piece, or split. -/
inductive Payload
  | whole (data : Bytes)
  | split (parts : SplitPayload)
deriving DecidableEq, Repr

/-! ### Parts -/

/-- `fh.read(n)` at `pos`, where the entry says `n`. -/
def readBytes (env : Env) (file : Bytes) (pos n : Nat) : Io ReadError Bytes := do
  let data := slice file pos n
  Io.alloc (if env.readReserves then n else data.length) file.length
  pure data

/-- `_read_exact`. -/
def readExact (env : Env) (file : Bytes) (pos n : Nat) : Io ReadError Bytes :=
  if n = 0 then pure []
  else do
    let data ← readBytes env file pos n
    if data.length ≠ n then .throw (.corrupt .truncated) else pure data

/-- `_read_into`. -/
def readInto (file : Bytes) (pos n : Nat) : Io ReadError Bytes := do
  Io.alloc n file.length
  let data := slice file pos n
  if data.length ≠ n then .throw (.corrupt .truncated) else pure data

/-- `_load_metadata`. -/
def loadMetadata (env : Env) (metaBytes : Bytes) : Io ReadError Items :=
  match env.loads metaBytes with
  | none => .throw (.corrupt .metadataDoesNotUnpickle)
  | some (.dict items) => pure items
  | some _ => .throw (.corrupt .metadataIsNoDict)

/-- The message of a checksum that does not match calls `expected.hex()`. -/
def checksumDiffers (expected : Val) (found : Bytes) (size : Nat) : ReadError :=
  if expected.hasHex then .corrupt (.checksum found size) else .py .attributeError

/-- `_verify`. -/
def verify (payload : Bytes) (expected : Option Val) : Io ReadError Unit :=
  match expected with
  | none => .throw (.corrupt .noChecksum)
  | some expected =>
      let found := crcOf payload
      if expected.eqBytes found then pure () else .throw (checksumDiffers expected found payload.length)

/-! ### The split payload -/

/-- An entry of the table: the buffer's index, its chunk's digest and crc32. -/
structure Ref where
  index : Nat
  digest : Digest
  crc : Bytes
deriving DecidableEq, Repr

/-- The index in `refs` of a buffer kept apart. -/
def isApart (refs : List Ref) (i : Nat) : Bool := refs.any fun r => r.index = i

/-- `_CHUNK_REF.iter_unpack`. -/
def unpackRefs (raw : Bytes) (n : Nat) : List Ref :=
  (List.range n).map fun k =>
    let r := slice raw (chunkRefSize * k) chunkRefSize
    ⟨unle (r.take 4), slice r 4 32, slice r 36 4⟩

/-- The loop over the table of chunks. -/
def checkRefs (count : Nat) : List Ref → List Ref → Io ReadError (List Ref)
  | apart, [] => pure apart
  | apart, r :: rest =>
      if count ≤ r.index ∨ isApart apart r.index then .throw (.corrupt (.chunkTable r.index count))
      else checkRefs count (apart ++ [r]) rest

/-- Where the buffers of these lengths end: from buffer `i` on, at `offset`. -/
def layoutEnd (apart : List Ref) : Nat → Nat → List Nat → Nat
  | _, offset, [] => offset
  | i, offset, n :: rest =>
      if isApart apart i then layoutEnd apart (i + 1) offset rest
      else layoutEnd apart (i + 1) (offset + pad offset + n) rest

/-- The buffers as views of the mapped payload (`_map_split`); `none` for one kept apart. -/
def mapBuffers (payload : Bytes) (apart : List Ref) : Nat → Nat → List Nat → List (Option Bytes)
  | _, _, [] => []
  | i, offset, n :: rest =>
      if isApart apart i then none :: mapBuffers payload apart (i + 1) offset rest
      else some (slice payload (offset + pad offset) n) ::
        mapBuffers payload apart (i + 1) (offset + pad offset + n) rest

/-- The buffers read one after the other (`_read_split`), with the running crc32. -/
def readBuffers (env : Env) (file : Bytes) (start : Nat) (apart : List Ref) :
    BitVec 32 → Nat → Nat → List Nat → Io ReadError (BitVec 32 × Nat × List (Option Bytes))
  | crc, _, offset, [] => pure (crc, offset, [])
  | crc, i, offset, n :: rest =>
      if isApart apart i then do
        let (crc, offset, bufs) ← readBuffers env file start apart crc (i + 1) offset rest
        pure (crc, offset, none :: bufs)
      else do
        let p := pad offset
        let padBytes ← readExact env file (start + offset) p
        let buf ← readInto file (start + offset + p) n
        let (crc, offset, bufs) ←
          readBuffers env file start apart (crc32 buf (crc32 padBytes crc)) (i + 1) (offset + p + n) rest
        pure (crc, offset, some buf :: bufs)

/-- `buffers[index] = data` for each chunk found. -/
def fillIn (buffers : List (Option Bytes)) (found : List (Nat × Bytes)) : List (Option Bytes) :=
  found.foldl (fun buffers p => buffers.set p.1 (some p.2)) buffers

/-- The chunks the table names, with the lengths of their buffers. -/
def wantedChunks (apart : List Ref) (lengths : List Nat) : List Wanted :=
  apart.map fun r => ⟨r.index, r.digest, r.crc, lengths.getD r.index 0⟩

/-- `places if isinstance(places, dict) else None`. -/
def placesDict : Option Val → Option Items
  | some (.dict items) => some items
  | _ => none

def chunkFailed : ReadErr → ReadError
  | .chunk e => .corrupt (.chunk e)
  | .py e => .py e

/-- `_read_apart`. -/
def readApart (env : Env) (dir : ChunkDir) (buffers : List (Option Bytes)) (lengths : List Nat) (apart : List Ref)
    (places : Option Val) : Io ReadError (List (Option Bytes)) :=
  if apart = [] then pure buffers
  else do
    let found ← Io.mapError chunkFailed (readChunks env dir (wantedChunks apart lengths) (placesDict places))
    pure (fillIn buffers found)

/-- `_map_split`, once the file is mapped. -/
def mapSplit (env : Env) (dir : ChunkDir) (file : Bytes) (start table streamLen : Nat) (lengths : List Nat)
    (apart : List Ref) (expected : Val) (places : Option Val) : Io ReadError SplitPayload := do
  let payload := file.drop start
  let found := crcOf payload
  if !expected.eqBytes found then .throw (checksumDiffers expected found payload.length)
  else do
    let offset := table + pad table
    let stream := slice payload offset streamLen
    let buffers := mapBuffers payload apart 0 (offset + streamLen) lengths
    let buffers ← readApart env dir buffers lengths apart places
    pure ⟨stream, buffers.map (·.getD [])⟩

/-- What the table of a split payload says. -/
structure Table where
  streamLen : Nat
  lengths : List Nat
  apart : List Ref
  /-- The bytes of the table. -/
  size : Nat
  /-- The table as it stands in the file: its head, the lengths, the count and the references. -/
  raw : Bytes × Bytes × Bytes × Bytes

/-- The part of `_read_split` that reads the table and checks the layout against the file. -/
def readTable (env : Env) (file : Bytes) (start : Nat) : Io ReadError Table := do
  let head ← readExact env file start splitHeadSize
  let streamLen := unle (head.take 8)
  let count := unle (head.drop 8)
  if file.length < start + splitHeadSize + 8 * count + countSize then .throw (.corrupt .splitTruncated)
  else do
    let lengthsRaw ← readExact env file (start + splitHeadSize) (8 * count)
    let lengths := (List.range count).map fun i => unle (slice lengthsRaw (8 * i) 8)
    let countRaw ← readExact env file (start + splitHeadSize + 8 * count) countSize
    let nApart := unle countRaw
    let table := splitHeadSize + 8 * count + countSize + chunkRefSize * nApart
    if file.length < start + table then .throw (.corrupt .splitTruncated)
    else do
      let refsRaw ← readExact env file (start + splitHeadSize + 8 * count + countSize) (chunkRefSize * nApart)
      let apart ← checkRefs count [] (unpackRefs refsRaw nApart)
      let offset := layoutEnd apart 0 (table + pad table + streamLen) lengths
      if start + offset ≠ file.length then .throw (.corrupt (.splitSize (file.length - start) offset))
      else pure ⟨streamLen, lengths, apart, table, (head, lengthsRaw, countRaw, refsRaw)⟩

/-- The part of `_read_split` that reads the parts one after the other. -/
def readParts (env : Env) (dir : ChunkDir) (file : Bytes) (start : Nat) (t : Table) (expected : Val)
    (places : Option Val) : Io ReadError SplitPayload := do
  let (head, lengthsRaw, countRaw, refsRaw) := t.raw
  let crc := crc32 refsRaw (crc32 countRaw (crc32 lengthsRaw (crc32 head 0)))
  let padBytes ← readExact env file (start + t.size) (pad t.size)
  let stream ← readInto file (start + t.size + pad t.size) t.streamLen
  let crc := crc32 stream (crc32 padBytes crc)
  let (crc, offset, buffers) ←
    readBuffers env file start t.apart crc 0 (t.size + pad t.size + t.streamLen) t.lengths
  let found := crcBytes crc
  if !expected.eqBytes found then .throw (checksumDiffers expected found offset)
  else do
    let buffers ← readApart env dir buffers t.lengths t.apart places
    pure ⟨stream, buffers.map (·.getD [])⟩

/-- Is a split payload mapped rather than read? -/
def maps (env : Env) (file : Bytes) (start : Nat) : Bool :=
  env.canMap && decide (mapMinBytes ≤ file.length - start) && decide (start % splitAlign = 0) && env.mapsEntry

/-- `_read_split`. -/
def readSplit (env : Env) (dir : ChunkDir) (file : Bytes) (start : Nat) (expected : Option Val)
    (places : Option Val) : Io ReadError SplitPayload :=
  match expected with
  | none => .throw (.corrupt .noChecksum)
  | some expected => do
      let t ← readTable env file start
      if maps env file start then
        mapSplit env dir file start t.size t.streamLen t.lengths t.apart expected places
      else readParts env dir file start t expected places

/-! ### The entry -/

/-- What a header says: the magic, and the length and room of the metadata. -/
structure Header where
  magic : Bytes
  metaLen : Nat
  metaCap : Nat
deriving DecidableEq, Repr

/-- `HEADER.unpack`. -/
def unpackHeader (head : Bytes) : Header := ⟨head.take 4, unle (slice head 4 4), unle (slice head 8 4)⟩

/-- The metadata an entry starts with, and its header. -/
def readHead (env : Env) (file : Bytes) : Io ReadError (Header × Items) := do
  -- A fixed number of bytes, whatever the file says.
  let head := file.take headerSize
  if head.length < headerSize then .throw (.corrupt (.truncatedHeader head.length))
  else
    let h := unpackHeader head
    if h.magic ≠ magic ∧ h.magic ≠ magicSplit then .throw (.corrupt (.badMagic h.magic))
    else if h.metaCap < h.metaLen then .throw (.corrupt (.metaLen h.metaLen h.metaCap))
    else do
      let metaBytes ← readBytes env file headerSize h.metaLen
      if metaBytes.length < h.metaLen then .throw (.corrupt .metadataTruncated)
      else do
        let metadata ← loadMetadata env metaBytes
        pure (h, metadata)

/-- `read_entry_and_checksum`: the metadata, the payload and the checksum. `file` is `none` when `open`
raises. -/
def readEntryAndChecksum (env : Env) (dir : ChunkDir) (file : Option Bytes) (withPayload : Bool) :
    Io ReadError (Items × Option Payload × Option Val) :=
  match file with
  | none => .throw .os
  | some file => do
      let (h, metadata) ← readHead env file
      let expected := metadata.get checksumField
      let metadata := metadata.pop checksumField
      if !withPayload then pure (metadata, none, expected)
      else if h.magic = magicSplit then do
        let parts ← readSplit env dir file (headerSize + h.metaCap) expected (metadata.get placesField)
        pure (metadata, some (.split parts), expected)
      else do
        let payload := file.drop (headerSize + h.metaCap)
        Io.alloc payload.length file.length
        verify payload expected
        pure (metadata, some (.whole payload), expected)

/-- `read_entry`. -/
def readEntry (env : Env) (dir : ChunkDir) (file : Option Bytes) (withPayload : Bool) :
    Io ReadError (Items × Option Payload) := do
  let (metadata, payload, _) ← readEntryAndChecksum env dir file withPayload
  pure (metadata, payload)

/-- `unpack_entry`. -/
def unpackEntry (env : Env) (blob : Bytes) (withPayload : Bool) : Io ReadError (Items × Option Bytes) :=
  if blob.length < headerSize then .throw (.corrupt (.truncatedHeader blob.length))
  else
    let h := unpackHeader (blob.take headerSize)
    if (h.magic ≠ magic ∧ h.magic ≠ magicSplit) ∨ (withPayload = true ∧ h.magic ≠ magic) then
      .throw (.corrupt (.badMagic h.magic))
    else if h.metaCap < h.metaLen then .throw (.corrupt (.metaLen h.metaLen h.metaCap))
    else if blob.length < headerSize + h.metaLen then .throw (.corrupt .metadataTruncated)
    else do
      let metadata ← loadMetadata env (slice blob headerSize h.metaLen)
      let expected := metadata.get checksumField
      let metadata := metadata.pop checksumField
      if !withPayload then pure (metadata, none)
      else do
        let payload := blob.drop (headerSize + h.metaCap)
        verify payload expected
        pure (metadata, some payload)

/-- `metadata_span`. -/
def metadataSpan (blob : Bytes) : Except Corrupt Nat :=
  if blob.length < headerSize then .error (.truncatedHeader blob.length)
  else .ok (headerSize + (unpackHeader (blob.take headerSize)).metaCap)

/-! ### The entries that hold a damaged chunk

`FileBackend.get` removes them, in `_remove_damaged`. What an entry holds and where is metadata, which no checksum
covers, and nothing guards the operations on it here. Left out are `_compact`, which runs under `except Exception` and
changes only names that `open` took, and the sweeps, which raise `OSError` only and are guarded.
-/

def entrySuffix : Str := str ".entry"

def chunksField : Str := str "chunks"

/-- A parsed place: `(name, offset, bytes, crc32)`. -/
structure Parsed where
  name : Str
  offset : Int
  nbytes : Int
  crc : Bytes
deriving DecidableEq, Repr

/-- What a process knows of the entries of its folder (`ChunkStore`). `_holders` is read off `heldBy`. -/
structure Known where
  indexed : Bool
  oldChunks : Bool
  heldBy : Dict Str (List Val)
  placedBy : Dict Str (Dict Digest Parsed)
  pending : List Str

/-- The entry files of the folder. -/
structure Folder where
  /-- The stem and content of each that `ensure_index` finds; `none` where `open` raises. -/
  listed : List (Str × Option Bytes)
  /-- The content of an entry when its turn to be removed comes: other processes write too. `none` where `open`
  raises or the folder of the chunks is gone. -/
  content : Str → Option Bytes
  /-- The file is removed, or was gone. -/
  removes : Str → Bool

/-- `read_entry` without the payload, where an `OSError` and a `CorruptEntry` are handled. -/
def readMetadata (env : Env) (dir : ChunkDir) (file : Option Bytes) : Except Err (Option Items) :=
  match (readEntry env dir file false).result with
  | .ok (metadata, _) => .ok (some metadata)
  | .error (.py e) => .error e
  | .error _ => .ok none

/-- `metadata.get(CHUNKS_FIELD) or None`. -/
def chunksOf (metadata : Items) : Option Val := (metadata.get chunksField).filter (·.truthy)

/-- `name, _size = item`, for a name that is a key of a dict or an item of a set. -/
def nameOf (item : Val) : Except Err Val := do
  match ← item.iterate with
  | [name, _] => if name.hashable then .ok name else .error .typeError
  | _ => .error .valueError

/-- `[name for name, _size in items]`. -/
def namesOfItems : List Val → Except Err (List Val)
  | [] => .ok []
  | item :: rest => do
      let name ← nameOf item
      let names ← namesOfItems rest
      pure (name :: names)

/-- The names in a list of chunks. -/
def namesOf (held : Val) : Except Err (List Val) := held.iterate.bind namesOfItems

/-- `bytes.fromhex(v)`. -/
def unhex (env : Env) (v : Val) : Except Err Bytes := (env.fromHex v).elim (.error .valueError) .ok

/-- The `try` in the loop of `_parse_places`. -/
def parseItem (env : Env) (key value : Val) : Except Err (Option (Digest × Parsed)) := do
  match ← value.iterate with
  | [.str name, offset, nbytes, crc] =>
      if name.endsWith packSuffix then do
        let digest ← unhex env key
        let offset ← offset.toInt env.parseInt
        let nbytes ← nbytes.toInt env.parseInt
        let crc ← unhex env crc
        pure (some (digest, ⟨name, offset, nbytes, crc⟩))
      else pure none
  | [_, _, _, _] => pure none
  | _ => .error .valueError

/-- The loop of `_parse_places`: what does not parse is left out. -/
def parseItems (env : Env) : Items → Except Err (List (Digest × Parsed))
  | [] => .ok []
  | (key, value) :: rest =>
      match parseItem env key value with
      | .ok (some place) => (parseItems env rest).map (place :: ·)
      | .ok none => parseItems env rest
      | .error .typeError => parseItems env rest
      | .error .valueError => parseItems env rest
      | .error e => .error e

/-- `_parse_places`. -/
def parsePlaces (env : Env) (places : Option Val) : Except Err (List (Digest × Parsed)) :=
  parseItems env ((placesDict places).getD [])

/-- What `ensure_index` finds of an entry. -/
structure Found where
  stem : Str
  names : List Val
  placed : Dict Digest Parsed

/-- `_entry_chunks` and the body of the first loop of `ensure_index`; `none` for an entry that holds no chunks. -/
def findEntry (env : Env) (dir : ChunkDir) (entry : Str × Option Bytes) : Except Err (Option Found) := do
  match ← readMetadata env dir entry.2 with
  | none => pure none
  | some metadata =>
      match chunksOf metadata with
      | none => pure none
      | some held =>
          let names ← namesOf held
          let places ← parsePlaces env (metadata.get placesField)
          pure (some ⟨entry.1, names, Dict.update ∅ places⟩)

/-- The first loop of `ensure_index`. -/
def findEntries (env : Env) (dir : ChunkDir) : List (Str × Option Bytes) → Except Err (List Found)
  | [] => .ok []
  | entry :: rest => do
      let found ← findEntry env dir entry
      let others ← findEntries env dir rest
      pure (found.toList ++ others)

/-- `any(name.endswith(CHUNK_SUFFIX) for name in sizes)`. -/
def anyChunk : List Val → Except Err Bool
  | [] => .ok false
  | .str s :: rest => if s.endsWith chunkSuffix then .ok true else anyChunk rest
  | .bytes _ :: _ => .error .typeError
  | _ :: _ => .error .attributeError

namespace Known

/-- The body of the last loop of `ensure_index`. -/
def learn (k : Known) (e : Found) : Known :=
  if e.stem ∈ k.heldBy then k
  else
    { k with
      heldBy := k.heldBy.insert e.stem e.names
      placedBy := if e.placed.keys.isEmpty then k.placedBy.erase e.stem else k.placedBy.insert e.stem e.placed }

/-- `ensure_index`. -/
def ensureIndex (env : Env) (dir : ChunkDir) (folder : Folder) (k : Known) : Except Err Known :=
  if k.indexed then .ok k
  else do
    let found ← findEntries env dir folder.listed
    let old ← if k.oldChunks then pure true else anyChunk (found.flatMap (·.names))
    pure { found.foldl learn k with indexed := true, oldChunks := old }

/-- `damaged`, once the index is there: the entries known to hold the chunk. -/
def damaged (k : Known) (pack : Str) (offset : Nat) : List Str :=
  (k.placedBy.entries.filter fun e =>
    e.2.entries.any fun p => p.2.name = pack && p.2.offset = offset).map (·.1)

/-- `name in self._holders`. -/
def isHeld (k : Known) (name : Str) : Bool := k.heldBy.entries.any fun e => e.2.any (Val.isStr name)

/-- `_drop`, with the index there: a name no entry holds reaches `os.stat`, which guards against an `OSError`. -/
def drop (env : Env) (k : Known) : List Val → Except Err Unit
  | [] => .ok ()
  | .str s :: rest =>
      if k.isHeld s || s ∈ k.pending || env.encodes s then drop env k rest else .error .valueError
  -- `os.path.join(self.dir, name)`.
  | _ :: _ => .error .typeError

/-- `chunks_held`. -/
def chunksHeld (env : Env) (dir : ChunkDir) (folder : Folder) (k : Known) (stem : Str) : Except Err (Option Val) :=
  if stem ∈ k.heldBy then .ok none
  else (readMetadata env dir (folder.content stem)).map (·.bind chunksOf)

/-- `release`. -/
def release (env : Env) (k : Known) (stem : Str) (held : Option Val) : Except Err Known := do
  let before ← match k.heldBy.lookup stem with
    | some names => pure names
    | none => held.elim (pure []) namesOf
  let k := { k with heldBy := k.heldBy.erase stem, placedBy := k.placedBy.erase stem }
  k.drop env before
  pure k

/-- `remove_path`, of the entry with this stem. -/
def removePath (env : Env) (dir : ChunkDir) (folder : Folder) (k : Known) (stem : Str) : Except Err Known := do
  let held ← k.chunksHeld env dir folder stem
  -- `entry_lock` encodes the stem.
  if !stem.isUtf8 then .error .valueError
  else if !folder.removes stem then pure k
  else k.release env stem held

/-- The loop of `_remove_damaged`. -/
def removePaths (env : Env) (dir : ChunkDir) (folder : Folder) : Known → List Str → Except Err Known
  | k, [] => .ok k
  | k, stem :: rest => do
      let k ← k.removePath env dir folder stem
      removePaths env dir folder k rest

/-- The stems of `sorted(paths)`. -/
def toRemove (k : Known) (stem pack : Str) (offset : Nat) : List Str :=
  (stem :: k.damaged pack offset).dedup.mergeSort fun a b => a ++ entrySuffix ≤ b ++ entrySuffix

/-- `_remove_damaged`, reading the entry with this stem. -/
def removeDamaged (env : Env) (dir : ChunkDir) (folder : Folder) (k : Known) (stem pack : Str) (offset : Nat) :
    Except Err Known := do
  let k ← k.ensureIndex env dir folder
  k.removePaths env dir folder (k.toRemove stem pack offset)

end Known

/-! ### `FileBackend.get` -/

/-- How the part of `FileBackend.get` after the read ends. -/
inductive Restored (V : Type)
  | value (v : V)
  /-- Nothing to restore: metadata only, expired, or compressed by a codec this Python lacks. -/
  | miss
  /-- It raised; `caught` when it is an `OSError` or one of `RESTORE_ERRORS`. -/
  | raised (caught : Bool)
deriving DecidableEq, Repr

/-- How `FileBackend.get` ends. -/
inductive GetResult (V : Type)
  | hit (v : V)
  | miss
  | raises
deriving DecidableEq, Repr

/-- `FileBackend.get` from the read of the entry on: an `OSError` or a `CorruptEntry` is a miss, after a chunk of a
pack found damaged once `_remove_damaged` (`handle`) has returned. -/
def fileGet {V : Type} (handle : Str → Nat → Except Err Known)
    (read : Io ReadError (Items × Option Payload × Option Val))
    (restore : Items × Option Payload × Option Val → Restored V) : GetResult V :=
  match read.result with
  | .error .os => .miss
  | .error (.corrupt (.chunk (.damaged pack offset))) =>
      match handle pack offset with
      | .ok _ => .miss
      | .error _ => .raises
  | .error (.corrupt _) => .miss
  | .error (.py _) => .raises
  | .ok found =>
      match restore found with
      | .value v => .hit v
      | .miss => .miss
      | .raised caught => if caught then .miss else .raises

end Cash.Entry
