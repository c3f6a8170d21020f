import Cash.Store.Programs

/-!
# The entries of a folder and their chunks

What `FileBackend` and its evictor do with an entry and the chunks it keeps apart: write it, remove it, read
its chunks.
-/

namespace Cash.Store

open Bytes Py Chunks Entry

/-! ## Writing an entry -/

/-- `chunks_held`: the chunks of an entry this process does not know, from its metadata. -/
def chunksHeld (stem : Str) : StoreM (Option Held) := do
  if ← locked fun t => (decide (stem ∈ t.heldBy), t) then pure none
  else if ← perform .isDir then
    match ← entryAt stem with
    | none => pure none
    | some e => pure (if e.held = [] then none else some e.held)
  else pure none

/-- `_write_new_in_place`. -/
def writeNewInPlace (stem : Str) (file : EntryFile) : StoreM Bool := do
  match ← perform (.createEntry stem) with
  | .error _ => pure false
  | .ok ino => do
      if ← perform (.writeFile ino file) then pure true
      else do
        let _ ← perform (.removeEntry stem)
        .raise .os

/-- `_atomic_write`. -/
def atomicWrite (stem : Str) (file : EntryFile) : StoreM Unit := do
  match ← perform .temp with
  | .failed => .raise .os
  | .notFound => .raise .notFound
  | .done => do
      match ← perform (.tempFile file) with
      | none => do
          let _ ← perform .own
          .raise .os
      | some ino => do
          if ← perform (.replaceEntry ino stem) then pure ()
          else do
            let _ ← perform .own
            .raise .os

def writeFile (stem : Str) (file : EntryFile) : StoreM Unit := do
  if ← writeNewInPlace stem file then pure () else atomicWrite stem file

/-- `writeFile`, with the cache folder made again when it was deleted. -/
def writeFileRetry (stem : Str) (file : EntryFile) : StoreM Unit :=
  (writeFile stem file).handle fun e =>
    match e with
    | .notFound => do
        orRaise .own
        let _ ← perform .own
        let _ ← perform .own
        writeFile stem file
    | e => .raise e

/-- The part of `_write_entry` that a failure abandons: the bytes the entry took before, and the chunks of
the entry replaced. `file` is `none` when packing the entry raises. -/
def placeEntry (stem : Str) (file : Option EntryFile) : StoreM (Nat × Option Held) := do
  match file with
  | none => .raise .os
  | some file => do
      match ← perform (.statEntry stem) with
      | none => do
          writeFileRetry stem file
          pure (0, none)
      | some old => do
          let replaced ← chunksHeld stem
          writeFileRetry stem file
          pure (old, replaced)

/-- `_write_entry`: the bytes the entry it replaced took, and the chunk bytes freed. -/
def writeEntry (conf : Conf) (stem : Str) (file : Option EntryFile) (held : Held) (places : Places) :
    StoreM (Nat × Int) := do
  let (old, replaced) ← (placeEntry stem file).handle fun e => do
    let _ ← abandon held
    .raise e
  let freed ← commit conf stem held replaced places
  pure (old, freed)

/-- `put_all`, or nothing to keep apart. -/
def keepApart (views : List Bytes) (known : List (Option Digest)) : StoreM Stored :=
  if views = [] then pure ⟨[], [], [], 0⟩ else putAll views known

/-- The entry packed with what `put_all` returned. -/
def packedWith (pack : Stored → Option EntryFile) (s : Stored) : Option EntryFile :=
  (pack s).map fun e => { e with held := s.held, places := s.places }

/-- `_write_cache_files`; `views` are the buffers kept apart, `pack` makes the entry. The bytes replaced,
freed and added. -/
def writeCacheFiles (conf : Conf) (stem : Str) (views : List Bytes) (known : List (Option Digest))
    (pack : Stored → Option EntryFile) : StoreM (Nat × Int × Int) := do
  let s ← keepApart views known
  perform (.lock stem)
  let (old, freed) ← (writeEntry conf stem (packedWith pack s) s.held s.places).ensuring (perform (.unlock stem))
  pure (old, freed, s.added)

/-! ## Removing an entry -/

/-- `remove_path`: the bytes freed. -/
def removePath (conf : Conf) (stem : Str) : StoreM Int := do
  let held ← chunksHeld stem
  let size ← perform (.statEntry stem)
  perform (.lock stem)
  let removed ← perform (.removeEntry stem)
  perform (.unlock stem)
  match removed with
  | .failed => pure 0
  | _ => do
      let freed ← release conf stem held
      pure (size.getD 0 + freed)

def removePaths (conf : Conf) : List Str → StoreM Int
  | [] => pure 0
  | stem :: rest => do
      let freed ← removePath conf stem
      let more ← removePaths conf rest
      pure (freed + more)

/-- `_remove_damaged`. -/
def removeDamaged (conf : Conf) (stem pack : Str) (offset : Nat) : StoreM Int := do
  let stems ← damaged pack offset
  let order ← perform (.iterate (stems.insert stem))
  removePaths conf order

def removeEntries : List Str → StoreM Unit
  | [] => pure ()
  | stem :: rest => do
      let _ ← perform (.removeEntry stem)
      removeEntries rest

/-- `FileBackend.clear`. -/
def clearAll : StoreM Unit := do
  let stems ← perform .entryFiles
  removeEntries stems
  clear

/-! ## Reading the chunks of an entry -/

/-- `read_chunk`; a chunk file that does not match its crc32 is removed. -/
def readChunkFile (conf : Conf) (w : Wanted) : StoreM Bytes := do
  let file ← perform (.read (chunkName w.digest))
  match (readChunk conf.env (fun _ => file) w.digest w.nbytes w.crc).result with
  | .ok data => pure data
  | .error (.chunk (.checksum name)) => do
      let _ ← perform (.remove name)
      .raise (.read (.chunk (.checksum name)))
  | .error e => .raise (.read e)

/-- `[file, offset, bytes, crc32 hex]`. -/
def placeVal (p : Place) : Val := .list [.str p.name, .int p.offset, .int p.nbytes, .str (hex p.crc)]

/-- `chunk_places` as the metadata holds it. -/
def placesItems (places : Places) : Items := places.map fun p => (.str (hex p.1), placeVal p.2)

/-- The first loop of `read_chunks`. -/
def sortChunks (conf : Conf) (places : Items) :
    List (Str × List Member) → List (Nat × Bytes) → List Wanted →
      StoreM (List (Str × List Member) × List (Nat × Bytes))
  | byFile, out, [] => pure (byFile, out)
  | byFile, out, w :: rest =>
      match placeOf (some places) w.digest with
      | none => do
          let data ← readChunkFile conf w
          sortChunks conf places byFile (out ++ [(w.index, data)]) rest
      | some place => do
          let (name, offset) ← raising (parsePlace conf.env w.digest w.nbytes place)
          sortChunks conf places (addMember name ⟨w.index, offset, w.nbytes, w.crc⟩ byFile) out rest

/-- The second loop of `read_chunks`. -/
def readEachPack (conf : Conf) : List (Nat × Bytes) → List (Str × List Member) → StoreM (List (Nat × Bytes))
  | out, [] => pure out
  | out, (name, members) :: rest => do
      let found ← readPackFile conf name members
      readEachPack conf (out ++ found) rest

/-- `read_chunks`. -/
def readStored (conf : Conf) (wanted : List Wanted) (places : Items) : StoreM (List (Nat × Bytes)) := do
  let (byFile, out) ← sortChunks conf places [] [] wanted
  readEachPack conf out byFile

end Cash.Store
