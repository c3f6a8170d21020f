import Cash.Store.Calls
import Mathlib.Data.List.Sort

/-!
# The operations of a chunk store

`ChunkStore` of one process, method by method, as programs over the calls.
-/

namespace Cash.Store

open Bytes Py Chunks Entry

/-- `CLAIM_SUFFIX`. -/
def claimSuffix : Str := str ".claim"

/-- `ORPHAN_CHUNK_AGE`, in nanoseconds as mtimes are. -/
@[irreducible] def orphanChunkAge : Nat := 3600000000000

/-! ## Removing -/

/-- The names `_sweep_orphans` and `clear` list. -/
def inFolder (name : Str) : Bool :=
  name.endsWith chunkSuffix || name.endsWith packSuffix || name.endsWith claimSuffix

/-- The body of the loop of `_sweep_orphans`: the bytes freed. -/
def sweepOne (cutoff : Nat) (name : Str) : StoreM Int := do
  if ← locked fun t => (t.inUse name, t) then pure 0
  else
    match ← perform (.stat name) with
    | none => pure 0
    | some st =>
        if st.mtime < cutoff then
          if ← perform (.remove name) then pure st.size else pure 0
        else pure 0

def sweepEach (cutoff : Nat) : List Str → StoreM Int
  | [] => pure 0
  | name :: rest => do
      let freed ← sweepOne cutoff name
      let more ← sweepEach cutoff rest
      pure (freed + more)

/-- `_sweep_orphans`. -/
def sweepOrphans : StoreM Int := do
  let now ← perform .time
  match ← perform .scan with
  | none => pure 0
  | some listed => sweepEach (now - orphanChunkAge) (listed.filter inFolder)

/-- The metadata of the entry at the path of `stem`; `none` when there is no entry that can be read. -/
def entryAt (stem : Str) : StoreM (Option EntryFile) := do
  match ← perform (.openEntry stem) with
  | none => pure none
  | some ino => perform (.readFile ino)

/-- `_entry_chunks`: the entries that hold chunks, from their metadata. -/
def entryChunks : List Str → StoreM (List Tables.Found)
  | [] => pure []
  | stem :: rest => do
      let file ← entryAt stem
      let more ← entryChunks rest
      match file with
      | none => pure more
      | some e => if e.held = [] then pure more else pure (⟨stem, e.held, e.places⟩ :: more)

/-- `ensure_index`. -/
def ensureIndex : StoreM Int := do
  if ← locked fun t => (t.indexed, t) then pure 0
  else
    let started ← perform .time
    let stems ← perform .entryFiles
    let found ← entryChunks stems
    if ← locked (Tables.index started found) then sweepOrphans else pure 0

/-- What `_drop` decides under the lock: `none` when the file is in use. -/
def dropLook (name : Str) (t : Tables) : Option (Option Nat × Nat) :=
  if t.inUse name then none else some (t.ownMtime.lookup name, t.indexedAt)

/-- The section of `_drop` after a removal. -/
def dropped (name : Str) (t : Tables) : Tables :=
  { t with
    ownMtime := t.ownMtime.erase name
    size := if name ∈ t.holders then t.size else t.size.erase name }

/-- The body of the loop of `_drop`: the bytes freed. -/
def dropOne (name : Str) : StoreM Int := do
  match ← locked fun t => (dropLook name t, t) with
  | none => pure 0
  | some (own, indexedAt) =>
      match ← perform (.stat name) with
      | none => pure 0
      | some st =>
          -- Written or touched since this process read the folder, by someone else.
          if indexedAt < st.mtime ∧ some st.mtime ≠ own then pure 0
          else if ← perform (.remove name) then do
            update (dropped name)
            update (Tables.forget name)
            pure st.size
          else pure 0

def dropEach : List Str → StoreM Int
  | [] => pure 0
  | name :: rest => do
      let freed ← dropOne name
      let more ← dropEach rest
      pure (freed + more)

/-- `_drop`. -/
def drop (names : List Str) : StoreM Int :=
  if names = [] then pure 0
  else do
    let order ← perform (.iterate names)
    let freed ← ensureIndex
    let more ← dropEach order
    pure (freed + more)

/-- `abandon`. -/
def abandon (held : Held) : StoreM Int := do
  update (Tables.unpend (held.map (·.1)))
  drop (held.map (·.1)).dedup

/-! ## Writing -/

/-- `_note_own`. -/
def noteOwn (name : Str) : StoreM Unit := do
  match ← perform (.stat name) with
  | none => pure ()
  | some st => update fun t => { t with ownMtime := t.ownMtime.insert name st.mtime }

/-- The stat of a file just touched. -/
def touch (name : Str) : StoreM (Option Stat) := do
  if ← perform (.utime name) then perform (.stat name) else pure none

/-- `_hold_stored`. -/
def holdStored (name : Str) : StoreM (Option Nat) := do
  update (Tables.pend name)
  match ← touch name with
  | none => do
      update (Tables.unpend [name])
      pure none
  | some st => do
      noteOwn name
      pure (some st.size)

/-- `_reuse`. -/
def reuse (name : Str) (nbytes : Nat) : StoreM (Option Bytes) := do
  match ← perform (.read name) with
  | none => pure none
  | some data =>
      if data.length ≠ nbytes + trailer then pure none
      else if ← perform (.utime name) then pure (some (data.drop nbytes))
      else pure none

/-- `_hold_chunk`. -/
def holdChunk (name : Str) (nbytes : Nat) : StoreM (Option Bytes) := do
  update (Tables.pend name)
  match ← reuse name nbytes with
  | none => do
      update (Tables.unpend [name])
      pure none
  | some crc => do
      noteOwn name
      pure (some crc)

/-- `create_temp_file` in the chunk folder, which is made if it is not there. -/
def chunkTemp : StoreM Unit := do
  match ← perform .temp with
  | .done => pure ()
  | .failed => .raise .os
  | .notFound => do
      orRaise .own
      match ← perform .temp with
      | .done => pure ()
      | _ => .raise .os

/-- The writes of a pack's members to the temp file. -/
def writeMembers : Nat → List Bytes → StoreM Unit
  | _, [] => pure ()
  | offset, view :: rest => do
      if aligned offset ≠ 0 then orRaise .own
      orRaise .own
      orRaise .own
      writeMembers (offset + aligned offset + view.length + trailer) rest

/-- `_write_pack` up to the rename and the pack's mtime: the bytes that were there before. -/
def storePack (name : Str) (views : List Bytes) : StoreM Nat := do
  let before ← perform (.stat name)
  chunkTemp
  (do
    writeMembers 0 views
    orRaise (.replace (packBytes 0 views) name)).handle fun e => do
      let _ ← perform .own
      .raise e
  noteOwn name
  pure (before.elim 0 (·.size))

/-- What `_write_pack` returns. -/
structure Written where
  name : Str
  size : Nat
  added : Int
  placed : Places

/-- `_write_pack`. -/
def writePack (fresh : List (Digest × Bytes)) : StoreM Written := do
  let name ← perform (.packName (fresh.map (·.1)))
  update (Tables.pend name)
  let before ← (storePack name (fresh.map (·.2))).handle fun e => do
    update (Tables.unpend [name])
    .raise e
  let placed := packPlaces name 0 fresh
  update (Tables.learn name placed)
  let size := packEnd 0 (fresh.map (·.2.length))
  pure ⟨name, size, size - before, placed⟩

/-- The variables of `put_all`. -/
structure Put where
  /-- index, digest, crc32 -/
  refs : List (Nat × Digest × Bytes)
  places : Places
  files : Held
  fresh : List (Digest × Bytes)
  waiting : List (Nat × Digest)
  oldCrcs : List (Str × Bytes)

/-- The files held, with the stored file `name` among them; `none` when it is gone. -/
def holdFile (files : Held) (name : Str) : StoreM (Option Held) :=
  if name ∈ files.map (·.1) then pure (some files)
  else do
    match ← holdStored name with
    | none => pure none
    | some size => pure (some (Dict.setItem files name size))

/-- A buffer that is stored in a pack this process knows. -/
def usePlace (st : Put) (i : Nat) (view : Bytes) (digest : Digest) (place : Option Place) : StoreM (Option Put) :=
  match place with
  | none => pure none
  | some p =>
      if p.nbytes ≠ view.length then pure none
      else do
        match ← holdFile st.files p.name with
        | none => do
            update (Tables.forget p.name)
            pure none
        | some files =>
            pure (some { st with
              files := files
              refs := st.refs ++ [(i, digest, p.crc)]
              places := Dict.setItem st.places digest p })

/-- A buffer that is stored in a chunk file of its own. -/
def useChunk (st : Put) (i : Nat) (view : Bytes) (digest : Digest) : StoreM (Option Put) := do
  if ← locked fun t => (t.oldChunks, t) then
    let name := chunkName digest
    match (st.oldCrcs.find? fun p => p.1 = name).map (·.2) with
    | some crc => pure (some { st with refs := st.refs ++ [(i, digest, crc)] })
    | none => do
        match ← holdChunk name view.length with
        | none => pure none
        | some crc =>
            pure (some { st with
              files := Dict.setItem st.files name (view.length + trailer)
              oldCrcs := st.oldCrcs ++ [(name, crc)]
              refs := st.refs ++ [(i, digest, crc)] })
  else pure none

/-- A buffer to be written: `fresh.setdefault(digest, view)`. -/
def wait (st : Put) (i : Nat) (view : Bytes) (digest : Digest) : Put :=
  { st with
    fresh := if digest ∈ st.fresh.map (·.1) then st.fresh else st.fresh ++ [(digest, view)]
    waiting := st.waiting ++ [(i, digest)] }

def digestOf (view : Bytes) : Option Digest → StoreM Digest
  | some d => pure d
  | none => perform (.digest view)

/-- The body of the loop of `put_all`. -/
def putOne (st : Put) (i : Nat) (view : Bytes) (known : Option Digest) : StoreM Put := do
  let digest ← digestOf view known
  let place ← locked fun t => (t.places.lookup digest, t)
  match ← usePlace st i view digest place with
  | some st => pure st
  | none => do
      match ← useChunk st i view digest with
      | some st => pure st
      | none => pure (wait st i view digest)

def putEach : Put → Nat → List (Bytes × Option Digest) → StoreM Put
  | st, _, [] => pure st
  | st, i, (view, known) :: rest => do
      let st ← putOne st i view known
      putEach st (i + 1) rest

def placeOne (written : Places) (st : Put) (w : Nat × Digest) : Put :=
  match (written.find? fun p => p.1 = w.2).map (·.2) with
  | none => st
  | some p => { st with refs := st.refs ++ [(w.1, w.2, p.crc)], places := Dict.setItem st.places w.2 p }

/-- The buffers that waited, at their places in the new pack. -/
def placeWaiting (written : Places) (st : Put) : Put := st.waiting.foldl (placeOne written) st

/-- What `put_all` returns. -/
structure Stored where
  refs : List (Nat × Digest × Bytes)
  places : Places
  held : Held
  added : Int

/-- `put_all`. Nothing in its loop raises. -/
def putAll (views : List Bytes) (known : List (Option Digest)) : StoreM Stored := do
  let _ ← ensureIndex
  let st ← putEach ⟨[], [], [], [], [], []⟩ 0 (views.zip known)
  if st.fresh = [] then pure ⟨st.refs, st.places, st.files, 0⟩
  else do
    let w ← (writePack st.fresh).handle fun e => do
      let _ ← abandon st.files
      .raise e
    let st := placeWaiting w.placed { st with files := Dict.setItem st.files w.name w.size }
    pure ⟨st.refs, st.places, st.files, w.added⟩

/-! ## Making packs smaller -/

/-- The files held once the chunks in `old` are in `new`. -/
def movedHeld (old : Str) (new : Str × Nat) (held : Held) : Held :=
  if new.1 ∈ held.map (·.1) then held.filter fun h => h.1 ≠ old else held.map fun h => if h.1 = old then new else h

/-- Where a chunk is now; `none` when it was in `old` and was not moved. -/
def movedPlace (old : Str) (moved : Places) (p : Digest × Place) : Option (Digest × Place) :=
  if p.2.name = old then (moved.find? fun m => m.1 = p.1).map fun m => (p.1, m.2) else some p

/-- `moved_head` for the entry `e`: its new header and metadata. -/
def moveHead (conf : Conf) (e : EntryFile) (old : Str) (new : Str × Nat) (moved : Places) : Option EntryFile :=
  if e.split = false ∨ old ∉ e.held.map (·.1) then none
  else
    (e.places.mapM (movedPlace old moved)).bind fun places =>
      let e' := { e with held := movedHeld old new e.held, places := places }
      if e.cap < conf.metaLen e' then none else some e'

/-- `moved_head`. -/
def movedHead (conf : Conf) (stem old : Str) (new : Str × Nat) (moved : Places) : StoreM (Option EntryFile) := do
  match ← entryAt stem with
  | none => pure none
  | some e => pure (moveHead conf e old new moved)

/-- `_link_if_absent`. -/
def linkIfAbsent (ino : Nat) (stem : Str) : StoreM Bool := do
  match ← perform (.link ino stem) with
  | .done => pure true
  | .exists => pure false
  | .failed => .raise .os

/-- The entry taken away, where the folder has hard links. -/
def takeAway (stem : Str) : StoreM (Option Nat) := do
  if ← perform .own then
    if ← perform .own then
      if ← perform .own then perform (.takeAside stem) else pure none
    else pure none
  else pure none

/-- `_swap_if_same` once the aside name is there. -/
def swapAside (new : Nat) (stem : Str) (identity : Bytes × Flt) : StoreM Unit := do
  match ← takeAway stem with
  | none => .raise .replaced
  | some aside => do
      let there ← perform (.readFile aside)
      if there.map (·.identity) ≠ some identity then do
        let _ ← linkIfAbsent aside stem
        .raise .replaced
      else if ← linkIfAbsent new stem then pure ()
      else .raise .replaced

/-- `_swap_if_same`. -/
def swapIfSame (new : Nat) (stem : Str) (identity : Bytes × Flt) : StoreM Unit := do
  match ← perform .temp with
  | .done =>
      (swapAside new stem identity).ensuring do
        let _ ← perform .own
        let _ ← perform .own
  | _ => .raise .os

/-- The file `_repoint` writes: the new head, and the payload as it is at the entry's path. -/
def copyEntry (head : EntryFile) (stem : Str) : StoreM Nat := do
  orRaise .own
  match ← perform (.openEntry stem) with
  | none => .raise .os
  | some src => do
      match ← perform (.readFrom src (headerSize + head.cap)) with
      | none => .raise .os
      | some payload => do
          match ← perform (.tempFile { head with payload := payload }) with
          | none => .raise .os
          | some ino => pure ino

/-- Puts `head` in place of the entry's; false when another write replaced the entry. -/
def putHead (head : EntryFile) (stem : Str) : StoreM Bool := do
  match ← perform .temp with
  | .done =>
      (do
        let ino ← copyEntry head stem
        swapIfSame ino stem head.identity
        pure true).handle fun e => do
          let _ ← perform .own
          match e with
          | .replaced => pure false
          | e => .raise e
  | _ => .raise .os

/-- `_repoint`. -/
def repoint (conf : Conf) (stem old : Str) (new : Str × Nat) (planned placed : Places) : StoreM Bool := do
  if ← perform (.tryLock stem) then
    (do
      match ← movedHead conf stem old new planned with
      | none => pure false
      | some head => do
          if ← putHead head stem then
            if ← perform (.repoint stem old new.1 placed) then pure true else .raise .keyError
          else pure false).ensuring (perform (.unlock stem))
  else pure false

/-- How many of the holders were told. -/
def repointEach (conf : Conf) (old : Str) (new : Str × Nat) (planned placed : Places) : List Str → StoreM Nat
  | [] => pure 0
  | stem :: rest => do
      let told ← repoint conf stem old new planned placed
      let more ← repointEach conf old new planned placed rest
      pure (if told then more + 1 else more)

/-- Can every holder be told? -/
def canMoveAll (conf : Conf) (old : Str) (new : Str × Nat) (planned : Places) : List Str → StoreM Bool
  | [] => pure true
  | stem :: rest => do
      match ← movedHead conf stem old new planned with
      | none => pure false
      | some _ => canMoveAll conf old new planned rest

/-- Where each live chunk will be. -/
def plan (newName : Str) (offset : Nat) : Places → Places
  | [] => []
  | (digest, p) :: rest =>
      (digest, ⟨newName, offset + aligned offset, p.nbytes, p.crc⟩) ::
        plan newName (offset + aligned offset + p.nbytes + trailer) rest

/-- The live chunks as `_read_pack` wants them. -/
def asMembers (i : Nat) : Places → List Member
  | [] => []
  | (_, p) :: rest => ⟨i, p.offset, p.nbytes, p.crc⟩ :: asMembers (i + 1) rest

def raising {α : Type} (m : Io ReadErr α) : StoreM α :=
  match m.result with
  | .ok a => pure a
  | .error e => .raise (.read e)

/-- `_read_pack`. -/
def readPackFile (conf : Conf) (name : Str) (members : List Member) : StoreM (List (Nat × Bytes)) := do
  let file ← perform (.read name)
  raising (readPack conf.env (fun _ => file) name members)

/-- `{d: as_bytes(data[i]) for i, d in enumerate(members)}`; `none` when an index is missing. -/
def readBack (data : List (Nat × Bytes)) : Nat → Places → Option (List (Digest × Bytes))
  | _, [] => some []
  | i, (digest, _) :: rest => do
      let d ← data.find? fun p => p.1 = i
      let more ← readBack data (i + 1) rest
      pure ((digest, d.2) :: more)

/-- The new pack, no longer held by the rewrite. -/
def settle (w : Written) : StoreM Unit := do
  update fun t => { t with size := t.size.insert w.name w.size }
  update (Tables.unpend [w.name])

/-- `_rewrite`; `members` are the live chunks in the order of their offsets. -/
def rewrite (conf : Conf) (name newName : Str) (members : Places) (stems : List Str) : StoreM Int := do
  let planned := plan newName 0 members
  let newSize := packEnd 0 (members.map (·.2.nbytes))
  if ← canMoveAll conf name (newName, newSize) planned stems then
    let data ← readPackFile conf name (asMembers 0 members)
    let there ← perform (.stat newName)
    match readBack data 0 members with
    | none => .raise .keyError
    | some fresh => do
        let w ← writePack fresh
        let moved ← (repointEach conf name (w.name, w.size) planned w.placed stems).ensuring (settle w)
        if moved = 0 then
          if there.isSome then pure 0
          else do
            let _ ← drop [w.name]
            pure 0
        else do
          let freed ← drop [name]
          pure (freed - w.added)
  else pure 0

/-- `_claim`: has it been made? -/
def claim (name : Str) : StoreM Bool := do
  match ← perform (.create (name ++ claimSuffix)) with
  | .done => pure true
  | .failed => pure false
  | .exists => do
      -- One left by a crash is removed, and the pack is left for the next time.
      match ← perform (.stat (name ++ claimSuffix)) with
      | none => pure false
      | some st => do
          let now ← perform .time
          if st.mtime < now - orphanChunkAge then
            let _ ← perform (.remove (name ++ claimSuffix))
            pure false
          else pure false

def addLive (name : Str) (live : Places) (e : Sigma fun _ : Digest => Place) : Places :=
  if e.2.name = name then Dict.setItem live e.1 e.2 else live

/-- The live chunks with those the entry `s` places in the pack `name`. -/
def addLives (name : Str) (placed : List (Str × Dict Digest Place)) (live : Places) (s : Str) : Places :=
  match (placed.find? fun p => p.1 = s).map (·.2) with
  | none => live
  | some places => places.entries.foldl (addLive name) live

/-- The live chunks of the pack `name`: those its holders place there. -/
def liveChunks (name : Str) (stems : List Str) (placed : List (Str × Dict Digest Place)) : Places :=
  stems.foldl (addLives name placed) []

/-- `sorted(live, key=lambda d: live[d][1])`. -/
def sortLive (live : Places) : Places := live.insertionSort fun a b => a.2.offset ≤ b.2.offset

/-- What is kept of a pack, at most. -/
def keptBytes (live : Places) : Nat := (live.map fun p => p.2.nbytes + trailer + packAlign).sum

/-- `_compact_one`. -/
def compactOne (conf : Conf) (name : Str) : StoreM Int := do
  match ← locked fun t => (t.compactLook name, t) with
  | none => pure 0
  | some (placed, size) => do
      let stems ← perform (.iterate (placed.map (·.1)))
      let live := liveChunks name stems placed
      if live = [] ∨ 2 * size < 3 * keptBytes live then pure 0
      else do
        let members := sortLive live
        let newName ← perform (.packName (members.map (·.1)))
        if newName = name then pure 0
        else if ← claim name then
          (rewrite conf name newName members stems).ensuring do
            let _ ← perform (.remove (name ++ claimSuffix))
        else pure 0

/-- The body of the loop of `_compact`. -/
def compactTry (conf : Conf) (name : Str) : StoreM Int :=
  if name.endsWith packSuffix then (compactOne conf name).handle fun _ => pure 0 else pure 0

def compactEach (conf : Conf) : List Str → StoreM Int
  | [] => pure 0
  | name :: rest => do
      let freed ← compactTry conf name
      let more ← compactEach conf rest
      pure (freed + more)

/-- `_compact`. -/
def compact (conf : Conf) (names : List Str) : StoreM Int := do
  let order ← perform (.iterate names)
  compactEach conf order

/-! ## The operations -/

/-- `commit`. -/
def commit (conf : Conf) (stem : Str) (held : Held) (replaced : Option Held) (places : Places) : StoreM Int := do
  let gone ← perform (.commit stem held replaced places)
  let freed ← drop gone
  let more ← compact conf (gone ∪ (held.map (·.1)).dedup)
  pure (freed + more)

/-- `release`. -/
def release (conf : Conf) (stem : Str) (held : Option Held) : StoreM Int := do
  let before ← perform (.release stem held)
  let freed ← drop before
  let more ← compact conf before
  pure (freed + more)

/-- `damaged`. -/
def damaged (pack : Str) (offset : Nat) : StoreM (List Str) := do
  let _ ← ensureIndex
  locked fun t => (t.holdersAt pack offset, t.unplace pack offset)

def removeEach : List Str → StoreM Unit
  | [] => pure ()
  | name :: rest => do
      let _ ← perform (.remove name)
      removeEach rest

/-- `clear`. -/
def clear : StoreM Unit := do
  let now ← perform .time
  update (Tables.clear now)
  match ← perform .scan with
  | none => pure ()
  | some listed => removeEach (listed.filter inFolder)

end Cash.Store
