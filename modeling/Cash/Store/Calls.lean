import Cash.Chunks.Read
import Cash.Lib.Dict
import Cash.Entry.Read
import Cash.Lib.Prog

/-!
# The tables of a chunk store

What one process knows about the chunk folder: which entry holds which file, which files a write in flight
holds, and where each chunk is. The functions here are the sections of `ChunkStore` that run under its
lock. A `set` is a list; the program never depends on its order.
-/

namespace Cash.Store

open Bytes Py Chunks

/-- The files an entry holds: `(name, file bytes)`. -/
abbrev Held := List (Str × Nat)

/-- An entry's `chunk_places`. -/
abbrev Places := List (Digest × Place)

structure Tables where
  /-- entry stem -> the files it holds -/
  heldBy : Dict Str (List Str)
  /-- file -> the entries holding it -/
  holders : Dict Str (List Str)
  /-- file -> writes in flight that will hold it -/
  pending : Dict Str Nat
  /-- file -> its mtime as this process last wrote or touched it -/
  ownMtime : Dict Str Nat
  /-- file -> its bytes -/
  size : Dict Str Nat
  /-- digest -> where that chunk is in a pack -/
  places : Dict Digest Place
  /-- pack -> the digests `places` places in it -/
  inPack : Dict Str (List Digest)
  /-- entry stem -> where each of its chunks in a pack is -/
  placedBy : Dict Str (Dict Digest Place)
  /-- Does a known entry hold a `<digest>.chunk` file? -/
  oldChunks : Bool
  indexed : Bool
  indexedAt : Nat

/-- `_parse_places`. -/
def parsePlaces (places : Places) : Places := places.filter fun p => p.2.name.endsWith packSuffix

namespace Tables

/-- `ChunkStore.__init__`. -/
def new : Tables := ⟨∅, ∅, ∅, ∅, ∅, ∅, ∅, ∅, false, false, 0⟩

def holdersOf (t : Tables) (name : Str) : List Str := t.holders.getD name []

def heldOf (t : Tables) (stem : Str) : List Str := t.heldBy.getD stem []

/-- `name in self._holders or name in self._pending`. -/
def inUse (t : Tables) (name : Str) : Bool := decide (name ∈ t.holders) || decide (name ∈ t.pending)

/-! ## Writes in flight -/

/-- `self._pending[name] = self._pending.get(name, 0) + 1`. -/
def pend (name : Str) (t : Tables) : Tables := { t with pending := t.pending.insert name (t.pending.getD name 0 + 1) }

def unpendOne (pending : Dict Str Nat) (name : Str) : Dict Str Nat :=
  let left := pending.getD name 0 - 1
  if 0 < left then pending.insert name left else pending.erase name

/-- `_unpend_locked`. -/
def unpend (names : List Str) (t : Tables) : Tables := { t with pending := names.foldl unpendOne t.pending }

/-! ## Holders -/

/-- `holders.discard(stem)`, and the file goes from the table when no entry holds it. -/
def dropHolder (stem : Str) (holders : Dict Str (List Str)) (name : Str) : Dict Str (List Str) :=
  match holders.lookup name with
  | none => holders
  | some stems =>
      let left := stems.filter (· ≠ stem)
      if left = [] then holders.erase name else holders.insert name left

/-- `self._holders.setdefault(name, set()).add(stem)`. -/
def addHolder (stem : Str) (holders : Dict Str (List Str)) (name : Str) : Dict Str (List Str) :=
  holders.insert name ((holders.getD name []).insert stem)

/-- `_set_holder`. -/
def setHolder (stem : Str) (names before : List Str) (t : Tables) : Tables :=
  let dropped := (before.filter (· ∉ names)).foldl (dropHolder stem) t.holders
  { t with
    holders := names.foldl (addHolder stem) dropped
    heldBy := if names = [] then t.heldBy.erase stem else t.heldBy.insert stem names }

/-- `_set_placed`. -/
def setPlaced (stem : Str) (places : Places) (t : Tables) : Tables :=
  let parsed := parsePlaces places
  { t with
    placedBy := if parsed = [] then t.placedBy.erase stem else t.placedBy.insert stem (Dict.update ∅ parsed) }

/-! ## Places -/

/-- `_learn`. -/
def learn (name : Str) (placed : Places) (t : Tables) : Tables :=
  { t with
    inPack := t.inPack.insert name (t.inPack.getD name [] ∪ placed.map (·.1))
    places := t.places.update placed }

/-- `_forget`. -/
def forget (name : Str) (t : Tables) : Tables :=
  let gone := (t.inPack.getD name []).filter fun d => (t.places.lookup d).map (·.name) = some name
  { t with inPack := t.inPack.erase name, places := gone.foldl (fun places d => places.erase d) t.places }

def unplaceOne (pack : Str) (t : Tables) (e : Sigma fun _ : Digest => Place) : Tables :=
  { t with
    places := t.places.erase e.1
    inPack :=
      match t.inPack.lookup pack with
      | none => t.inPack
      | some digests => t.inPack.insert pack (digests.filter (· ≠ e.1)) }

/-- The section of `damaged`: this process places nothing at `offset` in `pack` any more. -/
def unplace (pack : Str) (offset : Nat) (t : Tables) : Tables :=
  (t.places.entries.filter fun e => e.2.name = pack ∧ e.2.offset = offset).foldl (unplaceOne pack) t

/-- The entries known to hold the chunk at `offset` in `pack`. -/
def holdersAt (t : Tables) (pack : Str) (offset : Nat) : List Str :=
  (t.placedBy.entries.filter fun e => e.2.entries.any fun p => p.2.name = pack && p.2.offset == offset).map (·.1)

/-! ## The sections of the operations -/

/-- `commit`: the files its entry held before and does not any more are answered. -/
def commit (stem : Str) (held : Held) (replaced : Option Held) (places : Places) (t : Tables) : List Str × Tables :=
  let names := (held.map (·.1)).dedup
  let t := { t with size := t.size.update held }
  let t := t.unpend (held.map (·.1))
  let before := (t.heldBy.lookup stem).getD ((replaced.getD []).map (·.1)).dedup
  (before.filter (· ∉ names), (t.setHolder stem names before).setPlaced stem places)

/-- `release`: the files its entry held are answered. -/
def release (stem : Str) (held : Option Held) (t : Tables) : List Str × Tables :=
  let before := (t.heldBy.lookup stem).getD ((held.getD []).map (·.1)).dedup
  let t := t.setHolder stem [] before
  (before, { t with placedBy := t.placedBy.erase stem })

/-- `placed.setdefault(place[0], {})[digest] = place`. -/
def addPlace (placed : List (Str × Places)) (p : Digest × Place) : List (Str × Places) :=
  match placed with
  | [] => [(p.2.name, [p])]
  | (name, ps) :: rest => if name = p.2.name then (name, ps ++ [p]) :: rest else (name, ps) :: addPlace rest p

/-- What `ensure_index` found in one entry. -/
structure Found where
  stem : Str
  held : Held
  places : Places

/-- `ensure_index` for one entry, unless this process knows it. -/
def indexEntry (t : Tables) (f : Found) : Tables :=
  if f.stem ∈ t.heldBy then t
  else (t.setHolder f.stem (f.held.map (·.1)).dedup []).setPlaced f.stem f.places

/-- `self._size.setdefault(name, size)` for each item. -/
def setDefaults (sizes found : Dict Str Nat) : Dict Str Nat :=
  found.entries.foldl (fun sizes e => if e.1 ∈ sizes then sizes else sizes.insert e.1 e.2) sizes

/-- The places of all entries, those of one pack together. -/
def placesByPack (found : List Found) : List (Str × Places) :=
  (found.flatMap fun f => parsePlaces f.places).foldl addPlace []

def learnAll (placed : List (Str × Places)) (t : Tables) : Tables := placed.foldl (fun t p => t.learn p.1 p.2) t

def indexAll (found : List Found) (t : Tables) : Tables := found.foldl indexEntry t

/-- The section of `ensure_index`; false when another thread was first. -/
def index (started : Nat) (found : List Found) (t : Tables) : Bool × Tables :=
  if t.indexed then (false, t)
  else
    let sizes := found.flatMap (·.held)
    (true, { indexAll found (learnAll (placesByPack found) { t with size := setDefaults t.size (Dict.update ∅ sizes) }) with
      oldChunks := t.oldChunks || sizes.any fun s => s.1.endsWith chunkSuffix
      indexedAt := started
      indexed := true })

/-- The section at the end of `_repoint`; false when it raises (a chunk of `old` that was not moved). -/
def repoint (stem old new : Str) (placed : Places) (t : Tables) : Bool × Tables :=
  let held := t.heldOf stem
  let t := t.setHolder stem (held.filter (· ≠ old) |>.insert new) held
  let before := t.placedBy.getD stem ∅
  let moved := Dict.update ∅ placed
  if before.entries.all fun e => e.2.name ≠ old || decide (e.1 ∈ moved) then
    let after := before.entries.map fun e => (e.1, if e.2.name = old then (moved.lookup e.1).getD e.2 else e.2)
    (true, { t with placedBy := t.placedBy.insert stem (Dict.update ∅ after) })
  else (false, t)

/-- What `_compact_one` looks up: the holders of the pack with their places, and its size; `none` when it is
left alone. -/
def compactLook (name : Str) (t : Tables) : Option (List (Str × Dict Digest Place) × Nat) :=
  let stems := t.holdersOf name
  if stems = [] ∨ name ∈ t.pending then none
  else (stems.mapM fun s => (t.placedBy.lookup s).map fun places => (s, places)).map (·, t.size.getD name 0)

/-- The section of `clear`. -/
def clear (now : Nat) (t : Tables) : Tables :=
  { t with
    heldBy := ∅, holders := ∅, ownMtime := ∅, size := ∅, places := ∅, inPack := ∅
    indexed := true, indexedAt := now }

end Tables

/-!
## The calls of a chunk store

An entry file as the store sees it, and the calls its operations make: a section under the lock, and one
call of the file system each for everything that another thread or process could see between two others.
A temp file is its writer's alone until it is renamed or linked, so its content travels with the call that
does so.
-/

section

open Entry

/-- An entry file: its header, its metadata, and its payload. -/
structure EntryFile where
  /-- The magic is `MAGIC_SPLIT`. -/
  split : Bool
  /-- The room for the metadata. -/
  cap : Nat
  /-- `chunks` in the metadata. -/
  held : Held
  /-- `chunk_places` in the metadata. -/
  places : Places
  /-- The payload's checksum and `created_at`: the `entry_identity`. -/
  crc : Bytes
  createdAt : Flt
  /-- Every other field of the metadata. -/
  fields : Items
  payload : Bytes

def EntryFile.identity (e : EntryFile) : Bytes × Flt := (e.crc, e.createdAt)

/-- The interpreter and `len(pickle.dumps(metadata))`. -/
structure Conf where
  env : Env
  metaLen : EntryFile → Nat

/-- What a stat tells. -/
structure Stat where
  size : Nat
  mtime : Nat
deriving DecidableEq, Repr

/-- How a call went that makes a name for a file. -/
inductive Made
  | done
  | exists
  | failed
deriving DecidableEq, Repr

/-- How a call went that may find nothing there. -/
inductive Outcome
  | done
  | notFound
  | failed
deriving DecidableEq, Repr

inductive Op : Type → Type 1
  /-- A section under the store's lock, or a read of one of its variables. -/
  | locked {α : Type} (f : Tables → α × Tables) : Op α
  /-- The sections that say which files an entry holds: those of `commit`, `release` and `_repoint`. -/
  | commit (stem : Str) (held : Held) (replaced : Option Held) (places : Places) : Op (List Str)
  | release (stem : Str) (held : Option Held) : Op (List Str)
  | repoint (stem old new : Str) (placed : Places) : Op Bool
  /-- A loop over a set: its elements in some order. -/
  | iterate (names : List Str) : Op (List Str)
  | time : Op Nat
  /-- `bulk_digest`. -/
  | digest (view : Bytes) : Op Digest
  /-- `pack_name`. -/
  | packName (members : List Digest) : Op Str
  /-- `os.stat` of a file in the chunk folder; `none` is an `OSError`, here and below. -/
  | stat (name : Str) : Op (Option Stat)
  | utime (name : Str) : Op Bool
  | remove (name : Str) : Op Bool
  /-- A file of the chunk folder, opened and read. -/
  | read (name : Str) : Op (Option Bytes)
  | scan : Op (Option (List Str))
  /-- `os.path.isdir` of the chunk folder. -/
  | isDir : Op Bool
  /-- `create_temp_file`. -/
  | temp : Op Outcome
  /-- Another call on a temp file of the caller's own. -/
  | own : Op Bool
  /-- A temp file with these bytes renamed to `name`. -/
  | replace (data : Bytes) (name : Str) : Op Bool
  /-- `os.open(name, O_CREAT | O_EXCL)` in the chunk folder. -/
  | create (name : Str) : Op Made
  | entryFiles : Op (List Str)
  | statEntry (stem : Str) : Op (Option Nat)
  /-- A handle on the file that is at the entry's path. -/
  | openEntry (stem : Str) : Op (Option Nat)
  /-- The header and the metadata, through a handle; `none` when it is no whole entry. -/
  | readFile (ino : Nat) : Op (Option EntryFile)
  /-- The bytes from `start` on, through a handle. -/
  | readFrom (ino start : Nat) : Op (Option Bytes)
  /-- A temp file with this content, beside the entries. -/
  | tempFile (file : EntryFile) : Op (Option Nat)
  /-- The entry's file renamed to a name of the caller's own. -/
  | takeAside (stem : Str) : Op (Option Nat)
  /-- `os.link`. -/
  | link (ino : Nat) (stem : Str) : Op Made
  /-- `os.open(path, O_CREAT | O_EXCL)` of an entry; the handle of the new file. -/
  | createEntry (stem : Str) : Op (Except Made Nat)
  /-- The payload and then the header of a new entry, through its handle. -/
  | writeFile (ino : Nat) (file : EntryFile) : Op Bool
  | replaceEntry (ino : Nat) (stem : Str) : Op Bool
  | removeEntry (stem : Str) : Op Outcome
  /-- The entry's lock: taken, taken if it is free, let go. -/
  | lock (stem : Str) : Op Unit
  | tryLock (stem : Str) : Op Bool
  | unlock (stem : Str) : Op Unit

/-- What an operation raises. -/
inductive Exn
  | os
  | notFound
  | replaced
  | keyError
  | read (e : ReadErr)

abbrev StoreM (α : Type) : Type 1 := Prog Op Exn α

def locked {α : Type} (f : Tables → α × Tables) : StoreM α := .perform (.locked f)

/-- A section that answers nothing. -/
def update (f : Tables → Tables) : StoreM Unit := .perform (.locked fun t => ((), f t))

def perform {α : Type} (op : Op α) : StoreM α := .perform op

/-- A call that raises an `OSError` when it fails. -/
def orRaise (op : Op Bool) : StoreM Unit := do
  if ← perform op then pure () else .raise .os

end

end Cash.Store
