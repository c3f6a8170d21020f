import Cash.Tiered.Ram

/-!
# `TieredBackend` over the RAM tier and one slower tier

`TieredBackend([InMemoryBackend, slower])` in one process, the slower tier a `FileBackend`, a
`SQLiteBackend` or an `S3Backend`. `set`, `get`, `delete` and `persist_from_memory` follow the source;
what they read off the value, the clock or the machine is an input of the call.

The slower tier writes in the background: a write is queued by `set` and lands, or fails, later
(`Op.land`). A removal of a key, and a read that the RAM tier does not serve, wait for the writes queued
for it, so they are no step of the system while one is queued (`step` is `none`).
-/

namespace Cash.Tiered

/-! ## The slower tier -/

inductive SlowKind
  | file
  | sqlite
  | s3
deriving DecidableEq, Repr

/-- An entry of the slower tier: the value and the metadata it was written with. -/
structure SlowEntry (K V : Type) where
  value : V
  metadata : Meta K
deriving DecidableEq, Repr

/-- The slower tier. -/
structure Slow (K V : Type) [DecidableEq K] where
  kind : SlowKind
  entries : Dict K (SlowEntry K V)
  /-- The dict a `FileBackend` remembers per key (`TouchedEntries`), which its `get` hands out. -/
  touched : Dict K Ref
  /-- The writes not yet on disk, oldest first (`PendingWrites`). -/
  queue : List (K × SlowEntry K V)
  /-- `promotion_size_cap()`. -/
  cap : Option Nat

/-- How the tiered backend hands a value to the slower tier. -/
inductive How
  /-- The value itself: serialized before `set` returns. -/
  | plain
  /-- `private=True`: a copy of cash's own, serialized by the writer. -/
  | «private»
  /-- `serialized=`: the bytes to write. -/
  | serialized
deriving DecidableEq, Repr

/-- What one call of the slower tier's `set` meets. -/
structure SlowWrite where
  /-- Nothing is written: the directory or the database could not be opened. -/
  unusable : Bool
  /-- Serializing the value on the calling thread raised. -/
  raises : Bool
  /-- `FileBackend` ignores `serialized=`: it compresses, or the serializer is not pickle. -/
  ignoresSerialized : Bool
  /-- The bytes the value serializes to. -/
  nbytes : Nat
  /-- The size the background write records in the entry (after compression, with the padding). -/
  written : Nat

namespace SlowKind

/-- `takes_private_values`. -/
def takesPrivateValues : SlowKind → Bool
  | .file => true
  | .sqlite => false
  | .s3 => false

/-- Does the tier's `set` assign `metadata["size"]`? `SQLiteBackend` and `S3Backend` always do,
`FileBackend` only for a value it serializes on the calling thread. -/
def assignsSize (k : SlowKind) (how : How) (w : SlowWrite) : Bool :=
  match k, how with
  | .file, .private => false
  | .file, .serialized => w.ignoresSerialized
  | _, _ => true

end SlowKind

namespace Slow

variable {K V : Type} [DecidableEq K]

/-- Is a write of the key queued? -/
def pending (s : Slow K V) (key : K) : Bool := s.queue.any fun p => p.1 = key

/-- `set`, on the calling thread; true when it raised. -/
def set (h : Heap K) (s : Slow K V) (key : K) (value : V) (metadata : Ref) (how : How) (w : SlowWrite) :
    Bool × Heap K × Slow K V :=
  if w.unusable then (false, h, s)
  else
    let h := h.setKey metadata key
    if s.kind.assignsSize how w && w.raises then (true, h, s)
    else
      let h := if s.kind.assignsSize how w then h.setSize metadata w.nbytes else h
      let entry : SlowEntry K V := ⟨value, { h.dict metadata with size := some w.written }⟩
      (false, h, { s with queue := s.queue ++ [(key, entry)] })

/-- The first queued write ends: it is on disk, and a `FileBackend` remembers the dict it was written
from; or it failed, and what was there before is still there. -/
def land (h : Heap K) (s : Slow K V) (ok : Bool) : Heap K × Slow K V :=
  match s.queue with
  | [] => (h, s)
  | (key, entry) :: rest =>
      if ok then
        match s.kind with
        | .file =>
            (h.alloc entry.metadata,
              { s with
                entries := s.entries.insert key entry
                touched := s.touched.insert key h.next
                queue := rest })
        | _ => (h, { s with entries := s.entries.insert key entry, queue := rest })
      else (h, { s with queue := rest })

/-- The entry is removed (`delete`, an eviction, an expiry); when the file cannot be removed it stays,
with what is remembered about it. -/
def remove (s : Slow K V) (key : K) (fails : Bool) : Slow K V :=
  if fails then s else { s with entries := s.entries.erase key, touched := s.touched.erase key }

/-- `get`: the entry and the dict it comes with. A `FileBackend` hands out the dict it remembers, or
remembers the one it read; the others unpickle a new one. -/
def get (h : Heap K) (s : Slow K V) (key : K) : Option (SlowEntry K V × Ref) × Heap K × Slow K V :=
  match s.entries.lookup key with
  | none => (none, h, s)
  | some entry =>
      match s.kind, s.touched.lookup key with
      | .file, some r => (some (entry, r), h, s)
      | .file, none =>
          (some (entry, h.next), h.alloc entry.metadata, { s with touched := s.touched.insert key h.next })
      | _, _ => (some (entry, h.next), h.alloc entry.metadata, s)

end Slow

/-! ## The tiered backend -/

/-- The state of the tiered backend. -/
structure State (K V : Type) [DecidableEq K] where
  heap : Heap K
  ram : Ram K V
  slow : Slow K V
  /-- `_read_once`. -/
  readOnce : List K

/-- What the persistence policy and the two tiers make of one call of `TieredBackend.set`. -/
structure SetInput (K V : Type) where
  key : K
  value : V
  /-- The caller's metadata, copied into a dict of its own. -/
  metadata : Meta K
  /-- `_goes_to_disk_alone(value)`: the RAM tier would copy 64 MB or more of it. -/
  big : Bool
  /-- `memory_footprint(value)`. -/
  footprint : Nat
  /-- The first tier's `set`. -/
  ram : RamWrite K
  /-- `decision.persist`. -/
  persist : Bool
  /-- `decision.skipped == "bytes"`. -/
  bytesSkipped : Bool
  /-- `metadata["call_refs"]`, with the write each meets if it is persisted now (`unusable` for one that is
  persisted already, over a cap, or may share a part with the caller's value). -/
  callRefs : List (K × SlowWrite)
  /-- An entry never refers to itself. -/
  callRefs_ne : ∀ p ∈ callRefs, p.1 ≠ key
  /-- `metadata["cost_model_size_bytes"]`. -/
  costModelSize : Nat
  /-- The first tier has a copy of cash's own to give, or makes one. -/
  «private» : Bool
  /-- The first tier keeps the value as the bytes the slower tier writes. -/
  serialized : Bool
  /-- The size probe of a value over the cap made the bytes to write. -/
  probed : Bool
  /-- What the size probe found. -/
  trueSize : Option Nat
  /-- The slower tier's `set`. -/
  slow : SlowWrite

/-- What one call of `TieredBackend.get` meets. -/
structure GetInput (K : Type) where
  /-- The RAM tier's read raised. -/
  ramRaises : Bool
  /-- The RAM tier cannot serve what it holds: dropped, and a miss there. -/
  ramUnservable : Bool
  /-- The RAM tier served the value and dropped it as no faster than computing it. -/
  ramSlow : Bool
  /-- The RAM copy outlived its ttl. -/
  ramExpired : Bool
  /-- The slower tier's read raised. -/
  slowRaises : Bool
  /-- The slower tier's entry cannot be read or rebuilt: a miss there. -/
  slowUnreadable : Bool
  /-- The slower tier's entry outlived its ttl. -/
  slowExpired : Bool
  /-- The restore proved no faster than computing the value: removed, handed out this once. -/
  slowSlow : Bool
  /-- The slower tier cannot remove the entry. -/
  removeFails : Bool
  /-- `promote` finds the value cheap to keep. -/
  cheap : Bool
  /-- The promotion's `set`. -/
  ram : RamWrite K

namespace State

variable {K V : Type} [DecidableEq K]

/-- `write_first_tier`, with how it ended. -/
def writeFirstTier (s : State K V) (key : K) (value : V) (metadata : Ref) (w : RamWrite K) :
    RamResult × State K V :=
  let (result, heap, ram) := s.ram.set s.heap key value metadata w
  (result, { s with heap, ram })

/-- `_write_from_memory` for the entry the RAM tier holds: the slower tier gets the tier's own value with
a copy of its metadata. -/
def writeFromMemory (s : State K V) (key : K) (w : SlowWrite) : State K V :=
  match s.ram.store.lookup key with
  | none => s
  | some e =>
      let metadata := s.heap.next
      let heap := s.heap.alloc (s.heap.dict e.metadata)
      let (_, heap, slow) := s.slow.set heap key e.value metadata .plain w
      { s with heap, slow }

/-- `_drop_persisted_call_refs`. -/
def dropCallRefs (s : State K V) (refs : List (K × SlowWrite)) : State K V :=
  { s with slow := refs.foldl (fun slow p => slow.remove p.1 false) s.slow }

/-- `_persist_call_refs`. -/
def persistCallRefs (s : State K V) (refs : List (K × SlowWrite)) : State K V :=
  refs.foldl (fun s p => s.writeFromMemory p.1 p.2) s

/-- How the slower tier is handed the value in `_write_persistent_tiers`, or `none` when it is over the
tier's cap. `serialized`, `private`: what `set` passed. -/
def handOver (slow : Slow K V) (capSize : Nat) (serialized isPrivate : Bool) (inp : SetInput K V) : Option How :=
  let serialized? : Option Bool :=
    match slow.cap with
    | none => some serialized
    | some cap =>
        if capSize = 0 ∨ capSize ≤ cap then some serialized
        else
          match inp.trueSize with
          | some n => if n ≤ cap then some (serialized || inp.probed) else none
          | none => none
  serialized?.map fun serialized =>
    if serialized && slow.kind.takesPrivateValues then .serialized
    else if isPrivate && slow.kind.takesPrivateValues then .private
    else .plain

/-- `_write_persistent_tiers`; true when the slower tier took the entry. -/
def writePersistentTiers (s : State K V) (metadata : Ref) (serialized isPrivate : Bool) (inp : SetInput K V) :
    Bool × State K V :=
  let size := s.heap.size metadata
  let capSize := if size = 0 then inp.costModelSize else size
  match handOver s.slow capSize serialized isPrivate inp with
  | none => (false, s)
  | some how =>
      let (raised, heap, slow) := s.slow.set s.heap inp.key inp.value metadata how inp.slow
      (!raised, { s with heap, slow })

/-- The call entries the statement refers to: dropped when it was refused for its bytes, written when it
is persisted. -/
def settleCallRefs (s : State K V) (inp : SetInput K V) : State K V :=
  let s := if inp.bytesSkipped then s.dropCallRefs inp.callRefs else s
  if inp.persist then s.persistCallRefs inp.callRefs else s

/-- `set` once the first tier had its turn: the slower tier's part. `diskAlone`: the first tier was
passed over. -/
def persistPart (s : State K V) (metadata : Ref) (diskAlone : Bool) (inp : SetInput K V) : State K V :=
  let s := s.settleCallRefs inp
  if inp.persist then
    if diskAlone then
      -- An older RAM copy is not served over the one on disk.
      let s := { s with
        heap := s.heap.setDiskAlone metadata true
        ram := s.ram.drop (s.heap.setDiskAlone metadata true) inp.key }
      let (stored, s) := s.writePersistentTiers metadata false false inp
      if stored then s
      else
        let s := { s with heap := s.heap.setDiskAlone metadata false }
        (s.writeFirstTier inp.key inp.value metadata inp.ram).2
    else (s.writePersistentTiers metadata inp.serialized inp.private inp).2
  else if diskAlone then (s.writeFirstTier inp.key inp.value metadata inp.ram).2
  else s

/-- `set`. -/
def set (s : State K V) (inp : SetInput K V) : State K V :=
  let metadata := s.heap.next
  let s := { s with heap := s.heap.alloc inp.metadata }
  if inp.big then
    let s := if s.heap.size metadata = 0 then { s with heap := s.heap.setSize metadata inp.footprint } else s
    s.persistPart metadata true inp
  else
    let (result, s) := s.writeFirstTier inp.key inp.value metadata inp.ram
    -- Rebuilding the value would write a file: not stored on disk either.
    if result = .raised true then s else s.persistPart metadata false inp

/-- The RAM tier's part of `get`: what it served. -/
def readRam (s : State K V) (key : K) (inp : GetInput K) : Option V × State K V :=
  match s.ram.store.lookup key with
  | none => (none, s)
  | some e =>
      if inp.ramRaises then (none, s)
      else if inp.ramUnservable then (none, { s with ram := s.ram.drop s.heap key })
      else if inp.ramExpired then (none, { s with ram := s.ram.drop s.heap key })
      else
        let s := if inp.ramSlow then { s with ram := s.ram.drop s.heap key } else s
        (some e.value, { s with readOnce := s.readOnce.erase key })

/-- The promotion of a value read from the slower tier with its dict `metadata`. -/
def promote (s : State K V) (key : K) (value : V) (metadata : Ref) (inp : GetInput K) : State K V :=
  let readBefore := decide (key ∈ s.readOnce)
  let s := { s with readOnce := s.readOnce.erase key }
  if (s.heap.dict metadata).diskAlone then s
  else if readBefore then (s.writeFirstTier key value metadata inp.ram).2
  else if !inp.cheap then { s with readOnce := s.readOnce ++ [key] }
  else
    let (result, s) := s.writeFirstTier key value metadata inp.ram
    if result = .refused then { s with readOnce := s.readOnce ++ [key] } else s

/-- The slower tier's part of `get`. -/
def readSlow (s : State K V) (key : K) (inp : GetInput K) : Option V × State K V :=
  if inp.slowRaises || inp.slowUnreadable then (none, s)
  else
    match s.slow.get s.heap key with
    | (none, heap, slow) => (none, { s with heap, slow })
    | (some (entry, metadata), heap, slow) =>
        if inp.slowExpired then (none, { s with heap, slow := slow.remove key inp.removeFails })
        else
          let slow := if inp.slowSlow then slow.remove key inp.removeFails else slow
          (some entry.value, ({ s with heap, slow } : State K V).promote key entry.value metadata inp)

/-- `get`: the value, or `none` for a miss. -/
def get (s : State K V) (key : K) (inp : GetInput K) : Option V × State K V :=
  match s.readRam key inp with
  | (some value, s) => (some value, s)
  | (none, s) => s.readSlow key inp

/-- `delete`. -/
def delete (s : State K V) (key : K) (fails : Bool) : State K V :=
  { s with ram := s.ram.drop s.heap key, slow := s.slow.remove key fails }

end State

/-! ## Runs -/

/-- One step of the system. -/
inductive Op (K V : Type)
  | set (inp : SetInput K V)
  | get (key : K) (inp : GetInput K)
  /-- `fails`: the slower tier cannot remove its entry. -/
  | delete (key : K) (fails : Bool)
  /-- `persist_from_memory`, when the policy keeps the entry. -/
  | persist (key : K) (w : SlowWrite)
  /-- The RAM tier gives up an entry. -/
  | evictRam (key : K)
  /-- The slower tier gives up an entry (its byte cap, a superseded version). -/
  | evictSlow (key : K)
  /-- The oldest queued write ends. -/
  | land (ok : Bool)

variable {K V : Type} [DecidableEq K]

/-- One step: the new state, and what a `get` returned. `none` while the call waits for a queued write. -/
def step (s : State K V) : Op K V → Option (State K V × Option V)
  | .set inp =>
      if inp.bytesSkipped && inp.callRefs.any fun p => s.slow.pending p.1 then none else some (s.set inp, none)
  | .get key inp =>
      if (s.readRam key inp).1.isNone && s.slow.pending key then none else some ((s.get key inp).2, (s.get key inp).1)
  | .delete key fails => if s.slow.pending key then none else some (s.delete key fails, none)
  | .persist key w => some (s.writeFromMemory key w, none)
  | .evictRam key => some ({ s with ram := s.ram.drop s.heap key }, none)
  | .evictSlow key => if s.slow.pending key then none else some ({ s with slow := s.slow.remove key false }, none)
  | .land ok =>
      let (heap, slow) := s.slow.land s.heap ok
      some ({ s with heap, slow }, none)

/-- A tiered backend nothing was stored in. -/
def State.empty (kind : SlowKind) (cap maxEntries maxSizeBytes : Option Nat) : State K V where
  heap := ⟨fun _ => ⟨none, none, false⟩, 0⟩
  ram := ⟨∅, 0, maxEntries, maxSizeBytes⟩
  slow := ⟨kind, ∅, ∅, [], cap⟩
  readOnce := []

end Cash.Tiered
