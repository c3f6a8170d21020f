import Cash.Lib.Dict

/-!
# Streams

The iterator results of one cache key while they stream into the backend (`ResultStore.stream_and_store`). Any
number of streams are under way; a step is what one of them does between two moments at which another can act.
A stream is known by the id it drew, and its chunk `k` is stored under the id and `k` (`chunk_prefix`).
-/

namespace Cash.Streams

variable {α β : Type}

/-- Why a stored value reached only RAM (`not_persisted_reason`). -/
inductive Reason
  | size | processLocal | shared
deriving DecidableEq, Repr

/-- What the decorator was given, and `estimate_object_size`. -/
structure Spec (α : Type) where
  chunkMaxItems : Nat
  chunkMaxBytes : Nat
  estimateObjectSize : α → Nat

/-- `_ChunkStream`. -/
structure ChunkStream (α : Type) where
  buffer : List α
  bufferBytes : Nat
  /-- Chunks written so far, the ones to drop if the stream is abandoned. -/
  written : Nat
  totalItems : Nat
  notPersisted : Option Reason

/-- The entry at the cache key; `returnValue` is left out for `None`. -/
structure Manifest (β : Type) where
  chunkStream : Nat
  nChunks : Nat
  totalItems : Nat
  returnValue : Option β

abbrev Chunks (α : Type) := Dict (Nat × Nat) (List α)

/-- Where a stream stands. -/
inductive Phase
  /-- In `next(source)` or at the `yield`. -/
  | producing
  /-- The open chunk is full. -/
  | flushing
  /-- The source is exhausted: the checks of `_finish_stream`. -/
  | exhausted
  | finished (nChunks : Nat)
  | replacing (nChunks : Nat) (replaced : Option (Nat × Nat))
  /-- Dropping the chunks of the manifest it replaced, from `next` on. -/
  | cleaning (stream nChunks next : Nat)
  | stored
  | refused
  /-- Dropping its own chunks, from `next` on. -/
  | dropping (next : Nat)
  | dropped
deriving DecidableEq, Repr

structure Stream (α β : Type) where
  chunks : ChunkStream α
  /-- The items the source has given. -/
  produced : List α
  /-- What the source returned, once it ran to exhaustion. -/
  returned : Option (Option β)
  phase : Phase

def Stream.begin : Stream α β := ⟨⟨[], 0, 0, 0, none⟩, [], none, .producing⟩

/-- The backend, and the streams. -/
structure World (α β : Type) where
  manifest : Option (Manifest β)
  chunks : Chunks α
  streams : Dict Nat (Stream α β)

def World.start : World α β := ⟨none, ∅, ∅⟩

def World.setStream (s : World α β) (i : Nat) (st : Stream α β) : World α β :=
  { s with streams := s.streams.insert i st }

/-! ## What a stream does -/

/-- `_buffer_item`, up to the flush. -/
def ChunkStream.bufferItem (spec : Spec α) (c : ChunkStream α) (item : α) : ChunkStream α :=
  { c with
    buffer := c.buffer ++ [item]
    bufferBytes := c.bufferBytes + spec.estimateObjectSize item
    totalItems := c.totalItems + 1 }

/-- The open chunk is full. -/
def ChunkStream.isFull (spec : Spec α) (c : ChunkStream α) : Prop :=
  spec.chunkMaxItems ≤ c.buffer.length ∨ spec.chunkMaxBytes ≤ c.bufferBytes

instance (spec : Spec α) (c : ChunkStream α) : Decidable (c.isFull spec) :=
  inferInstanceAs (Decidable (_ ∨ _))

/-- `_flush_chunk`: `chunks.not_persisted or self._write_one_chunk(…)`, where `verdict` is what a write of the
chunk reports. -/
def flushChunk (chunks : Chunks α) (i : Nat) (c : ChunkStream α) (verdict : Option Reason) :
    Chunks α × ChunkStream α :=
  match c.notPersisted with
  | some _ => (chunks, { c with buffer := [], bufferBytes := 0, written := c.written + 1 })
  | none => (chunks.insert (i, c.written) c.buffer,
      { c with notPersisted := verdict, buffer := [], bufferBytes := 0, written := c.written + 1 })

/-- The last chunk, and the number of chunks the manifest names (`_finish_stream`). -/
def lastChunk (chunks : Chunks α) (i : Nat) (c : ChunkStream α) (verdict : Option Reason) :
    Chunks α × ChunkStream α × Nat :=
  if c.written = 0 then
    if c.buffer = [] then (chunks, c, 0)
    else (chunks.insert (i, 0) c.buffer, { c with notPersisted := verdict }, 1)
  else if c.buffer = [] then (chunks, c, c.written)
  else
    let flushed := flushChunk chunks i c verdict
    (flushed.1, flushed.2, flushed.2.written)

/-- `_replaced_stream`. -/
def replacedStream (manifest : Option (Manifest β)) (i : Nat) : Option (Nat × Nat) :=
  match manifest with
  | some m => if m.chunkStream = i then none else some (m.chunkStream, m.nChunks)
  | none => none

/-- What follows the write of the manifest. -/
def afterManifest : Option (Nat × Nat) → Phase
  | some (stream, nChunks) => .cleaning stream nChunks 0
  | none => .stored

/-- A step calls `_flush_chunk` for the stream, or not. -/
inductive Label
  | flush (i : Nat)
  | other
deriving DecidableEq, Repr

inductive Step (spec : Spec α) (s : World α β) : Label → World α β → Prop
  | start {i : Nat} : s.streams.lookup i = none → Step spec s .other (s.setStream i .begin)
  | item {i : Nat} {st : Stream α β} (x : α) : s.streams.lookup i = some st → st.phase = .producing →
      Step spec s .other (s.setStream i { st with
        chunks := st.chunks.bufferItem spec x
        produced := st.produced ++ [x]
        phase := if (st.chunks.bufferItem spec x).isFull spec then .flushing else .producing })
  | flush {i : Nat} {st : Stream α β} (verdict : Option Reason) : s.streams.lookup i = some st →
      st.phase = .flushing →
      Step spec s (.flush i) ({ s with chunks := (flushChunk s.chunks i st.chunks verdict).1 }.setStream i { st with
        chunks := (flushChunk s.chunks i st.chunks verdict).2
        phase := .producing })
  | exhaust {i : Nat} {st : Stream α β} (returned : Option β) : s.streams.lookup i = some st →
      st.phase = .producing →
      Step spec s .other (s.setStream i { st with returned := some returned, phase := .exhausted })
  -- The caller closes the stream, the source raises, or a check after the call does.
  | fail {i : Nat} {st : Stream α β} : s.streams.lookup i = some st →
      st.phase = .producing ∨ st.phase = .exhausted →
      Step spec s .other (s.setStream i { st with phase := .dropping 0 })
  | dropOrphan {i k : Nat} {st : Stream α β} : s.streams.lookup i = some st → st.phase = .dropping k →
      k < st.chunks.written →
      Step spec s .other ({ s with chunks := s.chunks.erase (i, k) }.setStream i { st with phase := .dropping (k + 1) })
  | orphansDropped {i k : Nat} {st : Stream α β} : s.streams.lookup i = some st → st.phase = .dropping k →
      st.chunks.written ≤ k → Step spec s .other (s.setStream i { st with phase := .dropped })
  | refuse {i : Nat} {st : Stream α β} : s.streams.lookup i = some st → st.phase = .exhausted →
      st.chunks.written = 0 → Step spec s .other (s.setStream i { st with phase := .refused })
  | last {i : Nat} {st : Stream α β} (verdict : Option Reason) : s.streams.lookup i = some st →
      st.phase = .exhausted →
      Step spec s (if st.chunks.written = 0 ∨ st.chunks.buffer = [] then .other else .flush i)
        ({ s with chunks := (lastChunk s.chunks i st.chunks verdict).1 }.setStream i { st with
          chunks := (lastChunk s.chunks i st.chunks verdict).2.1
          phase := .finished (lastChunk s.chunks i st.chunks verdict).2.2 })
  | replaced {i n : Nat} {st : Stream α β} : s.streams.lookup i = some st → st.phase = .finished n →
      Step spec s .other (s.setStream i { st with phase := .replacing n (replacedStream s.manifest i) })
  -- The lookup of the manifest raises.
  | noReplaced {i n : Nat} {st : Stream α β} : s.streams.lookup i = some st → st.phase = .finished n →
      Step spec s .other (s.setStream i { st with phase := .replacing n none })
  | manifest {i n : Nat} {replaced : Option (Nat × Nat)} {st : Stream α β} : s.streams.lookup i = some st →
      st.phase = .replacing n replaced →
      Step spec s .other ({ s with
        manifest := some ⟨i, n, st.chunks.totalItems, st.returned.join⟩ }.setStream i
          { st with phase := afterManifest replaced })
  | dropReplaced {i old n k : Nat} {st : Stream α β} : s.streams.lookup i = some st →
      st.phase = .cleaning old n k → k < n →
      Step spec s .other ({ s with chunks := s.chunks.erase (old, k) }.setStream i
        { st with phase := .cleaning old n (k + 1) })
  | replacedDropped {i old n k : Nat} {st : Stream α β} : s.streams.lookup i = some st →
      st.phase = .cleaning old n k → n ≤ k → Step spec s .other (s.setStream i { st with phase := .stored })

/-- What the streams, in any order, reach from an empty backend. -/
def Reaches (step : World α β → Label → World α β → Prop) : World α β → Prop :=
  Relation.ReflTransGen (fun s s' => ∃ l, step s l s') .start

/-- No chunk is flushed by a stream with a chunk that stayed in RAM. -/
def persistedStep (spec : Spec α) (s : World α β) (l : Label) (s' : World α β) : Prop :=
  Step spec s l s' ∧ ∀ i st, l = .flush i → s.streams.lookup i = some st → st.chunks.notPersisted = none

/-! ## A stored stream -/

/-- The items of the first `n` chunks of a stream, if each of them is there. -/
def readChunks (chunks : Chunks α) (i : Nat) : Nat → Option (List α)
  | 0 => some []
  | n + 1 => do
    let before ← readChunks chunks i n
    let chunk ← chunks.lookup (i, n)
    return before ++ chunk

/-- The manifest names the chunks of one stream that ran to exhaustion: all are there, together its items in
order, no other chunk of it is, and the manifest holds what it returned. -/
def Manifest.Whole (s : World α β) (m : Manifest β) : Prop :=
  ∃ st, s.streams.lookup m.chunkStream = some st ∧ st.returned = some m.returnValue ∧
    readChunks s.chunks m.chunkStream m.nChunks = some st.produced ∧ m.totalItems = st.produced.length ∧
    ∀ k, m.nChunks ≤ k → s.chunks.lookup (m.chunkStream, k) = none

/-- Whenever a manifest stands at the key it is whole, a stream that was abandoned or failed has left no chunk,
and none deletes a chunk the standing manifest names. -/
structure Whole (s : World α β) : Prop where
  manifest : ∀ m, s.manifest = some m → m.Whole s
  dropped : ∀ i st, s.streams.lookup i = some st → st.phase = .dropped → ∀ k, s.chunks.lookup (i, k) = none
  dropping : ∀ i st k m, s.streams.lookup i = some st → st.phase = .dropping k → s.manifest = some m →
    m.chunkStream ≠ i

end Cash.Streams
