import Cash.Lib.Py
import Cash.Lib.Run

/-!
# A stored stream replayed

`ChunkedCachedIterator` of `decorator/iterators.py`, and a caller who calls `next` and `close` while chunks go.
-/

namespace Cash.Streams

open Py

variable {α β : Type}

/-- `backend.get` of chunk `k`: none once it is gone. -/
abbrev Stored (α : Type) := Nat → Option (List α)

structure ChunkedCachedIterator (α β : Type) where
  cacheKey : Str
  nChunks : Nat
  /-- The items of a fresh run. -/
  recompute : Option (List α)
  returned : Option β
  chunkIndex : Nat
  /-- The items left of the open chunk. -/
  currentChunkIter : Option (List α)
  closed : Bool
  yielded : Nat

/-- What a `next` gives the caller. -/
inductive Answer (α β : Type)
  | item (x : α)
  | stopIteration (value : Option β)
  | cacheBackendError (message : Str)

/-- The message of the `CacheBackendError`. -/
def goneMessage (cacheKey : Str) (yielded : Nat) : Str :=
  str "a chunk of the cached result for " ++ cacheKey ++ str " is gone after " ++ decimal yielded ++
    str " items; the rest cannot be read"

namespace ChunkedCachedIterator

/-- `__init__`. -/
def make (cacheKey : Str) (nChunks : Nat) (recompute : Option (List α)) (returned : Option β) :
    ChunkedCachedIterator α β :=
  ⟨cacheKey, nChunks, recompute, returned, 0, none, false, 0⟩

/-- The loop of `__next__`. -/
def loop (stored : Stored α) (it : ChunkedCachedIterator α β) : ChunkedCachedIterator α β × Answer α β :=
  match it.currentChunkIter with
  | some (x :: xs) => ({ it with currentChunkIter := some xs, yielded := it.yielded + 1 }, .item x)
  | _ =>
    if it.nChunks ≤ it.chunkIndex then ({ it with currentChunkIter := none }, .stopIteration it.returned)
    else
      match stored it.chunkIndex with
      | some chunk => loop stored { it with currentChunkIter := some chunk, chunkIndex := it.chunkIndex + 1 }
      | none =>
        match it.recompute with
        | none =>
          ({ it with currentChunkIter := none, chunkIndex := it.chunkIndex + 1 },
            .cacheBackendError (goneMessage it.cacheKey it.yielded))
        | some fresh => loop stored { it with
            currentChunkIter := some (fresh.drop it.yielded)
            chunkIndex := it.chunkIndex + 1
            nChunks := 0 }
termination_by it.nChunks - it.chunkIndex
decreasing_by all_goals simp_wf; omega

/-- `__next__`. -/
def next (stored : Stored α) (it : ChunkedCachedIterator α β) : ChunkedCachedIterator α β × Answer α β :=
  if it.closed then (it, .stopIteration none) else it.loop stored

def close (it : ChunkedCachedIterator α β) : ChunkedCachedIterator α β :=
  { it with closed := true, currentChunkIter := none }

/-- The chunk a `next` comes to, after empty ones, is gone. -/
def MeetsLoss (stored : Stored α) (it : ChunkedCachedIterator α β) : Prop :=
  it.currentChunkIter.getD [] = [] ∧ ∃ c, it.chunkIndex ≤ c ∧ c < it.nChunks ∧ stored c = none ∧
    ∀ k, it.chunkIndex ≤ k → k < c → stored k = some []

end ChunkedCachedIterator

/-! ## A caller -/

/-- What the caller does, or the backend: chunk `k` goes. -/
inductive Event
  | next
  | close
  | lose (k : Nat)
deriving DecidableEq, Repr

structure Reading (α β : Type) where
  it : ChunkedCachedIterator α β
  stored : Stored α
  /-- What the calls of `next` gave, in order. -/
  answers : List (Answer α β)

def Reading.step (r : Reading α β) : Event → Reading α β
  | .next => { r with it := (r.it.next r.stored).1, answers := r.answers ++ [(r.it.next r.stored).2] }
  | .close => { r with it := r.it.close }
  | .lose k => { r with stored := Function.update r.stored k none }

/-- The hit: all chunks are there. -/
def Reading.start (cacheKey : Str) (chunks : List (List α)) (recompute : Option (List α)) (returned : Option β) :
    Reading α β :=
  ⟨.make cacheKey chunks.length recompute returned, fun k => chunks[k]?, []⟩

/-- A `next` has raised. -/
def Reading.Failed (r : Reading α β) : Prop := ∃ message, Answer.cacheBackendError message ∈ r.answers

/-- A step, with a chunk's loss final: without *recompute*, after a `next` that raised the caller closes the iterator or
comes to another chunk that is gone. -/
def Reading.finalStep (r : Reading α β) (e : Event) (r' : Reading α β) : Prop :=
  r' = r.step e ∧
    (r.it.recompute = none → e = .next → r.Failed → r.it.closed = true ∨ r.it.MeetsLoss r.stored)

/-! ## What the replay is for -/

/-- Call `j` of `next` on a generator of the items. -/
def due (items : List α) (returned : Option β) (j : Nat) : Answer α β :=
  match items[j]? with
  | some x => .item x
  | none => .stopIteration returned

/-- The first `n` calls. -/
def replayed (items : List α) (returned : Option β) (n : Nat) : List (Answer α β) :=
  (List.range n).map (due items returned)

/-- The calls of `next` before the iterator is closed. -/
def callsOpen : List Event → Nat
  | [] => 0
  | .next :: events => callsOpen events + 1
  | .close :: _ => 0
  | .lose _ :: events => callsOpen events

/-- The calls of `next` after it is closed. -/
def callsClosed : List Event → Nat
  | [] => 0
  | .next :: events => callsClosed events
  | .close :: events => events.count .next
  | .lose _ :: events => callsClosed events

/-- The caller got the items and what the generator returned; or, without *recompute*, the items before a chunk that is
gone and the error from then on. After `close` it got nothing. -/
structure Reading.Gives (cacheKey : Str) (chunks : List (List α)) (recompute : Option (List α)) (returned : Option β)
    (events : List Event) (r : Reading α β) : Prop where
  recomputed : recompute ≠ none →
    r.answers = replayed chunks.flatten returned (callsOpen events) ++
      List.replicate (callsClosed events) (.stopIteration none)
  raised : recompute = none → ∃ n m, n + m = callsOpen events ∧ (0 < m → n ≤ chunks.flatten.length) ∧
    r.answers = replayed chunks.flatten returned n ++
      List.replicate m (.cacheBackendError (goneMessage cacheKey n)) ++
      List.replicate (callsClosed events) (.stopIteration none)
  /-- It raises at the first chunk that is gone when the caller comes to it. -/
  atLoss : r.it.closed = false → ¬ r.Failed →
    ((r.step .next).Failed ↔ recompute = none ∧ r.it.MeetsLoss r.stored)

end Cash.Streams
