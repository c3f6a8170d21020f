import Cash.Lib.Py
import Cash.Streams.Stream
import Mathlib.Data.List.Sort
import Mathlib.Data.List.Lex

/-!
# What is stored of a stream that ran to exhaustion

`ResultStore.refusal` as `_finish_stream` asks it (no watch, no `inputs_moved`), and `stream_and_store` from the
first item to the manifest, for a stream that nothing else writes beside.
-/

namespace Cash.Streams

open Py

variable {α β : Type}

/-! ## What the run left -/

/-- `DynamicSources`. -/
structure DynamicSources where
  picklable : Bool
  unpicklableIds : List Str

/-- The tracker. -/
structure Tracker where
  workOutlivedBlock : Bool
  /-- `inputs_changed_since_read()`; `none` when it raises. -/
  inputsChangedSinceRead : Option (List Str)
  staleMemoReads : List Str
  unresolvedDynamic : List Str
  recordedSources : Option DynamicSources

/-- `EffectObserver`, after `check_argument_mutation`. -/
structure Observer where
  mockCalled : Bool
  mutatedArgs : List Str

inductive PurityMode
  | warn | strict | silent
deriving DecidableEq, Repr

/-- The backend, as far as `_unpicklable_source_refusal` tells it. -/
inductive BackendKind
  | inMemory
  /-- A `TieredBackend` whose first tier is in memory. -/
  | tieredOverMemory
  | other
deriving DecidableEq, Repr

/-- `ClosureCheck`. -/
structure ClosureCheck where
  names : List Str
  finished : Bool

/-- What the checks find in a result: `identity_coupled_reason`, `split_by_a_hit`, `closures_sharing`. -/
structure Parts (α : Type) where
  identityCoupled : List α → Bool
  splitByAHit : List α → Option (Str × Str)
  closuresSharing : List α → ClosureCheck

/-- A run of the body, and what it ran under. -/
structure BodyRun (α : Type) where
  tracker : Tracker
  observer : Observer
  rngNew : Bool
  purityMode : PurityMode
  backend : BackendKind
  /-- `code_moved_since_keyed`. -/
  codeMovedSinceKeyed : Bool
  parts : Parts α
  /-- A check after the call raises (`check_argument_mutation`, `report_observed_effects`). -/
  checksRaise : Bool

/-! ## The refusal -/

/-- `sorted(names)[0]`. -/
def firstOf (names : List Str) : Option Str := (names.insertionSort (· ≤ ·)).head?

/-- `', '.join(parts)`. -/
def joined : List Str → Str
  | [] => []
  | [x] => x
  | x :: xs => x ++ str ", " ++ joined xs

/-- `inputs_moved_during_call`. -/
def inputsMovedDuringCall (tracker : Tracker) : Bool :=
  match tracker.inputsChangedSinceRead with
  | none => true
  | some moved => moved ≠ []

def unpicklableSourceRefusal (backend : BackendKind) (sources : Option DynamicSources) : Option Str :=
  match sources with
  | none => none
  | some sources =>
    if sources.picklable then none
    else match backend with
      | .inMemory => none
      | .tieredOverMemory => none
      | .other => some (str "a cached function it calls depends on " ++ sources.unpicklableIds.headD [] ++
          str ", which cannot be pickled with the entry")

/-- `cache_if` on the result: `none` when it raises. -/
def cacheIfRefusal (cacheIf : Option (List α → Option Bool)) (res : List α) : Option Str :=
  match cacheIf with
  | none => none
  | some keep =>
    match keep res with
    | none => some (str "cache_if raised")
    | some true => none
    | some false => some (str "cache_if returned False")

def staleMemoRefusal (tracker : Tracker) : Option Str :=
  (firstOf tracker.staleMemoReads).map fun path =>
    str "a memoised helper handed it data read from an earlier version of " ++ path ++
      str "; a fresh process reads the file as it is now"

def unresolvedRefusal (tracker : Tracker) : Option Str :=
  (firstOf tracker.unresolvedDynamic).map fun source =>
    str "a cached function it calls depends, through dynamic_depends_on=, on sources nothing could record (" ++ source ++
      str "), so nothing could tell when they change"

def mutatedRefusal (run : BodyRun α) : Option Str :=
  if run.observer.mutatedArgs ≠ [] ∧ run.purityMode ≠ .silent then
    some (str "it changed its argument" ++ (if 1 < run.observer.mutatedArgs.length then str "s" else []) ++ str " " ++
      joined (run.observer.mutatedArgs.map fun n => str "'" ++ n ++ str "'") ++
      str " in place, which a hit would not do")
  else none

def closuresRefusal (check : ClosureCheck) : Option Str :=
  if !check.finished then
    some (str "cash could not look through the whole result for a function sharing a part of it in time")
  else if check.names ≠ [] then
    some (str "a function in the result closes over another part of it, which a hit would hand back apart")
  else none

/-- A reason that is a text alone. -/
def refuseIf (found : Bool) (text : Str) : Option Str := if found then some text else none

/-- `ResultStore.refusal`. -/
def refusal (cacheIf : Option (List α → Option Bool)) (run : BodyRun α) (res : List α) : Option Str :=
  refuseIf run.rngNew
      (str "its first call drew random numbers the key did not yet cover; the next call keys them") <|>
    cacheIfRefusal cacheIf res <|>
    refuseIf (run.parts.identityCoupled res) (str "the result is tied to the identity of an object in memory") <|>
    refuseIf run.tracker.workOutlivedBlock
      (str "work it handed to a thread or thread pool was still running when it returned") <|>
    refuseIf (inputsMovedDuringCall run.tracker) (str "a file it read changed while it ran") <|>
    staleMemoRefusal run.tracker <|>
    unresolvedRefusal run.tracker <|>
    unpicklableSourceRefusal run.backend run.tracker.recordedSources <|>
    refuseIf run.codeMovedSinceKeyed (str "its code changed on disk after this process keyed it") <|>
    refuseIf run.observer.mockCalled
      (str "a unittest.mock object was called while it ran, so the result may be a test's fake") <|>
    mutatedRefusal run <|>
    ((run.parts.splitByAHit res).map fun p =>
      p.1 ++ str " and " ++ p.2 ++ str " share memory, which a hit would hand back apart") <|>
    closuresRefusal (run.parts.closuresSharing res)

/-! ## From the first item to the manifest -/

/-- `_buffer_item`, with the flush of a full chunk. `verdicts k` is what the write of chunk `k` reports. -/
def streamItem (spec : Spec α) (i : Nat) (verdicts : Nat → Option Reason) (s : Chunks α × ChunkStream α) (item : α) :
    Chunks α × ChunkStream α :=
  if (s.2.bufferItem spec item).isFull spec then
    flushChunk s.1 i (s.2.bufferItem spec item) (verdicts s.2.written)
  else (s.1, s.2.bufferItem spec item)

/-- The items, to the end of the source. -/
def streamItems (spec : Spec α) (i : Nat) (verdicts : Nat → Option Reason) (chunks : Chunks α) (items : List α) :
    Chunks α × ChunkStream α :=
  items.foldl (streamItem spec i verdicts) (chunks, ⟨[], 0, 0, 0, none⟩)

/-- What becomes of the stream. -/
inductive Outcome (α β : Type)
  /-- A check after the call raised. -/
  | raised
  | notStored (refusal : Str)
  | stored (chunks : Chunks α) (manifest : Manifest β)

/-- `_finish_stream`. -/
def finishStream (cacheIf : Option (List α → Option Bool)) (i : Nat) (verdicts : Nat → Option Reason) (run : BodyRun α)
    (s : Chunks α × ChunkStream α) (returned : Option β) : Outcome α β :=
  let last := lastChunk s.1 i s.2 (verdicts s.2.written)
  let stored := Outcome.stored last.1 ⟨i, last.2.2, s.2.totalItems, returned⟩
  if run.checksRaise then .raised
  else if s.2.written = 0 then
    match refusal cacheIf run s.2.buffer with
    | some why => .notStored why
    | none => stored
  else stored

/-- `stream_and_store`, of a stream run to exhaustion. -/
def streamAndStore (spec : Spec α) (cacheIf : Option (List α → Option Bool)) (i : Nat) (verdicts : Nat → Option Reason)
    (chunks : Chunks α) (run : BodyRun α) (items : List α) (returned : Option β) : Outcome α β :=
  finishStream cacheIf i verdicts run (streamItems spec i verdicts chunks items) returned

/-- An entry is stored. -/
def Outcome.Stored : Outcome α β → Prop
  | .stored _ _ => True
  | _ => False

/-- The items fill a chunk. -/
def Fills (spec : Spec α) (items : List α) : Prop :=
  items ≠ [] ∧ (spec.chunkMaxItems ≤ items.length ∨ spec.chunkMaxBytes ≤ (items.map spec.estimateObjectSize).sum)

end Cash.Streams
