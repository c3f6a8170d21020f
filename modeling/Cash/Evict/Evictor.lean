import Cash.Lib.Dict
import Cash.Lib.Py
import Cash.Lib.While
import Mathlib.Algebra.Order.Ring.Unbundled.Rat
import Mathlib.Data.List.Lex
import Mathlib.Data.List.Sort
import Mathlib.Data.Prod.Lex
import Mathlib.Data.Rat.Defs

/-!
# Keeping a folder under its cap

`FileEvictor`. Priorities, times and 9/10 of the cap are rationals. The chunk store, `gdsf_value`, what a load of the rank
index gives and what the system does to a file are parameters. Between two candidates other threads and processes may do
anything to what they share with the evictor.
-/

namespace Cash.Evict

open Py

/-! ## What the evictor works on -/

/-- What is read of an entry's metadata. -/
structure Meta where
  storeTime : Option ℚ
  executionTime : Option ℚ
  accessCount : Nat
  lastAccess : Option ℚ
  metadataOnly : Bool

/-- `{}`. -/
def Meta.nothing : Meta := ⟨none, none, 0, none, false⟩

structure File where
  mtime : ℚ
  size : Nat

/-- What the evictor shares with other threads and processes: the folder, by file name, the `TouchedEntries`, its own
accounting, the writes submitted and not finished, and the chunk store. -/
structure Shared (C : Type) where
  folder : Dict Str File
  metadata : Dict Str Meta
  keys : Dict Str Str
  unflushed : List Str
  base : Dict Str (Option ℚ)
  writeSeq : Nat
  writeSeqByKey : Dict Str Nat
  currentBytes : Int
  inFlight : Str → Nat
  chunks : C

/-- A candidate of the ranking, with the recency it was ranked at. -/
structure Candidate where
  path : Str
  size : Nat
  rankedAt : ℚ

/-- A candidate written after the ranking was taken: `(priority, seq, path, size, ranked_at)`. -/
abbrev Fresh := ℚ ×ₗ ℕ ×ₗ Str ×ₗ ℕ ×ₗ ℚ

def Fresh.priority (f : Fresh) : ℚ := (ofLex f).1

def Fresh.candidate (f : Fresh) : Candidate :=
  let rest := ofLex (ofLex (ofLex f).2).2
  ⟨rest.1, (ofLex rest.2).1, (ofLex rest.2).2⟩

/-- The queue, `rank_h`, and the heap `fresh` as `heappop` gives its items. -/
structure Ranking where
  queue : List Candidate
  rankH : Dict Str ℚ
  fresh : List Fresh
  ranked : Bool
  clock : ℚ
  clockLoaded : Bool

structure Evictor (C : Type) where
  ranking : Ranking
  shared : Shared C
  /-- 0 when there is no cap. -/
  maxSizeBytes : Nat
  adaptive : Bool
  sizeScanned : Bool

/-- The chunk store's `share`, `release` and `ensure_index`, and `gdsf_value`. -/
structure Config (C : Type) where
  share : C → Str → Nat
  release : C → Str → C × Int
  ensureIndex : C → C × Int
  gdsfValue : Meta → Nat → ℚ

/-- What a load of the rank index gives: the priorities in the order last recorded, and the clock. -/
structure Index where
  ranks : List (Str × ℚ)
  clock : ℚ

/-- What one pass meets. -/
structure Given (C : Type) where
  /-- `current_worker_key()`. -/
  ownKey : Option Str
  /-- The files that `os.remove` fails on. -/
  stuck : Str → Bool
  /-- The files the walk gets a `stat` of. -/
  sees : Str → Bool
  index : Index
  scannedBytes : Int
  capDue : Bool
  adaptiveCap : Int → Nat
  /-- What is done from outside before each turn of the loop. -/
  outside : Nat → Shared C → Shared C

variable {C : Type}

/-- `ENTRY_SUFFIX`. -/
def entrySuffix : Str := str ".entry"

/-- `_stem`. -/
def stem (path : Str) : Str := path.take (path.length - entrySuffix.length)

/-- `_priority`. -/
def priority (cfg : Config C) (metadata : Meta) (size : Nat) (base : ℚ) : ℚ := base + cfg.gdsfValue metadata size

/-- `EVICT_WARN_RECENT_OPS`. -/
def evictWarnRecentOps : Nat := 3

/-! ## Shared state -/

namespace Shared

/-- `key_for`. -/
def keyFor (sh : Shared C) (path : Str) : Option Str := sh.keys.lookup path

/-- `metadata`. -/
def metadataOf (sh : Shared C) (key : Option Str) : Option Meta := key.bind fun k => sh.metadata.lookup k

/-- `has_unflushed_read`. -/
def hasUnflushedRead (sh : Shared C) (key : Option Str) : Bool := key.any fun k => decide (k ∈ sh.unflushed)

/-- `has_pending`. -/
def hasPending (sh : Shared C) (key : Str) : Bool := decide (0 < sh.inFlight key)

/-- `touched_since`. -/
def touchedSince (sh : Shared C) (path : Str) (key : Option Str) (rankedAt : ℚ) : Bool :=
  (((sh.metadataOf key).bind Meta.lastAccess).any fun last => decide (rankedAt < last)) ||
    (sh.folder.lookup path).any fun file => decide (rankedAt < file.mtime)

/-- `TouchedEntries.forget`. -/
def forget (sh : Shared C) (key : Option Str) (path : Str) : Shared C :=
  match key with
  | some k =>
      { sh with metadata := sh.metadata.erase k, unflushed := sh.unflushed.filter (· ≠ k), keys := sh.keys.erase path }
  | none => { sh with keys := sh.keys.erase path }

/-- `remove_path` of an entry that goes, and the bytes freed. -/
def removed (cfg : Config C) (sh : Shared C) (path : Str) (key : Option Str) : Shared C × Int :=
  let released := cfg.release sh.chunks (stem path)
  let freed := ((sh.folder.lookup path).map fun file => (file.size : Int)).getD 0 + released.2
  let gone := { sh.forget key path with folder := sh.folder.erase path, chunks := released.1 }
  let bare :=
    match key with
    | some k => { gone with writeSeqByKey := gone.writeSeqByKey.erase k, base := gone.base.erase k }
    | none => gone
  ({ bare with currentBytes := bare.currentBytes - freed }, freed)

end Shared

/-! ## The ranking -/

namespace Ranking

/-- `ensure_clock`. -/
def ensureClock (r : Ranking) (indexClock : ℚ) : Ranking :=
  if r.clockLoaded then r else { r with clock := max r.clock indexClock, clockLoaded := true }

def headPriority (r : Ranking) (c : Candidate) : ℚ := (r.rankH.lookup c.path).getD 0

def popleft (r : Ranking) (c : Candidate) (rest : List Candidate) : (Candidate × ℚ) × Ranking :=
  ((c, r.headPriority c), { r with queue := rest, rankH := r.rankH.erase c.path })

def heappop (r : Ranking) (f : Fresh) (rest : List Fresh) : (Candidate × ℚ) × Ranking :=
  ((f.candidate, f.priority), { r with fresh := rest })

/-- `head_key <= (fresh[0], fresh[4])`. -/
def headFirst (r : Ranking) (c : Candidate) (f : Fresh) : Bool :=
  decide (toLex (r.headPriority c, c.rankedAt) ≤ toLex (f.priority, f.candidate.rankedAt))

/-- `_pop_candidate`. -/
def popCandidate (r : Ranking) : Option ((Candidate × ℚ) × Ranking) :=
  match r.queue, r.fresh with
  | [], [] => none
  | c :: rest, [] => some (r.popleft c rest)
  | [], f :: rest => some (r.heappop f rest)
  | c :: queue, f :: fresh => if r.headFirst c f then some (r.popleft c queue) else some (r.heappop f fresh)

/-- `heappush`. -/
def push (r : Ranking) (f : Fresh) : Ranking := { r with fresh := r.fresh.orderedInsert (· ≤ ·) f }

/-- `clear`. -/
def clear (r : Ranking) : Ranking := { r with queue := [], rankH := ∅, fresh := [], ranked := false, clock := 0 }

end Ranking

/-- `record_rank`: `written` is the file's mtime, or the time when there is none. -/
def recordRank (cfg : Config C) (indexClock written : ℚ) (key path : Str) (metadata : Meta) (size : Nat) (e : Evictor C) :
    Evictor C :=
  let r := e.ranking.ensureClock indexClock
  let rankedAt := if written < metadata.lastAccess.getD written then metadata.lastAccess.getD written else written
  let item : Fresh := toLex (priority cfg metadata size r.clock,
    toLex ((e.shared.writeSeqByKey.lookup key).getD 0, toLex (path, toLex (size, rankedAt))))
  { e with
    ranking := if r.ranked then r.push item else r
    shared := { e.shared with base := e.shared.base.insert key (some r.clock) } }

/-! ## Taking a ranking -/

/-- An entry as the walk found it, with its chunks' share in the size. -/
structure Walked where
  path : Str
  mtime : ℚ
  size : Nat

def walk (cfg : Config C) (given : Given C) (sh : Shared C) : List Walked :=
  (sh.folder.entries.filter fun p => entrySuffix.isSuffixOf p.1 && given.sees p.1).map fun p =>
    ⟨p.1, p.2.mtime, p.2.size + cfg.share sh.chunks (stem p.1)⟩

namespace Walked

variable (sh : Shared C) (w : Walked)

def key : Option Str := sh.keyFor w.path

def metadata : Option Meta := sh.metadataOf (w.key sh)

/-- The last access in memory, when it is later than the file. -/
def later : Option ℚ := ((w.metadata sh).bind Meta.lastAccess).filter fun last => decide (w.mtime < last)

/-- `stamps[path]`. -/
def stamp : ℚ := (w.later sh).getD w.mtime

/-- `recency[path]`. -/
def recency : ℚ := if sh.hasUnflushedRead (w.key sh) then w.stamp sh else w.mtime

/-- `seqs[path]`, set where the entry's metadata is held. -/
def seq : Nat := ((w.metadata sh).bind fun _ => (w.key sh).bind fun k => sh.writeSeqByKey.lookup k).getD 0

/-- The base of an entry written or read in this process. -/
def based (clock : ℚ) : Option ℚ :=
  (w.metadata sh).bind fun _ => ((w.key sh).bind fun k => sh.base.lookup k).map fun base => base.getD clock

/-- `prio[path]`. -/
def prio (cfg : Config C) (index : Index) (clock : ℚ) : ℚ :=
  match w.based sh clock with
  | some base => priority cfg ((w.metadata sh).getD .nothing) w.size base
  | none => (index.ranks.lookup (stem w.path)).getD (priority cfg ((w.metadata sh).getD .nothing) w.size 0)

/-- `recorded_at`. -/
def recordedAt (index : Index) : Int :=
  ((index.ranks.findIdx? fun p => p.1 = stem w.path).map fun i => (i : Int)).getD (-1)

abbrev Key := ℚ ×ₗ ℚ ×ₗ ℤ ×ₗ ℕ

def sortKey (cfg : Config C) (index : Index) (clock : ℚ) : Key :=
  toLex (w.prio sh cfg index clock, toLex (w.recency sh, toLex (w.recordedAt index, w.seq sh)))

def candidate : Candidate := ⟨w.path, w.size, w.stamp sh⟩

/-- A read re-based at its next use, which this is. -/
def rebase (clock : ℚ) (base : Dict Str (Option ℚ)) : Dict Str (Option ℚ) :=
  match w.key sh, w.based sh clock with
  | some k, some b => base.insert k (some b)
  | _, _ => base

end Walked

/-- The clock `rebuild_queue` ranks at. -/
def rebuildClock (given : Given C) (e : Evictor C) : ℚ := max e.ranking.clock given.index.clock

/-- The order in which `rebuild_queue` ranks the entries. -/
def ordered (cfg : Config C) (given : Given C) (e : Evictor C) : List Walked :=
  (walk cfg given e.shared).insertionSort fun v w =>
    v.sortKey e.shared cfg given.index (rebuildClock given e) ≤ w.sortKey e.shared cfg given.index (rebuildClock given e)

/-- `rebuild_queue`. -/
def rebuildQueue (cfg : Config C) (given : Given C) (e : Evictor C) : Evictor C :=
  let clock := rebuildClock given e
  let ranks := walk cfg given e.shared
  { e with
    ranking :=
      { queue := (ordered cfg given e).map fun w => w.candidate e.shared
        rankH := Dict.update ∅ (ranks.map fun w => (w.path, w.prio e.shared cfg given.index clock))
        fresh := []
        ranked := true
        clock := clock
        clockLoaded := true }
    shared := { e.shared with base := ranks.foldl (fun base w => w.rebase e.shared clock base) e.shared.base } }

/-! ## A pass -/

/-- What became of a candidate. -/
inductive Verdict
  | touched
  | pending
  | removed
  | failed
deriving DecidableEq, Repr

/-- A candidate considered, in the state it was considered in. -/
structure Outcome (C : Type) where
  candidate : Candidate
  priority : ℚ
  shared : Shared C
  verdict : Verdict

/-- A pass under way. `stale` and `current`, what was considered of the ranking found and of the one taken in the pass, and
`seen`, the files the latter saw, are its history. -/
structure Pass (C : Type) extends Evictor C where
  rebuilt : Bool
  evictedRecent : Bool
  nEvicted : Nat
  freedBytes : Int
  notes : List (Str × ℚ × Int)
  stale : List (Outcome C)
  current : List (Outcome C)
  seen : List Str

def Evictor.pass (e : Evictor C) : Pass C := ⟨e, false, false, 0, 0, [], [], [], []⟩

namespace Pass

variable (cfg : Config C) (given : Given C)

/-- `current_bytes > target`. -/
def aboveTarget (p : Pass C) : Bool := decide (9 * (p.maxSizeBytes : Int) < 10 * p.shared.currentBytes)

/-- What the loop does with a candidate. -/
def verdict (sh : Shared C) (c : Candidate) : Verdict :=
  if sh.touchedSince c.path (sh.keyFor c.path) c.rankedAt then .touched
  else if (sh.keyFor c.path).any fun k => decide (some k ≠ given.ownKey) && sh.hasPending k then .pending
  else if (sh.folder.lookup c.path).isSome && given.stuck c.path then .failed
  else .removed

/-- Written within the last few writes. -/
def recent (sh : Shared C) (key : Option Str) : Bool :=
  (key.bind fun k => sh.writeSeqByKey.lookup k).any fun written => decide (sh.writeSeq - written ≤ evictWarnRecentOps)

/-- What the removal of an entry is worth a note of. -/
def note (sh : Shared C) (path : Str) (key : Option Str) (freed : Int) : List (Str × ℚ × Int) :=
  match sh.metadataOf key with
  | some m => if m.metadataOnly then [] else [(stem path, m.executionTime.getD 0, freed)]
  | none => [(stem path, -1, freed)]

def log (p : Pass C) (o : Outcome C) : Pass C :=
  if p.rebuilt then { p with current := p.current ++ [o] } else { p with stale := p.stale ++ [o] }

/-- The removal of a candidate. -/
def remove (p : Pass C) (c : Candidate) (priority : ℚ) : Pass C :=
  let key := p.shared.keyFor c.path
  let gone := p.shared.removed cfg c.path key
  if gone.2 = 0 then { p with shared := gone.1 }
  else
    { p with
      shared := gone.1
      nEvicted := p.nEvicted + 1
      freedBytes := p.freedBytes + gone.2
      notes := p.notes ++ note p.shared c.path key gone.2
      ranking := { p.ranking with clock := max p.ranking.clock priority } }

/-- The turn of one candidate. -/
def consider (p : Pass C) (c : Candidate) (priority : ℚ) : Pass C :=
  let outcome : Outcome C := ⟨c, priority, p.shared, verdict given p.shared c⟩
  let warned := { p with evictedRecent := p.evictedRecent || recent p.shared (p.shared.keyFor c.path) }
  match outcome.verdict with
  | .touched => p.log outcome
  | .pending => p.log outcome
  | .failed => warned.log outcome
  | .removed => (warned.remove cfg c priority).log outcome

def rebuild (p : Pass C) : Pass C :=
  { p with
    toEvictor := rebuildQueue cfg given p.toEvictor
    rebuilt := true
    seen := (walk cfg given p.shared).map Walked.path }

def rankedBy (p : Pass C) (ranking : Ranking) : Pass C := { p with ranking := ranking }

def met (p : Pass C) (sh : Shared C) : Pass C := { p with shared := sh }

/-- One turn of the loop of `evict`, after what was done from outside. -/
def step (p : Pass C) : While.Turn (Pass C) :=
  if p.aboveTarget then
    match p.ranking.popCandidate with
    | some next => .again ((p.rankedBy next.2).consider cfg given next.1.1 next.1.2)
    | none =>
        if p.rebuilt then .done p
        else if (p.rebuild cfg given).ranking.queue.isEmpty && (p.rebuild cfg given).ranking.fresh.isEmpty then
          .done (p.rebuild cfg given)
        else .again (p.rebuild cfg given)
  else .done p

def turn (n : Nat) (p : Pass C) : While.Turn (Pass C) := (p.met (given.outside n p.shared)).step cfg given

end Pass

/-- `ensure_size_scanned`. -/
def ensureSizeScanned (given : Given C) (e : Evictor C) : Evictor C :=
  if e.sizeScanned then e
  else
    { e with
      shared := { e.shared with currentBytes := given.scannedBytes }
      sizeScanned := true
      maxSizeBytes := if e.adaptive then given.adaptiveCap given.scannedBytes else e.maxSizeBytes }

/-- `refresh_adaptive_cap`. -/
def refreshAdaptiveCap (given : Given C) (e : Evictor C) : Evictor C :=
  if e.adaptive && given.capDue then { e with maxSizeBytes := given.adaptiveCap e.shared.currentBytes } else e

/-- What `evict` compares with the cap. -/
def opened (given : Given C) (e : Evictor C) : Evictor C := refreshAdaptiveCap given (ensureSizeScanned given e)

/-- Which entries share which chunks, before ranking. -/
def indexed (cfg : Config C) (e : Evictor C) : Evictor C :=
  let swept := cfg.ensureIndex e.shared.chunks
  { e with shared := { e.shared with chunks := swept.1, currentBytes := e.shared.currentBytes - swept.2 } }

/-- `evict`, with so many turns of its loop at most. -/
def evict (cfg : Config C) (given : Given C) (fuel : Nat) (e : Evictor C) : Option (Pass C) :=
  if e.maxSizeBytes = 0 then some e.pass
  else if (opened given e).shared.currentBytes ≤ (opened given e).maxSizeBytes then some (opened given e).pass
  else While.loop (Pass.turn cfg given) fuel 0 (indexed cfg (opened given e)).pass

end Cash.Evict
