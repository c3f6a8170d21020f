import Cash.Lib.Probe
import Cash.Lib.Run

/-!
# The buffer of the file opens that C libraries make

`_c/cfilehook.c`: `record`, `path_hash`, `index_rebuild`, `clear_events_locked`, `fh_window_open`, `fh_window_close`, and what
`fh_disable` and a fork leave. Every step is made under the buffer's lock, by any thread. The array of events is a list,
sequence numbers do not run over 64 bits, and the order of the windows, which nothing reads, is left out. Whether memory is
given is part of a step; the copies that a closed window's caller gets are given theirs.
-/

namespace Cash.Opens

/-- `K_READ`, `K_ABSENT`, `K_CREATED`, `K_WRITE`, `K_UNRESOLVED`. -/
inductive Kind
  | read | absent | created | write | unresolved
deriving DecidableEq

def Kind.code : Kind → UInt32
  | .read => 1
  | .absent => 2
  | .created => 3
  | .write => 4
  | .unresolved => 5

abbrev Path := List UInt8

def pathHash (path : Path) (kind : Kind) : UInt32 :=
  path.foldl (fun h byte => (h ^^^ byte.toUInt32) * 16777619) (2166136261 ^^^ kind.code)

/-- `fh_event`. -/
structure Event where
  seq : Nat
  kind : Kind
  hash : UInt32
  path : Path
deriving DecidableEq

/-- `FH_MAX_EVENTS`. -/
def maxEvents : Nat := 65536

structure Buffer where
  /-- In the order of their numbers. -/
  events : List Event
  capEvents : Nat
  /-- `ev_index`, of the positions of the events. -/
  index : Option (Probe.Table Nat)
  nextSeq : Nat
  /-- 0: nothing lost. -/
  lastLostSeq : Nat
  /-- What `next_seq` was when each was opened. -/
  windows : List Nat
  newestStart : Nat
  armed : Bool

def Buffer.initial : Buffer := ⟨[], 0, none, 1, 0, [], 0, false⟩

/-- Whether memory is given, for the events and then for the index. -/
structure Memory where
  events : Bool
  index : Bool

/-- An event's position, put into the index; none: there is no room. -/
def indexEvent (t : Probe.Table Nat) (hash : UInt32) (i : Nat) : Option (Probe.Table Nat) :=
  (Probe.seek t (fun _ => false) t.cap (hash.toNat &&& (t.cap - 1))).map fun found => t.set found.1 i

def indexEvents (t : Probe.Table Nat) : Nat → List Event → Option (Probe.Table Nat)
  | _, [] => some t
  | i, e :: rest => (indexEvent t e.hash i).bind fun t => indexEvents t (i + 1) rest

namespace Buffer

/-- `index_rebuild`. -/
def indexRebuild (b : Buffer) : Option Buffer :=
  match b.index with
  | none => some b
  | some t => (indexEvents (.empty t.cap) 0 b.events).map fun t => { b with index := some t }

/-- The event at a place is of the kind and path, and every open window has it. -/
def same (b : Buffer) (hash : UInt32) (kind : Kind) (path : Path) (i : Nat) : Bool :=
  b.events[i]?.any fun e => e.hash = hash && e.kind = kind && b.newestStart ≤ e.seq && e.path = path

/-- Whether the event is there; none: the search does not end. -/
def seen (b : Buffer) (hash : UInt32) (kind : Kind) (path : Path) : Option Bool :=
  match b.index with
  | none => some false
  | some t => (Probe.seek t (b.same hash kind path) t.cap (hash.toNat &&& (t.cap - 1))).map (·.2)

def lose (b : Buffer) : Buffer := { b with lastLostSeq := b.nextSeq, nextSeq := b.nextSeq + 1 }

/-- None: there is no index, or no room in it. -/
def append (b : Buffer) (hash : UInt32) (kind : Kind) (path : Path) : Option Buffer :=
  b.index.bind fun t => (indexEvent t hash b.events.length).map fun t =>
    { b with events := b.events ++ [⟨b.nextSeq, kind, hash, path⟩], nextSeq := b.nextSeq + 1, index := some t }

def record (b : Buffer) (kind : Kind) (path : Path) (memory : Memory) : Option Buffer :=
  let hash := pathHash path kind
  if !b.armed then some b
  else
    (b.seen hash kind path).bind fun seen =>
      if seen then some b
      else if maxEvents ≤ b.events.length then some b.lose
      else if b.events.length = b.capEvents then
        let cap := min (if b.capEvents = 0 then 256 else b.capEvents * 2) maxEvents
        if !memory.events then some b.lose
        else if !memory.index then some { b with capEvents := cap }.lose
        else ({ b with capEvents := cap, index := some (.empty (cap * 2)) }.indexRebuild).bind fun b =>
          b.append hash kind path
      else b.append hash kind path

/-- `fh_window_open`; the window is known by the number it begins at. -/
def openWindow (b : Buffer) (memory : Bool) : Buffer :=
  if memory then { b with windows := b.windows ++ [b.nextSeq], newestStart := b.nextSeq, armed := true } else b

/-- What `fh_window_close` gives: the events, and whether any was lost. -/
def collected (b : Buffer) (start : Nat) : List (Kind × Path) × Bool :=
  ((b.events.dropWhile fun e => e.seq < start).map fun e => (e.kind, e.path), start ≤ b.lastLostSeq)

/-- What `fh_window_close` leaves: what an open window still needs. -/
def closeWindow (b : Buffer) (start : Nat) : Option Buffer :=
  let windows := b.windows.erase start
  let oldest := windows.foldl min (2 ^ 64 - 1)
  let b' := { b with
    windows := windows
    newestStart := windows.foldl max 0
    events := b.events.dropWhile fun e => e.seq < oldest
    armed := b.armed && !windows.isEmpty }
  if b'.events.length < b.events.length then b'.indexRebuild else some b'

/-- The hook is turned off, or a child is forked. -/
def reset (b : Buffer) : Option Buffer :=
  { b with windows := [], newestStart := 0, armed := false, events := [] }.indexRebuild

end Buffer

inductive Op
  | record (kind : Kind) (path : Path) (memory : Memory)
  | openWindow (memory : Bool)
  | closeWindow (start : Nat)
  | reset

/-- One step; none: it does not end, or writes where there is no memory. -/
def step (b : Buffer) : Op → Option Buffer
  | .record kind path memory => b.record kind path memory
  | .openWindow memory => some (b.openWindow memory)
  | .closeWindow start => b.closeWindow start
  | .reset => b.reset

/-- The index is refused its memory after the events were given theirs. -/
def Op.halfGrown : Op → Bool
  | .record _ _ memory => memory.events && !memory.index
  | _ => false

end Cash.Opens
