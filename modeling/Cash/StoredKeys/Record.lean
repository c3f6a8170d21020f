import Cash.StoredKeys.View

/-!
# The record of the keys that were stored

`StoredKeyRecord` of `stored_keys.py`, of one function. What decides when a write begins (the queue, the timers) is left
out: a write may begin at any time, also while another is in progress.
-/

namespace Cash.StoredKeys

open Py

variable {τ : Type} [LinearOrder τ]

/-- `KEYS_MAX`. -/
def keysMax : ℕ := 64

/-- `STATES_MAX`. -/
def statesMax : ℕ := 8

/-- `WARNED_MAX`. -/
def warnedMax : ℕ := 32

/-- `WRITE_INTERVAL`, in nanoseconds of the monotonic clock. -/
def writeInterval : ℤ := 1000000000

/-- The file: its mtime and size, and what it holds, where that can be read. -/
structure File (τ : Type) where
  stamp : ℕ
  doc : Option (Doc τ)

/-- Where a write is. -/
inductive Phase (τ : Type)
  | begun
  | loaded (doc : Doc τ)
  | replaced (doc : Doc τ)
  /-- With the record it remembered, unless it failed. -/
  | ended (saved : Option ℕ)

/-- A write in progress: `_write_now`. -/
structure Writer (τ : Type) where
  id : ℕ
  changes : Changes τ
  phase : Phase τ

/-- `StoredKeyRecord`, and the file. -/
structure Record (τ : Type) where
  /-- The records the memo has kept; one is known by its place. -/
  docs : List (Doc τ)
  file : Option (File τ)
  /-- `_memo`: the mtime and size it was read at, and the record. -/
  memo : Option (ℕ × ℕ)
  checked : Option ℤ
  view : Option (View τ)
  pending : Option (Changes τ)
  /-- `_writing`, with the write that took it. -/
  writing : Option (ℕ × Changes τ)
  writers : List (Writer τ)
  begun : ℕ
  /-- The changes that left `_writing` since the view was built, each with the record that its write remembered. -/
  left : List (Changes τ × Option ℕ)

namespace Record

variable (started : τ) (r : Record τ)

/-- Nothing read, nothing noted, and no file. -/
def start : Record τ := ⟨[], none, none, none, none, none, none, [], 0, []⟩

/-! ## Reading -/

/-- The record at a place, and the empty record for no file. -/
def contents (ref : Option ℕ) : Doc τ := (ref.bind fun n => r.docs[n]?).getD .empty

/-- `_remember`. -/
def remember (stamp : ℕ) (doc : Doc τ) (now : ℤ) : Record τ × ℕ :=
  ({ r with docs := r.docs ++ [doc], memo := some (stamp, r.docs.length), checked := some now }, r.docs.length)

/-- The part of `_disk_doc` that looks at the file. -/
def statDoc (now : ℤ) : Record τ × Option ℕ :=
  match r.file with
  | none => (r, none)
  | some f =>
    if r.memo.map (·.1) = some f.stamp then ({ r with checked := some now }, r.memo.map (·.2))
    else
      match f.doc with
      | some doc => ((r.remember f.stamp doc now).1, some (r.remember f.stamp doc now).2)
      | none => (r, r.memo.map (·.2))

/-- `_disk_doc`. -/
def diskDoc (recheckAfter now : ℤ) : Record τ × Option ℕ :=
  match r.memo, r.checked with
  | some m, some checked => if now - checked < recheckAfter then (r, some m.2) else r.statDoc now
  | _, _ => r.statDoc now

/-- What is not on disk yet, the write in progress first. -/
def overlays : List (Changes τ) := (r.writing.map (·.2)).toList ++ r.pending.toList

/-- `read`. -/
def read (now : ℤ) : Doc τ :=
  let (r', ref) := r.diskDoc writeInterval now
  r.overlays.foldl (fun doc c => c.apply doc) (r'.contents ref)

/-- `miss_facts`. -/
def missFacts (now : ℤ) (cacheKey : Str) : Record τ × MissFacts τ :=
  let (r', ref) := r.diskDoc writeInterval now
  let built := View.build started ref (ref.map fun n => r'.contents (some n)) r'.overlays
  match r'.view with
  | some v => if v.disk = ref then (r', v.facts cacheKey) else ({ r' with view := some built, left := [] }, built.facts cacheKey)
  | none => ({ r' with view := some built, left := [] }, built.facts cacheKey)

/-! ## Noting -/

/-- `_changes`. -/
def changes : Changes τ := r.pending.getD .empty

/-- The states of the changes with a key's state the most recent. -/
def noteState (flatLedger : Str → Option Ledger) (key : Str) (states : List (Str × Option Ledger)) :
    List (Str × Option Ledger) :=
  match keyParts key with
  | none => states
  | some p =>
    match states.lookup p.state with
    | some known => Items.putLast states p.state known
    | none =>
      let onDisk := r.memo.isSome ∧ p.state ∈ Items.keys (r.contents (r.memo.map (·.2))).states
      Items.trim (states ++ [(p.state, if onDisk then none else flatLedger p.state)]) statesMax

/-- `_note`. -/
def note (kind : Kind) (key : Str) (value : Value τ) (flatLedger : Str → Option Ledger) : Record τ :=
  let noted := r.changes.entries.put kind key value
  { r with
    pending := some
      { r.changes with
        entries := fun k => if k = kind then Items.trim (noted k) keysMax else noted k
        states := r.noteState flatLedger key r.changes.states }
    -- an older note left the record: the view is built again on the next miss
    view := if keysMax < (noted kind).length then none else r.view.map fun v => v.put started kind key value }

/-- `note_warning_shown`. -/
def noteWarningShown (digest : Str) (time : τ) : Record τ :=
  { r with pending := some { r.changes with warned := Items.trim (Dict.setItem r.changes.warned digest time) warnedMax } }

/-! ## Writing -/

/-- A write at another point. -/
def setPhase (id : ℕ) (phase : Phase τ) : Record τ :=
  { r with writers := r.writers.map fun w => if w.id = id then { w with phase := phase } else w }

/-- `_write_now` takes the changes. -/
def beginWrite : Record τ :=
  match r.pending with
  | none => r
  | some c =>
    { r with
      pending := none
      writing := some (r.begun, c)
      writers := r.writers ++ [⟨r.begun, c, .begun⟩]
      begun := r.begun + 1
      left := r.left ++ (r.writing.map fun p => (p.2, none)).toList }

/-- It reads the file. -/
def load (w : Writer τ) (now : ℤ) : Record τ :=
  match w.phase with
  | .begun => (r.diskDoc 0 now).1.setPhase w.id (.loaded ((r.diskDoc 0 now).1.contents (r.diskDoc 0 now).2))
  | _ => r

/-- The record with the changes, trimmed. -/
def trimmed (c : Changes τ) (doc : Doc τ) : Doc τ where
  entries := fun k => Items.trim ((c.apply doc).entries k) keysMax
  states := Items.trim (c.apply doc).states statesMax
  warned := Items.trim (c.apply doc).warned warnedMax

/-- It replaces the file. -/
def replace (w : Writer τ) (stamp : ℕ) : Record τ :=
  match w.phase with
  | .loaded doc => { r with file := some ⟨stamp, some (trimmed w.changes doc)⟩ }.setPhase w.id (.replaced (trimmed w.changes doc))
  | _ => r

/-- It remembers what it wrote. -/
def rememberWritten (w : Writer τ) (now : ℤ) : Record τ :=
  match w.phase, r.file with
  | .replaced doc, some f => (r.remember f.stamp doc now).1.setPhase w.id (.ended (some (r.remember f.stamp doc now).2))
  | _, _ => r

/-- It raises, at any point before it has remembered the record. -/
def failWrite (w : Writer τ) : Record τ :=
  match w.phase with
  | .ended _ => r
  | _ => r.setPhase w.id (.ended none)

/-- It ends. -/
def endWrite (w : Writer τ) : Record τ :=
  match w.phase with
  | .ended saved =>
    { r with
      writing := none
      writers := r.writers.filter (·.id ≠ w.id)
      left := r.left ++ (r.writing.map fun p => (p.2, if p.1 = w.id then saved else none)).toList }
  | _ => r

end Record

/-- What happens to a record. -/
inductive Event (τ : Type)
  | note (kind : Kind) (key : Str) (now : τ) (rest : Str) (flatLedger : Str → Option Ledger)
  | noteWarningShown (digest : Str) (time : τ)
  /-- `read`, or a write of another thread, looks at the file. -/
  | look (recheckAfter now : ℤ)
  | missFacts (now : ℤ) (cacheKey : Str)
  | beginWrite
  | load (id : ℕ) (now : ℤ)
  | replace (id stamp : ℕ)
  | rememberWritten (id : ℕ) (now : ℤ)
  | failWrite (id : ℕ)
  | endWrite (id : ℕ)
  /-- Another process rewrites the file, or removes it. -/
  | rewrite (file : Option (File τ))
  /-- The memo drops the record. -/
  | evict
  /-- `_after_fork_in_child`. -/
  | fork

namespace Record

variable (started : τ) (r : Record τ)

/-- What a write does next. -/
def withWriter (id : ℕ) (step : Writer τ → Record τ) : Record τ :=
  match r.writers.find? (·.id = id) with
  | some w => step w
  | none => r

/-- The record after what happens. -/
def after : Event τ → Record τ
  | .note kind key now rest flatLedger => r.note started kind key ⟨some now, rest⟩ flatLedger
  | .noteWarningShown digest time => r.noteWarningShown digest time
  | .look recheckAfter now => (r.diskDoc recheckAfter now).1
  | .missFacts now cacheKey => (r.missFacts started now cacheKey).1
  | .beginWrite => r.beginWrite
  | .load id now => r.withWriter id fun w => r.load w now
  | .replace id stamp => r.withWriter id fun w => r.replace w stamp
  | .rememberWritten id now => r.withWriter id fun w => r.rememberWritten w now
  | .failWrite id => r.withWriter id fun w => r.failWrite w
  | .endWrite id => r.withWriter id fun w => r.endWrite w
  | .rewrite file => { r with file := file }
  | .evict => { r with memo := none }
  | .fork => { r with writing := none, view := none, writers := [] }

/-- A run from the start. -/
def run (events : List (Event τ)) : Record τ := events.foldl (after started) start

end Record

end Cash.StoredKeys
