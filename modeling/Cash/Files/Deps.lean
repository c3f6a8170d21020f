import Cash.Lib.Bytes
import Cash.Lib.Dict
import Cash.Lib.Run

/-!
# File dependencies

`file_dep_snapshot.py` over a POSIX file system: the digest of a file and its memo, the snapshot of what a call has
read, and the check that it still holds. A call stats a file, asks the clock and reads the
file at three moments, and what else goes on between two of them is an input of the call.
-/

namespace Cash.Files.Deps

/-- What is outside the program: the content digest, how many units of time make a second, and the tick the file
system's stamps are rounded down to. -/
structure Env (D : Type) where
  digest : Bytes → D
  second : Nat
  tick : Nat
  tick_pos : 0 < tick
  tick_lt : tick < 10 * second

/-- `_HASH_MEMO_MIN_AGE_SECONDS`. -/
def Env.minAge {D : Type} (env : Env D) : Nat := 10 * env.second

/-! ## The file system -/

structure Inode where
  content : Bytes
  mtimeNs : Nat
  ctimeNs : Nat

/-- What a stat gives; `ino` stands for the device and the inode number. -/
structure Stat where
  ino : Nat
  size : Nat
  mtimeNs : Nat
  ctimeNs : Nat
deriving DecidableEq, Repr

/-- `stat_key`. -/
structure StatKey where
  size : Nat
  mtimeNs : Nat
  ctimeNs : Nat
deriving DecidableEq, Repr

def Stat.key (st : Stat) : StatKey := ⟨st.size, st.mtimeNs, st.ctimeNs⟩

variable {P D : Type}

/-! ## What is recorded -/

/-- An entry of a snapshot. -/
structure Entry (D : Type) where
  stat : Stat
  hash : Option D
  hashedAt : Option Nat

/-- A digest taken as the body read the file (`FileAccessTracker.known_reads`). -/
structure Known (D : Type) where
  key : StatKey
  digest : D
  hashedAt : Option Nat
  /-- The file that was read, which is not recorded. -/
  ino : Nat

/-- A digest that is put off (`digest_later`). -/
structure Deferred where
  stat : Stat
  hashedAt : Nat

/-- The file system, and what the program holds. -/
structure State (P D : Type) where
  clock : Nat
  inodes : Nat → Inode
  paths : P → Option Nat
  /-- The files mapped to write (`is_written_in_place`). -/
  mapped : List Nat
  /-- `_HASH_MEMO` and the table behind it. -/
  memo : Dict Stat D
  deferred : List (P × Deferred)
  known : List (P × Known D)
  entries : List (P × Entry D)

/-- What another process does to a file. A modification time can be put back, the change time cannot. -/
inductive External
  | wait (ns : Nat)
  | write (ino : Nat) (content : Bytes) (mtimeNs : Option Nat)
  | touch (ino : Nat) (mtimeNs : Option Nat)

namespace State

variable (env : Env D)

/-- The clock, rounded down to a tick. -/
def stamp (s : State P D) : Nat := s.clock - s.clock % env.tick

/-- The inode is changed now. -/
def change (s : State P D) (ino : Nat) (content : Bytes) (mtimeNs : Option Nat) : State P D :=
  let now := s.stamp env
  let inode := ⟨content, min (mtimeNs.getD now) now, now⟩
  { s with inodes := fun i => if i = ino then inode else s.inodes i }

def external (s : State P D) : External → State P D
  | .wait ns => { s with clock := s.clock + ns }
  | .write ino content mtimeNs => s.change env ino content mtimeNs
  | .touch ino mtimeNs => s.change env ino (s.inodes ino).content mtimeNs

/-- What goes on before the next moment of a call. -/
def pass (s : State P D) (pause : List External) : State P D := pause.foldl (external env) s

def statOf (s : State P D) (ino : Nat) : Stat :=
  ⟨ino, (s.inodes ino).content.length, (s.inodes ino).mtimeNs, (s.inodes ino).ctimeNs⟩

/-- `own_stat`; none for `OSError`. -/
def stat (s : State P D) (path : P) : Option Stat := (s.paths path).map s.statOf

def content (s : State P D) (path : P) : Option Bytes := (s.paths path).map fun ino => (s.inodes ino).content

end State

/-! ## The digest of a file -/

/-- What goes on during a call: before it asks the clock, before it asks it again, and before it reads the file. -/
structure Pauses where
  ask : List External
  askAgain : List External
  read : List External

variable [DecidableEq D] (env : Env D)

/-- The digest memo may be used for the file. -/
def trusted (s : State P D) (st : Stat) : Bool := decide (st.mtimeNs + env.minAge < s.clock) && !s.mapped.contains st.ino

/-- `_read_digest`, remembered under the key when there is one. -/
def readDigest (s : State P D) (path : P) (key : Option Stat) : Option D × State P D :=
  match s.content path with
  | none => (none, s)
  | some content =>
    (some (env.digest content),
      match key with
      | some key => { s with memo := s.memo.insert key (env.digest content) }
      | none => s)

/-- `file_content_hash(path, size, st)`. -/
def fileContentHash (s : State P D) (path : P) (size : Option Nat) (st : Option Stat) (pause : List External) :
    Option D × State P D :=
  match st <|> s.stat path with
  | none => (none, s)
  | some st =>
    let key := { st with size := size.getD st.size }
    if trusted env s st then
      match s.memo.lookup key with
      | some digest => (some digest, s)
      | none => readDigest env (s.pass env pause) path (some key)
    else readDigest env (s.pass env pause) path none

/-! ## Reads and snapshots -/

/-- A read of a file with `hash_on_read`, its digest taken now. `ownStat` is for a digest that stats the file again,
and `noted` for a tracker that notes when. -/
def read (s : State P D) (path : P) (ownStat noted : Bool) (pauses : Pauses) : State P D :=
  match s.stat path with
  | none => s
  | some st =>
    let s := s.pass env pauses.ask
    let hashedAt := if noted then some s.clock else none
    let s := s.pass env pauses.askAgain
    match fileContentHash env s path (some st.size) (if ownStat then none else some st) pauses.read with
    | (some digest, s) => { s with known := s.known ++ [(path, ⟨st.key, digest, hashedAt, st.ino⟩)] }
    | (none, s) => s

/-- A read whose digest is put off: only for a file the memo would trust. -/
def digestLater (s : State P D) (path : P) (pauses : Pauses) : State P D :=
  match s.stat path with
  | none => s
  | some st =>
    let s := s.pass env pauses.ask
    let hashedAt := s.clock
    let s := s.pass env pauses.askAgain
    if trusted env s st then
      match s.memo.lookup st with
      | some digest => { s with known := s.known ++ [(path, ⟨st.key, digest, some hashedAt, st.ino⟩)] }
      | none => { s with deferred := s.deferred ++ [(path, ⟨st, hashedAt⟩)] }
    else s

/-- `at_store`: a digest put off is taken, while the stat is the one of the read. -/
def settle (s : State P D) (path : P) (d : Deferred) (pauses : Pauses) : State P D :=
  match s.stat path with
  | none => s
  | some now =>
    if now = d.stat ∧ now.ino ∉ s.mapped then
      let s := s.pass env pauses.ask
      match fileContentHash env s path (some d.stat.size) (some now) pauses.read with
      | (some digest, s) =>
        { s with known := s.known ++ [(path, ⟨d.stat.key, digest, some d.hashedAt, d.stat.ino⟩)] }
      | (none, s) => s
    else s

/-- `snapshot_file_deps`, for one path. -/
def snapshotFileDep (s : State P D) (path : P) (known : Option (Known D)) (pauses : Pauses) : State P D :=
  match s.stat path with
  | none => s
  | some st =>
    match known.filter fun read => read.key = st.key with
    | some read => { s with entries := s.entries ++ [(path, ⟨st, some read.digest, read.hashedAt⟩)] }
    | none =>
      let s := s.pass env pauses.ask
      let hashedAt := s.clock
      let s := s.pass env pauses.askAgain
      match fileContentHash env s path (some st.size) (some st) pauses.read with
      | (some digest, s) => { s with entries := s.entries ++ [(path, ⟨st, some digest, some hashedAt⟩)] }
      | (none, s) => { s with entries := s.entries ++ [(path, ⟨st, none, none⟩)] }

/-! ## The check -/

/-- `_unchanged_since_hashed`. -/
def unchangedSinceHashed (st : Stat) (stored : Entry D) : Bool :=
  match stored.hashedAt with
  | none => false
  | some hashedAt =>
    st.mtimeNs = stored.stat.mtimeNs && st.ino = stored.stat.ino && stored.stat.ctimeNs = st.ctimeNs &&
      decide (st.mtimeNs + env.minAge < hashedAt)

/-- `_note_settled`. -/
def noteSettled (st : Stat) (stored : Entry D) (checkedAt : Nat) : Entry D :=
  if stored.hashedAt.any (checkedAt ≤ ·) then stored
  else if unchangedSinceHashed env st { stored with hashedAt := some checkedAt } then
    { stored with hashedAt := some checkedAt }
  else stored

inductive Answer
  | fresh
  | unreadable
  | size
  | content
  | mtime
deriving DecidableEq, Repr

/-- `file_dep_is_fresh`: the answer, the entry as it is left, and the state. -/
def fileDepIsFresh (s : State P D) (path : P) (stored : Entry D) (pauses : Pauses) :
    Answer × Entry D × State P D :=
  match s.stat path with
  | none => (.unreadable, stored, s)
  | some st =>
    if st.size ≠ stored.stat.size then (.size, stored, s)
    else match stored.hash with
      | some hash =>
        if unchangedSinceHashed env st stored && !s.mapped.contains st.ino then (.fresh, stored, s)
        else
          let s := s.pass env pauses.ask
          let checkedAt := s.clock
          let s := s.pass env pauses.askAgain
          let (current, s) := fileContentHash env s path (some st.size) (some st) pauses.read
          if current ≠ some hash then (.content, stored, s)
          else (.fresh, noteSettled env st stored checkedAt, s)
      | none => (if st.mtimeNs = stored.stat.mtimeNs then .fresh else .mtime, stored, s)

/-! ## Runs -/

inductive Event (P : Type)
  | external (e : External)
  /-- The path names another file from now on, or none. -/
  | replace (path : P) (ino : Option Nat)
  | map (ino : Nat)
  /-- A digest falls out of the memo. -/
  | forget (key : Stat)
  | fileContentHash (path : P) (pauses : Pauses)
  | read (path : P) (ownStat noted : Bool) (pauses : Pauses)
  | digestLater (path : P) (pauses : Pauses)
  /-- The digest put off as number `i` is taken. -/
  | settle (i : Nat) (pauses : Pauses)
  /-- A snapshot of a path, with the digest of its read number `i` when there is one. -/
  | snapshot (path : P) (i : Option Nat) (pauses : Pauses)
  /-- A check of entry number `i`. -/
  | check (i : Nat) (pauses : Pauses)

/-- The digest of the read number `i`, if it is one of the path. -/
def State.knownOf [DecidableEq P] (s : State P D) (path : P) (i : Option Nat) : Option (Known D) :=
  ((i.bind fun i => s.known[i]?).filter fun read => read.1 = path).map (·.2)

def exec [DecidableEq P] (s : State P D) : Event P → State P D
  | .external e => s.external env e
  | .replace path ino => { s with paths := fun p => if p = path then ino else s.paths p }
  | .map ino => { s with mapped := ino :: s.mapped }
  | .forget key => { s with memo := s.memo.erase key }
  | .fileContentHash path pauses => (fileContentHash env (s.pass env pauses.ask) path none none pauses.read).2
  | .read path ownStat noted pauses => read env s path ownStat noted pauses
  | .digestLater path pauses => digestLater env s path pauses
  | .settle i pauses =>
    match s.deferred[i]? with
    | some (path, d) => settle env s path d pauses
    | none => s
  | .snapshot path i pauses => snapshotFileDep env s path (s.knownOf path i) pauses
  | .check i pauses =>
    match s.entries[i]? with
    | some (path, stored) =>
      let (_, stored, s) := fileDepIsFresh env s path stored pauses
      { s with entries := s.entries.set i (path, stored) }
    | none => s

/-- Nothing is held yet. -/
def State.Initial (s : State P D) : Prop :=
  s.memo = ∅ ∧ s.deferred = [] ∧ s.known = [] ∧ s.entries = []

/-- The bytes of the path had the digest at a moment of a check: when it stats the file, or when it reads it. -/
def Held (s : State P D) (path : P) (pauses : Pauses) (hash : D) : Prop :=
  ∃ moment ∈ [s, ((s.pass env pauses.ask).pass env pauses.askAgain).pass env pauses.read],
    (moment.content path).map env.digest = some hash

/-- Another process leaves the file alone. -/
def External.Spares (ino : Nat) : External → Prop
  | .wait _ => True
  | .write i _ _ | .touch i _ => i ≠ ino

def Pauses.Spares (pauses : Pauses) (ino : Nat) : Prop :=
  (∀ e ∈ pauses.ask, e.Spares ino) ∧ (∀ e ∈ pauses.askAgain, e.Spares ino) ∧ ∀ e ∈ pauses.read, e.Spares ino

/-- The file of the path is left alone, and a snapshot that takes the digest of a read takes one from number
`since` on. -/
def Event.Spares (path : P) (ino since : Nat) : Event P → Prop
  | .external e => e.Spares ino
  | .replace p _ => p ≠ path
  | .map _ | .forget _ => True
  | .fileContentHash _ pauses | .read _ _ _ pauses | .digestLater _ pauses | .settle _ pauses | .check _ pauses =>
    pauses.Spares ino
  | .snapshot _ i pauses => pauses.Spares ino ∧ ∀ j ∈ i, since ≤ j

/-! ## When the stamps tell -/

/-- The tick the file was last changed in is over, if its modification time is old enough to be trusted. -/
def TickOver (clock : Nat) (st : Stat) : Prop := st.mtimeNs + env.minAge < clock → st.ctimeNs + env.tick ≤ clock

/-- When a call asks the clock, `TickOver` holds of what it knows of the file. -/
structure Calm (s : State P D) (path : P) (pauses : Pauses) : Prop where
  asked : ∀ st, s.stat path = some st → TickOver env (s.pass env pauses.ask).clock st ∧
    TickOver env ((s.pass env pauses.ask).pass env pauses.askAgain).clock st
  stated : ∀ st, (s.pass env pauses.ask).stat path = some st → TickOver env (s.pass env pauses.ask).clock st
  again : ∀ st, ((s.pass env pauses.ask).pass env pauses.askAgain).stat path = some st →
    TickOver env ((s.pass env pauses.ask).pass env pauses.askAgain).clock st

/-- The event finds the files calm, and a snapshot with the digest of a read finds the file that was read. -/
def Event.Calm [DecidableEq P] (s : State P D) : Event P → Prop
  | .external _ | .replace _ _ | .map _ | .forget _ => True
  | .fileContentHash path pauses | .read path _ _ pauses | .digestLater path pauses => Deps.Calm env s path pauses
  | .settle i pauses => ∀ d, s.deferred[i]? = some d → Deps.Calm env s d.1 pauses
  | .snapshot path i pauses => Deps.Calm env s path pauses ∧
    ∀ read st, s.knownOf path i = some read → s.stat path = some st → read.key = st.key → read.ino = st.ino
  | .check i pauses => ∀ e, s.entries[i]? = some e → Deps.Calm env s e.1 pauses

/-- An event of a run in which all is calm. -/
def CalmStep [DecidableEq P] (s : State P D) (event : Event P) (s' : State P D) : Prop :=
  event.Calm env s ∧ s' = exec env s event

end Cash.Files.Deps
