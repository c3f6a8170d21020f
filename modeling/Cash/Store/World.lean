import Cash.Lib.Threads
import Cash.Store.Backend
import Cash.Store.Good

/-!
# Processes over one cache folder

The folder, what each call does to it, and any number of processes with any number of threads each, whose
calls interleave. A process may be gone at any moment, between any two calls; its files stay.
-/

namespace Cash.Store

open Bytes Py Chunks Entry

/-! ## The folder -/

/-- A file of the chunk folder. -/
structure File where
  data : Bytes
  mtime : Nat
deriving DecidableEq, Repr

def File.stat (f : File) : Stat := ⟨f.data.length, f.mtime⟩

def EntryFile.size (e : EntryFile) : Nat := headerSize + e.cap + e.payload.length

/-- What a file beside the entries holds. -/
inductive Slot
  /-- No header yet (`_write_new_in_place`): it reads as no entry. -/
  | unfinished
  | whole (e : EntryFile)

structure Folder where
  /-- The chunk folder. -/
  chunks : Dict Str File
  /-- The entries: stem -> file. -/
  entries : Dict Str Nat
  /-- The files the entries, the temp files and the open handles refer to. -/
  files : Dict Nat Slot

/-- What a call does in the folder. Every call of the file system may also fail. -/
inductive FolderStep (H : Hashes) : ∀ {β : Type}, Folder → Op β → β → Folder → Prop
  | iterate {F : Folder} {names order : List Str} : order.Perm names → FolderStep H F (.iterate names) order F
  | time {F : Folder} (now : Nat) : FolderStep H F .time now F
  | digest {F : Folder} {view : Bytes} : view ∈ H.buffers → FolderStep H F (.digest view) (H.bulkDigest view) F
  | packName {F : Folder} {ms : List Digest} : ms ∈ H.packs → FolderStep H F (.packName ms) (packName H.sha256 ms) F
  | stat {F : Folder} {name : Str} : FolderStep H F (.stat name) ((F.chunks.lookup name).map File.stat) F
  | statFails {F : Folder} {name : Str} : FolderStep H F (.stat name) none F
  | utime {F : Folder} {name : Str} {f : File} (now : Nat) : F.chunks.lookup name = some f →
      FolderStep H F (.utime name) true { F with chunks := F.chunks.insert name { f with mtime := now } }
  | utimeFails {F : Folder} {name : Str} : FolderStep H F (.utime name) false F
  | remove {F : Folder} {name : Str} : name ∈ F.chunks →
      FolderStep H F (.remove name) true { F with chunks := F.chunks.erase name }
  | removeFails {F : Folder} {name : Str} : FolderStep H F (.remove name) false F
  | read {F : Folder} {name : Str} : FolderStep H F (.read name) ((F.chunks.lookup name).map File.data) F
  | readFails {F : Folder} {name : Str} : FolderStep H F (.read name) none F
  | scan {F : Folder} {names : List Str} : names.Perm F.chunks.keys → FolderStep H F .scan (some names) F
  | scanFails {F : Folder} : FolderStep H F .scan none F
  | isDir {F : Folder} (b : Bool) : FolderStep H F .isDir b F
  | temp {F : Folder} (o : Outcome) : FolderStep H F .temp o F
  | own {F : Folder} (b : Bool) : FolderStep H F .own b F
  | replace {F : Folder} {data : Bytes} {name : Str} (now : Nat) :
      FolderStep H F (.replace data name) true { F with chunks := F.chunks.insert name ⟨data, now⟩ }
  | replaceFails {F : Folder} {data : Bytes} {name : Str} : FolderStep H F (.replace data name) false F
  | create {F : Folder} {name : Str} (now : Nat) : name ∉ F.chunks →
      FolderStep H F (.create name) .done { F with chunks := F.chunks.insert name ⟨[], now⟩ }
  | createExists {F : Folder} {name : Str} : name ∈ F.chunks → FolderStep H F (.create name) .exists F
  | createFails {F : Folder} {name : Str} : FolderStep H F (.create name) .failed F
  | entryFiles {F : Folder} {stems : List Str} : stems.Perm F.entries.keys → FolderStep H F .entryFiles stems F
  | statEntry {F : Folder} {stem : Str} {ino : Nat} {e : EntryFile} : F.entries.lookup stem = some ino →
      F.files.lookup ino = some (.whole e) → FolderStep H F (.statEntry stem) (some e.size) F
  | statUnfinished {F : Folder} {stem : Str} {ino : Nat} (size : Nat) : F.entries.lookup stem = some ino →
      F.files.lookup ino = some .unfinished → FolderStep H F (.statEntry stem) (some size) F
  | statEntryFails {F : Folder} {stem : Str} : FolderStep H F (.statEntry stem) none F
  | openEntry {F : Folder} {stem : Str} : FolderStep H F (.openEntry stem) (F.entries.lookup stem) F
  | openEntryFails {F : Folder} {stem : Str} : FolderStep H F (.openEntry stem) none F
  | readFile {F : Folder} {ino : Nat} {e : EntryFile} : F.files.lookup ino = some (.whole e) →
      FolderStep H F (.readFile ino) (some e) F
  | readFileFails {F : Folder} {ino : Nat} : FolderStep H F (.readFile ino) none F
  | readFrom {F : Folder} {ino : Nat} {e : EntryFile} : F.files.lookup ino = some (.whole e) →
      FolderStep H F (.readFrom ino (headerSize + e.cap)) (some e.payload) F
  /-- Not where the payload starts, or no entry: some bytes. -/
  | readAnything {F : Folder} {ino start : Nat} (data : Bytes) :
      (∀ e, F.files.lookup ino = some (.whole e) → start ≠ headerSize + e.cap) →
      FolderStep H F (.readFrom ino start) (some data) F
  | readFromFails {F : Folder} {ino start : Nat} : FolderStep H F (.readFrom ino start) none F
  | tempFile {F : Folder} {ino : Nat} {e : EntryFile} : ino ∉ F.files →
      FolderStep H F (.tempFile e) (some ino) { F with files := F.files.insert ino (.whole e) }
  | tempFileFails {F : Folder} {e : EntryFile} : FolderStep H F (.tempFile e) none F
  | takeAside {F : Folder} {stem : Str} {ino : Nat} : F.entries.lookup stem = some ino →
      FolderStep H F (.takeAside stem) (some ino) { F with entries := F.entries.erase stem }
  | takeAsideFails {F : Folder} {stem : Str} : FolderStep H F (.takeAside stem) none F
  | link {F : Folder} {ino : Nat} {stem : Str} : stem ∉ F.entries →
      FolderStep H F (.link ino stem) .done { F with entries := F.entries.insert stem ino }
  | linkExists {F : Folder} {ino : Nat} {stem : Str} : stem ∈ F.entries → FolderStep H F (.link ino stem) .exists F
  | linkFails {F : Folder} {ino : Nat} {stem : Str} : FolderStep H F (.link ino stem) .failed F
  | createEntry {F : Folder} {stem : Str} {ino : Nat} : stem ∉ F.entries → ino ∉ F.files →
      FolderStep H F (.createEntry stem) (.ok ino)
        { F with entries := F.entries.insert stem ino, files := F.files.insert ino .unfinished }
  | createEntryFails {F : Folder} {stem : Str} (why : Made) : FolderStep H F (.createEntry stem) (.error why) F
  | writeFile {F : Folder} {ino : Nat} {e : EntryFile} :
      FolderStep H F (.writeFile ino e) true { F with files := F.files.insert ino (.whole e) }
  | writeFileFails {F : Folder} {ino : Nat} {e : EntryFile} : FolderStep H F (.writeFile ino e) false F
  | replaceEntry {F : Folder} {ino : Nat} {stem : Str} :
      FolderStep H F (.replaceEntry ino stem) true { F with entries := F.entries.insert stem ino }
  | replaceEntryFails {F : Folder} {ino : Nat} {stem : Str} : FolderStep H F (.replaceEntry ino stem) false F
  | removeEntry {F : Folder} {stem : Str} : stem ∈ F.entries →
      FolderStep H F (.removeEntry stem) .done { F with entries := F.entries.erase stem }
  | removeNotFound {F : Folder} {stem : Str} : stem ∉ F.entries → FolderStep H F (.removeEntry stem) .notFound F
  | removeEntryFails {F : Folder} {stem : Str} : FolderStep H F (.removeEntry stem) .failed F

/-! ## Processes -/

/-- Which of the 64 locks is the entry's. -/
def entryLock (stem : Str) : Nat := (crc32 (stem.map UInt8.ofNat) 0).toNat % 64

/-- What one process has in memory: the tables, and which thread holds each of the locks, how often. -/
structure Process where
  tables : Tables
  locks : Nat → Option (Nat × Nat)

def Process.new : Process := ⟨.new, fun _ => none⟩

/-- May thread `tid` take the lock? -/
def Process.free (p : Process) (tid lock : Nat) : Prop := ∀ owner n, p.locks lock = some (owner, n) → owner = tid

def Process.take (p : Process) (tid lock : Nat) : Process :=
  { p with locks := Function.update p.locks lock (some (tid, ((p.locks lock).map (·.2)).getD 0 + 1)) }

def Process.letGo (p : Process) (lock : Nat) : Process :=
  match p.locks lock with
  | some (owner, n + 2) => { p with locks := Function.update p.locks lock (some (owner, n + 1)) }
  | _ => { p with locks := Function.update p.locks lock none }

/-- What a call of thread `tid` does in its process and in the folder. -/
inductive CallStep (H : Hashes) (tid : Nat) : ∀ {β : Type}, Process × Folder → Op β → β → Process × Folder → Prop
  | locked {α : Type} {p : Process} {F : Folder} {f : Tables → α × Tables} :
      CallStep H tid (p, F) (.locked f) (f p.tables).1 ({ p with tables := (f p.tables).2 }, F)
  | commit {p : Process} {F : Folder} {stem : Str} {held : Held} {replaced : Option Held} {places : Places} :
      CallStep H tid (p, F) (.commit stem held replaced places) (p.tables.commit stem held replaced places).1
        ({ p with tables := (p.tables.commit stem held replaced places).2 }, F)
  | release {p : Process} {F : Folder} {stem : Str} {held : Option Held} :
      CallStep H tid (p, F) (.release stem held) (p.tables.release stem held).1
        ({ p with tables := (p.tables.release stem held).2 }, F)
  | repoint {p : Process} {F : Folder} {stem old new : Str} {placed : Places} :
      CallStep H tid (p, F) (.repoint stem old new placed) (p.tables.repoint stem old new placed).1
        ({ p with tables := (p.tables.repoint stem old new placed).2 }, F)
  | lock {p : Process} {F : Folder} {stem : Str} : p.free tid (entryLock stem) →
      CallStep H tid (p, F) (.lock stem) () (p.take tid (entryLock stem), F)
  | tryLock {p : Process} {F : Folder} {stem : Str} : p.free tid (entryLock stem) →
      CallStep H tid (p, F) (.tryLock stem) true (p.take tid (entryLock stem), F)
  | tryLockHeld {p : Process} {F : Folder} {stem : Str} : ¬p.free tid (entryLock stem) →
      CallStep H tid (p, F) (.tryLock stem) false (p, F)
  | unlock {p : Process} {F : Folder} {stem : Str} :
      CallStep H tid (p, F) (.unlock stem) () (p.letGo (entryLock stem), F)
  | folder {β : Type} {op : Op β} {b : β} {p : Process} {F F' : Folder} : FolderStep H F op b F' →
      CallStep H tid (p, F) op b (p, F')

/-- The processes and the folder they share. -/
structure World where
  processes : Nat → Process
  folder : Folder

def worldStep (H : Hashes) : Prog.ThreadSem Op World := fun pid tid _ w op b w' =>
  ∃ p F, CallStep H tid (w.processes pid, w.folder) op b (p, F) ∧ w' = ⟨Function.update w.processes pid p, F⟩

/-- The memory of a process goes with it. -/
def World.die (pid : Nat) (w w' : World) : Prop := w' = { w with processes := Function.update w.processes pid .new }

/-! ## Tasks -/

/-- What a thread comes back with. -/
inductive Reply
  | done
  /-- The chunks an entry's table asked for, and what was read. -/
  | read (entry : EntryFile) (wanted : List Wanted) (found : List (Nat × Bytes))

/-- An operation of which only the files it leaves count. -/
def quiet {α : Type} (p : StoreM α) : StoreM Reply := p.after (fun _ => .ret .done) fun _ => .ret .done

/-- A read of the chunks of the entry `stem`; `table` is its table of chunks. -/
def readTask (conf : Conf) (stem : Str) (table : EntryFile → List Wanted) : StoreM Reply := do
  match ← entryAt stem with
  | none => pure .done
  | some e => do
      let found ← readStored conf (table e) (placesItems e.places)
      pure (.read e (table e) found)

/-- What the threads of the processes do. -/
inductive Task (H : Hashes) (conf : Conf) : StoreM Reply → Prop
  | write (stem : Str) (views : List Bytes) (known : List (Option Digest)) (pack : Stored → Option EntryFile) :
      (∀ v ∈ views.zip known, v.1 ∈ H.buffers ∧ ∀ d, v.2 = some d → d = H.bulkDigest v.1) →
      Task H conf (quiet (writeCacheFiles conf stem views known pack))
  | remove (stem : Str) : Task H conf (quiet (removePath conf stem))
  | removeDamaged (stem pack : Str) (offset : Nat) : Task H conf (quiet (removeDamaged conf stem pack offset))
  | release (stem : Str) (held : Option Held) : Task H conf (quiet (release conf stem held))
  | drop (names : List Str) : Task H conf (quiet (drop names))
  | ensureIndex : Task H conf (quiet ensureIndex)
  | sweepOrphans : Task H conf (quiet sweepOrphans)
  | compactOne (name : Str) : Task H conf (quiet (compactOne conf name))
  | clear : Task H conf (quiet clear)
  | clearAll : Task H conf (quiet clearAll)
  | read (stem : Str) (table : EntryFile → List Wanted) : (∀ e, ((table e).map (·.index)).Nodup) →
      Task H conf (readTask conf stem table)

/-- A folder with good files and entries. -/
structure GoodFolder (H : Hashes) (F : Folder) : Prop where
  chunks : ∀ name f, F.chunks.lookup name = some f → GoodFile H name f.data
  files : ∀ ino e, F.files.lookup ino = some (.whole e) → GoodEntry H e

/-- What any number of processes reach from a folder, each started afresh. -/
def Reachable (H : Hashes) (conf : Conf) (F : Folder) (c : Prog.Config Op Exn Reply World) : Prop :=
  Relation.ReflTransGen (Prog.Sched (worldStep H) (Task H conf) World.die) (.initial ⟨fun _ => .new, F⟩) c

/-!
## The entries of one process

The threads of one process write and remove entries in a folder of their own. Beside the process and the
folder, `Single` keeps the entries that count: those whose `commit` has been through its section and whose
`release` has not, each with its list of chunks. An entry whose `commit` has returned and whose `release` has
not started is one of them.
-/

structure Single where
  process : Process
  folder : Folder
  /-- entry stem -> the files in its list of chunks -/
  live : Dict Str (List Str)

/-- The list of an entry is the one `commit` was given, with the packs that `_repoint` moved it to. -/
def watch {β : Type} (op : Op β) (live : Dict Str (List Str)) : Dict Str (List Str) :=
  match op with
  | .commit stem held _ _ => if held = [] then live.erase stem else live.insert stem (held.map (·.1))
  | .release stem _ => live.erase stem
  | .repoint stem old new _ =>
      match live.lookup stem with
      | none => live
      | some names => live.insert stem ((names.filter (· ≠ old)).insert new)
  | _ => live

/-- A call of thread `tid`. -/
def singleStep (H : Hashes) : Prog.ThreadSem Op Single := fun _ tid _ s op b s' =>
  ∃ p F, CallStep H tid (s.process, s.folder) op b (p, F) ∧ s' = ⟨p, F, watch op s.live⟩

/-- A file removed from the chunk folder is one that no entry and no write in flight holds. -/
def RemovesUnused {β : Type} (s : Single) (op : Op β) (b : β) : Prop :=
  match op, b with
  | .remove name, true => s.process.tables.inUse name = false
  | _, _ => True

/-- The calls that remove no file in use. -/
def carefulStep (H : Hashes) : Prog.ThreadSem Op Single := fun pid tid _ s op b s' =>
  singleStep H pid tid _ s op b s' ∧ RemovesUnused s op b

/-- What the threads do. -/
inductive Work (conf : Conf) : StoreM Unit → Prop
  | write (stem : Str) (views : List Bytes) (known : List (Option Digest)) (pack : Stored → Option EntryFile) :
      Work conf (do let _ ← writeCacheFiles conf stem views known pack)
  | remove (stem : Str) : Work conf (do let _ ← removePath conf stem)
  | removeDamaged (stem pack : Str) (offset : Nat) : Work conf (do let _ ← removeDamaged conf stem pack offset)
  | release (stem : Str) (held : Option Held) : Work conf (do let _ ← release conf stem held)
  | ensureIndex : Work conf (do let _ ← ensureIndex)
  | compactOne (name : Str) : Work conf (do let _ ← compactOne conf name)

/-- What the threads reach from a folder, where `step` says what a call does. -/
def Reaches (conf : Conf) (step : Prog.ThreadSem Op Single) (F : Folder)
    (c : Prog.Config Op Exn Unit Single) : Prop :=
  Relation.ReflTransGen (Prog.Sched step (Work conf) fun _ _ _ => False) (.initial ⟨.new, F, ∅⟩) c

end Cash.Store
