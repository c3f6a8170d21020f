import Cash.Lib.Dict

/-!
# Versions of a file

Which earlier version of a file a later one holds byte for byte (`file_versions`), for the calls on one canonical
path. `_EARLIER` and `_BY_CONTENT` hold fewer versions than their size, so nothing is dropped from them; the items
of each are ordered by their last use. The digest of a file is taken to be its bytes.
-/

namespace Cash.Files

/-- `(modification time ns, size, change time ns)`. -/
structure Version where
  mtimeNs : Int
  size : Int
  ctimeNs : Int
deriving DecidableEq, Repr

variable {D : Type} [DecidableEq D]

/-- A line of the log. -/
inductive Line (D : Type)
  | version (own root : Version)
  | content (digest : D) (version : Version)
deriving DecidableEq, Repr

/-- A process that keeps its versions in a cache directory. -/
structure Process (D : Type) where
  earlier : Dict Version Version
  byContent : Dict D Version
  /-- The lines of the log, those still waiting to be written at the end. -/
  log : List (Line D)
  lines : Nat

def Process.start : Process D := ⟨∅, ∅, [], 0⟩

def compactAt : Nat := 50000

def keep : Nat := 20000

namespace Process

/-- `_VersionLog._compact`. -/
def compact (p : Process D) : Process D :=
  let newest := p.earlier.newest keep
  let contents := p.byContent.newest keep
  { p with
    log := contents.map (fun c => .content c.1 c.2) ++
      (newest.filter fun e => e.1 ≠ e.2).map fun e => .version e.1 e.2
    lines := newest.length + contents.length }

/-- `_VersionLog._write`. -/
def write (p : Process D) (line : Line D) : Process D :=
  let p := { p with log := p.log ++ [line], lines := p.lines + 1 }
  if compactAt < p.lines then p.compact else p

/-- What `file_version` answers. -/
def answer (p : Process D) (own : Version) : Version := (p.earlier.lookup own).getD own

/-- `file_version`. -/
def fileVersion (p : Process D) (own : Version) : Version × Process D :=
  (p.answer own, { p with earlier := p.earlier.touch own })

/-- `content_version` hashes the file: no version is known for it, and it was written since the process started. -/
def hashes (startedNs : Int) (p : Process D) (own : Version) : Bool :=
  p.earlier.lookup own = none && !(max own.mtimeNs own.ctimeNs < startedNs)

/-- `content_version` once the file is hashed. -/
def linkContent (p : Process D) (own : Version) (content : D) : Version × Process D :=
  match p.byContent.lookup content with
  | none =>
    let p := { p with byContent := p.byContent.insert content own }.write (.content content own)
    (own, { p with earlier := p.earlier.insert own own })
  | some root =>
    let p := { p with byContent := p.byContent.touch content }.write (.version own root)
    (root, { p with earlier := p.earlier.insert own root })

/-- `content_version`; `digest` is what hashing the file gives, none where it cannot be read. -/
def contentVersion (startedNs : Int) (p : Process D) (own : Version) (digest : Option D) : Version × Process D :=
  match p.earlier.lookup own with
  | some known => (known, { p with earlier := p.earlier.touch own })
  | none =>
    if max own.mtimeNs own.ctimeNs < startedNs then (own, p)
    else match digest with
      | none => (own, p)
      | some content => p.linkContent own content

/-- `note_same_content`: the file, now of the version `own`, was found to hold the bytes of `recorded`. -/
def noteSameContent (p : Process D) (own recorded : Version) : Process D :=
  if own = recorded then p
  else
    let root := p.answer recorded
    let p := { p with earlier := p.earlier.touch recorded }
    if p.earlier.lookup own = some root then { p with earlier := p.earlier.touch own }
    else { p with earlier := p.earlier.insert own root }.write (.version own root)

/-- One line of the log (`_VersionLog.load`): the first of a version, or of a content, counts. -/
def loadLine (p : Process D) : Line D → Process D
  | .version own root =>
    { p with
      lines := p.lines + 1
      earlier := if (p.earlier.lookup own).isNone then p.earlier.insert own root else p.earlier }
  | .content digest version =>
    { p with
      lines := p.lines + 1
      byContent := if (p.byContent.lookup digest).isNone then p.byContent.insert digest version else p.byContent }

/-- A new process that loads the log. -/
def load (log : List (Line D)) : Process D := log.foldl loadLine { Process.start with log := log }

end Process

/-! ## Runs -/

/-- A process, and what its calls have found. -/
structure World (D : Type) where
  process : Process D
  /-- The pairs of versions found to hold the same bytes. -/
  noted : List (Version × Version)
  /-- The versions that were hashed, with what they hold. -/
  hashed : List (Version × D)

def World.start : World D := ⟨.start, [], []⟩

/-- The calls. -/
inductive Call (D : Type)
  | fileVersion (own : Version)
  | contentVersion (own : Version) (digest : Option D)
  | noteSameContent (own recorded : Version)
  | compact

/-- The version that was hashed by the call, and its content. -/
def hashedBy (startedNs : Int) (p : Process D) (own : Version) (digest : Option D) : List (Version × D) :=
  if p.hashes startedNs own then digest.toList.map fun d => (own, d) else []

inductive Step (startedNs : Int) (bytes : Version → D) (s : World D) : Call D → World D → Prop
  | fileVersion (own : Version) :
      Step startedNs bytes s (.fileVersion own) { s with process := (s.process.fileVersion own).2 }
  | contentVersion (own : Version) (digest : Option D) : (∀ d, digest = some d → d = bytes own) →
      Step startedNs bytes s (.contentVersion own digest) { s with
        process := (s.process.contentVersion startedNs own digest).2
        hashed := hashedBy startedNs s.process own digest ++ s.hashed }
  | noteSameContent (own recorded : Version) : bytes own = bytes recorded →
      Step startedNs bytes s (.noteSameContent own recorded) { s with
        process := s.process.noteSameContent own recorded
        noted := (own, recorded) :: s.noted }
  | compact : Step startedNs bytes s .compact { s with process := s.process.compact }

/-- Directly found to hold the same bytes. -/
def World.Found (s : World D) (v w : Version) : Prop :=
  (v, w) ∈ s.noted ∨ ∃ d, (v, d) ∈ s.hashed ∧ (w, d) ∈ s.hashed

/-- Found to hold the same bytes, directly or through a chain of findings. -/
def World.Established (s : World D) : Version → Version → Prop := Relation.EqvGen s.Found

structure Faithful (bytes : Version → D) (s : World D) : Prop where
  /-- Versions answered alike hold the same bytes. -/
  bytes : ∀ v w, s.process.answer v = s.process.answer w → bytes v = bytes w
  /-- Versions established to hold the same bytes are answered alike. -/
  established : ∀ v w, s.Established v w → s.process.answer v = s.process.answer w
  /-- An answer is answered by itself. -/
  answer : ∀ v, s.process.answer (s.process.answer v) = s.process.answer v
  /-- A process that loads the log answers as this one. -/
  load : ∀ v, (Process.load s.process.log).answer v = s.process.answer v

/-! ## When no version changes its answer twice -/

/-- The version is its own answer and no other's. -/
def Process.Alone (p : Process D) (own : Version) : Prop := p.answer own = own ∧ ∀ v, p.answer v = own → v = own

/-- The next line written does not make the log be rewritten, or the rewriting keeps every version. -/
def Process.Roomy (p : Process D) : Prop := p.lines < compactAt ∨ p.earlier.entries.length < keep

/-- What a call may meet: a version that is linked to another has no link yet, nor has another to it; the
version first seen with a content still answers itself; and the log is not rewritten while a version found by its
content is missing from it, nor with more versions than are kept. -/
def Steady (startedNs : Int) (p : Process D) : Call D → Prop
  | .fileVersion _ => True
  | .contentVersion own digest => ∀ d, digest = some d → p.hashes startedNs own →
      match p.byContent.lookup d with
      | none => p.Roomy
      | some root => p.answer root = root ∧ p.Alone own ∧ p.lines < compactAt
  | .noteSameContent own recorded => own ≠ recorded → p.earlier.lookup own ≠ some (p.answer recorded) →
      (p.answer own = p.answer recorded ∨ p.Alone own) ∧ p.Roomy
  | .compact => p.earlier.entries.length ≤ keep

def steadyStep (startedNs : Int) (bytes : Version → D) (s : World D) (c : Call D) (s' : World D) : Prop :=
  Step startedNs bytes s c s' ∧ Steady startedNs s.process c

end Cash.Files
