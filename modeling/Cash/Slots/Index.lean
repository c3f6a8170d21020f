import Cash.Lib.Items
import Cash.Lib.Py
import Cash.Lib.Words

/-!
# The versions of each slot, and their log

`VersionIndex` of `versions.py`, in one process. Appends reach the file, unless a line cannot be encoded; the rename that ends
a compaction may fail. The file is its bytes. `remove` is left out.
-/

namespace Cash.Slots

open Py

variable {F : Type}

/-! ## Texts -/

/-- `str.isascii`. -/
def ascii (s : Str) : Bool := s.all (decide <| · < 128)

/-- The text of bytes read as ASCII with `errors="replace"`. -/
def decode (file : Str) : Str := file.map fun c => if c < 128 then c else 0xfffd

/-- The lines of a file opened as text. -/
def fileLines (file : Str) : List Str := Words.lines 10 (Words.newlines 13 10 false (decode file))

/-- A file that is empty or ends a line. -/
abbrev Ended (file : Str) : Prop := Words.Ended 13 10 file

/-- `str.isspace` of an ASCII character, or of U+FFFD. -/
def isSpace (c : Nat) : Bool := decide (9 ≤ c ∧ c ≤ 13) || decide (28 ≤ c ∧ c ≤ 32)

/-- `line.split()`. -/
def words (line : Str) : List Str := Words.split isSpace line

/-- `_valid`, of one token. -/
def valid (t : Str) : Bool := !t.isEmpty && ascii t && !t.any isSpace

/-- The texts of an `int` and a `float`, and what they are read as: a number is read back from its `repr`, which is one
word. -/
structure Numbers (F : Type) where
  intText : Int → Str
  int : Str → Option Int
  repr : F → Str
  float : Str → Option F
  gt : F → F → Bool
  int_intText : ∀ n, int (intText n) = some n
  float_repr : ∀ x, float (repr x) = some x
  valid_intText : ∀ n, valid (intText n) = true
  valid_repr : ∀ x, valid (repr x) = true

/-- `_REMOVED`. -/
def removed : Str := str "-"

/-! ## The index -/

structure Version (F : Type) where
  key : Str
  size : Int
  cost : F
  used : F
deriving DecidableEq

structure Index (F : Type) where
  slots : List (Str × List (Str × Version F))
  slotOf : List (Str × Str)
  lines : Nat

namespace Index

def empty : Index F := ⟨[], [], 0⟩

/-- `slots.get(slot, {})`. -/
def versions (i : Index F) (slot : Str) : List (Str × Version F) := (i.slots.lookup slot).getD []

/-- `slots.get(slot, {}).pop(key, None)`. -/
def popIn (slots : List (Str × List (Str × Version F))) (slot key : Str) : List (Str × List (Str × Version F)) :=
  slots.map fun p => if p.1 = slot then (p.1, Items.pop p.2 key) else p

/-- A version noted in a slot: popped from the slot it was in, when that is another. -/
def place (i : Index F) (slot : Str) (v : Version F) : Index F :=
  let slots :=
    match i.slotOf.lookup v.key with
    | some old => if old ≠ slot then popIn i.slots old v.key else i.slots
    | none => i.slots
  { i with
    slots := Dict.setItem slots slot (Dict.setItem ((slots.lookup slot).getD []) v.key v)
    slotOf := Dict.setItem i.slotOf v.key slot }

/-- A key popped, from its slot too. -/
def unplace (i : Index F) (key : Str) : Index F :=
  match i.slotOf.lookup key with
  | none => i
  | some slot => { i with slots := popIn i.slots slot key, slotOf := Items.pop i.slotOf key }

end Index

variable (num : Numbers F)

/-- The words of a line, as `_load` takes them. -/
def Index.take (i : Index F) : List Str → Index F
  | [first, key] => if first = removed then i.unplace key else i
  | [slot, key, size, cost, used] =>
    match num.int size, num.float cost, num.float used with
    | some size, some cost, some used => i.place slot ⟨key, size, cost, used⟩
    | _, _, _ => i
  | _ => i

/-- A line of the file, as `_load` reads it. -/
def Index.loadLine (i : Index F) (line : Str) : Index F := { i.take num (words line) with lines := i.lines + 1 }

/-- `_load`. -/
def load (file : Str) : Index F := (fileLines file).foldl (Index.loadLine num) .empty

/-- `f"{slot} {key} {size} {cost!r} {used!r}\n"`. -/
def versionLine (slot : Str) (v : Version F) : Str :=
  Words.join 32 10 [slot, v.key, num.intText v.size, num.repr v.cost, num.repr v.used]

/-- `f"- {key}\n"`. -/
def removedLine (key : Str) : Str := Words.join 32 10 [removed, key]

/-- The file and the index of a process over it, none before it is read. -/
structure World (F : Type) where
  file : Str
  index : Option (Index F)

/-- The index, loaded when it was not. -/
def World.loaded (w : World F) : Index F := w.index.getD (load num w.file)

/-- `_append`, of lines that can be encoded. -/
def append (file : Str) (i : Index F) (lines : List Str) : World F :=
  ⟨file ++ lines.flatten, some { i with lines := i.lines + lines.length }⟩

/-- `record`, and the versions it returns. -/
def record (w : World F) (slot key : Str) (size : Int) (cost used : F) : List (Str × Version F) × World F :=
  if !(valid slot && valid key) then ([], w)
  else
    let v : Version F := ⟨key, size, cost, used⟩
    let i := (w.loaded num).place slot v
    (i.versions slot, append w.file i [versionLine num slot v])

/-- `touch`; none where its append raises. -/
def touch (w : World F) (key : Str) (used : F) : Option (World F) :=
  let i := w.loaded num
  match i.slotOf.lookup key with
  | none => some { w with index := some i }
  | some slot =>
    match (i.versions slot).lookup key with
    | none => some { w with index := some i }
    | some v =>
      let v := { v with used := if num.gt used v.used then used else v.used }
      let i := { i with slots := Dict.setItem i.slots slot (Dict.setItem (i.versions slot) key v) }
      -- A slot or a key of the file may hold U+FFFD, which the file's encoding has not.
      if ascii (versionLine num slot v) then some (append w.file i [versionLine num slot v]) else none

/-- The lines of `_compact`. -/
def body (i : Index F) : List Str := i.slots.flatMap fun p => p.2.map fun q => versionLine num p.1 q.2

/-- `_compact`; `renames` when the rename succeeds. A text that cannot be encoded raises before the file is changed. -/
def compact (renames : Bool) (file : Str) (i : Index F) : World F :=
  if renames && ascii (body num i).flatten then
    ⟨(body num i).flatten, some { i with lines := (body num i).flatten.count 10 }⟩
  else ⟨file, some i⟩

/-- The loop of `forget`: the index, and the lines to append. -/
def forgetKeys (i : Index F) : List Str → Index F × List Str
  | [] => (i, [])
  | key :: keys =>
    match i.slotOf.lookup key with
    | none => forgetKeys i keys
    | some _ =>
      let (i, lines) := forgetKeys (i.unplace key) keys
      (i, if valid key then removedLine key :: lines else lines)

/-- `forget`. -/
def forget (w : World F) (keys : List Str) (renames : Bool) : World F :=
  let (i, lines) := forgetKeys (w.loaded num) keys
  let file := w.file ++ lines.flatten
  let i := { i with lines := i.lines + lines.length }
  if i.lines > 2 * i.slotOf.length + 1000 then compact num renames file i else ⟨file, some i⟩

/-! ## Runs -/

inductive Call (F : Type)
  | record (slot key : Str) (size : Int) (cost used : F)
  | touch (key : Str) (used : F)
  | forget (keys : List Str) (renames : Bool)

def World.call (w : World F) : Call F → Option (World F)
  | .record slot key size cost used => some (record num w slot key size cost used).2
  | .touch key used => touch num w key used
  | .forget keys renames => some (forget num w keys renames)

/-- The calls of a process, over a file; none where an append raises. -/
def run (file : Str) (calls : List (Call F)) : Option (World F) := calls.foldlM (World.call num) ⟨file, none⟩

/-- Two indexes hold the same versions, in order, up to empty slots. -/
structure Index.Same (i j : Index F) : Prop where
  versions : ∀ slot, i.versions slot = j.versions slot
  slotOf : ∀ key, i.slotOf.lookup key = j.slotOf.lookup key

end Cash.Slots
