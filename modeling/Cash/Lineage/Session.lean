import Cash.Lineage.Formula
import Mathlib.Data.Finset.Dedup

/-!
# Sessions of a notebook

`capture_and_track_variables` of `statement/lineage.py` with the early cutoff of `value_cutoff.py`, for
statements that compute their outputs from their inputs, and the simulation of such statements by
`StatementLineage.apply`.
-/

namespace Cash.Lineage

open Py

/-- What a session rests on: the statements of the language, which read names and bind names, and hashing. A
statement is its text as it is hashed, unparsed and without docstrings. -/
structure Kernel (V : Type) where
  inputs : Str → List Str
  outputs : Str → List Str
  outputs_nodup : ∀ code, (outputs code).Nodup
  /-- The values a statement binds, from those its inputs hold; `none` when it raises. -/
  run : Str → List (Option V) → Option (Str → V)
  sha256 : Str → Digest
  sha256_injective : Function.Injective sha256
  /-- `ValueCutoff._digest`, with `plain`: `none` for a value that is not compared. -/
  digest : Bool → V → Option Digest
  digest_injective : ∀ {p q v w d}, digest p v = some d → digest q w = some d → v = w

/-- `ValueCutoff` and the aliases. -/
structure Seen where
  aliases : Aliases
  /-- `_by_digest`. -/
  byDigest : Digest → Option Digest
  /-- `_by_outputs`. -/
  byOutputs : Finset (Str × Digest) → Option Digest
  /-- `_digest_of`. -/
  digestOf : Digest → Option Digest

structure Tracking (V : Type) where
  userNs : Str → Option V
  variableLineage : Str → Option Digest
  seen : Seen

def Tracking.initial {V : Type} : Tracking V :=
  ⟨fun _ => none, fun _ => none, ⟨fun _ => none, fun _ => none, fun _ => none, fun _ => none⟩⟩

variable {V : Type}

/-! ## Lineages -/

/-- The lineages the inputs of a statement have, by name. -/
def reads (k : Kernel V) (lineages : Str → Option Digest) (code : Str) : List (Option Digest) :=
  (k.inputs code).map lineages

/-- The hash of `output_lineage`, before aliases. -/
def formula (k : Kernel V) (code : Str) (inputLineages : List Digest) : Digest :=
  k.sha256 (lineageStr (k.sha256 code) inputLineages)

def outputLineage (k : Kernel V) (aliases : Aliases) (code : Str) (inputLineages : List Digest) : Digest :=
  resolveLineageAlias aliases (formula k code inputLineages)

/-! ## The cutoff -/

/-- A value with the key takes the lineage of the first one seen with it, which `table` has. -/
def cutOff {κ : Type} [DecidableEq κ] (aliases : Aliases) (table : κ → Option Digest) (key : κ) (lineage : Digest) :
    Digest × Aliases × (κ → Option Digest) :=
  match table key with
  | none => (lineage, aliases, Function.update table key (some (resolveLineageAlias aliases lineage)))
  | some earlier =>
    let earlier := resolveLineageAlias aliases earlier
    (earlier, if earlier ≠ lineage then recordLineageAlias aliases lineage earlier else aliases, table)

/-- `ValueCutoff.lineage_for`. -/
def lineageFor (k : Kernel V) (seen : Seen) (value : V) (lineage : Digest) : Digest × Seen :=
  match k.digest false value with
  | none => (lineage, seen)
  | some digest =>
    let (taken, aliases, byDigest) := cutOff seen.aliases seen.byDigest digest lineage
    (taken, { seen with
      aliases := aliases
      byDigest := byDigest
      digestOf := Function.update seen.digestOf taken (some digest) })

/-- The names of several outputs with their digests; `none` when one is not compared. -/
def outputDigests (k : Kernel V) (names : List Str) (values : Str → V) : Option (Finset (Str × Digest)) :=
  if names.all fun name => (k.digest true (values name)).isSome then
    some (names.filterMap fun name => (k.digest true (values name)).map (name, ·)).toFinset
  else none

/-- `ValueCutoff.lineage_for_outputs`, of outputs that share a lineage. -/
def lineageForOutputs (k : Kernel V) (seen : Seen) (names : List Str) (values : Str → V) (lineage : Digest) :
    Digest × Seen :=
  match outputDigests k names values with
  | none => (lineage, seen)
  | some outputs =>
    let (taken, aliases, byOutputs) := cutOff seen.aliases seen.byOutputs outputs lineage
    (taken, { seen with aliases := aliases, byOutputs := byOutputs })

/-! ## Statements -/

/-- The lineage of what a statement bound, and the cutoff after it. `rebuilt`: no output is an input's object. -/
def capturedLineage (k : Kernel V) (st : Tracking V) (code : Str) (rebuilt : Bool) (values : Str → V) : Digest × Seen :=
  let lineage := outputLineage k st.seen.aliases code (reads k st.variableLineage code).reduceOption
  if rebuilt then
    match k.outputs code with
    | [] => (lineage, st.seen)
    | [name] => lineageFor k st.seen (values name) lineage
    | names => lineageForOutputs k st.seen names values lineage
  else (lineage, st.seen)

/-- `capture_and_track_variables`: the statement has bound its outputs to the values. -/
def captureAndTrackVariables (k : Kernel V) (st : Tracking V) (code : Str) (rebuilt : Bool) (values : Str → V) :
    Tracking V :=
  let captured := capturedLineage k st code rebuilt values
  { userNs := fun name => if name ∈ k.outputs code then some (values name) else st.userNs name
    variableLineage := fun name => if name ∈ k.outputs code then some captured.1 else st.variableLineage name
    seen := captured.2 }

/-- A statement that was executed. -/
structure Execution (V : Type) where
  /-- What it found. -/
  before : Tracking V
  code : Str
  rebuilt : Bool
  values : Str → V

namespace Execution

variable (k : Kernel V) (e : Execution V)

/-- The lineage recorded for its outputs. -/
def lineage : Digest := (capturedLineage k e.before e.code e.rebuilt e.values).1

def after : Tracking V := captureAndTrackVariables k e.before e.code e.rebuilt e.values

/-- The lineages it read, by name. -/
def reads : List (Option Digest) := Lineage.reads k e.before.variableLineage e.code

/-- What the formula gives it. -/
def formula : Digest := Lineage.formula k e.code (e.reads k).reduceOption

end Execution

/-- A session leads to a state, with the statements executed: any statements, edited or run again, in any order.
One that raises records nothing. -/
inductive Session (k : Kernel V) : Tracking V → List (Execution V) → Prop
  | start : Session k .initial []
  | execute {st : Tracking V} {log : List (Execution V)} {code : Str} {values : Str → V} (rebuilt : Bool) :
      Session k st log → k.run code ((k.inputs code).map st.userNs) = some values →
      Session k (captureAndTrackVariables k st code rebuilt values) (log ++ [⟨st, code, rebuilt, values⟩])

/-- Run All: the statements are executed in order, each binding new objects. -/
inductive RunAll (k : Kernel V) : Tracking V → List Str → Tracking V → List (Execution V) → Prop
  | nil (st : Tracking V) : RunAll k st [] st []
  | cons {st st' : Tracking V} {code : Str} {codes : List Str} {values : Str → V} {run : List (Execution V)} :
      k.run code ((k.inputs code).map st.userNs) = some values →
      RunAll k (captureAndTrackVariables k st code true values) codes st' run →
      RunAll k st (code :: codes) st' (⟨st, code, true, values⟩ :: run)

/-! ## The simulation -/

/-- `StatementLineage.apply` of a statement: the simulation's own lineages come before the recorded ones. -/
def simulateStatement (k : Kernel V) (st : Tracking V) (virtualLineage : Str → Option Digest) (code : Str) :
    Str → Option Digest :=
  let inputLineages := Lineage.reads k (fun name => (virtualLineage name).or (st.variableLineage name)) code
  let lineage := outputLineage k st.seen.aliases code inputLineages.reduceOption
  fun name => if name ∈ k.outputs code then some lineage else virtualLineage name

/-- The statements of the cells, from an empty virtual lineage. -/
def simulateStatements (k : Kernel V) (st : Tracking V) (codes : List Str) : Str → Option Digest :=
  codes.foldl (simulateStatement k st) fun _ => none

end Cash.Lineage
