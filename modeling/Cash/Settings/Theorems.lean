import Cash.Lib.Dict
import Cash.Lib.Squares
import Mathlib.Logic.Encodable.Basic
import Mathlib.Logic.Equiv.List

/-!
# The lineage of a module's settings

`setting_lineage`. What a lineage is made of its base and its run of settings is a parameter; a setting writes fixed values
to fixed options.
-/

namespace Cash.Settings

section

variable {L : Type} [DecidableEq L]

/-! ## Runs -/

/-- `run[-size:] == run[-2 * size : -size]`. -/
def endsTwice (run : List L) (size : Nat) : Bool :=
  decide (run.drop (run.length - size) = (run.drop (run.length - 2 * size)).take size)

/-- The smallest block that the run ends in twice in a row. -/
def repeated (run : List L) : Option Nat := (List.range' 1 (run.length / 2)).find? (endsTwice run)

/-- The loop of `_without_repeat`, at most so many times. -/
def dropRepeats : Nat → List L → List L
  | 0, run => run
  | n + 1, run =>
      match repeated run with
      | none => run
      | some size => dropRepeats n (run.take (run.length - size))

/-- `_without_repeat`. Each turn makes the run shorter. -/
def withoutRepeat (run : List L) : List L := dropRepeats run.length run

/-! ## Lineages -/

/-- What `setting_lineage` reads: the hash of a base and a run, and the lineage of a module that has none. -/
structure Config (L : Type) where
  made : L → List L → L
  empty : L

/-- `_SETTING_RUNS`. -/
abbrev Runs (L : Type) := Dict L (L × List L)

/-- `setting_lineage`. -/
def settingLineage (cfg : Config L) (runs : Runs L) (before : Option L) (setting : L) : L × Runs L :=
  let found := runs.getD (before.getD cfg.empty) (before.getD cfg.empty, [])
  let run := withoutRepeat (found.2 ++ [setting])
  let lineage := cfg.made found.1 run
  (lineage, runs.insert lineage (found.1, run))

variable {O V : Type}

/-- A setting call writes its values over what was there. -/
def set (values : L → O → Option V) (setting : L) (options : O → V) : O → V :=
  fun option => (values setting option).getD (options option)

end

/-! ## Repeated settings -/

section

open Squares

/-! ### What one setting leaves of a run -/

section Runs

variable {L : Type} [DecidableEq L] {run u w : List L} {a : L} {size : Nat}

end Runs

/-! ### Options -/

section Options

variable {L O V : Type} {values : L → O → Option V}

variable [DecidableEq L]

end Options

/-! ### Lineages -/

section Lineages

variable {L : Type} [DecidableEq L] {cfg : Config L} {runs : Runs L} {before : Option L}

/-- What the table has after some calls. -/
def after (cfg : Config L) (calls : List (Option L × L)) : Runs L :=
  calls.foldl (fun runs call => (settingLineage cfg runs call.1 call.2).2) ∅

end Lineages

end

end Cash.Settings
