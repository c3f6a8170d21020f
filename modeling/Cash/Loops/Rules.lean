import Cash.Lib.Py
import Mathlib.Data.List.FinRange

/-!
# Accumulator initialisations

`LoopRules.filter_accumulator_reinits` of `loop_rules.py`, and `iteration_digest` of `control_markers.py`.
-/

namespace Cash.Loops

open Py

/-! ## The patterns -/

/-- The characters that `\w` and `\s` match. -/
structure Classes where
  word : Nat → Bool
  space : Nat → Bool
  disjoint : ∀ c, word c = true → space c = false
  /-- `( . = [ ] #`. -/
  marks : ∀ c ∈ [40, 46, 61, 91, 93, 35], word c = false ∧ space c = false

variable (k : Classes)

/-- The rest of the text after `\s*`. -/
def Classes.skip (s : Str) : Str := s.dropWhile k.space

/-- `str.strip`. -/
def Classes.strip (s : Str) : Str := ((s.dropWhile k.space).reverse.dropWhile k.space).reverse

/-- What stands behind a name that the text begins with. -/
def after (name s : Str) : Option Str := if name.isPrefixOf s then some (s.drop name.length) else none

/-- `\.\s*\w+\s*\(`. -/
def callFollows : Str → Bool
  | 46 :: s => (k.skip s).takeWhile k.word ≠ [] ∧ (k.skip ((k.skip s).dropWhile k.word)).head? = some 40
  | _ => false

/-- `\[[^\]]*\]\s*=(?!=)`. -/
def storeFollows : Str → Bool
  | 91 :: s =>
    match s.dropWhile (· ≠ 93) with
    | _ :: s =>
      match k.skip s with
      | 61 :: s => s.head? ≠ some 61
      | _ => false
    | [] => false
  | _ => false

/-- The pattern of an in-place change of the name, at the start of the text. -/
def changedHere (name s : Str) : Bool :=
  match after name s with
  | some s => callFollows k (k.skip s) || storeFollows k (k.skip s)
  | none => false

/-- `pat.search`; `inWord`: a word character stands before the text, so that no word begins at it. -/
def changed (name : Str) : Bool → Str → Bool
  | inWord, [] => !inWord && changedHere k name []
  | inWord, c :: s => (!inWord && changedHere k name (c :: s)) || changed name (k.word c) s

/-- What an empty container is initialised to. -/
def emptyForms : List Str := ["{}", "[]", "set()", "dict()", "list()", "frozenset()"].map str

/-- `empty_init_pattern.match`, of a stripped text: its end is where `$` matches. -/
def emptyInit (name s : Str) : Bool :=
  match after name s with
  | some s =>
    match k.skip s with
    | 61 :: s => k.skip s ∈ emptyForms
    | _ => false
  | none => false

/-- The lines of a text. -/
def lines (s : Str) : List Str := s.splitOn 10

/-- `iteration_digest`. -/
def iterationDigest (code : Str) : Option Str :=
  (lines code).findSome? fun line =>
    (after (str "# __iteration_context__:") (line.dropWhile fun c => c == 32 || c == 9)).map fun s =>
      (s.dropWhile fun c => c == 32 || c == 9).takeWhile fun c => !k.space c

/-! ## The rules -/

/-- What the rules read of a statement of the trace. -/
structure Entry where
  stmtCode : Str
  /-- A set. -/
  outputs : List Str

/-- What `bool` of a live value does: gives a truth, raises a `ValueError` or a `TypeError`, or raises something else. -/
inductive Truth
  | is (b : Bool)
  | refused
  | raised
deriving DecidableEq

/-- A live value: its truth, and its length where it has one. -/
structure Live where
  truth : Truth
  len : Option Nat

/-- What `filter_accumulator_reinits` reads besides the schedule. -/
structure LoopRules where
  classes : Classes
  simulationTrace : List Entry
  varsMutatedByLoops : List Str
  userNs : Str → Option Live

namespace LoopRules

variable (r : LoopRules)

/-- A place in the trace. -/
abbrev Idx : Type := Fin r.simulationTrace.length

/-- The statement belongs to a loop iteration. -/
def marked (idx : r.Idx) : Bool := (iterationDigest r.classes (r.simulationTrace.get idx).stmtCode).isSome

/-- The keys of `scheduled_iteration_outputs`. -/
def scheduledIterationOutputs (stmtsToRunIndices : List r.Idx) : List Str :=
  (stmtsToRunIndices.filter r.marked).flatMap fun idx => (r.simulationTrace.get idx).outputs

/-- `_loop_vars_fully_rescheduled`. -/
def loopVarsFullyRescheduled (stmtsToRunIndices : List r.Idx) : List Str :=
  r.varsMutatedByLoops.filter fun mv => stmtsToRunIndices.any fun idx =>
    !r.marked idx && (r.simulationTrace.get idx).outputs.contains mv &&
      changed r.classes mv false (r.simulationTrace.get idx).stmtCode

/-- The statement is an empty-container initialisation of one of the names, and of nothing else. -/
def initialises (names : List Str) (idx : r.Idx) : Bool :=
  match (r.simulationTrace.get idx).outputs with
  | [outVar] => outVar ∈ names ∧ emptyInit r.classes outVar (r.classes.strip (r.simulationTrace.get idx).stmtCode)
  | _ => false

/-- `_schedule_missing_accumulator_inits`. -/
def scheduleMissingAccumulatorInits (stmtsToRunIndices : List r.Idx) (fullyRerunMutated : List Str) : List r.Idx :=
  stmtsToRunIndices ++ (List.finRange r.simulationTrace.length).filter fun idx =>
    idx ∉ stmtsToRunIndices ∧ r.initialises fullyRerunMutated idx

/-- `_is_reinit_to_skip`; `none` where it raises. -/
def isReinitToSkip (scheduledOutputs fullyRerunMutated : List Str) (idx : r.Idx) : Option Bool :=
  if r.marked idx then some false
  else
    match (r.simulationTrace.get idx).outputs with
    | [outVar] =>
      if outVar ∈ fullyRerunMutated then some false
      else if outVar ∉ scheduledOutputs ∧ outVar ∉ r.varsMutatedByLoops then some false
      else if !emptyInit r.classes outVar (r.classes.strip (r.simulationTrace.get idx).stmtCode) then some false
      else
        match r.userNs outVar with
        | none => some false
        | some live =>
          match live.truth with
          -- the line logged for a skipped statement tells the value's length
          | .is true => live.len.map fun _ => true
          | .is false | .refused => some false
          | .raised => none
    | _ => some false

/-- `indices_to_remove`. -/
def indicesToRemove (scheduledOutputs fullyRerunMutated : List Str) : List r.Idx → Option (List r.Idx)
  | [] => some []
  | idx :: rest =>
    (r.isReinitToSkip scheduledOutputs fullyRerunMutated idx).bind fun skip =>
      (indicesToRemove scheduledOutputs fullyRerunMutated rest).map fun removed => if skip then idx :: removed else removed

/-- `filter_accumulator_reinits`; `none` where it raises. -/
def filterAccumulatorReinits (stmtsToRunIndices : List r.Idx) : Option (List r.Idx) :=
  let scheduledOutputs := r.scheduledIterationOutputs stmtsToRunIndices
  let fullyRerunMutated := r.loopVarsFullyRescheduled stmtsToRunIndices
  let stmtsToRunIndices := r.scheduleMissingAccumulatorInits stmtsToRunIndices fullyRerunMutated
  (r.indicesToRemove scheduledOutputs fullyRerunMutated stmtsToRunIndices).map fun removed =>
    stmtsToRunIndices.filter (· ∉ removed)

end LoopRules

end Cash.Loops
