import Cash.Lib.Py
import Mathlib.Data.List.Lex
import Mathlib.Data.List.Sort
import Mathlib.Logic.Function.Basic

/-!
# The lineage formula

`output_lineage` of `lineage_formula.py`, of a statement with no files, modules, callables, environment or
uncached values, and the aliases it resolves.
-/

namespace Cash.Lineage

open Py

/-- A hex digest: not empty, and without a colon. -/
def Digest : Type := { s : Str // s ≠ [] ∧ 58 ∉ s }
deriving DecidableEq

/-- `':'.join(parts)`. -/
def join : List Str → Str
  | [] => []
  | [x] => x
  | x :: xs => x ++ 58 :: join xs

/-- `sorted(lineages)`. -/
def sorted (lineages : List Digest) : List Str := (lineages.map (·.1)).insertionSort (· ≤ ·)

/-- The text a lineage is the hash of. -/
def lineageStr (sourceHash : Digest) (inputLineages : List Digest) : Str :=
  sourceHash.1 ++ 58 :: join (sorted inputLineages)

/-! ## Aliases -/

/-- `_LINEAGE_ALIASES`. -/
abbrev Aliases := Digest → Option Digest

/-- `resolve_lineage_alias`. -/
def resolveLineageAlias (aliases : Aliases) (lineage : Digest) : Digest := (aliases lineage).getD lineage

/-- `record_lineage_alias`. -/
def recordLineageAlias (aliases : Aliases) (lineage earlier : Digest) : Aliases :=
  let earlier := resolveLineageAlias aliases earlier
  if lineage ≠ earlier then Function.update aliases lineage (some earlier) else aliases

end Cash.Lineage
