import Cash.Lib.Dict
import Cash.Lib.Run
import Cash.Lineage.Session

/-!
# The aliases of a process

The calls of `record_lineage_alias` that `ValueCutoff` and `keep_held_lineage` make, with the store that keeps the
aliases for the next process (`LineageAliasStore`).
-/

namespace Cash.Lineage

open Py

variable {V : Type}

/-- `_MAX_ALIASES`. -/
def MAX_ALIASES : Nat := 50000

/-- `LineageAliasStore._items`, in the order of the file. -/
abbrev AliasStore := List (Digest × Digest)

/-- `LineageAliasStore.record`. -/
def AliasStore.record (items : AliasStore) (lineage earlier : Digest) : AliasStore :=
  let kept := Dict.setItem items lineage earlier
  kept.drop (kept.length - MAX_ALIASES)

/-- A process: `ValueCutoff` with `_LINEAGE_ALIASES`, and `_ALIAS_STORE`. -/
structure Process where
  seen : Seen
  store : Option AliasStore
  /-- The calls of `record_lineage_alias` so far: lineage and earlier. -/
  recorded : List (Digest × Digest)

def Process.start : Process := ⟨⟨fun _ => none, fun _ => none, fun _ => none, fun _ => none⟩, none, []⟩

/-- `_ALIAS_STORE.record`, where `record_lineage_alias` calls it. -/
def storeAlias (aliases : Aliases) (store : Option AliasStore) (lineage earlier : Digest) : Option AliasStore :=
  if lineage ≠ resolveLineageAlias aliases earlier then
    store.map (·.record lineage (resolveLineageAlias aliases earlier))
  else store

/-- `_held_hash`. -/
def heldHash (k : Kernel V) (before : Digest) (cacheKey : Str) : Digest :=
  k.sha256 (str "held:" ++ before.1 ++ 58 :: cacheKey)

/-- What happens to the aliases. -/
inductive AliasEvent (V : Type)
  /-- `ValueCutoff.lineage_for`. -/
  | lineageFor (value : V) (lineage : Digest)
  /-- `ValueCutoff.lineage_for_outputs`, of outputs that share a lineage. -/
  | lineageForOutputs (names : List Str) (values : Str → V) (lineage : Digest)
  /-- `ValueCutoff.remember`. -/
  | remember (digest lineage : Digest)
  /-- `ValueCutoff.clear`. -/
  | clear
  | keepHeldLineage (before : Digest) (cacheKey : Str)
  | useLineageAliasStore (store : Option AliasStore)

/-- The call of `record_lineage_alias` it makes. -/
def AliasEvent.call (k : Kernel V) (seen : Seen) : AliasEvent V → Option (Digest × Digest)
  | .lineageFor value lineage =>
    let taken := (Lineage.lineageFor k seen value lineage).1
    if taken ≠ lineage then some (lineage, taken) else none
  | .lineageForOutputs names values lineage =>
    let taken := (Lineage.lineageForOutputs k seen names values lineage).1
    if taken ≠ lineage then some (lineage, taken) else none
  | .keepHeldLineage before cacheKey => some (heldHash k before cacheKey, before)
  | _ => none

/-- `_LINEAGE_ALIASES.setdefault` of each item. -/
def setDefaults (aliases : Aliases) (items : AliasStore) : Aliases :=
  items.foldl (fun aliases p => if aliases p.1 = none then Function.update aliases p.1 (some p.2) else aliases) aliases

/-- The tables after the event. -/
def AliasEvent.seen (k : Kernel V) (seen : Seen) : AliasEvent V → Seen
  | .lineageFor value lineage => (Lineage.lineageFor k seen value lineage).2
  | .lineageForOutputs names values lineage => (Lineage.lineageForOutputs k seen names values lineage).2
  | .remember digest lineage => { seen with
      byDigest := if seen.byDigest digest = none then
        Function.update seen.byDigest digest (some (resolveLineageAlias seen.aliases lineage)) else seen.byDigest
      digestOf := if seen.digestOf lineage = none then
        Function.update seen.digestOf lineage (some digest) else seen.digestOf }
  | .clear => { seen with byDigest := fun _ => none, byOutputs := fun _ => none, digestOf := fun _ => none }
  | .keepHeldLineage before cacheKey => { seen with
      aliases := recordLineageAlias seen.aliases (heldHash k before cacheKey) before }
  | .useLineageAliasStore store => { seen with aliases := (store.map (setDefaults seen.aliases)).getD seen.aliases }

def Process.step (k : Kernel V) (p : Process) (e : AliasEvent V) : Process where
  seen := e.seen k p.seen
  store := match e with
    | .useLineageAliasStore store => store
    | _ => (e.call k p.seen).elim p.store fun c => storeAlias p.seen.aliases p.store c.1 c.2
  recorded := p.recorded ++ (e.call k p.seen).toList

/-! ## One representative -/

/-- `y` is what `x` is an alias of. -/
def Aliases.To (aliases : Aliases) (x y : Digest) : Prop := aliases x = some y

/-- What an alias leads to is found by one lookup, and is the same for a lineage and what it was recorded as an alias
of. -/
structure Process.OneRepresentative (p : Process) : Prop where
  idempotent : ∀ x, resolveLineageAlias p.seen.aliases (resolveLineageAlias p.seen.aliases x) =
    resolveLineageAlias p.seen.aliases x
  acyclic : ∀ x, ¬ Relation.TransGen p.seen.aliases.To x x
  recorded : ∀ x y, (x, y) ∈ p.recorded →
    resolveLineageAlias p.seen.aliases x = resolveLineageAlias p.seen.aliases y

/-- `x` is no alias, and nothing is an alias of it. -/
def Aliases.Apart (aliases : Aliases) (x : Digest) : Prop := aliases x = none ∧ ∀ z, ¬ aliases.To z x

/-- A call records `x` as an alias of `y` only where the two have one representative, or where `x` is new to the
aliases. -/
def Aliases.Joins (aliases : Aliases) (x y : Digest) : Prop :=
  (aliases x).getD x = (aliases y).getD y ∨ aliases.Apart x

/-- A store adds aliases of lineages that are new, to lineages that are no aliases. -/
def Aliases.Merges (aliases : Aliases) (items : AliasStore) : Prop :=
  ∀ p ∈ items, aliases p.1 = none →
    aliases.Apart p.1 ∧ aliases p.2 = none ∧ p.2 ∉ items.map (·.1)

/-- The event joins no two representatives. -/
def Process.Keeps (k : Kernel V) (p : Process) (e : AliasEvent V) : Prop :=
  (∀ x y, e.call k p.seen = some (x, y) → p.seen.aliases.Joins x y) ∧
    ∀ items, e = .useLineageAliasStore (some items) → p.seen.aliases.Merges items

def Process.keepingStep (k : Kernel V) (p : Process) (e : AliasEvent V) (p' : Process) : Prop :=
  p' = p.step k e ∧ p.Keeps k e

end Cash.Lineage
