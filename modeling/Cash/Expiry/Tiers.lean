import Cash.Lib.Items
import Mathlib.Order.Lattice

/-!
# Copies that expire

`ttl_expired`, `effective_ttl` and `entry_expired`, and `TieredBackend.get` and `TieredBackend.cleanup_expired` over tiers
that hold a copy each, at one time. A tier that raises is left out, and what a hit does to the tiers.
-/

namespace Cash.Expiry

/-! ## The rule -/

/-- A ttl as it is stored: `None`, a number, or no number. -/
inductive Ttl (τ : Type)
  | none
  | number (n : τ)
  | other
deriving DecidableEq

/-- A copy of an entry. -/
structure Copy (τ V : Type) where
  createdAt : Option τ
  timestamp : Option τ
  ttl : Ttl τ
  ttlDeclared : Bool
  metadataOnly : Bool
  value : V
deriving DecidableEq

section Rule

variable {τ V : Type} [LinearOrder τ] [Sub τ] [Zero τ]

/-- `stored_ttl`. -/
def storedTtl : Ttl τ → Option τ
  | .none => none
  | .number n => some n
  | .other => some 0

/-- `ttl_expired`. -/
def ttlExpired (timestamp ttl : Option τ) (now : τ) : Bool :=
  match ttl with
  | none => false
  | some ttl => if ttl ≤ 0 then true else decide (ttl < now - timestamp.getD 0)

/-- `effective_ttl`. -/
def effectiveTtl (metadata : Copy τ V) (tierDefault current : Option τ) : Option τ :=
  match current with
  | some current => some current
  | none =>
    let written := storedTtl metadata.ttl
    match tierDefault with
    | none => written
    | some tierDefault =>
      if metadata.ttlDeclared then written
      else
        match written with
        | none => some tierDefault
        | some written => some (min written tierDefault)

/-- `written_at`. -/
def writtenAt (metadata : Copy τ V) : Option τ :=
  match metadata.createdAt with
  | some createdAt => some createdAt
  | none => metadata.timestamp

/-- `entry_expired`. -/
def entryExpired (metadata : Copy τ V) (tierDefault : Option τ) (now : τ) (current : Option τ) : Bool :=
  ttlExpired (writtenAt metadata) (effectiveTtl metadata tierDefault current) now

end Rule

/-! ## Tiers -/

/-- A tier, with a copy of a key at most. -/
@[ext] structure Tier (K τ V : Type) where
  defaultTtl : Option τ
  /-- Its `get` judges a copy by the tier's own `default_ttl` (`FileBackend`, `SQLiteBackend`). -/
  checks : Bool
  entries : List (K × Copy τ V)
  nodup : (Items.keys entries).Nodup

variable {K τ V : Type} [DecidableEq K]

namespace Tier

/-- The copy of a key. -/
def copy (t : Tier K τ V) (key : K) : Option (Copy τ V) := t.entries.lookup key

/-- `delete`. -/
def delete (t : Tier K τ V) (key : K) : Tier K τ V := { t with entries := Items.pop t.entries key, nodup := Items.nodup_pop t.nodup }

/-- `get`. -/
def get [LinearOrder τ] [Sub τ] [Zero τ] (t : Tier K τ V) (key : K) (now : τ) : Option (Copy τ V) × Tier K τ V :=
  match t.copy key with
  | none => (none, t)
  | some metadata =>
    if metadata.metadataOnly then (none, t)
    else if t.checks && entryExpired metadata t.defaultTtl now none then (none, t.delete key)
    else (some metadata, t)

end Tier

/-! ## The tiered backend -/

omit [DecidableEq K] in
/-- `default_ttl`. -/
def defaultTtl (backends : List (Tier K τ V)) : Option τ := backends.findSome? (·.defaultTtl)

section Read

variable [LinearOrder τ] [Sub τ] [Zero τ]

/-- `get` from these tiers on. -/
def getFrom (tierDefault : Option τ) (key : K) (now : τ) : List (Tier K τ V) → Option (Copy τ V) × List (Tier K τ V)
  | [] => (none, [])
  | backend :: backends =>
    match backend.get key now with
    | (none, backend) =>
      let (found, backends) := getFrom tierDefault key now backends
      (found, backend :: backends)
    | (some metadata, backend) =>
      if entryExpired metadata tierDefault now none then
        -- A slower tier may hold a newer copy.
        let (found, backends) := getFrom tierDefault key now backends
        (found, backend.delete key :: backends)
      else (some metadata, backend :: backends)

/-- `get`. -/
def get (backends : List (Tier K τ V)) (key : K) (now : τ) : Option (Copy τ V) × List (Tier K τ V) :=
  getFrom (defaultTtl backends) key now backends

end Read

/-- A cleanup as it goes. -/
structure Cleanup (K τ V : Type) where
  backends : List (Tier K τ V)
  seenKeys : List K
  total : Nat

variable (isExpired : Copy τ V → Bool)

/-- One entry listed. -/
def cleanEntry (s : Cleanup K τ V) (entry : K × Copy τ V) : Cleanup K τ V :=
  if entry.1 ∈ s.seenKeys then s
  else if isExpired entry.2 then ⟨s.backends.map (·.delete entry.1), entry.1 :: s.seenKeys, s.total + 1⟩
  else { s with seenKeys := entry.1 :: s.seenKeys }

/-- One tier. -/
def cleanTier (s : Cleanup K τ V) (i : Nat) : Cleanup K τ V :=
  match s.backends[i]? with
  | none => s
  | some backend => backend.entries.foldl (cleanEntry isExpired) s

/-- `cleanup_expired`. -/
def cleanupExpired (backends : List (Tier K τ V)) : Cleanup K τ V :=
  (List.range backends.length).foldl (cleanTier isExpired) ⟨backends, [], 0⟩

end Cash.Expiry
