import Cash.Lib.Dict
import Cash.Lib.Items
import Cash.Lib.Py
import Mathlib.Data.Finset.Basic

/-!
# What a record says of a key that was not found

`_Changes`, `facts_from_doc` and `_View` of `stored_keys.py`.
-/

namespace Cash.StoredKeys

open Py

variable {τ : Type} [LinearOrder τ]

/-- The kinds of entries that a miss asks of. -/
inductive Kind
  | keys
  | ramOnly
deriving DecidableEq

def Kind.other : Kind → Kind
  | .keys => .ramOnly
  | .ramOnly => .keys

/-- `[stored_at, ttl]` or `[computed_at, why]`: the first where it is a number, and the rest. -/
structure Value (τ : Type) where
  time : Option τ
  rest : Str
deriving DecidableEq

/-- A flat ledger. -/
abbrev Ledger : Type := List (Str × Str)

/-- Items of either kind. -/
abbrev Entries (τ : Type) : Type := Kind → List (Str × Value τ)

/-- `key` noted under `kind`: out of the other kind, last in its own. -/
def Entries.put (e : Entries τ) (kind : Kind) (key : Str) (value : Value τ) : Entries τ := fun k =>
  if k = kind then Items.putLast (e k) key value else Items.pop (e k) key

/-- A record. -/
structure Doc (τ : Type) where
  entries : Entries τ
  states : List (Str × Ledger)
  warned : List (Str × τ)

/-- `_empty()`. -/
def Doc.empty : Doc τ := ⟨fun _ => [], [], []⟩

/-- `_Changes`. -/
structure Changes (τ : Type) where
  entries : Entries τ
  states : List (Str × Option Ledger)
  warned : List (Str × τ)

/-- `_Changes(func_name)`. -/
def Changes.empty : Changes τ := ⟨fun _ => [], [], []⟩

namespace Changes

variable (c : Changes τ)

/-- What was noted, in the order it is applied. -/
def notes : List (Kind × Str × Value τ) :=
  (c.entries .keys).map (fun p => (.keys, p)) ++ (c.entries .ramOnly).map fun p => (.ramOnly, p)

/-- A state's ledger put last, where there is one. -/
def applyState (states : List (Str × Ledger)) (p : Str × Option Ledger) : List (Str × Ledger) :=
  match states.lookup p.1 with
  | some known => Items.putLast states p.1 known
  | none =>
    match p.2 with
    | some flat => if flat = [] then Items.pop states p.1 else Items.putLast states p.1 flat
    | none => Items.pop states p.1

/-- `_Changes.apply`. -/
def apply (doc : Doc τ) : Doc τ where
  entries := c.notes.foldl (fun e n => e.put n.1 n.2.1 n.2.2) doc.entries
  states := c.states.foldl applyState doc.states
  warned := c.warned.foldl (fun w p => Dict.setItem w p.1 p.2) doc.warned

end Changes

/-! ## The facts -/

/-- `MissFacts`. -/
structure MissFacts (τ : Type) where
  stored : Option (Value τ)
  ramOnly : Option (Value τ)
  sameArguments : Option Str
  earlierStates : Finset Str
  newestEarlier : Option Str
  lastOther : Option Str
deriving DecidableEq

/-- The last three of the four parts of a key. -/
structure KeyParts where
  state : Str
  dynamic : Str
  arguments : Str
deriving DecidableEq

/-- `_key_parts`, where there are four. -/
def keyParts (key : Str) : Option KeyParts :=
  match (key.splitOn 58).reverse with
  | arguments :: dynamic :: state :: _ :: _ => some ⟨state, dynamic, arguments⟩
  | _ => none

/-- `_earlier_time`. -/
def earlierTime (started : τ) (value : Value τ) : Option τ :=
  match value.time with
  | some t => if t < started then some t else none
  | none => none

/-- `max(items, key=...)`: the first of the greatest. -/
def firstNewest : List (Str × τ) → Option Str
  | [] => none
  | p :: items => some (items.foldl (fun best q => if best.2 < q.2 then q else best) p).1

/-- The key is of the arguments, under another state. -/
def sameUnderOther (new : KeyParts) (key : Str) : Bool :=
  match keyParts key with
  | some old => old.dynamic = new.dynamic ∧ old.arguments = new.arguments ∧ old.state ≠ new.state
  | none => false

/-- The entries an earlier process left, with their times. -/
def earlierOf (started : τ) (e : Entries τ) : List (Str × τ) :=
  (e .keys ++ e .ramOnly).foldl (fun earlier p =>
    match earlierTime started p.2 with
    | some t => Dict.setItem earlier p.1 t
    | none => earlier) []

/-- `facts_from_doc`. -/
def factsFromDoc (started : τ) (doc : Doc τ) (cacheKey : Str) : MissFacts τ :=
  let record := doc.entries .keys
  let ramOnly := doc.entries .ramOnly
  let lastOther := (record.filter (·.1 ≠ cacheKey)).getLast?.map (·.1)
  match keyParts cacheKey with
  | none => ⟨record.lookup cacheKey, ramOnly.lookup cacheKey, none, ∅, none, lastOther⟩
  | some new =>
    let same := ((record ++ ramOnly).map (·.1)).reverse.find? (sameUnderOther new)
    let earlier := earlierOf started doc.entries
    let earlierStates := (earlier.filterMap fun p => (keyParts p.1).map KeyParts.state).toFinset
    let newest := if earlierStates.Nonempty ∧ new.state ∉ earlierStates then firstNewest earlier else none
    ⟨record.lookup cacheKey, ramOnly.lookup cacheKey, same, earlierStates, newest, lastOther⟩

/-! ## The view -/

/-- `_View`. -/
structure View (τ : Type) where
  /-- The record it was built on, by identity. -/
  disk : Option ℕ
  entries : Entries τ
  /-- `_by_args`: the dynamic and argument parts to the keys and their states. -/
  byArgs : Kind → Dict (Str × Str) (List (Str × Str))
  /-- `_earlier`: when an entry was written, and its state. -/
  earlier : List (Str × τ × Option Str)
  /-- `_earlier_states`, a `Counter`. -/
  earlierStates : Dict Str ℕ

namespace View

variable (started : τ) (v : View τ)

/-- The counters with one more of a state. -/
def countUp (states : Dict Str ℕ) : Option Str → Dict Str ℕ
  | some state => Dict.modify states state fun n => n.getD 0 + 1
  | none => states

/-- The counters with one less of a state. -/
def countDown (states : Dict Str ℕ) : Option Str → Dict Str ℕ
  | some state => if Dict.getD states state 0 ≤ 1 then states.erase state else states.insert state (Dict.getD states state 0 - 1)
  | none => states

/-- An index with a key added. -/
def indexAdd (index : Dict (Str × Str) (List (Str × Str))) (key : Str) : Dict (Str × Str) (List (Str × Str)) :=
  match keyParts key with
  | some p => Dict.modify index (p.dynamic, p.arguments) fun same => Dict.setItem (same.getD []) key p.state
  | none => index

/-- An index with a key taken out. -/
def indexDrop (index : Dict (Str × Str) (List (Str × Str))) (key : Str) : Dict (Str × Str) (List (Str × Str)) :=
  match keyParts key with
  | some p =>
    match index.lookup (p.dynamic, p.arguments) with
    | some same =>
      if Items.pop same key = [] then index.erase (p.dynamic, p.arguments)
      else index.insert (p.dynamic, p.arguments) (Items.pop same key)
    | none => index
  | none => index

/-- `_put`. -/
def enter (kind : Kind) (key : Str) (value : Value τ) : View τ :=
  let state := (keyParts key).map KeyParts.state
  { v with
    entries := fun k => if k = kind then Dict.setItem (v.entries k) key value else v.entries k
    byArgs := fun k => if k = kind then indexAdd (v.byArgs k) key else v.byArgs k
    earlier := match earlierTime started value with
      | some t => Dict.setItem v.earlier key (t, state)
      | none => v.earlier
    earlierStates := match earlierTime started value with
      | some _ => countUp v.earlierStates state
      | none => v.earlierStates }

/-- `_drop`. -/
def drop (kind : Kind) (key : Str) : View τ :=
  if key ∈ Items.keys (v.entries kind) then
    { v with
      entries := fun k => if k = kind then Items.pop (v.entries k) key else v.entries k
      byArgs := fun k => if k = kind then indexDrop (v.byArgs k) key else v.byArgs k
      earlier := Items.pop v.earlier key
      earlierStates := match v.earlier.lookup key with
        | some p => countDown v.earlierStates p.2
        | none => v.earlierStates }
  else v

/-- `put`. -/
def put (kind : Kind) (key : Str) (value : Value τ) : View τ := ((v.drop kind.other key).drop kind key).enter started kind key value

/-- `apply`. -/
def apply (c : Changes τ) : View τ := c.notes.foldl (fun v n => v.put started n.1 n.2.1 n.2.2) v

/-- `_View(disk, overlays)`. -/
def build (ref : Option ℕ) (disk : Option (Doc τ)) (overlays : List (Changes τ)) : View τ :=
  let bare : View τ := ⟨ref, fun _ => [], fun _ => ∅, [], ∅⟩
  let loaded := match disk with
    | some doc => ((doc.entries .keys).map (fun p => (Kind.keys, p)) ++ (doc.entries .ramOnly).map fun p => (Kind.ramOnly, p)).foldl
        (fun v n => v.enter started n.1 n.2.1 n.2.2) bare
    | none => bare
  overlays.foldl (fun v c => v.apply started c) loaded

/-- The newest key of the arguments under another state, of one kind. -/
def sameIn (new : KeyParts) (kind : Kind) : Option Str :=
  ((Dict.getD (v.byArgs kind) (new.dynamic, new.arguments) []).reverse.find? fun p => p.2 ≠ new.state).map (·.1)

/-- `facts`. -/
def facts (cacheKey : Str) : MissFacts τ :=
  let lastOther := ((v.entries .keys).reverse.find? (·.1 ≠ cacheKey)).map (·.1)
  match keyParts cacheKey with
  | none => ⟨(v.entries .keys).lookup cacheKey, (v.entries .ramOnly).lookup cacheKey, none, ∅, none, lastOther⟩
  | some new =>
    let same := (v.sameIn new .ramOnly).or (v.sameIn new .keys)
    let earlierStates := v.earlierStates.keys.toFinset
    let newest := if earlierStates.Nonempty ∧ new.state ∉ earlierStates
      then firstNewest (v.earlier.map fun p => (p.1, p.2.1)) else none
    ⟨(v.entries .keys).lookup cacheKey, (v.entries .ramOnly).lookup cacheKey, same, earlierStates, newest, lastOther⟩

end View

end Cash.StoredKeys
