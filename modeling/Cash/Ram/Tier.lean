import Cash.Lib.Dict
import Mathlib.Algebra.Order.Field.Basic
import Mathlib.Data.List.Sort
import Mathlib.Data.Prod.Lex
import Mathlib.Tactic.NormNum

/-!
# What the RAM tier holds

`InMemoryBackend`: its writes, reads and removals, the caps it keeps and what it gives back under memory pressure. Numbers
are in a field; a metadata dict belongs to one entry. What the source reads off the value, the clock or the machine is an
input of the call: how a value is sized and copied, what the copy of a hit meets, the memory reading.
-/

namespace Cash.Ram

/-! ## Entries and tables -/

/-- What an entry's metadata says of it; `id` is the identity of its dict, `cost` the fields that `gdsf_value` reads. -/
structure Entry (τ C : Type) where
  id : Nat
  size : Nat
  cost : C
  accessCount : Nat
  lastAccess : τ
deriving DecidableEq

/-- `_immutable_below`, `_dict_rows`, `_frame_cells`, `_copy_plans`, `_holds_bytes`, `_shared`, `_own` and `_checked`. -/
inductive Side
  | immutableBelow
  | dictRows
  | frameCells
  | copyPlans
  | holdsBytes
  | shared
  | own
  | checked
deriving DecidableEq

/-- `InMemoryBackend`; of a side table, the keys. -/
structure Tier (K α τ C : Type) where
  store : Dict K (Entry τ C)
  side : Side → K → Bool
  gdsfClock : α
  gdsfBase : Dict K α
  accessSeq : Nat
  seqByKey : Dict K Nat
  currentSizeBytes : Int
  pressureFloor : Option Int
  pressurePercent : Option α
  setCount : Nat
  /-- The dicts there were. -/
  dicts : Nat

/-- What a tier is made with, and `gdsf_value` of the cost, the access count and the size. -/
structure Config (α C : Type) where
  maxMemoryPercent : α
  checkInterval : Nat
  maxEntries : Option Nat
  maxSizeBytes : Option Nat
  gdsfValue : C → Nat → Nat → α
  checkInterval_pos : 0 < checkInterval

/-- `virtual_memory()`. -/
structure Reading (α : Type) where
  total : α
  percent : α

/-- A read that the fast hit path held back, of the entry with this dict. -/
structure Held (K τ : Type) where
  key : K
  id : Nat
  reads : Nat
  last : τ

variable {K α τ C : Type} [DecidableEq K] [Field α] [LinearOrder α]

/-- An entry's place in the order of eviction: its priority, its last touch and its key. -/
abbrev Rank (K α : Type) := α ×ₗ ℕ ×ₗ K

namespace Rank

def priority (r : Rank K α) : α := (ofLex r).1

def key (r : Rank K α) : K := (ofLex (ofLex r).2).2

end Rank

namespace Tier

omit [LinearOrder α] in
/-- A tier that holds nothing. -/
def empty : Tier K α τ C := ⟨∅, fun _ _ => false, 0, ∅, 0, ∅, 0, none, none, 0, 0⟩

/-! ## One key -/

/-- `_touch`. -/
def touch (t : Tier K α τ C) (key : K) : Tier K α τ C :=
  { t with
    gdsfBase := t.gdsfBase.insert key t.gdsfClock
    accessSeq := t.accessSeq + 1
    seqByKey := t.seqByKey.insert key (t.accessSeq + 1) }

/-- `_drop`. -/
def drop (t : Tier K α τ C) (key : K) : Tier K α τ C :=
  { t with
    side := fun s k => t.side s k && decide (k ≠ key)
    gdsfBase := t.gdsfBase.erase key
    seqByKey := t.seqByKey.erase key
    store := t.store.erase key
    currentSizeBytes := t.currentSizeBytes - ((t.store.lookup key).map fun e => (e.size : Int)).getD 0 }

/-- Reads counted in the entry's metadata. -/
def counted (t : Tier K α τ C) (key : K) (e : Entry τ C) (reads : Nat) (last : τ) : Tier K α τ C :=
  { t with store := t.store.insert key { e with lastAccess := last, accessCount := e.accessCount + reads } }

/-- One read held back, written in. -/
def flushOne (t : Tier K α τ C) (h : Held K τ) : Tier K α τ C :=
  match t.store.lookup h.key with
  | none => t
  | some e => if e.id ≠ h.id then t else (t.counted h.key e h.reads h.last).touch h.key

/-- `held_reads.flush`. -/
def flush (t : Tier K α τ C) (held : List (Held K τ)) : Tier K α τ C := held.foldl flushOne t

/-! ## Evictions -/

variable (cfg : Config α C)

/-- `_gdsf_priority`. -/
def gdsfPriority (t : Tier K α τ C) (key : K) (e : Entry τ C) : α :=
  (t.gdsfBase.lookup key).getD 0 + cfg.gdsfValue e.cost e.accessCount e.size

section Order

variable [LinearOrder K] [LinearOrder τ]

/-- The entries, least valuable per byte first. -/
def ranked (t : Tier K α τ C) : List (Rank K α) :=
  (t.store.entries.map fun p =>
    toLex (t.gdsfPriority cfg p.1 p.2, toLex ((t.seqByKey.lookup p.1).getD 0, p.1))).insertionSort (· ≤ ·)

/-- One victim: the clock rises to its priority. -/
def evictOne (t : Tier K α τ C) (r : Rank K α) : Tier K α τ C :=
  { t.drop r.key with gdsfClock := max t.gdsfClock r.priority }

/-- The loop of `_evict_to_byte_cap`. -/
def byteCapLoop (cap : Nat) : Tier K α τ C → List (Rank K α) → Tier K α τ C
  | t, [] => t
  | t, r :: items => if 10 * t.currentSizeBytes ≤ 9 * (cap : Int) then t else byteCapLoop cap (t.evictOne r) items

/-- `_evict_to_byte_cap`. -/
def evictToByteCap (t : Tier K α τ C) : Tier K α τ C :=
  match cfg.maxSizeBytes with
  | none => t
  | some cap =>
    if cap = 0 ∨ t.currentSizeBytes ≤ (cap : Int) then t else byteCapLoop cap t (t.ranked cfg)

/-- The entries, oldest first. -/
def byAccess (t : Tier K α τ C) : List K :=
  ((t.store.entries.map fun p => (toLex (p.2.lastAccess, p.1) : τ ×ₗ K)).insertionSort (· ≤ ·)).map fun r => (ofLex r).2

/-- `_evict_lru`. -/
def evictLru (t : Tier K α τ C) (count : Nat) : Tier K α τ C := (t.byAccess.take count).foldl drop t

/-- The loop of `_shed`. -/
def shedLoop (nbytes : α) : Nat → Tier K α τ C → List (Rank K α) → Tier K α τ C
  | _, t, [] => t
  | freed, t, r :: items =>
    if nbytes ≤ (freed : α) then t
    else
      match t.store.lookup r.key with
      | none => shedLoop nbytes freed t items
      | some e => shedLoop nbytes (freed + e.size) (t.evictOne r) items

/-- `_PRESSURE_KEEPS_BYTES`. -/
def pressureKeepsBytes : Int := 16 * 1024 ^ 2

/-- `_PRESSURE_WORSENED_POINTS`. -/
def pressureWorsenedPoints : α := 2

/-- `_shed`. -/
def shed (t : Tier K α τ C) (nbytes : α) : Tier K α τ C :=
  let t := if 0 < nbytes then shedLoop nbytes 0 t (t.ranked cfg) else t
  { t with pressureFloor := some (max t.currentSizeBytes pressureKeepsBytes) }

/-- `worsening` in `_pressure_share`. -/
def worsening (t : Tier K α τ C) (mem : Reading α) : Bool :=
  match t.pressurePercent with
  | none => false
  | some percent => decide (percent + pressureWorsenedPoints < mem.percent)

/-- A fresh share of the overshoot. -/
def freshShare (own : Int) (mem : Reading α) (targetPercent : α) : α :=
  let inUse := mem.total * mem.percent / 100
  let overshoot := inUse - mem.total * targetPercent
  if overshoot ≤ 0 ∨ inUse ≤ 0 then 0
  else min ((max 0 (own - pressureKeepsBytes) : Int) : α) (overshoot * min 1 ((own : α) / inUse))

/-- `_pressure_share`, with the tier it leaves. -/
def pressureShare (t : Tier K α τ C) (mem : Reading α) (targetPercent : α) : α × Tier K α τ C :=
  match t.pressureFloor, t.worsening mem with
  | some floor, false => (((max 0 (t.currentSizeBytes - floor) : Int) : α), t)
  | _, _ => (freshShare t.currentSizeBytes mem targetPercent, { t with pressurePercent := some mem.percent })

/-- `_evict`. -/
def evict (t : Tier K α τ C) (mem : Reading α) : Tier K α τ C :=
  let share := t.pressureShare mem (cfg.maxMemoryPercent * (9 / 10))
  share.2.shed cfg share.1

/-- A check, once the reads held back are written in. -/
def check (t : Tier K α τ C) (mem : Reading α) : Tier K α τ C :=
  if cfg.maxMemoryPercent < mem.percent / 100 then t.evict cfg mem
  else { t with pressureFloor := none, pressurePercent := none }

/-- `_check_and_evict`. -/
def checkAndEvict (t : Tier K α τ C) (mem : Option (Reading α)) (held : List (Held K τ)) : Tier K α τ C :=
  match mem with
  | none => t.flush held
  | some mem => (t.flush held).check cfg mem

/-! ## Writes -/

end Order

end Tier

/-- How far a write comes: it is refused before its value is copied, the copy raises, or there is a copy of this size, with
the side tables it enters. -/
inductive Made
  | refused
  | raised
  | copied (size : Nat) (enters : Side → Bool)

/-- What one call of `set` meets. -/
structure Write (α τ C : Type) (K : Type) where
  held : List (Held K τ)
  now : τ
  lastAccess : Option τ
  accessCount : Option Nat
  cost : C
  made : Made
  /-- The memory reading, if one is taken and there is one. -/
  mem : Option (Reading α)
  heldAtCheck : List (Held K τ)

/-- What the copy of a hit meets. -/
inductive Hit
  /-- The entry cannot be served: a table it keeps was written, its bytes cannot be read. -/
  | unservable
  /-- It is served; `slow`: for the last time. -/
  | served (plans : Bool) (adopts : Option Bool) (slow : Bool)

namespace Tier

variable [LinearOrder K] [LinearOrder τ] (cfg : Config α C)

/-- Is a value of this size over the eviction target? -/
def overTarget (size : Nat) : Bool :=
  match cfg.maxSizeBytes with
  | none => false
  | some cap => decide (9 * cap < 10 * size)

/-- The bookkeeping of a write under the lock. -/
def put (t : Tier K α τ C) (key : K) (w : Write α τ C K) (size : Nat) (enters : Side → Bool) : Tier K α τ C :=
  let previous := ((t.store.lookup key).map fun e => (e.size : Int)).getD 0
  let entry : Entry τ C := ⟨t.dicts, size, w.cost, w.accessCount.getD 0, w.lastAccess.getD w.now⟩
  let t := { t with currentSizeBytes := t.currentSizeBytes - previous, store := t.store.insert key entry, dicts := t.dicts + 1 }
  let t := t.touch key
  { t with
    side := fun s k => if k = key then enters s else t.side s k
    currentSizeBytes := t.currentSizeBytes + size }

/-- The `max_entries` check. -/
def enforceEntries (t : Tier K α τ C) : Tier K α τ C :=
  match cfg.maxEntries with
  | none => t
  | some most => if most < t.store.entries.length then t.evictLru (t.store.entries.length - most) else t

/-- The byte cap check. -/
def enforceBytes (t : Tier K α τ C) : Tier K α τ C :=
  match cfg.maxSizeBytes with
  | none => t
  | some cap => if (cap : Int) < t.currentSizeBytes then t.evictToByteCap cfg else t

/-- A write up to its memory check. -/
def written (t : Tier K α τ C) (key : K) (w : Write α τ C K) (size : Nat) (enters : Side → Bool) : Tier K α τ C :=
  let t := ((t.put key w size enters).enforceEntries cfg).enforceBytes cfg
  { t with setCount := t.setCount + 1 }

/-- Is a memory check due? -/
def due (t : Tier K α τ C) : Bool := decide (t.setCount % cfg.checkInterval = 0)

/-- `set`; false when it refused. -/
def set (t : Tier K α τ C) (key : K) (w : Write α τ C K) : Option Bool × Tier K α τ C :=
  let t := t.flush w.held
  match w.made with
  | .refused => (some false, t.drop key)
  | .raised => (none, t)
  | .copied size enters =>
    if overTarget cfg size then (some false, t.drop key)
    else
      let t := t.written cfg key w size enters
      (some true, if t.due cfg then t.checkAndEvict cfg w.mem w.heldAtCheck else t)

/-! ## Reads and removals -/

/-- `get_metadata`. -/
def getMetadata (t : Tier K α τ C) (key : K) (now : τ) (held : List (Held K τ)) : Tier K α τ C :=
  let t := t.flush held
  match t.store.lookup key with
  | none => t
  | some e => t.counted key e 1 now

/-- `_adopt_tables`; none when no table is adopted, else whether some are the caller's still. -/
def adoptTables (t : Tier K α τ C) (key : K) : Option Bool → Tier K α τ C
  | none => t
  | some left =>
    { t with side := fun s k =>
        if k = key then
          match s with
          | .frameCells => true
          | .checked => left
          | s => t.side s k
        else t.side s k }

/-- The plan made on the first hit. -/
def planned (t : Tier K α τ C) (key : K) : Tier K α τ C :=
  { t with side := fun s k => t.side s k || (decide (k = key) && decide (s = .copyPlans)) }

/-- A hit, from its copy on. -/
def hit (t : Tier K α τ C) (key : K) : Hit → Tier K α τ C
  | .unservable => t.drop key
  | .served plans adopts slow =>
    let t := t.adoptTables key adopts
    let t := if plans then t.planned key else t
    if slow then t.drop key else t

/-- `get`. -/
def get (t : Tier K α τ C) (key : K) (now : τ) (h : Hit) : Tier K α τ C :=
  match t.store.lookup key with
  | none => t
  | some e => ((t.counted key e 1 now).touch key).hit key h

omit [LinearOrder K] [LinearOrder τ] [LinearOrder α] in
/-- `clear`. -/
def clear (t : Tier K α τ C) : Tier K α τ C :=
  { t with
    store := ∅
    side := fun _ _ => false
    gdsfBase := ∅
    seqByKey := ∅
    currentSizeBytes := 0
    pressureFloor := none
    pressurePercent := none }

/-! ## Runs -/

end Tier

inductive Op (K α τ C : Type)
  | set (key : K) (w : Write α τ C K)
  | get (key : K) (now : τ) (hit : Hit)
  | getMetadata (key : K) (now : τ) (held : List (Held K τ))
  | delete (key : K)
  | clear
  /-- A memory check of its own. -/
  | check (mem : Option (Reading α)) (held : List (Held K τ))
  /-- The byte cap of its own. -/
  | evict

namespace Tier

variable [LinearOrder K] [LinearOrder τ] (cfg : Config α C)

def step (t : Tier K α τ C) : Op K α τ C → Tier K α τ C
  | .set key w => (t.set cfg key w).2
  | .get key now hit => t.get key now hit
  | .getMetadata key now held => t.getMetadata key now held
  | .delete key => t.drop key
  | .clear => t.clear
  | .check mem held => t.checkAndEvict cfg mem held
  | .evict => t.evictToByteCap cfg

def run (t : Tier K α τ C) (ops : List (Op K α τ C)) : Tier K α τ C := ops.foldl (step cfg) t

end Tier

end Cash.Ram
