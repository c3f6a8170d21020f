import Cash.Lib.Dict

/-!
# The RAM tier

`InMemoryBackend` as far as it decides what the tier holds and how many bytes it counts: `_set`, `_drop`
and the three evictions. Metadata dicts are references into a heap, since one dict is handed from tier to
tier and every tier writes to it.

What the source reads off the value, the clock or the machine (the size a walk measures, whether the value
can be copied, the order in which entries are ranked, the bytes memory pressure asks for) is an input of
the call (`RamWrite`).
-/

namespace Cash.Tiered

/-- A reference to a metadata dict. -/
abbrev Ref := Nat

/-- The fields of a metadata dict that the tiers below read or write. -/
structure Meta (K : Type) where
  /-- `metadata["key"]`. -/
  key : Option K
  /-- `metadata["size"]`. -/
  size : Option Nat
  /-- `metadata["kept_on_disk_alone"]` (`DISK_ALONE`). -/
  diskAlone : Bool
deriving DecidableEq, Repr

/-- The metadata dicts of the process. -/
structure Heap (K : Type) where
  dict : Ref → Meta K
  next : Ref

namespace Heap

variable {K : Type}

/-- A new dict. -/
def alloc (h : Heap K) (m : Meta K) : Heap K :=
  { dict := fun r => if r = h.next then m else h.dict r, next := h.next + 1 }

def update (h : Heap K) (r : Ref) (f : Meta K → Meta K) : Heap K :=
  { h with dict := fun r' => if r' = r then f (h.dict r) else h.dict r' }

/-- `metadata["key"] = key` (`_init_metadata`). -/
def setKey (h : Heap K) (r : Ref) (key : K) : Heap K := h.update r fun m => { m with key := some key }

/-- `metadata["size"] = n`. -/
def setSize (h : Heap K) (r : Ref) (n : Nat) : Heap K := h.update r fun m => { m with size := some n }

/-- `metadata["kept_on_disk_alone"] = b`. -/
def setDiskAlone (h : Heap K) (r : Ref) (b : Bool) : Heap K := h.update r fun m => { m with diskAlone := b }

/-- `metadata.get("size", 0)`. -/
def size (h : Heap K) (r : Ref) : Nat := (h.dict r).size.getD 0

end Heap

/-- An entry of `_store`: `(metadata, value)`. -/
structure RamEntry (V : Type) where
  metadata : Ref
  value : V
  /-- The size added to `_current_size_bytes` when this entry was stored. The source keeps no such field:
  it is the history that byte accounting is judged by. -/
  added : Nat
deriving DecidableEq, Repr

/-- The RAM tier. -/
structure Ram (K V : Type) [DecidableEq K] where
  /-- `_store`. -/
  store : Dict K (RamEntry V)
  /-- `_current_size_bytes`. -/
  currentSizeBytes : Int
  /-- `max_entries`. -/
  maxEntries : Option Nat
  /-- `_max_size_bytes`. -/
  maxSizeBytes : Option Nat

/-- What one call of `InMemoryBackend.set` meets. -/
structure RamWrite (K : Type) where
  /-- What the walk over the value (or its pickle) measures. -/
  size : Nat
  /-- Refused as no faster to read back than to compute, or as past the pickling budget. -/
  refuses : Bool
  /-- The copy raised; `some true` when rebuilding the value would write a file. -/
  raises : Option Bool
  /-- The keys of the store, least recently used first (`_evict_lru`). -/
  byAccess : List K
  /-- The keys of the store, least valuable per byte first (`_evict_to_byte_cap`). -/
  byValue : List K
  /-- When this write runs the memory check and it finds pressure: the bytes the tier sheds, and the keys,
  least valuable per byte first (`_shed`). -/
  pressure : Option (Nat × List K)

/-- How `InMemoryBackend.set` ends. -/
inductive RamResult
  | stored
  /-- It returned False. -/
  | refused
  /-- It raised; with whether the error says that rebuilding the value would write a file. -/
  | raised (writesAFile : Bool)
deriving DecidableEq, Repr

namespace Ram

variable {K V : Type} [DecidableEq K]

/-- `_drop`. -/
def drop (h : Heap K) (r : Ram K V) (key : K) : Ram K V :=
  match r.store.lookup key with
  | none => r
  | some e =>
      { r with
        store := r.store.erase key
        currentSizeBytes := r.currentSizeBytes - h.size e.metadata }

/-- `_evict_lru`. -/
def evictLru (h : Heap K) (r : Ram K V) (count : Nat) (order : List K) : Ram K V :=
  (order.take count).foldl (drop h) r

/-- The loop of `_evict_to_byte_cap`, down to 90% of the cap. -/
def evictToByteCap (h : Heap K) (cap : Nat) : Ram K V → List K → Ram K V
  | r, [] => r
  | r, key :: rest =>
      if 10 * r.currentSizeBytes ≤ 9 * cap then r else evictToByteCap h cap (r.drop h key) rest

/-- The loop of `_shed`. -/
def shed (h : Heap K) (nbytes : Nat) : Nat → Ram K V → List K → Ram K V
  | _, r, [] => r
  | freed, r, key :: rest =>
      if nbytes ≤ freed then r
      else
        match r.store.lookup key with
        | none => shed h nbytes freed r rest
        | some e => shed h nbytes (freed + h.size e.metadata) (r.drop h key) rest

/-- Is a value of this size over the eviction target, 90% of the byte cap? -/
def overTarget (r : Ram K V) (size : Nat) : Bool :=
  match r.maxSizeBytes with
  | none => false
  | some cap => 9 * cap < 10 * size

/-- The bookkeeping of `_set` under the lock: the old entry's size off, the new entry in, its size on. -/
def put (h : Heap K) (r : Ram K V) (key : K) (value : V) (metadata : Ref) (size : Nat) : Ram K V :=
  let old : Int := match r.store.lookup key with
    | none => 0
    | some previous => h.size previous.metadata
  { r with
    store := r.store.insert key ⟨metadata, value, size⟩
    currentSizeBytes := r.currentSizeBytes - old + size }

/-- The `max_entries` check of `_set`. -/
def enforceEntries (h : Heap K) (r : Ram K V) (order : List K) : Ram K V :=
  match r.maxEntries with
  | none => r
  | some most => r.evictLru h (r.store.keys.length - most) order

/-- The byte cap check of `_set`. -/
def enforceBytes (h : Heap K) (r : Ram K V) (order : List K) : Ram K V :=
  match r.maxSizeBytes with
  | none => r
  | some cap => if cap < r.currentSizeBytes then r.evictToByteCap h cap order else r

/-- The memory check of `_set`. -/
def enforcePressure (h : Heap K) (r : Ram K V) : Option (Nat × List K) → Ram K V
  | none => r
  | some (nbytes, order) => shed h nbytes 0 r order

/-- The three checks at the end of `_set`. -/
def enforce (h : Heap K) (r : Ram K V) (w : RamWrite K) : Ram K V :=
  ((r.enforceEntries h w.byAccess).enforceBytes h w.byValue).enforcePressure h w.pressure

/-- How `_set` ends: a value over the eviction target, or no faster to read back than to compute, is
refused; a copy that raises raises. -/
def ends (r : Ram K V) (w : RamWrite K) : RamResult :=
  if w.refuses || r.overTarget w.size then .refused
  else
    match w.raises with
    | some writesAFile => .raised writesAFile
    | none => .stored

/-- `_set`. -/
def set (h : Heap K) (r : Ram K V) (key : K) (value : V) (metadata : Ref) (w : RamWrite K) :
    RamResult × Heap K × Ram K V :=
  let h := h.setKey metadata key
  match r.ends w with
  | .refused => (.refused, h, r.drop h key)
  | .raised writesAFile => (.raised writesAFile, h, r)
  | .stored =>
      -- The dict gets its new size before the old entry's is taken off.
      let h := h.setSize metadata w.size
      (.stored, h, (r.put h key value metadata w.size).enforce h w)

end Ram

end Cash.Tiered
