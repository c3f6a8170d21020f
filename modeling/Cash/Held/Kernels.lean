import Cash.Lib.Grouping

/-!
# The C kernels of the walk over what a value holds

`leaf_items`, `seq_children`, `dict_children`, `split_level`, `new_in` and `type_set` of `cwalk.c`. Two classes are one to
them where the pointers are. Lists are passed for lists and sets of types for sets of types, and no allocation fails.
-/

namespace Cash.Held

/-- The objects `O`, and their classes `T` as the interpreter compares them. -/
structure Heap (O T : Type) where
  /-- `type(o)`. -/
  kindOf : O → T
  dict : T
  list : T
  tuple : T
  set : T
  frozenset : T
  /-- What iterating an exact list, tuple, set or frozenset gives. -/
  items : O → List O
  /-- What `PyDict_Next` and `dict.items` give of an exact dict. -/
  entries : O → List (O × O)
  /-- `plain_meta`: the metaclass hashes and compares as `type` does. -/
  plainMeta : T → Bool
  /-- Whether the metaclass has a `__hash__`. -/
  hashable : T → Bool
  /-- Two classes hash alike and are equal. -/
  same : T → T → Bool
  same_equivalence : Equivalence fun t u => same t u = true
  plain_tuple : plainMeta tuple = true
  hashable_of_plain : ∀ t, plainMeta t = true → hashable t = true
  eq_of_plain : ∀ t u, plainMeta t = true → plainMeta u = true → same t u = true → t = u

variable {O T K : Type} [DecidableEq T] [DecidableEq K]

namespace Heap

variable (heap : Heap O T)

/-- `t in s`. -/
def member (s : List T) (t : T) : Bool := s.any (heap.same · t)

/-- `_SEQUENCES`. -/
def sequences : List T := [heap.list, heap.tuple, heap.set, heap.frozenset]

def isDict (o : O) : Bool := heap.kindOf o = heap.dict

def isTuple (o : O) : Bool := heap.kindOf o = heap.tuple

/-- `is_exact_seq`. -/
def isSequence (o : O) : Bool := heap.kindOf o ∈ heap.sequences

end Heap

variable {heap : Heap O T} {s : List T}

/-! ## Whether a class is in a set of classes -/

/-- What `ts_has` answers: 1, 0 or -2. -/
inductive Verdict
  | yes
  | no
  | unknown
deriving DecidableEq

def Heap.verdict (heap : Heap O T) (s : List T) (t : T) : Verdict :=
  if heap.plainMeta t then if heap.member s t then .yes else .no else .unknown

/-- `LT_CACHE`. -/
def ltCache : Nat := 8

/-- `TypeSet`: a set with the classes last found in it and not in it. What they say is so. -/
structure TypeSet (heap : Heap O T) (s : List T) where
  yes : List T
  no : List T
  ry : Nat
  rn : Nat
  verdict_yes : ∀ t ∈ yes, heap.verdict s t = .yes
  verdict_no : ∀ t ∈ no, heap.verdict s t = .no

/-- A class takes a free place, or the next one in turn. -/
def cached (ts : List T) (turn : Nat) (t : T) : List T × Nat :=
  if ts.length < ltCache then (ts ++ [t], turn) else (ts.set (turn % ltCache) t, turn + 1)

omit [DecidableEq T] in
theorem mem_of_mem_cached {ts : List T} {turn : Nat} {t u : T} (h : u ∈ (cached ts turn t).1) : u ∈ ts ∨ u = t := by
  unfold cached at h
  split at h
  · exact (List.mem_append.mp h).imp id List.mem_singleton.mp
  · exact List.mem_or_eq_of_mem_set h

namespace TypeSet

/-- `ts_init`. -/
def init (heap : Heap O T) (s : List T) : TypeSet heap s where
  yes := []
  no := []
  ry := 0
  rn := 0
  verdict_yes := List.forall_mem_nil _
  verdict_no := List.forall_mem_nil _

omit [DecidableEq T] in
theorem verdict_cached {ts : List T} {turn : Nat} {t : T} {v : Verdict} (hts : ∀ u ∈ ts, heap.verdict s u = v)
    (ht : heap.verdict s t = v) : ∀ u ∈ (cached ts turn t).1, heap.verdict s u = v := by
  intro u hu
  rcases mem_of_mem_cached hu with hu | rfl
  · exact hts u hu
  · exact ht

/-- `ts_has`. -/
def has (ts : TypeSet heap s) (t : T) : Verdict × TypeSet heap s :=
  if t ∈ ts.yes then (.yes, ts)
  else if t ∈ ts.no then (.no, ts)
  else match h : heap.verdict s t with
    | .unknown => (.unknown, ts)
    | .yes => (.yes, { ts with
        yes := (cached ts.yes ts.ry t).1
        ry := (cached ts.yes ts.ry t).2
        verdict_yes := verdict_cached ts.verdict_yes h })
    | .no => (.no, { ts with
        no := (cached ts.no ts.rn t).1
        rn := (cached ts.no ts.rn t).2
        verdict_no := verdict_cached ts.verdict_no h })

/-- `seq_all_in`. -/
def seqAllIn (ts : TypeSet heap s) : List O → Verdict × TypeSet heap s
  | [] => (.yes, ts)
  | x :: xs =>
      match ts.has (heap.kindOf x) with
      | (.yes, ts) => ts.seqAllIn xs
      | stopped => stopped

/-- `dict_all_in`. -/
def dictAllIn (ts : TypeSet heap s) (wantKeys wantValues : Bool) : List (O × O) → Verdict × TypeSet heap s
  | [] => (.yes, ts)
  | (k, v) :: entries =>
      match if wantKeys then ts.has (heap.kindOf k) else (.yes, ts) with
      | (.yes, ts) =>
          match if wantValues then ts.has (heap.kindOf v) else (.yes, ts) with
          | (.yes, ts) => ts.dictAllIn wantKeys wantValues entries
          | stopped => stopped
      | stopped => stopped

/-- One container of a group after the other, as long as all is in the set. -/
def groupAllIn (scan : TypeSet heap s → O → Verdict × TypeSet heap s) (ts : TypeSet heap s) :
    List O → Verdict × TypeSet heap s
  | [] => (.yes, ts)
  | c :: group =>
      match scan ts c with
      | (.yes, ts) => groupAllIn scan ts group
      | stopped => stopped

end TypeSet

/-! ## The kernels

`none` and `false` are `NotImplemented`; what a kernel may change it returns as it leaves it.
-/

/-- The modes of `leaf_items`. -/
inductive Mode
  | sequences
  | values
  | records
  | keys
deriving DecidableEq

def Mode.wantKeys (mode : Mode) : Bool := mode ≠ .values

def Mode.wantValues (mode : Mode) : Bool := mode ≠ .keys

def Mode.exact (mode : Mode) (heap : Heap O T) (c : O) : Bool :=
  if mode = .sequences then heap.isSequence c else heap.isDict c

def Mode.scan (mode : Mode) (ts : TypeSet heap s) (c : O) : Verdict × TypeSet heap s :=
  if mode = .sequences then ts.seqAllIn (heap.items c)
  else ts.dictAllIn mode.wantKeys mode.wantValues (heap.entries c)

/-- `leaf_items`. -/
def leafItems (heap : Heap O T) (group : List O) (mode : Mode) (leaves : List T) : Option Bool :=
  if group.all (mode.exact heap) then
    match (TypeSet.groupAllIn mode.scan (.init heap leaves) group).1 with
    | .yes => some true
    | .no => some false
    | .unknown => none
  else none

/-- `seq_children`. -/
def seqChildren (heap : Heap O T) (group : List O) (leaves : List T) (children : List O) : Bool × List O :=
  if group.all heap.isSequence then
    match (TypeSet.groupAllIn (fun ts c => ts.seqAllIn (heap.items c)) (.init heap leaves) group).1 with
    | .yes => (true, children)
    | .no => (true, children ++ group.flatMap heap.items)
    | .unknown => (false, children)
  else (false, children)

/-- The locals of `dict_children`. -/
structure DictScan (heap : Heap O T) (leaves : List T) where
  ts : TypeSet heap leaves
  keysLeaf : Bool
  keysAlt : Bool
  valuesLeaf : Bool

namespace DictScan

variable {leaves : List T}

def init (heap : Heap O T) (leaves : List T) : DictScan heap leaves := ⟨.init heap leaves, true, true, true⟩

/-- The items of an exact tuple key, leaf tuple or not. -/
def tupleKey (scan : DictScan heap leaves) (k : O) : Option (DictScan heap leaves) :=
  if scan.keysAlt && heap.isTuple k then
    match scan.ts.seqAllIn (heap.items k) with
    | (.yes, ts) => some { scan with ts := ts }
    | (.no, ts) => some { scan with ts := ts, keysAlt := false }
    | (.unknown, _) => none
  else some scan

def key (scan : DictScan heap leaves) (k : O) : Option (DictScan heap leaves) :=
  if scan.keysLeaf || scan.keysAlt then
    match scan.ts.has (heap.kindOf k) with
    | (.yes, ts) => tupleKey { scan with ts := ts } k
    | (.no, ts) => tupleKey { scan with ts := ts, keysLeaf := false, keysAlt := scan.keysAlt && heap.isTuple k } k
    | (.unknown, _) => none
  else some scan

def value (scan : DictScan heap leaves) (v : O) : Option (DictScan heap leaves) :=
  if scan.valuesLeaf then
    match scan.ts.has (heap.kindOf v) with
    | (.yes, ts) => some { scan with ts := ts }
    | (.no, ts) => some { scan with ts := ts, valuesLeaf := false }
    | (.unknown, _) => none
  else some scan

/-- Nothing is left to find out. -/
def settled (scan : DictScan heap leaves) : Bool := !scan.keysLeaf && !scan.keysAlt && !scan.valuesLeaf

def entries (scan : DictScan heap leaves) : List (O × O) → Option (DictScan heap leaves)
  | [] => some scan
  | (k, v) :: rest => do
      let scan ← scan.key k
      let scan ← scan.value v
      if scan.settled then some scan else scan.entries rest

def dicts (scan : DictScan heap leaves) : List O → Option (DictScan heap leaves)
  | [] => some scan
  | d :: rest => do
      let scan ← scan.entries (heap.entries d)
      if scan.settled then some scan else scan.dicts rest

end DictScan

/-- `dict_children`. -/
def dictChildren (heap : Heap O T) (group : List O) (leaves : List T) (children : List O) : Bool × List O :=
  if group.all heap.isDict then
    match (DictScan.init heap leaves).dicts group with
    | none => (false, children)
    | some scan =>
        let entries := group.flatMap heap.entries
        let children := if !scan.keysLeaf && !scan.keysAlt then children ++ entries.map (·.1) else children
        (true, if !scan.valuesLeaf then children ++ entries.map (·.2) else children)
  else (false, children)

/-- The children that `split_level` keeps. -/
def sift (ts : TypeSet heap s) : List O → Option (List O)
  | [] => some []
  | c :: children =>
      match ts.has (heap.kindOf c) with
      | (.yes, ts) => sift ts children
      | (.no, ts) => (sift ts children).map (c :: ·)
      | (.unknown, _) => none

/-- `_MAJOR`. -/
def major : Nat := 16

/-- The groups of `split_level`: the classes as met, then those of more than one in 16 objects before the others. -/
def groupsOf (heap : Heap O T) (others : List O) : List (T × List O) :=
  let kinds := Grouping.tally (fun t u => decide (t = u)) (others.map heap.kindOf)
  let lists := Grouping.collect (fun t u => decide (t = u)) heap.kindOf [] others
  match kinds with
  | [(kind, _)] => [(kind, others)]
  | _ =>
      let order := kinds.filter (fun kind => kind.2 * major > others.length) ++
        kinds.filter fun kind => !decide (kind.2 * major > others.length)
      order.map fun kind => (kind.1, (lists.lookup kind.1).getD [])

/-- `split_level`. -/
def splitLevel (heap : Heap O T) (children : List O) (skipped : List T) (extra : List O) : Option (List (T × List O)) :=
  (sift (.init heap skipped) children).map fun others => groupsOf heap (others ++ extra)

/-- `new_in`: the list, and the set `seen` in the order it was filled. -/
def newIn (key : O → K) (group : List O) (seen : List K) : List O × List K :=
  group.foldl (fun (out, seen) o => if key o ∈ seen then (out, seen) else (out ++ [o], seen ++ [key o])) ([], seen)

/-- `type_set`, where a class like the last one is passed over. -/
def typeSet (heap : Heap O T) (last : Option T) (out : List T) : List O → Option (List T)
  | [] => some out
  | o :: objects =>
      if last = some (heap.kindOf o) then typeSet heap last out objects
      else if heap.hashable (heap.kindOf o) then
        typeSet heap (some (heap.kindOf o)) (Grouping.add heap.same out (heap.kindOf o)) objects
      else none

end Cash.Held
