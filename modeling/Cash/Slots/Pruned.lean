import Cash.Slots.Index
import Mathlib.Data.List.Sort
import Mathlib.Data.Rat.Defs
import Mathlib.Algebra.Order.Ring.Unbundled.Rat
import Cash.Slots.Theorems
import Mathlib.Tactic.Linarith

/-!
# Pruning superseded versions

`superseded_to_drop`, and `_prune_versions` of `FileBackend`. Costs and times are rationals. What reading the metadata of
an entry gives is a parameter, and so is whether a write of it is queued.
-/

namespace Cash.Slots

open Py

/-- `BYTES_PER_COMPUTE_SECOND`. -/
def bytesPerComputeSecond : Nat := 64 * 1024 * 1024

/-- `MAX_SUPERSEDED`. -/
def maxSuperseded : Nat := 16

/-- The superseded versions, the one used last first; `sorted` is stable. -/
def older (versions : List (Str × Version ℚ)) (current : Str) : List (Version ℚ) :=
  ((versions.filter fun p => p.1 ≠ current).map (·.2)).insertionSort fun v w => w.used ≤ v.used

def affordable (kept : Nat) (keptBytes : Int) (v : Version ℚ) : Bool :=
  decide (kept < maxSuperseded) && decide (((keptBytes + v.size : Int) : ℚ) ≤ bytesPerComputeSecond * max v.cost 0)

/-- The loop of `superseded_to_drop`. -/
def dropLoop (inUse : List Str) : Nat → Nat → Int → List (Version ℚ) → List Str
  | _, _, _, [] => []
  | i, kept, keptBytes, v :: vs =>
    if i = 0 ∨ v.key ∈ inUse ∨ affordable kept keptBytes v then dropLoop inUse (i + 1) (kept + 1) (keptBytes + v.size) vs
    else v.key :: dropLoop inUse (i + 1) kept keptBytes vs

/-- `superseded_to_drop`. -/
def supersededToDrop (versions : List (Str × Version ℚ)) (current : Str) (inUse : List Str) : List Str :=
  dropLoop inUse 0 0 0 (older versions current)

/-! ## `_prune_versions` -/

/-- An entry that can be read. -/
structure Entry where
  expired : Bool
  callRefs : List Str

/-- What the backend finds of the entries. -/
structure Folder where
  pending : Str → Bool
  exists' : Str → Bool
  entry : Str → Option Entry
  readKeys : List Str
  /-- An entry is read once its write is done. -/
  exists_of_entry : ∀ k, (entry k).isSome → pending k = true ∨ exists' k = true

/-- `_call_refs_of`: `get_metadata` gives none of an expired entry. -/
def Folder.callRefsOf (f : Folder) (keys : List Str) : List Str :=
  keys.flatMap fun k =>
    match f.entry k with
    | some e => if e.expired then [] else e.callRefs
    | none => []

/-- What `_prune_versions` does: the entries it deletes, in order, and the index after it. -/
structure Pruned where
  gone : List Str
  drop : List Str
  freed : List Str
  world : World ℚ

/-- `_prune_versions` at a time; `renames` is for `forget`. -/
def pruneVersions (num : Numbers ℚ) (f : Folder) (w : World ℚ) (slot key : Str) (size : Int) (cost : ℚ)
    (callRefs : List Str) (now : ℚ) (renames : Bool) : Pruned :=
  let (versions, w) := record num w slot key size cost now
  let gone := (Items.keys versions).filter fun k => k ≠ key && !f.pending k && !f.exists' k
  let versions := versions.filter fun p => p.1 ∉ gone
  let drop := supersededToDrop versions key f.readKeys
  let kept := f.callRefsOf ((Items.keys versions).filter fun k => k ∉ drop && k ≠ key)
  let freed := (f.callRefsOf drop).filter fun k => k ∉ kept && k ∉ callRefs
  ⟨gone, drop, freed, if gone ≠ [] ∨ drop ≠ [] then forget num w (gone ++ drop) renames else w⟩

def Pruned.deleted (p : Pruned) : List Str := p.drop ++ p.freed

/-! ## Pruning keeps what it promises -/

/-! ### A stable sort of some of the items -/

section

variable {α : Type} (r : α → α → Prop) [DecidableRel r] [Std.Total r] [IsTrans α r]

omit [Std.Total r] in
theorem filter_orderedInsert (p : α → Bool) (a : α) {l : List α} (hl : l.Pairwise r) :
    (l.orderedInsert r a).filter p = if p a then (l.filter p).orderedInsert r a else l.filter p := by
  induction l with
  | nil =>
      rw [List.orderedInsert_nil, List.filter_cons]
      rfl
  | cons b l ih =>
      rw [List.pairwise_cons] at hl
      rw [List.orderedInsert_cons]
      by_cases hab : r a b
      · rw [if_pos hab, List.filter_cons]
        split
        · cases hfilter : (b :: l).filter p with
          | nil => rfl
          | cons c cs =>
              have hc : c ∈ b :: l := List.mem_of_mem_filter (hfilter ▸ List.mem_cons_self : c ∈ (b :: l).filter p)
              have hac : r a c := by
                rcases List.mem_cons.mp hc with rfl | hc
                · exact hab
                · exact trans_of r hab (hl.1 c hc)
              rw [List.orderedInsert_cons, if_pos hac]
        · rfl
      · rw [if_neg hab, List.filter_cons, ih hl.2, List.filter_cons]
        by_cases hb : p b
        · rw [if_pos hb, if_pos hb]
          split
          · rw [List.orderedInsert_cons, if_neg hab]
          · rfl
        · rw [if_neg hb, if_neg hb]

theorem filter_insertionSort (p : α → Bool) (l : List α) :
    (l.insertionSort r).filter p = (l.filter p).insertionSort r := by
  induction l with
  | nil => rfl
  | cons a l ih =>
      rw [List.insertionSort_cons, filter_orderedInsert r p a (List.pairwise_insertionSort r l), ih, List.filter_cons]
      split <;> rfl

end

/-! ### The greedy pass -/

variable {inUse : List Str} {v : Version ℚ} {vs : List (Version ℚ)} {versions : List (Str × Version ℚ)} {current : Str}

theorem mem_keys_of_mem_dropLoop {i kept : Nat} {bytes : Int} {k : Str} (h : k ∈ dropLoop inUse i kept bytes vs) :
    k ∈ vs.map (·.key) ∧ k ∉ inUse := by
  induction vs generalizing i kept bytes with
  | nil => cases h
  | cons v vs ih =>
      rw [dropLoop] at h
      split at h
      · obtain ⟨hmem, hout⟩ := ih h
        exact ⟨List.mem_cons_of_mem _ hmem, hout⟩
      · next hnot =>
        rcases List.mem_cons.mp h with rfl | h
        · exact ⟨List.mem_cons_self, fun hin => hnot (.inr (.inl hin))⟩
        · obtain ⟨hmem, hout⟩ := ih h
          exact ⟨List.mem_cons_of_mem _ hmem, hout⟩

/-- Past the first version the place does not count. -/
theorem dropLoop_succ (i j kept : Nat) (bytes : Int) (vs : List (Version ℚ)) :
    dropLoop inUse (i + 1) kept bytes vs = dropLoop inUse (j + 1) kept bytes vs := by
  induction vs generalizing i j kept bytes with
  | nil => rfl
  | cons v vs ih =>
      rw [dropLoop, dropLoop, ih (i + 1) (j + 1), ih (i + 1) (j + 1)]
      have hi : (i + 1 = 0 ∨ v.key ∈ inUse ∨ affordable kept bytes v = true) ↔
          (j + 1 = 0 ∨ v.key ∈ inUse ∨ affordable kept bytes v = true) := by
        rw [or_iff_right (Nat.succ_ne_zero i), or_iff_right (Nat.succ_ne_zero j)]
      rw [if_congr hi rfl rfl]

def sizes (vs : List (Version ℚ)) : Int := (vs.map (·.size)).sum

/-- The versions that a list of dropped keys leaves. -/
def left (dropped : List Str) (vs : List (Version ℚ)) : List (Version ℚ) := vs.filter fun v => v.key ∉ dropped

theorem left_cons (dropped : List Str) (u : Version ℚ) (vs : List (Version ℚ)) :
    left dropped (u :: vs) = if u.key ∈ dropped then left dropped vs else u :: left dropped vs := by
  rw [left, List.filter_cons]
  split
  · next h => rw [if_neg (of_decide_eq_true h), left]
  · next h => rw [if_pos (by simpa using h), left]

theorem left_of_not_mem {k : Str} (h : k ∉ vs.map (·.key)) (dropped : List Str) : left (k :: dropped) vs = left dropped vs := by
  apply List.filter_congr
  intro w hw
  have hne : w.key ≠ k := fun heq => h (heq ▸ List.mem_map.mpr ⟨w, hw, rfl⟩)
  simp [hne]

/-- What a version in the loop was judged by. -/
theorem not_mem_dropLoop {i kept : Nat} {bytes : Int} {pre post : List (Version ℚ)}
    (hnodup : ((pre ++ v :: post).map (·.key)).Nodup) (h : v.key ∉ dropLoop inUse i kept bytes (pre ++ v :: post)) :
    i + pre.length = 0 ∨ v.key ∈ inUse ∨
      affordable (kept + (left (dropLoop inUse i kept bytes (pre ++ v :: post)) pre).length)
        (bytes + sizes (left (dropLoop inUse i kept bytes (pre ++ v :: post)) pre)) v = true := by
  induction pre generalizing i kept bytes with
  | nil =>
      rw [List.nil_append, dropLoop] at h
      split at h
      · next hkept =>
        rw [left, List.filter_nil, sizes, List.map_nil, List.sum_nil, Int.add_zero]
        exact hkept
      · exact absurd List.mem_cons_self h
  | cons u pre ih =>
      rw [List.cons_append, List.map_cons, List.nodup_cons] at hnodup
      have hout : u.key ∉ pre.map (·.key) := fun hin => hnodup.1 (by rw [List.map_append]; exact List.mem_append_left _ hin)
      rw [List.cons_append, dropLoop] at h ⊢
      split at h
      · next hkept =>
        have hu : u.key ∉ dropLoop inUse (i + 1) (kept + 1) (bytes + u.size) (pre ++ v :: post) :=
          fun hin => hnodup.1 (mem_keys_of_mem_dropLoop hin).1
        rw [if_pos hkept, left_cons, if_neg hu, sizes, List.map_cons, List.sum_cons, List.length_cons, List.length_cons]
        rcases ih hnodup.2 h with h | h | h
        · exact absurd h (by omega)
        · exact .inr (.inl h)
        · refine .inr (.inr ?_)
          rw [Int.add_assoc, Nat.add_right_comm] at h
          exact h
      · next hnot =>
        rw [if_neg hnot, left_cons, if_pos List.mem_cons_self, left_of_not_mem hout, List.length_cons]
        rcases ih hnodup.2 (fun hin => h (List.mem_cons_of_mem _ hin)) with h | h | h
        · exact absurd h (by omega)
        · exact .inr (.inl h)
        · exact .inr (.inr h)

/-- What the loop leaves, it leaves again. -/
theorem dropLoop_left {i kept : Nat} {bytes : Int} (hnodup : (vs.map (·.key)).Nodup) :
    dropLoop inUse i kept bytes (left (dropLoop inUse i kept bytes vs) vs) = [] := by
  induction vs generalizing i kept bytes with
  | nil => rfl
  | cons u vs ih =>
      rw [List.map_cons, List.nodup_cons] at hnodup
      rw [dropLoop]
      split
      · next hkept =>
        have hu : u.key ∉ dropLoop inUse (i + 1) (kept + 1) (bytes + u.size) vs :=
          fun hin => hnodup.1 (mem_keys_of_mem_dropLoop hin).1
        rw [left_cons, if_neg hu, dropLoop, if_pos hkept]
        exact ih hnodup.2
      · next hnot =>
        rw [left_cons, if_pos List.mem_cons_self, left_of_not_mem hnodup.1]
        have hi : ∃ j, i = j + 1 := Nat.exists_eq_succ_of_ne_zero fun h => hnot (.inl h)
        obtain ⟨j, rfl⟩ := hi
        rw [dropLoop_succ j (j + 1)]
        exact ih hnodup.2

/-! ### `superseded_to_drop` -/

/-- A dict of versions. -/
structure Versions where
  items : List (Str × Version ℚ)
  keyed : ∀ p ∈ items, p.2.key = p.1
  nodup : (Items.keys items).Nodup

/-- What pruning promises of a dict of versions, the keys `drop` being dropped. -/
structure Promises (versions : List (Str × Version ℚ)) (current : Str) (inUse drop : List Str) : Prop where
  notCurrent : current ∉ drop
  notInUse : ∀ k ∈ inUse, k ∉ drop
  newest : ∀ v ∈ (older versions current).head?, v.key ∉ drop ∧ ∀ w ∈ older versions current, w.used ≤ v.used
  afforded : ∀ pre v post, older versions current = pre ++ v :: post → pre ≠ [] → v.key ∉ inUse → v.key ∉ drop →
    (sizes (left drop (pre ++ [v])) : ℚ) ≤ bytesPerComputeSecond * max v.cost 0 ∧ (left drop pre).length ≤ maxSuperseded - 1
  again : supersededToDrop (versions.filter fun p => p.1 ∉ drop) current inUse = []

theorem mem_older : v ∈ older versions current ↔ ∃ k, (k, v) ∈ versions ∧ k ≠ current := by
  rw [older, List.mem_insertionSort, List.mem_map]
  constructor
  · rintro ⟨p, hp, rfl⟩
    rw [List.mem_filter, decide_eq_true_eq] at hp
    exact ⟨p.1, hp⟩
  · rintro ⟨k, hk, hne⟩
    exact ⟨(k, v), List.mem_filter.mpr ⟨hk, decide_eq_true hne⟩, rfl⟩

instance : Std.Total fun v w : Version ℚ => w.used ≤ v.used := ⟨fun v w => le_total w.used v.used⟩

instance : IsTrans (Version ℚ) fun v w => w.used ≤ v.used := ⟨fun _ _ _ h h' => h'.trans h⟩

theorem pairwise_older (versions : List (Str × Version Rat)) (current : Str) :
    (older versions current).Pairwise fun v w => w.used ≤ v.used := List.pairwise_insertionSort _ _

theorem Versions.keys_older (vs : Versions) (current : Str) : ((older vs.items current).map (·.key)).Nodup := by
  have hperm : ((older vs.items current).map (·.key)).Perm (((vs.items.filter fun p => p.1 ≠ current).map (·.2)).map (·.key)) :=
    (List.perm_insertionSort _ _).map _
  rw [hperm.nodup_iff, List.map_map]
  have hkeys : (vs.items.filter fun p => p.1 ≠ current).map ((·.key) ∘ (·.2)) = (vs.items.filter fun p => p.1 ≠ current).map (·.1) :=
    List.map_congr_left fun p hp => vs.keyed p (List.mem_of_mem_filter hp)
  rw [hkeys]
  exact vs.nodup.sublist (List.filter_sublist.map _)

/-- The versions left are left in their order. -/
theorem Versions.older_filter (vs : Versions) (current : Str) (drop : List Str) :
    older (vs.items.filter fun p => p.1 ∉ drop) current = left drop (older vs.items current) := by
  rw [older, older, left, filter_insertionSort, List.filter_map, List.filter_filter, List.filter_filter]
  congr 2
  apply List.filter_congr
  intro p hp
  rw [Function.comp_apply, vs.keyed p hp, Bool.and_comm]

theorem supersededToDrop_promises (vs : Versions) (current : Str) (inUse : List Str) :
    Promises vs.items current inUse (supersededToDrop vs.items current inUse) where
  notCurrent h := by
    obtain ⟨v, hv, heq⟩ := List.mem_map.mp (mem_keys_of_mem_dropLoop h).1
    obtain ⟨k, hk, hne⟩ := mem_older.mp hv
    exact hne ((vs.keyed _ hk).symm.trans heq)
  notInUse k hk h := (mem_keys_of_mem_dropLoop h).2 hk
  newest v hv := by
    have hnodup := vs.keys_older current
    have hsorted := pairwise_older vs.items current
    rw [supersededToDrop]
    cases hold : older vs.items current with
    | nil =>
        rw [hold] at hv
        cases hv
    | cons u us =>
        rw [hold] at hv hnodup hsorted
        obtain rfl := Option.some_inj.mp hv
        rw [List.map_cons, List.nodup_cons] at hnodup
        rw [List.pairwise_cons] at hsorted
        refine ⟨fun h => ?_, fun w hw => ?_⟩
        · rw [dropLoop, if_pos (.inl rfl)] at h
          exact hnodup.1 (mem_keys_of_mem_dropLoop h).1
        · rcases List.mem_cons.mp hw with rfl | hw
          · exact le_refl _
          · exact hsorted.1 w hw
  afforded pre v post hold hpre hout hkept := by
    have hnodup := vs.keys_older current
    rw [supersededToDrop, hold] at hkept ⊢
    rw [hold] at hnodup
    rcases not_mem_dropLoop hnodup hkept with h | h | h
    · exact absurd (List.length_eq_zero_iff.mp (by omega)) hpre
    · exact absurd h hout
    · rw [affordable, Bool.and_eq_true, decide_eq_true_eq, decide_eq_true_eq] at h
      have hsizes : sizes (left (dropLoop inUse 0 0 0 (pre ++ v :: post)) (pre ++ [v])) =
          0 + sizes (left (dropLoop inUse 0 0 0 (pre ++ v :: post)) pre) + v.size := by
        rw [left, List.filter_append, List.filter_cons, if_pos (decide_eq_true hkept), List.filter_nil, sizes, List.map_append,
          List.sum_append, List.map_singleton, List.sum_singleton, Int.zero_add]
        rfl
      rw [hsizes]
      exact ⟨h.2, by omega⟩
  again := by
    rw [supersededToDrop, vs.older_filter]
    exact dropLoop_left (vs.keys_older current)

/-- A call entry is no version of the slot. -/
theorem not_mem_deleted (num : Numbers ℚ) (f : Folder) (w : World ℚ) (slot key : Str) (size : Int) (cost : ℚ)
    (callRefs : List Str) (now : ℚ) (renames : Bool) (c : Str)
    (hc : ∀ p ∈ (record num w slot key size cost now).1, p.2.key ≠ c)
    (href : c ∈ callRefs ∨ ∃ k e, k ∈ Items.keys (record num w slot key size cost now).1 ∧
      k ∉ (pruneVersions num f w slot key size cost callRefs now renames).drop ∧ k ≠ key ∧ f.entry k = some e ∧
      e.expired = false ∧ c ∈ e.callRefs) :
    c ∉ (pruneVersions num f w slot key size cost callRefs now renames).deleted := by
  rw [pruneVersions] at href ⊢
  generalize record num w slot key size cost now = recorded at hc href ⊢
  obtain ⟨versions, w'⟩ := recorded
  dsimp only at hc href ⊢
  intro hmem
  rcases List.mem_append.mp hmem with hmem | hmem
  · obtain ⟨v, hv, heq⟩ := List.mem_map.mp (mem_keys_of_mem_dropLoop hmem).1
    obtain ⟨k, hk, -⟩ := mem_older.mp hv
    exact hc _ (List.mem_of_mem_filter hk) heq
  · rw [List.mem_filter, Bool.and_eq_true, decide_eq_true_eq, decide_eq_true_eq] at hmem
    obtain ⟨-, hkept, hnew⟩ := hmem
    rcases href with href | ⟨k, e, hk, hdrop, hne, he, hfresh, href⟩
    · exact hnew href
    · apply hkept
      obtain ⟨v, hv⟩ := Items.mem_keys.mp hk
      have hthere := f.exists_of_entry k (by rw [he]; rfl)
      refine List.mem_flatMap.mpr ⟨k, List.mem_filter.mpr ⟨Items.mem_keys.mpr ⟨v, List.mem_filter.mpr ⟨hv, ?_⟩⟩, ?_⟩, ?_⟩
      · rw [decide_eq_true_eq, List.mem_filter]
        rintro ⟨-, hgone⟩
        simp only [ne_eq, decide_not, Bool.and_eq_true, Bool.not_eq_true'] at hgone
        rcases hthere with h | h
        · rw [h] at hgone
          exact absurd hgone.1.2 (by decide)
        · rw [h] at hgone
          exact absurd hgone.2 (by decide)
      · rw [Bool.and_eq_true, decide_eq_true_eq, decide_eq_true_eq]
        exact ⟨hdrop, hne⟩
      · rw [he]
        dsimp only
        rw [hfresh]
        exact href

/-- What pruning drops, and what it deletes with it: no call entry that a version left refers to. -/
theorem prune_keeps :
    (∀ (vs : Versions) (current : Str) (inUse : List Str),
      Promises vs.items current inUse (supersededToDrop vs.items current inUse)) ∧
    ∀ (num : Numbers ℚ) (f : Folder) (w : World ℚ) (slot key : Str) (size : Int) (cost : ℚ) (callRefs : List Str) (now : ℚ)
      (renames : Bool) (c : Str), (∀ p ∈ (record num w slot key size cost now).1, p.2.key ≠ c) →
      (c ∈ callRefs ∨ ∃ k e, k ∈ Items.keys (record num w slot key size cost now).1 ∧
        k ∉ (pruneVersions num f w slot key size cost callRefs now renames).drop ∧ k ≠ key ∧ f.entry k = some e ∧
        e.expired = false ∧ c ∈ e.callRefs) →
      c ∉ (pruneVersions num f w slot key size cost callRefs now renames).deleted :=
  ⟨supersededToDrop_promises, not_mem_deleted⟩

/-! ### Two versions used at one time -/

/-- A rational, as a numerator and a denominator. -/
def ratioText (q : ℚ) : Str := wholeText q.num ++ 47 :: decimal q.den

def readRatio (s : Str) : Option ℚ :=
  (readWhole (s.takeWhile (· ≠ 47))).map fun n => mkRat n (Literal.readDecimal (s.dropWhile (· ≠ 47)).tail)

theorem readRatio_ratioText (q : ℚ) : readRatio (ratioText q) = some q := by
  have hdigits : ∀ c ∈ wholeText q.num, c ≠ 47 := by
    intro c hc
    have hdigit : ∀ c ∈ decimal q.num.natAbs, c ≠ 47 := fun c hc => by
      have hd := Literal.isDigit_decimal _ c hc
      unfold Literal.IsDigit at hd
      omega
    rw [wholeText] at hc
    split at hc
    · rcases List.mem_cons.mp hc with rfl | hc
      · decide
      · exact hdigit c hc
    · exact hdigit c hc
  have hstop : (47 :: decimal q.den).takeWhile (· ≠ 47) = [] ∧ (47 :: decimal q.den).dropWhile (· ≠ 47) = 47 :: decimal q.den := by
    constructor
    · rw [List.takeWhile_cons_of_neg (by decide)]
    · rw [List.dropWhile_cons_of_neg (by decide)]
  rw [readRatio, ratioText, List.takeWhile_append_of_pos fun c hc => decide_eq_true (hdigits c hc),
    List.dropWhile_append_of_pos fun c hc => decide_eq_true (hdigits c hc), hstop.1, hstop.2, List.append_nil,
    readWhole_wholeText, Option.map_some, List.tail_cons, Literal.readDecimal_decimal, Rat.mkRat_self]

theorem valid_ratioText (q : ℚ) : valid (ratioText q) = true := by
  refine valid_of_chars (List.append_ne_nil_of_right_ne_nil _ (List.cons_ne_nil _ _)) fun c hc => ?_
  rcases List.mem_append.mp hc with hc | hc
  · exact chars_wholeText _ c hc
  · rcases List.mem_cons.mp hc with rfl | hc
    · decide
    · exact chars_decimal _ c hc

/-- Rationals. -/
def ratios : Numbers ℚ where
  intText := wholeText
  int := readWhole
  repr := ratioText
  float := readRatio
  gt a b := decide (a > b)
  int_intText := readWhole_wholeText
  float_repr := readRatio_ratioText
  valid_intText := valid_wholeText
  valid_repr := valid_ratioText

/-- Every version is there, and refers to one call entry. -/
def oneCall : Folder := ⟨fun _ => false, fun _ => true, fun _ => some ⟨false, [str "call"]⟩, [], fun _ _ => .inr rfl⟩

/-- A version that is kept, and one that is not afforded. -/
def oneCallLog : Str := str "s v 1 1/1 2/1\ns o 100000000 0/1 1/1\n"

/-- Version `b` is afforded; `c`, used at the same time, is in use and large. -/
def tied : Versions where
  items := [(str "a", ⟨str "a", 0, 0, 3⟩), (str "b", ⟨str "b", 10, 1, 1⟩), (str "c", ⟨str "c", 2 ^ 27, 0, 1⟩)]
  keyed := by decide
  nodup := by decide

/-- With all versions used no earlier counted, `b` is over what its cost affords. -/
theorem tied_over : ¬∀ v ∈ older tied.items (str "n"), v.key ∉ supersededToDrop tied.items (str "n") [str "c"] →
    (older tied.items (str "n")).head? ≠ some v → v.key ∉ [str "c"] →
    (sizes ((left (supersededToDrop tied.items (str "n") [str "c"]) (older tied.items (str "n"))).filter
      fun w => v.used ≤ w.used) : ℚ) ≤ bytesPerComputeSecond * v.cost := by
  intro h
  have hb := h ⟨str "b", 10, 1, 1⟩ (by decide) (by decide +kernel) (by decide) (by decide)
  revert hb
  decide +kernel

theorem prune_keeps_tied :
    Promises tied.items (str "n") [str "c"] (supersededToDrop tied.items (str "n") [str "c"]) ∧
      str "call" ∉ (pruneVersions ratios oneCall ⟨oneCallLog, none⟩ (str "s") (str "n") 1 1 [] 3 true).deleted :=
  ⟨prune_keeps.1 tied (str "n") [str "c"],
    prune_keeps.2 ratios oneCall ⟨oneCallLog, none⟩ (str "s") (str "n") 1 1 [] 3 true (str "call")
      (by decide +kernel)
      (.inr ⟨str "v", ⟨false, [str "call"]⟩, by decide +kernel, by decide +kernel, by decide, rfl, rfl, by decide⟩)⟩

end Cash.Slots
