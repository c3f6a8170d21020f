import Cash.Held.Walk

/-!
# What the kernels answer

The caches of a `TypeSet` do not show in its answers, so a kernel is what it is with `verdict` in place of `has`.
-/

namespace Cash.Held

variable {O T K F : Type} {heap : Heap O T} {s : List T}

namespace Heap

/-- Every class of the objects can be hashed. -/
def Hashed (heap : Heap O T) (objects : List O) : Prop := ∀ o ∈ objects, heap.hashable (heap.kindOf o) = true

/-- No two different classes of the objects are equal. -/
def Apart (heap : Heap O T) (objects : List O) : Prop := Grouping.Apart heap.same (objects.map heap.kindOf)

instance (objects : List O) : Decidable (heap.Hashed objects) :=
  inferInstanceAs (Decidable (∀ o ∈ objects, heap.hashable (heap.kindOf o) = true))

instance [DecidableEq T] (objects : List O) : Decidable (heap.Apart objects) :=
  inferInstanceAs (Decidable (∀ t ∈ objects.map heap.kindOf, ∀ u ∈ objects.map heap.kindOf, heap.same t u = true → t = u))

theorem same_refl (t : T) : heap.same t t = true := heap.same_equivalence.refl t

theorem member_congr {t u : T} (h : heap.same t u = true) : heap.member s t = heap.member s u := by
  unfold member
  apply List.any_congr rfl
  intro v
  rw [Bool.eq_iff_iff]
  exact ⟨fun hv => heap.same_equivalence.trans hv h, fun hv => heap.same_equivalence.trans hv (heap.same_equivalence.symm h)⟩

theorem kinds_of_hashed {objects : List O} (h : heap.Hashed objects) :
    heap.kinds objects = some (Grouping.distinct heap.same (objects.map heap.kindOf)) :=
  if_pos (List.all_eq_true.mpr h)

theorem kinds_of_not_hashed {objects : List O} (h : ¬heap.Hashed objects) : heap.kinds objects = none :=
  if_neg fun hall => h (List.all_eq_true.mp hall)

theorem within_distinct (objects : List O) (leaves : List T) :
    heap.within (Grouping.distinct heap.same (objects.map heap.kindOf)) leaves =
      objects.all fun o => heap.member leaves (heap.kindOf o) := by
  have hcongr : ∀ t u, heap.same t u = true → heap.member leaves t = heap.member leaves u := fun _ _ => member_congr
  rw [within, Grouping.all_distinct hcongr, List.all_map]
  rfl

end Heap

/-! ## Verdicts -/

theorem TypeSet.has_fst [DecidableEq T] (ts : TypeSet heap s) (t : T) : (ts.has t).1 = heap.verdict s t := by
  unfold has
  split
  · rename_i h
    exact (ts.verdict_yes t h).symm
  · split
    · rename_i h
      exact (ts.verdict_no t h).symm
    · split
      · rename_i h
        exact h.symm
      · rename_i h
        exact h.symm
      · rename_i h
        exact h.symm

/-- The first verdict that is not yes. -/
def Heap.verdicts (heap : Heap O T) (s : List T) : List O → Verdict
  | [] => .yes
  | o :: objects =>
      match heap.verdict s (heap.kindOf o) with
      | .yes => heap.verdicts s objects
      | v => v

theorem Heap.verdicts_append (objects objects' : List O) : heap.verdicts s (objects ++ objects') =
    match heap.verdicts s objects with
    | .yes => heap.verdicts s objects'
    | v => v := by
  induction objects with
  | nil => rfl
  | cons o objects ih =>
      rw [List.cons_append, verdicts, verdicts, ih]
      cases heap.verdict s (heap.kindOf o) with
      | yes => rfl
      | no => rfl
      | unknown => rfl

theorem Heap.verdict_eq_yes {t : T} (h : heap.verdict s t = .yes) : heap.plainMeta t = true ∧ heap.member s t = true := by
  unfold verdict at h
  split at h
  · rename_i hplain
    split at h
    · rename_i hmember
      exact ⟨hplain, hmember⟩
    · cases h
  · cases h

theorem Heap.verdict_eq_no {t : T} (h : heap.verdict s t = .no) : heap.plainMeta t = true ∧ heap.member s t = false := by
  unfold verdict at h
  split at h
  · rename_i hplain
    split at h
    · cases h
    · rename_i hmember
      exact ⟨hplain, Bool.eq_false_iff.mpr hmember⟩
  · cases h

theorem Heap.of_verdicts_yes {objects : List O} (h : heap.verdicts s objects = .yes) :
    ∀ o ∈ objects, heap.plainMeta (heap.kindOf o) = true ∧ heap.member s (heap.kindOf o) = true := by
  induction objects with
  | nil => exact List.forall_mem_nil _
  | cons o objects ih =>
      rw [verdicts] at h
      cases hv : heap.verdict s (heap.kindOf o) with
      | yes =>
          rw [hv] at h
          exact List.forall_mem_cons.mpr ⟨verdict_eq_yes hv, ih h⟩
      | no => rw [hv] at h; cases h
      | unknown => rw [hv] at h; cases h

theorem Heap.of_verdicts_no {objects : List O} (h : heap.verdicts s objects = .no) :
    ∃ o ∈ objects, heap.member s (heap.kindOf o) = false := by
  induction objects with
  | nil => cases h
  | cons o objects ih =>
      rw [verdicts] at h
      cases hv : heap.verdict s (heap.kindOf o) with
      | yes =>
          rw [hv] at h
          obtain ⟨o', ho', hno⟩ := ih h
          exact ⟨o', List.mem_cons_of_mem o ho', hno⟩
      | no => exact ⟨o, List.mem_cons_self, (verdict_eq_no hv).2⟩
      | unknown => rw [hv] at h; cases h

theorem Heap.all_member_of_verdicts_yes {objects : List O} (h : heap.verdicts s objects = .yes) :
    (objects.all fun o => heap.member s (heap.kindOf o)) = true :=
  List.all_eq_true.mpr fun o ho => (of_verdicts_yes h o ho).2

theorem Heap.all_member_of_verdicts_no {objects : List O} (h : heap.verdicts s objects = .no) :
    (objects.all fun o => heap.member s (heap.kindOf o)) = false := by
  obtain ⟨o, ho, hno⟩ := of_verdicts_no h
  exact List.all_eq_false.mpr ⟨o, ho, Bool.eq_false_iff.mp hno⟩

/-! ## Scans -/

namespace TypeSet

variable [DecidableEq T]

theorem seqAllIn_fst (ts : TypeSet heap s) (objects : List O) : (ts.seqAllIn objects).1 = heap.verdicts s objects := by
  induction objects generalizing ts with
  | nil => rfl
  | cons o objects ih =>
      rw [seqAllIn, Heap.verdicts, ← has_fst ts]
      rcases ts.has (heap.kindOf o) with ⟨v, ts'⟩
      cases v with
      | yes => exact ih ts'
      | no => rfl
      | unknown => rfl

/-- What `dict_all_in` looks at of an item. -/
def wanted (wantKeys wantValues : Bool) (item : O × O) : List O :=
  (if wantKeys then [item.1] else []) ++ if wantValues then [item.2] else []

theorem has_if_fst (ts : TypeSet heap s) (want : Bool) (o : O) :
    (if want then ts.has (heap.kindOf o) else (.yes, ts)).1 = heap.verdicts s (if want then [o] else []) := by
  cases want with
  | false => rfl
  | true =>
      rw [if_pos rfl, if_pos rfl, has_fst, Heap.verdicts, Heap.verdicts]
      cases heap.verdict s (heap.kindOf o) with
      | yes => rfl
      | no => rfl
      | unknown => rfl

theorem dictAllIn_fst (ts : TypeSet heap s) (wantKeys wantValues : Bool) (entries : List (O × O)) :
    (ts.dictAllIn wantKeys wantValues entries).1 = heap.verdicts s (entries.flatMap (wanted wantKeys wantValues)) := by
  induction entries generalizing ts with
  | nil => rfl
  | cons entry entries ih =>
      obtain ⟨k, v⟩ := entry
      rw [dictAllIn, List.flatMap_cons, wanted, List.append_assoc, Heap.verdicts_append, ← has_if_fst ts]
      rcases if wantKeys then ts.has (heap.kindOf k) else (.yes, ts) with ⟨_ | _ | _, ts'⟩
      · simp only
        rw [Heap.verdicts_append, ← has_if_fst ts']
        rcases if wantValues then ts'.has (heap.kindOf v) else (.yes, ts') with ⟨_ | _ | _, ts''⟩
        · exact ih ts''
        · rfl
        · rfl
      · rfl
      · rfl

omit [DecidableEq T] in
theorem groupAllIn_fst {scan : TypeSet heap s → O → Verdict × TypeSet heap s} {reads : O → List O}
    (hscan : ∀ ts c, (scan ts c).1 = heap.verdicts s (reads c)) (ts : TypeSet heap s) (group : List O) :
    (groupAllIn scan ts group).1 = heap.verdicts s (group.flatMap reads) := by
  induction group generalizing ts with
  | nil => rfl
  | cons c group ih =>
      rw [groupAllIn, List.flatMap_cons, Heap.verdicts_append, ← hscan ts]
      rcases scan ts c with ⟨_ | _ | _, ts'⟩
      · exact ih ts'
      · rfl
      · rfl

end TypeSet

/-! ## Leaves -/

/-- What `leaf_items` looks at of a container. -/
def Mode.reads (mode : Mode) (heap : Heap O T) (c : O) : List O :=
  if mode = .sequences then heap.items c else (heap.entries c).flatMap (TypeSet.wanted mode.wantKeys mode.wantValues)

variable [DecidableEq T]

theorem Mode.scan_fst (mode : Mode) (ts : TypeSet heap s) (c : O) :
    (mode.scan ts c).1 = heap.verdicts s (mode.reads heap c) := by
  unfold scan reads
  split
  · exact ts.seqAllIn_fst _
  · exact ts.dictAllIn_fst _ _ _

omit [DecidableEq T] in
theorem mem_recordItems {mode : Mode} {group : List O} {o : O} :
    o ∈ group.flatMap (mode.reads heap) ↔ o ∈ heap.recordItems mode group := by
  cases mode with
  | sequences => exact Iff.rfl
  | values => simp [Mode.reads, Heap.recordItems, TypeSet.wanted, Mode.wantKeys, Mode.wantValues]
  | keys => simp [Mode.reads, Heap.recordItems, TypeSet.wanted, Mode.wantKeys, Mode.wantValues]
  | records =>
      have hreads : o ∈ group.flatMap (Mode.records.reads heap) ↔ ∃ d ∈ group, ∃ entry ∈ heap.entries d, o = entry.1 ∨ o = entry.2 := by
        simp [Mode.reads, TypeSet.wanted, Mode.wantKeys, Mode.wantValues]
      have hitems : o ∈ heap.recordItems .records group ↔
          (∃ d ∈ group, ∃ entry ∈ heap.entries d, o = entry.1) ∨ ∃ d ∈ group, ∃ entry ∈ heap.entries d, o = entry.2 := by
        simp [Heap.recordItems, Mode.wantKeys, Mode.wantValues, eq_comm]
      rw [hreads, hitems]
      constructor
      · rintro ⟨d, hd, entry, hentry, ho | ho⟩
        · exact .inl ⟨d, hd, entry, hentry, ho⟩
        · exact .inr ⟨d, hd, entry, hentry, ho⟩
      · rintro (⟨d, hd, entry, hentry, ho⟩ | ⟨d, hd, entry, hentry, ho⟩)
        · exact ⟨d, hd, entry, hentry, .inl ho⟩
        · exact ⟨d, hd, entry, hentry, .inr ho⟩

namespace Heap

omit [DecidableEq T] in
theorem plainRecords_of_hashed {group : List O} {mode : Mode} {leaves : List T} (h : heap.Hashed (heap.recordItems mode group)) :
    heap.plainRecords group mode leaves =
      some ((heap.recordItems mode group).all fun o => heap.member leaves (heap.kindOf o)) := by
  rw [plainRecords, kinds_of_hashed h, Option.bind_eq_bind, Option.bind_some, within_distinct]
  rfl

omit [DecidableEq T] in
theorem sequenceChildren_of_hashed {group : List O} {leaves : List T} {children : List O}
    (h : heap.Hashed (group.flatMap heap.items)) : heap.sequenceChildren group leaves children =
      some (if (group.flatMap heap.items).all fun o => heap.member leaves (heap.kindOf o) then children
        else children ++ group.flatMap heap.items) := by
  rw [sequenceChildren, kinds_of_hashed h, Option.bind_eq_bind, Option.bind_some, within_distinct]
  rfl

end Heap

/-- An answer of `leaf_items` is right if and only if the Python expression has a value. -/
theorem leafItems_iff {group : List O} {mode : Mode} {leaves : List T} {answer : Bool}
    (h : leafItems heap group mode leaves = some answer) :
    heap.plainRecords group mode leaves = some answer ↔ heap.Hashed (heap.recordItems mode group) := by
  by_cases hhashed : heap.Hashed (heap.recordItems mode group)
  · refine iff_of_true ?_ hhashed
    unfold leafItems at h
    split at h
    · rw [TypeSet.groupAllIn_fst mode.scan_fst] at h
      have hall : ((heap.recordItems mode group).all fun o => heap.member leaves (heap.kindOf o)) =
          (group.flatMap (mode.reads heap)).all fun o => heap.member leaves (heap.kindOf o) := by
        rw [Bool.eq_iff_iff, List.all_eq_true, List.all_eq_true]
        simp only [mem_recordItems]
      rw [Heap.plainRecords_of_hashed hhashed, hall, ← h]
      cases hv : heap.verdicts leaves (group.flatMap (mode.reads heap)) with
      | yes => rw [Heap.all_member_of_verdicts_yes hv]
      | no => rw [Heap.all_member_of_verdicts_no hv]
      | unknown => rw [hv] at h; cases h
    · cases h
  · refine iff_of_false ?_ hhashed
    rw [Heap.plainRecords, Heap.kinds_of_not_hashed hhashed]
    intro hsome
    cases hsome

/-- What `seq_children` does, by what the scan says. -/
theorem seqChildren_cases (heap : Heap O T) (group : List O) (leaves : List T) (children : List O) :
    (group.all heap.isSequence = true ∧ heap.verdicts leaves (group.flatMap heap.items) = .yes ∧
      seqChildren heap group leaves children = (true, children)) ∨
    (group.all heap.isSequence = true ∧ heap.verdicts leaves (group.flatMap heap.items) = .no ∧
      seqChildren heap group leaves children = (true, children ++ group.flatMap heap.items)) ∨
    seqChildren heap group leaves children = (false, children) := by
  unfold seqChildren
  rw [TypeSet.groupAllIn_fst fun ts c => ts.seqAllIn_fst (heap.items c)]
  split
  · rename_i hexact
    cases hv : heap.verdicts leaves (group.flatMap heap.items) with
    | yes => exact .inl ⟨hexact, rfl, rfl⟩
    | no => exact .inr (.inl ⟨hexact, rfl, rfl⟩)
    | unknown => exact .inr (.inr rfl)
  · exact .inr (.inr rfl)

/-- So is what `seq_children` leaves. -/
theorem seqChildren_iff {group : List O} {leaves : List T} {children : List O}
    (h : (seqChildren heap group leaves children).1 = true) :
    heap.sequenceChildren group leaves children = some (seqChildren heap group leaves children).2 ↔
      heap.Hashed (group.flatMap heap.items) := by
  by_cases hhashed : heap.Hashed (group.flatMap heap.items)
  · refine iff_of_true ?_ hhashed
    rw [Heap.sequenceChildren_of_hashed hhashed, Option.some.injEq]
    rcases seqChildren_cases heap group leaves children with ⟨_, hv, heq⟩ | ⟨_, hv, heq⟩ | heq
    · rw [heq, if_pos (Heap.all_member_of_verdicts_yes hv)]
    · rw [heq, if_neg (Bool.eq_false_iff.mp (Heap.all_member_of_verdicts_no hv))]
    · rw [heq] at h
      cases h
  · refine iff_of_false ?_ hhashed
    rw [Heap.sequenceChildren, Heap.kinds_of_not_hashed hhashed]
    intro hsome
    cases hsome

theorem seqChildren_of_not_answered {group : List O} {leaves : List T} {children : List O}
    (h : (seqChildren heap group leaves children).1 = false) : (seqChildren heap group leaves children).2 = children := by
  rcases seqChildren_cases heap group leaves children with ⟨_, _, heq⟩ | ⟨_, _, heq⟩ | heq
  · rw [heq]
  · rw [heq] at h
    cases h
  · rw [heq]

/-! ## Dicts -/

namespace Heap

/-- Whether a key is none for which `dict_children` lists the keys. -/
def altKey (heap : Heap O T) (leaves : List T) (k : O) : Bool :=
  heap.member (Grouping.add heap.same leaves heap.tuple) (heap.kindOf k) &&
    (!heap.isTuple k || (heap.items k).all fun o => heap.member leaves (heap.kindOf o))

omit [DecidableEq T] in
theorem member_add (t u : T) : heap.member (Grouping.add heap.same s t) u = (heap.member s u || heap.same t u) := by
  unfold Grouping.add
  split
  · rename_i ht
    obtain ⟨v, hv, hsame⟩ := List.any_eq_true.mp ht
    cases hu : heap.same t u with
    | false => rw [Bool.or_false]
    | true =>
        rw [Bool.or_true]
        exact List.any_eq_true.mpr ⟨v, hv, heap.same_equivalence.trans hsame hu⟩
  · rw [member, List.any_append, List.any_cons, List.any_nil, Bool.or_false]
    rfl

/-- Only `tuple` is equal to it among the classes that compare as `type` does. -/
theorem same_tuple {k : O} (h : heap.plainMeta (heap.kindOf k) = true) : heap.same heap.tuple (heap.kindOf k) = heap.isTuple k := by
  rw [isTuple, Bool.eq_iff_iff, decide_eq_true_iff]
  constructor
  · intro hsame
    exact (heap.eq_of_plain _ _ heap.plain_tuple h hsame).symm
  · intro heq
    rw [heq]
    exact heap.same_refl heap.tuple

end Heap

namespace DictScan

variable {leaves : List T} {scan scan' : DictScan heap leaves}

theorem tupleKey_spec {k : O} (h : scan.tupleKey k = some scan') :
    scan'.keysLeaf = scan.keysLeaf ∧ scan'.valuesLeaf = scan.valuesLeaf ∧ scan'.keysAlt =
      (scan.keysAlt && (!heap.isTuple k || (heap.items k).all fun o => heap.member leaves (heap.kindOf o))) := by
  unfold tupleKey at h
  split at h
  · rename_i halt
    obtain ⟨halt, htuple⟩ := Bool.and_eq_true_iff.mp halt
    have hscan := scan.ts.seqAllIn_fst (heap.items k)
    rw [halt, htuple, Bool.true_and, Bool.not_true, Bool.false_or]
    split at h
    · rename_i heq
      rw [heq] at hscan
      cases h
      exact ⟨rfl, rfl, halt.trans (Heap.all_member_of_verdicts_yes hscan.symm).symm⟩
    · rename_i heq
      rw [heq] at hscan
      cases h
      exact ⟨rfl, rfl, (Heap.all_member_of_verdicts_no hscan.symm).symm⟩
    · cases h
  · rename_i halt
    cases h
    refine ⟨rfl, rfl, ?_⟩
    rw [Bool.not_eq_true, Bool.and_eq_false_iff] at halt
    rcases halt with halt | halt
    · rw [halt, Bool.false_and]
    · rw [halt, Bool.not_false, Bool.true_or, Bool.and_true]

theorem key_spec {k : O} (h : scan.key k = some scan') :
    scan'.keysLeaf = (scan.keysLeaf && heap.member leaves (heap.kindOf k)) ∧ scan'.valuesLeaf = scan.valuesLeaf ∧
      scan'.keysAlt = (scan.keysAlt && heap.altKey leaves k) := by
  unfold key at h
  split at h
  · have hverdict := scan.ts.has_fst (heap.kindOf k)
    split at h
    · rename_i heq
      rw [heq] at hverdict
      obtain ⟨hplain, hmember⟩ := Heap.verdict_eq_yes hverdict.symm
      obtain ⟨hleaf, hvalues, halt⟩ := tupleKey_spec h
      rw [Heap.altKey, Heap.member_add, hmember, Bool.true_or, Bool.true_and, Bool.and_true]
      exact ⟨hleaf, hvalues, halt⟩
    · rename_i heq
      rw [heq] at hverdict
      obtain ⟨hplain, hmember⟩ := Heap.verdict_eq_no hverdict.symm
      obtain ⟨hleaf, hvalues, halt⟩ := tupleKey_spec h
      rw [Heap.altKey, Heap.member_add, hmember, Bool.false_or, Bool.and_false, Heap.same_tuple hplain, ← Bool.and_assoc]
      exact ⟨hleaf, hvalues, halt⟩
    · cases h
  · rename_i hdone
    cases h
    rw [Bool.not_eq_true, Bool.or_eq_false_iff] at hdone
    rw [hdone.1, hdone.2, Bool.false_and, Bool.false_and]
    exact ⟨rfl, rfl, rfl⟩

theorem value_spec {v : O} (h : scan.value v = some scan') :
    scan'.keysLeaf = scan.keysLeaf ∧ scan'.keysAlt = scan.keysAlt ∧
      scan'.valuesLeaf = (scan.valuesLeaf && heap.member leaves (heap.kindOf v)) := by
  unfold value at h
  split at h
  · rename_i hleaf
    have hverdict := scan.ts.has_fst (heap.kindOf v)
    split at h
    · rename_i heq
      rw [heq] at hverdict
      cases h
      exact ⟨rfl, rfl, by rw [(Heap.verdict_eq_yes hverdict.symm).2, Bool.and_true]⟩
    · rename_i heq
      rw [heq] at hverdict
      cases h
      exact ⟨rfl, rfl, by rw [(Heap.verdict_eq_no hverdict.symm).2, Bool.and_false]⟩
    · cases h
  · rename_i hleaf
    cases h
    rw [Bool.not_eq_true] at hleaf
    rw [hleaf, Bool.false_and]
    exact ⟨rfl, rfl, rfl⟩

/-- What a scan knows after these items: its flags, unless they were off. -/
structure Knows (scan scan' : DictScan heap leaves) (entries : List (O × O)) : Prop where
  keysLeaf : scan'.keysLeaf = (scan.keysLeaf && entries.all fun entry => heap.member leaves (heap.kindOf entry.1))
  keysAlt : scan'.keysAlt = (scan.keysAlt && entries.all fun entry => heap.altKey leaves entry.1)
  valuesLeaf : scan'.valuesLeaf = (scan.valuesLeaf && entries.all fun entry => heap.member leaves (heap.kindOf entry.2))

theorem Knows.nil (scan : DictScan heap leaves) : Knows scan scan [] :=
  ⟨(Bool.and_true _).symm, (Bool.and_true _).symm, (Bool.and_true _).symm⟩

theorem Knows.append {scan'' : DictScan heap leaves} {items items' : List (O × O)} (h : Knows scan scan' items)
    (h' : Knows scan' scan'' items') : Knows scan scan'' (items ++ items') := by
  refine ⟨?_, ?_, ?_⟩
  · rw [h'.keysLeaf, h.keysLeaf, List.all_append, Bool.and_assoc]
  · rw [h'.keysAlt, h.keysAlt, List.all_append, Bool.and_assoc]
  · rw [h'.valuesLeaf, h.valuesLeaf, List.all_append, Bool.and_assoc]

/-- Where all flags are off, more items change nothing. -/
theorem Knows.settled {items : List (O × O)} (h : Knows scan scan' items) (hsettled : scan'.settled = true)
    (items' : List (O × O)) : Knows scan scan' (items ++ items') := by
  rw [DictScan.settled, Bool.and_eq_true, Bool.and_eq_true, Bool.not_eq_true', Bool.not_eq_true', Bool.not_eq_true'] at hsettled
  obtain ⟨⟨hkeys, halt⟩, hvalues⟩ := hsettled
  apply h.append
  constructor
  · rw [hkeys, Bool.false_and]
  · rw [halt, Bool.false_and]
  · rw [hvalues, Bool.false_and]

theorem Knows.item {scan'' : DictScan heap leaves} {k v : O} (hkey : scan.key k = some scan')
    (hvalue : scan'.value v = some scan'') : Knows scan scan'' [(k, v)] := by
  obtain ⟨hleaf, hvalues, halt⟩ := key_spec hkey
  obtain ⟨hleaf', halt', hvalues'⟩ := value_spec hvalue
  constructor
  · rw [hleaf', hleaf, List.all_cons, List.all_nil, Bool.and_true]
  · rw [halt', halt, List.all_cons, List.all_nil, Bool.and_true]
  · rw [hvalues', hvalues, List.all_cons, List.all_nil, Bool.and_true]

theorem entries_spec {items : List (O × O)} (h : scan.entries items = some scan') : Knows scan scan' items := by
  induction items generalizing scan with
  | nil =>
      cases h
      exact .nil _
  | cons item items ih =>
      obtain ⟨k, v⟩ := item
      rw [entries, Option.bind_eq_bind, Option.bind_eq_some_iff] at h
      obtain ⟨scan₁, hkey, h⟩ := h
      rw [Option.bind_eq_some_iff] at h
      obtain ⟨scan₂, hvalue, h⟩ := h
      have hitem := Knows.item hkey hvalue
      split at h
      · rename_i hsettled
        cases h
        exact hitem.settled hsettled items
      · exact hitem.append (ih h)

theorem dicts_spec {group : List O} (h : scan.dicts group = some scan') : Knows scan scan' (group.flatMap heap.entries) := by
  induction group generalizing scan with
  | nil =>
      cases h
      exact .nil _
  | cons d group ih =>
      rw [dicts, Option.bind_eq_bind, Option.bind_eq_some_iff] at h
      obtain ⟨scan₁, hentries, h⟩ := h
      have hd := entries_spec hentries
      rw [List.flatMap_cons]
      split at h
      · rename_i hsettled
        cases h
        exact hd.settled hsettled _
      · exact hd.append (ih h)

end DictScan

namespace Heap

/-- What the Python branch for exact dicts asks the classes of, of the keys. -/
def keyReads (heap : Heap O T) (keys : List O) (leaves : List T) : List O :=
  if keys.all fun k => heap.member leaves (heap.kindOf k) then keys
  else if keys.all fun k => heap.member (Grouping.add heap.same leaves heap.tuple) (heap.kindOf k) then
    keys ++ (keys.filter heap.isTuple).flatMap heap.items
  else keys

/-- What it asks them of. -/
def entryReads (heap : Heap O T) (group : List O) (leaves : List T) : List O :=
  heap.keyReads (group.flatMap fun d => (heap.entries d).map (·.1)) leaves ++
    group.flatMap fun d => (heap.entries d).map (·.2)

omit [DecidableEq T] in
theorem hashed_append {objects objects' : List O} :
    heap.Hashed (objects ++ objects') ↔ heap.Hashed objects ∧ heap.Hashed objects' := List.forall_mem_append

theorem all_altKey (leaves : List T) (keys : List O) : keys.all (heap.altKey leaves) =
    ((keys.all fun k => heap.member (Grouping.add heap.same leaves heap.tuple) (heap.kindOf k)) &&
      ((keys.filter heap.isTuple).flatMap heap.items).all fun o => heap.member leaves (heap.kindOf o)) := by
  rw [List.all_flatMap, List.all_filter]
  induction keys with
  | nil => rfl
  | cons k keys ih =>
      rw [List.all_cons, List.all_cons, List.all_cons, ih, altKey]
      cases heap.isTuple k with
      | true => grind
      | false => grind

theorem keysLead_of_hashed {keys : List O} {leaves : List T} (h : heap.Hashed (heap.keyReads keys leaves)) :
    heap.keysLead keys leaves =
      some (!(keys.all fun k => heap.member leaves (heap.kindOf k)) && !keys.all (heap.altKey leaves)) := by
  rw [all_altKey]
  unfold keyReads at h
  unfold keysLead
  split at h
  · rename_i hleaf
    rw [kinds_of_hashed h, Option.bind_eq_bind, Option.bind_some, within_distinct, if_pos hleaf, hleaf]
    rfl
  · rename_i hleaf
    split at h
    · rename_i htuple
      obtain ⟨hkeys, hitems⟩ := hashed_append.mp h
      rw [kinds_of_hashed hkeys, Option.bind_eq_bind, Option.bind_some, within_distinct, if_neg hleaf, within_distinct,
        if_pos htuple, kinds_of_hashed hitems, Option.bind_some, within_distinct, htuple, Bool.eq_false_iff.mpr hleaf]
      rfl
    · rename_i htuple
      rw [kinds_of_hashed h, Option.bind_eq_bind, Option.bind_some, within_distinct, if_neg hleaf, within_distinct,
        if_neg htuple, Bool.eq_false_iff.mpr hleaf, Bool.eq_false_iff.mpr htuple]
      rfl

theorem keysLead_of_not_hashed {keys : List O} {leaves : List T} (h : ¬heap.Hashed (heap.keyReads keys leaves)) :
    heap.keysLead keys leaves = none := by
  unfold keyReads at h
  unfold keysLead
  split at h
  · rw [kinds_of_not_hashed h]
    rfl
  · rename_i hleaf
    split at h
    · rename_i htuple
      by_cases hkeys : heap.Hashed keys
      · have hitems : ¬heap.Hashed ((keys.filter heap.isTuple).flatMap heap.items) := fun hitems =>
          h (hashed_append.mpr ⟨hkeys, hitems⟩)
        rw [kinds_of_hashed hkeys, Option.bind_eq_bind, Option.bind_some, within_distinct, if_neg hleaf, within_distinct,
          if_pos htuple, kinds_of_not_hashed hitems]
        rfl
      · rw [kinds_of_not_hashed hkeys]
        rfl
    · rw [kinds_of_not_hashed h]
      rfl

theorem entryChildren_of_hashed {group : List O} {leaves : List T} {children : List O}
    (h : heap.Hashed (heap.entryReads group leaves)) : heap.entryChildren group leaves children =
      (let keys := group.flatMap fun d => (heap.entries d).map (·.1)
      let values := group.flatMap fun d => (heap.entries d).map (·.2)
      let children := if !(keys.all fun k => heap.member leaves (heap.kindOf k)) && !keys.all (heap.altKey leaves) then
        children ++ keys else children
      some (if values.all fun v => heap.member leaves (heap.kindOf v) then children else children ++ values)) := by
  obtain ⟨hkeys, hvalues⟩ := hashed_append.mp h
  rw [entryChildren, keysLead_of_hashed hkeys]
  simp only [Option.bind_eq_bind, Option.bind_some, kinds_of_hashed hvalues, within_distinct]
  rfl

theorem entryChildren_of_not_hashed {group : List O} {leaves : List T} {children : List O}
    (h : ¬heap.Hashed (heap.entryReads group leaves)) : heap.entryChildren group leaves children = none := by
  rw [entryChildren]
  by_cases hkeys : heap.Hashed (heap.keyReads (group.flatMap fun d => (heap.entries d).map (·.1)) leaves)
  · have hvalues := fun hvalues => h (hashed_append.mpr ⟨hkeys, hvalues⟩)
    rw [keysLead_of_hashed hkeys, kinds_of_not_hashed hvalues]
    rfl
  · rw [keysLead_of_not_hashed hkeys]
    rfl

end Heap

/-- So is what `dict_children` leaves. -/
theorem dictChildren_iff {group : List O} {leaves : List T} {children : List O}
    (h : (dictChildren heap group leaves children).1 = true) :
    heap.entryChildren group leaves children = some (dictChildren heap group leaves children).2 ↔
      heap.Hashed (heap.entryReads group leaves) := by
  by_cases hhashed : heap.Hashed (heap.entryReads group leaves)
  · refine iff_of_true ?_ hhashed
    rw [Heap.entryChildren_of_hashed hhashed, Option.some.injEq]
    unfold dictChildren at h ⊢
    split at h
    · rename_i hexact
      rw [if_pos hexact]
      cases hscan : (DictScan.init heap leaves).dicts group with
      | none => rw [hscan] at h; cases h
      | some scan =>
          have hknows := DictScan.dicts_spec hscan
          simp only [hknows.keysLeaf, hknows.keysAlt, hknows.valuesLeaf, DictScan.init, Bool.true_and, ← List.map_flatMap,
            List.all_map, Function.comp_def]
          cases (group.flatMap heap.entries).all fun entry => heap.member leaves (heap.kindOf entry.2) with
          | true => rfl
          | false => rfl
    · cases h
  · refine iff_of_false ?_ hhashed
    rw [Heap.entryChildren_of_not_hashed hhashed]
    exact Option.some_ne_none _ ∘ Eq.symm

theorem dictChildren_of_not_answered {group : List O} {leaves : List T} {children : List O}
    (h : (dictChildren heap group leaves children).1 = false) : (dictChildren heap group leaves children).2 = children := by
  unfold dictChildren at h ⊢
  split at h
  · rename_i hexact
    rw [if_pos hexact]
    cases hscan : (DictScan.init heap leaves).dicts group with
    | none => rfl
    | some scan => rw [hscan] at h; cases h
  · rename_i hexact
    rw [if_neg hexact]

end Cash.Held
