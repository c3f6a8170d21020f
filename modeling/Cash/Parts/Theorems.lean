import Cash.Parts.Collect
import Mathlib.Data.List.Sort

/-!
# Parts that share memory are found exactly
-/

namespace Cash.Parts

open Py

variable {Id K : Type}

/-! ## Where a path leads -/

/-- What an object keeps under a name: its own attribute, or the slot of one of its classes. -/
def Holder.Keeps (o : Holder Id) (name : Str) (value : Id) : Prop :=
  (∃ own, o.own = some own ∧ (name, value) ∈ own) ∨
    ∃ cls ∈ o.mro, name ∈ cls.slots ∧ o.getattribute (cls.stored name) = some value

variable (heap : Heap Id K)

/-- What an object keeps at a step. -/
def Keeps (value : Id) : Step K → Id → Prop
  | .index i, item => ∃ fields items, heap value = .sequence fields items ∧ items[i]? = some item
  | .key k, item => ∃ items, heap value = .mapping items ∧ (k, item) ∈ items
  | .attr name, item =>
      (∃ (names : List Str) (items : List Id) (i : Nat), heap value = .sequence (some names) items ∧ names[i]? = some name ∧ items[i]? = some item) ∨
        ∃ o, heap value = .holder o ∧ o.Keeps name item

/-- The path leads from the result to an object, each step by what the object before it keeps there. -/
def Reaches (result : Id) : Path K → Id → Prop
  | .result, item => item = result
  | .part parent step, item => ∃ value, Reaches result parent value ∧ Keeps heap value step item

variable {heap}

theorem Holder.keeps_of_slots {o : Holder Id} {p : Str × Id} (h : p ∈ o.slots) : o.Keeps p.1 p.2 := by
  obtain ⟨cls, hcls, hp⟩ := List.mem_flatMap.mp h
  obtain ⟨name, hname, hget⟩ := List.mem_filterMap.mp hp
  cases hattr : o.getattribute (cls.stored name) with
  | none =>
      rw [hattr] at hget
      cases hget
  | some item =>
      rw [hattr] at hget
      cases hget
      exact .inr ⟨cls, hcls, List.mem_of_mem_filter hname, hattr⟩

theorem keeps_of_indexed {value : Id} {fields : Option (List Str)} {l : List Id}
    (hobj : heap value = .sequence fields l) {path : Path K} {p : Path K × Id}
    (h : p ∈ l.mapIdx fun i item => (path.part (.index i), item)) :
    ∃ step, p.1 = path.part step ∧ Keeps heap value step p.2 := by
  obtain ⟨i, hi, hp⟩ := List.mem_mapIdx.mp h
  rw [← hp]
  exact ⟨.index i, rfl, fields, l, hobj, List.getElem?_eq_getElem hi⟩

theorem keeps_of_sequenceItems {value : Id} {fields : Option (List Str)} {l : List Id}
    (hobj : heap value = .sequence fields l) {path : Path K} {p : Path K × Id}
    (h : p ∈ sequenceItems heap path fields l) : ∃ step, p.1 = path.part step ∧ Keeps heap value step p.2 := by
  unfold sequenceItems at h
  split at h
  · cases h
  · split at h
    · rename_i names
      split at h
      · obtain ⟨q, hq, hp⟩ := List.mem_map.mp (List.mem_of_mem_filter h)
        obtain ⟨i, hi⟩ := List.mem_iff_getElem?.mp hq
        obtain ⟨hname, hitem⟩ := List.getElem?_zip_eq_some.mp hi
        rw [← hp]
        exact ⟨.attr q.1, rfl, .inl ⟨names, l, i, hobj, hname, hitem⟩⟩
      · exact keeps_of_indexed hobj (List.mem_of_mem_filter h)
    · exact keeps_of_indexed hobj (List.mem_of_mem_filter h)

theorem keeps_of_items {path : Path K} {value : Id} {p : Path K × Id} (h : p ∈ items heap path value) :
    ∃ step, p.1 = path.part step ∧ Keeps heap value step p.2 := by
  rw [items] at h
  split at h
  · rename_i hobj
    exact keeps_of_sequenceItems hobj h
  · rename_i l hobj
    obtain ⟨q, hq, hp⟩ := List.mem_map.mp (List.mem_of_mem_filter h)
    rw [← hp]
    exact ⟨.key q.1, rfl, l, hobj, hq⟩
  · rename_i o hobj
    obtain ⟨q, hq, hp⟩ := List.mem_map.mp h
    rw [← hp]
    refine ⟨.attr q.1, rfl, .inr ⟨o, hobj, ?_⟩⟩
    rcases List.mem_append.mp hq with hown | hslot
    · cases ho : o.own with
      | none =>
          rw [ho] at hown
          cases hown
      | some own =>
          rw [ho] at hown
          exact .inl ⟨own, ho, hown⟩
    · exact Holder.keeps_of_slots hslot
  · cases h

/-! ## The memory areas -/

theorem order_of_mem_areasOf {order : Nat} {part : Path K × Id} {span : Span Id K} (h : span ∈ areasOf heap order part) :
    span.order = order := by
  unfold areasOf at h
  split at h
  · rw [List.mem_singleton.mp h]
  · obtain ⟨_, _, hspan⟩ := List.mem_map.mp h
    rw [← hspan]
  · obtain ⟨_, _, hspan⟩ := List.mem_map.mp h
    rw [← hspan]
  · cases h

theorem path_of_mem_areasOf {order : Nat} {part : Path K × Id} {span : Span Id K} (h : span ∈ areasOf heap order part) :
    span.path = part.1 := by
  unfold areasOf at h
  split at h
  · rw [List.mem_singleton.mp h]
  · obtain ⟨_, _, hspan⟩ := List.mem_map.mp h
    rw [← hspan]
  · obtain ⟨_, _, hspan⟩ := List.mem_map.mp h
    rw [← hspan]
  · cases h

theorem mem_areas {parts : List (Path K × Id)} {order : Nat} {span : Span Id K} (h : span ∈ areas heap order parts) :
    order ≤ span.order ∧ ∃ part, parts[span.order - order]? = some part ∧ span ∈ areasOf heap span.order part := by
  induction parts generalizing order with
  | nil => cases h
  | cons part rest ih =>
      rcases List.mem_append.mp h with hhere | hrest
      · have horder : span.order = order := order_of_mem_areasOf hhere
        rw [horder, Nat.sub_self]
        exact ⟨Nat.le_refl _, part, rfl, hhere⟩
      · obtain ⟨hle, part', hget, hmem⟩ := ih hrest
        refine ⟨Nat.le_of_succ_le hle, part', ?_, hmem⟩
        rw [← Nat.sub_add_cancel (Nat.sub_pos_of_lt hle), List.getElem?_cons_succ, Nat.sub_sub]
        exact hget

/-- Two areas of one part are the columns of one frame. -/
def Span.Along (one other : Span Id K) : Prop :=
  one.order < other.order ∨
    one.order = other.order ∧ one.frame = other.frame ∧ one.kind ≠ .array ∧ other.kind ≠ .array

theorem pairwise_areasOf (order : Nat) (part : Path K × Id) : (areasOf heap order part).Pairwise Span.Along := by
  unfold areasOf
  split
  · exact List.pairwise_singleton _ _
  · rw [List.pairwise_map]
    exact List.pairwise_of_forall fun _ _ => .inr ⟨rfl, rfl, Kind.noConfusion, Kind.noConfusion⟩
  · rw [List.pairwise_map]
    exact List.pairwise_of_forall fun _ _ => .inr ⟨rfl, rfl, Kind.noConfusion, Kind.noConfusion⟩
  · exact List.Pairwise.nil

theorem pairwise_areas (order : Nat) (parts : List (Path K × Id)) : (areas heap order parts).Pairwise Span.Along := by
  induction parts generalizing order with
  | nil => exact List.Pairwise.nil
  | cons part rest ih =>
      refine List.pairwise_append.mpr ⟨pairwise_areasOf order part, ih (order + 1), ?_⟩
      intro one hone other hother
      rw [← order_of_mem_areasOf hone] at hother
      exact .inl (mem_areas hother).1

/-! ## What is collected -/

variable [DecidableEq Id] {result : Id}

/-- Every path of a walk leads to the object it is paired with, and no part is met twice. -/
structure Walk.Good (heap : Heap Id K) (result : Id) (w : Walk Id K) : Prop where
  parts : ∀ p ∈ w.parts, Reaches heap result p.1 p.2
  deeper : ∀ p ∈ w.deeper, Reaches heap result p.1 p.2
  once : (w.parts.map Prod.snd).Nodup

theorem Walk.Good.meet {w : Walk Id K} (hw : w.Good heap result) {p : Path K × Id} (hp : Reaches heap result p.1 p.2) :
    (w.meet p).Good heap result := by
  rw [Walk.meet]
  split
  · exact hw
  · rename_i hnew
    constructor
    · intro q hq
      rcases List.mem_append.mp hq with hq | hq
      · exact hw.parts q hq
      · rw [List.mem_singleton.mp hq]
        exact hp
    · exact hw.deeper
    · rw [List.map_append]
      apply hw.once.append (List.nodup_singleton _)
      rintro id hid hlast
      rw [List.mem_singleton.mp hlast] at hid
      exact hnew hid

theorem Walk.Good.look {w : Walk Id K} (hw : w.Good heap result) (deep : Bool) {p : Path K × Id}
    (hp : Reaches heap result p.1 p.2) : (w.look heap deep p).Good heap result := by
  rw [Walk.look]
  split
  · exact hw
  · exact hw
  · split
    · exact hw
    · exact hw.meet hp
  · exact hw.meet hp
  · exact hw.meet hp
  · split
    · exact hw
    · refine ⟨hw.parts, fun q hq => ?_, hw.once⟩
      rcases List.mem_append.mp hq with hq | hq
      · exact hw.deeper q hq
      · obtain ⟨step, hpath, hkeeps⟩ := keeps_of_items hq
        rw [hpath]
        exact ⟨p.2, hp, hkeeps⟩

theorem Walk.Good.foldl {level : List (Path K × Id)} (deep : Bool) (hlevel : ∀ p ∈ level, Reaches heap result p.1 p.2)
    {w : Walk Id K} (hw : w.Good heap result) : (level.foldl (Walk.look heap deep) w).Good heap result := by
  induction level generalizing w with
  | nil => exact hw
  | cons p level ih =>
      rw [List.forall_mem_cons] at hlevel
      exact ih hlevel.2 (hw.look deep hlevel.1)

theorem good_levels {below : Nat} {w : Walk Id K} (hw : w.Good heap result) {level : List (Path K × Id)}
    (hlevel : ∀ p ∈ level, Reaches heap result p.1 p.2) :
    (∀ p ∈ levels heap below w level, Reaches heap result p.1 p.2) ∧ ((levels heap below w level).map Prod.snd).Nodup := by
  induction below generalizing w level with
  | zero =>
      have hgood := hw.foldl false hlevel
      exact ⟨hgood.parts, hgood.once⟩
  | succ below ih =>
      have hgood := hw.foldl true hlevel
      rw [levels]
      split
      · exact ⟨hgood.parts, hgood.once⟩
      · have hnext : Walk.Good heap result { level.foldl (Walk.look heap true) w with deeper := [] } :=
          ⟨hgood.parts, fun p hp => absurd hp List.not_mem_nil, hgood.once⟩
        exact ih hnext hgood.deeper

theorem good_gathered (loaded : Loaded) :
    (∀ p ∈ gathered heap loaded result, Reaches heap result p.1 p.2) ∧ ((gathered heap loaded result).map Prod.snd).Nodup := by
  have hnone : ∀ p ∈ ([] : List (Path K × Id)), Reaches heap result p.1 p.2 := by
    intro p hp
    cases hp
  rw [gathered]
  split
  · have hstart : Walk.Good heap result ⟨[], containers, []⟩ := ⟨hnone, hnone, List.nodup_nil⟩
    apply good_levels hstart
    intro p hp
    rw [List.mem_singleton.mp hp]
    rfl
  · exact ⟨hnone, List.nodup_nil⟩

/-! ## Which areas clash -/

variable {copies : Bool}

theorem matters_comm (one other : Span Id K) : one.matters copies other = other.matters copies one := by
  unfold Span.matters
  by_cases hone : one.kind = .array
  · by_cases hother : other.kind = .array
    · simp only [hone, hother, ne_eq, not_true, if_false, and_self, if_true, Bool.or_comm]
    · simp only [hone, hother, ne_eq, not_true, not_false_eq_true, and_false, and_true, if_false, if_true]
  · by_cases hother : other.kind = .array
    · simp only [hone, hother, ne_eq, not_true, not_false_eq_true, and_false, and_true, if_false, if_true]
    · simp only [hone, hother, ne_eq, not_false_eq_true, and_self, if_true]
      rw [Bool.and_right_comm (decide (one.frame ≠ other.frame))]
      congr 3
      exact decide_eq_decide.mpr ne_comm

theorem shares_comm (one other : Area) : shares one other = shares other one := by
  rw [shares, shares, Finset.inter_comm]

theorem clash_comm (one other : Span Id K) : one.clash copies other = other.clash copies one := by
  rw [Span.clash, Span.clash, matters_comm, shares_comm]

theorem lt_of_shares {one other : Area} (h : shares one other = true) : one.start < other.stop := by
  obtain ⟨b, hb⟩ := of_decide_eq_true h
  obtain ⟨hone, hother⟩ := Finset.mem_inter.mp hb
  exact (one.bounds b hone).1.trans_lt (other.bounds b hother).2

theorem size_of_shares {one other : Area} (h : shares one other = true) : one.size ≠ 0 := by
  obtain ⟨b, hb⟩ := of_decide_eq_true h
  intro hsize
  have hone := (Finset.mem_inter.mp hb).1
  rw [one.empty hsize] at hone
  exact absurd hone (Finset.notMem_empty b)

theorem clash_iff {one other : Span Id K} :
    one.clash copies other = true ↔ one.matters copies other = true ∧ shares one.area other.area = true := by
  rw [Span.clash, Bool.and_eq_true]

/-- The columns of one frame never clash. -/
theorem order_ne_of_clash {one other : Span Id K} (hclash : one.clash copies other = true)
    (halong : one.Along other ∨ other.Along one) : one.order ≠ other.order := by
  intro horder
  have hframe : one.frame = other.frame ∧ one.kind ≠ .array ∧ other.kind ≠ .array := by
    rcases halong with (hlt | ⟨-, hframe, hone, hother⟩) | hlt | ⟨-, hframe, hother, hone⟩
    · exact absurd horder hlt.ne
    · exact ⟨hframe, hone, hother⟩
    · exact absurd horder.symm hlt.ne
    · exact ⟨hframe.symm, hone, hother⟩
  have hmatters := (clash_iff.mp hclash).1
  rw [Span.matters, if_pos hframe.2, hframe.1] at hmatters
  simp only [ne_eq, not_true, decide_false, Bool.false_and, Bool.false_eq_true] at hmatters

omit [DecidableEq Id] in
theorem along_of_sublist {parts : List (Path K × Id)} {one other : Span Id K}
    (h : [one, other].Sublist (areas heap 0 parts)) : one.Along other :=
  List.pairwise_iff_forall_sublist.mp (pairwise_areas 0 parts) h

/-- An empty array shares nothing, so leaving it out loses no clash. -/
theorem clashing_spans {parts : List (Path K × Id)} :
    Sweep.Clashing (Span.clash copies) (spans heap parts) ↔ Sweep.Clashing (Span.clash copies) (areas heap 0 parts) := by
  constructor
  · rintro ⟨one, other, hsub, hclash⟩
    exact ⟨one, other, hsub.trans List.filter_sublist, hclash⟩
  · rintro ⟨one, other, hsub, hclash⟩
    refine ⟨one, other, ?_, hclash⟩
    have hshares := (clash_iff.mp hclash).2
    have hone := size_of_shares hshares
    have hother := size_of_shares ((shares_comm _ _).trans hshares)
    have hfilter := hsub.filter fun span => decide (span.area.size ≠ 0)
    have hkept : ∀ span ∈ [other, one], decide (span.area.size ≠ 0) = true := by
      intro span hspan
      rcases List.mem_cons.mp hspan with rfl | hspan
      · exact decide_eq_true hother
      · rw [List.mem_singleton.mp hspan]
        exact decide_eq_true hone
    rw [List.filter_eq_self.mpr hkept] at hfilter
    exact hfilter

/-! ## The sweep over them -/

instance totalBefore : Std.Total (@Span.Before Id K) := ⟨fun one other => Nat.le_total one.area.start other.area.start⟩

instance transBefore : IsTrans (Span Id K) Span.Before := ⟨fun _ _ _ => Nat.le_trans⟩

theorem sweepSpans_isSome (loaded : Loaded) {parts : List (Path K × Id)} {l : List (Span Id K)}
    (hperm : l.Perm (spans heap parts)) (hsorted : l.Pairwise Span.Before) :
    (sweepSpans loaded l).isSome = true ↔ Sweep.Clashing (Span.clash loaded.pandasCopies) (areas heap 0 parts) := by
  have hover : ∀ one other : Span Id K, one.clash loaded.pandasCopies other = true → one.area.start < other.area.stop :=
    fun _ _ hclash => lt_of_shares (clash_iff.mp hclash).2
  have hnone : ¬Sweep.Across (Span.clash loaded.pandasCopies) [] l := by
    rintro ⟨_, h, _⟩
    cases h
  rw [sweepSpans, Sweep.sweep_complete hover hsorted, or_iff_right hnone, Sweep.clashing_perm clash_comm hperm, clashing_spans]

theorem sweepSpans_sound {loaded : Loaded} {parts : List (Path K × Id)} {one other : Span Id K}
    (h : sweepSpans loaded ((spans heap parts).insertionSort Span.Before) = some (one, other)) :
    one ∈ areas heap 0 parts ∧ other ∈ areas heap 0 parts ∧ one.order ≠ other.order ∧
      one.clash loaded.pandasCopies other = true := by
  obtain ⟨hsub, hclash⟩ := Sweep.sweep_sound h
  have hperm := List.perm_insertionSort Span.Before (spans heap parts)
  have hmem : ∀ span ∈ [other, one], span ∈ areas heap 0 parts := fun span hspan =>
    List.mem_of_mem_filter (hperm.mem_iff.mp (hsub.subset hspan))
  -- which of two areas comes first is no matter here, so the sort keeps it
  have halong : (areas heap 0 parts).Pairwise fun a b => a.Along b ∨ b.Along a := (pairwise_areas 0 parts).imp .inl
  have hsorted := hperm.symm.pairwise (halong.sublist List.filter_sublist) Or.symm
  refine ⟨hmem one (List.mem_cons_of_mem _ (List.mem_singleton_self _)), hmem other List.mem_cons_self, ?_, hclash⟩
  exact order_ne_of_clash hclash (List.pairwise_iff_forall_sublist.mp hsorted hsub).symm

/-! ## When no sweep is made -/

omit [DecidableEq Id] in
theorem kind_ne_array {parts : List (Path K × Id)} (hnone : (parts.any fun p => (heap p.2).isArray) = false)
    {span : Span Id K} (h : span ∈ areas heap 0 parts) : span.kind ≠ .array := by
  obtain ⟨-, part, hget, hmem⟩ := mem_areas h
  have hpart := List.any_eq_false.mp hnone part (List.mem_of_getElem? hget)
  unfold areasOf at hmem
  split at hmem
  · rename_i hobj
    rw [hobj] at hpart
    exact absurd rfl hpart
  · obtain ⟨_, _, hspan⟩ := List.mem_map.mp hmem
    rw [← hspan]
    exact Kind.noConfusion
  · obtain ⟨_, _, hspan⟩ := List.mem_map.mp hmem
    rw [← hspan]
    exact Kind.noConfusion
  · cases hmem

omit [DecidableEq Id] in
theorem order_lt {parts : List (Path K × Id)} {span : Span Id K} (h : span ∈ areas heap 0 parts) :
    span.order < parts.length := by
  obtain ⟨-, part, hget, -⟩ := mem_areas h
  exact (List.getElem?_eq_some_iff.mp hget).1

/-- One part alone splits into nothing. -/
theorem not_clashing_of_length {parts : List (Path K × Id)} (hlen : parts.length < 2) :
    ¬Sweep.Clashing (Span.clash copies) (areas heap 0 parts) := by
  rintro ⟨one, other, hsub, hclash⟩
  have hone := order_lt (hsub.subset (List.mem_cons_of_mem _ (List.mem_singleton_self one)))
  have hother := order_lt (hsub.subset (List.mem_cons_self (a := other)))
  have hne := order_ne_of_clash hclash (.inr (along_of_sublist hsub))
  omega

/-- Frames whose memory no write reaches split into nothing. -/
theorem not_clashing_of_frames {parts : List (Path K × Id)} (hnone : (parts.any fun p => (heap p.2).isArray) = false) :
    ¬Sweep.Clashing (Span.clash true) (areas heap 0 parts) := by
  rintro ⟨one, other, hsub, hclash⟩
  have hone := kind_ne_array hnone (hsub.subset (List.mem_cons_of_mem _ (List.mem_singleton_self one)))
  have hother := kind_ne_array hnone (hsub.subset (List.mem_cons_self (a := other)))
  have hmatters := (clash_iff.mp hclash).1
  rw [Span.matters, if_pos ⟨hone, hother⟩, Bool.not_true, Bool.and_false] at hmatters
  cases hmatters

theorem splitSpans_isSome (loaded : Loaded) (result : Id) :
    (splitSpans heap loaded result).isSome = true ↔
      Sweep.Clashing (Span.clash loaded.pandasCopies) (areas heap 0 (gathered heap loaded result)) := by
  rw [splitSpans]
  split
  · rename_i hnumpy
    refine iff_of_false Bool.false_ne_true ?_
    rw [gathered, hnumpy]
    exact not_clashing_of_length Nat.two_pos
  · dsimp only
    split
    · rename_i hfew
      exact iff_of_false Bool.false_ne_true (not_clashing_of_length hfew.2)
    · split
      · rename_i hframes
        refine iff_of_false Bool.false_ne_true ?_
        rw [hframes.2]
        exact not_clashing_of_frames hframes.1
      · rw [Option.isSome_map]
        exact sweepSpans_isSome loaded (List.perm_insertionSort _ _) (List.pairwise_insertionSort _ _)

/-! ## Which part is named first -/

theorem pair_sublist {α : Type} {a b : α} {l : List α} (ha : a ∈ l) (hb : b ∈ l) (hne : a ≠ b) :
    [a, b].Sublist l ∨ [b, a].Sublist l := by
  induction l with
  | nil => cases ha
  | cons c l ih =>
      rcases List.mem_cons.mp ha with rfl | hal
      · rcases List.mem_cons.mp hb with rfl | hbl
        · exact absurd rfl hne
        · exact .inl ((List.singleton_sublist.mpr hbl).cons_cons a)
      · rcases List.mem_cons.mp hb with rfl | hbl
        · exact .inr ((List.singleton_sublist.mpr hal).cons_cons b)
        · exact (ih hal hbl).imp (·.cons c) (·.cons c)

omit [DecidableEq Id] in
theorem sublist_of_order {parts : List (Path K × Id)} {one other : Span Id K} (hone : one ∈ areas heap 0 parts)
    (hother : other ∈ areas heap 0 parts) (hlt : one.order < other.order) : [one, other].Sublist (areas heap 0 parts) := by
  have hne : one ≠ other := fun heq => absurd (heq ▸ hlt) (lt_irrefl _)
  rcases pair_sublist hone hother hne with hsub | hsub
  · exact hsub
  · rcases along_of_sublist hsub with h | h
    · exact absurd h hlt.asymm
    · exact absurd h.1.symm hlt.ne

theorem splitSpans_sound {loaded : Loaded} {one other : Span Id K}
    (h : splitSpans heap loaded result = some (one, other)) :
    [one, other].Sublist (areas heap 0 (gathered heap loaded result)) ∧ one.clash loaded.pandasCopies other = true ∧
      one.order < other.order := by
  rw [splitSpans] at h
  split at h
  · cases h
  · dsimp only at h
    split at h
    · cases h
    · split at h
      · cases h
      · obtain ⟨pair, hsweep, hpair⟩ := Option.map_eq_some_iff.mp h
        obtain ⟨hfst, hsnd, hne, hclash⟩ := sweepSpans_sound hsweep
        rw [inOrder] at hpair
        split at hpair
        · rename_i hlt
          cases hpair
          exact ⟨sublist_of_order hsnd hfst hlt, (clash_comm _ _).trans hclash, hlt⟩
        · rename_i hnot
          cases hpair
          have hlt := lt_of_le_of_ne (not_lt.mp hnot) hne
          exact ⟨sublist_of_order hfst hsnd hlt, hclash, hlt⟩

/-! ## The answer -/

/-- A memory area is one of a part the result holds, where its path leads. -/
def Span.Found (heap : Heap Id K) (loaded : Loaded) (result : Id) (span : Span Id K) : Prop :=
  ∃ part, (gathered heap loaded result)[span.order]? = some (span.path, part) ∧
    span ∈ areasOf heap span.order (span.path, part) ∧ Reaches heap result span.path part

theorem found_of_mem {loaded : Loaded} {span : Span Id K} (h : span ∈ areas heap 0 (gathered heap loaded result)) :
    span.Found heap loaded result := by
  obtain ⟨-, part, hget, hmem⟩ := mem_areas h
  have hpath : span.path = part.1 := path_of_mem_areasOf hmem
  rw [Span.Found, hpath]
  exact ⟨part.2, hget, hmem, (good_gathered loaded).1 part (List.mem_of_getElem? hget)⟩

/-- Two areas of different parts or places that a write through one could show in the other, and that share memory. -/
theorem clashing_areas {loaded : Loaded} {parts : List (Path K × Id)} :
    Sweep.Clashing (Span.clash loaded.pandasCopies) (areas heap 0 parts) ↔
      ∃ one other, [one, other].Sublist (areas heap 0 parts) ∧ one.matters loaded.pandasCopies other = true ∧
        shares one.area other.area = true := by
  constructor
  · rintro ⟨one, other, hsub, hclash⟩
    exact ⟨other, one, hsub, clash_iff.mp ((clash_comm _ _).trans hclash)⟩
  · rintro ⟨one, other, hsub, hclash⟩
    exact ⟨other, one, hsub, (clash_comm _ _).trans (clash_iff.mpr hclash)⟩

/-- A pair is returned if and only if two of the areas gathered share memory that matters. It names such a pair, the part
met first in front, and each path leads to its part. In whatever order spans of one start are taken, there is a pair or
there is none. -/
theorem split_exact (keyRepr : K → Str) (heap : Heap Id K) (loaded : Loaded) (result : Id) :
    ((gathered heap loaded result).map Prod.snd).Nodup ∧
      ((splitByAHit keyRepr heap loaded result).isSome = true ↔
        ∃ one other, [one, other].Sublist (areas heap 0 (gathered heap loaded result)) ∧
          one.matters loaded.pandasCopies other = true ∧ shares one.area other.area = true) ∧
      (∀ p q, splitByAHit keyRepr heap loaded result = some (p, q) →
        ∃ one other, [one, other].Sublist (areas heap 0 (gathered heap loaded result)) ∧
          one.matters loaded.pandasCopies other = true ∧ shares one.area other.area = true ∧ one.order < other.order ∧
          p = render keyRepr one.path ∧ q = render keyRepr other.path ∧ one.Found heap loaded result ∧
          other.Found heap loaded result) ∧
      ∀ l : List (Span Id K), l.Perm (spans heap (gathered heap loaded result)) → l.Pairwise Span.Before →
        (sweepSpans loaded l).isSome = (splitByAHit keyRepr heap loaded result).isSome := by
  have hsome : (splitByAHit keyRepr heap loaded result).isSome = true ↔
      Sweep.Clashing (Span.clash loaded.pandasCopies) (areas heap 0 (gathered heap loaded result)) := by
    rw [splitByAHit, Option.isSome_map]
    exact splitSpans_isSome loaded result
  refine ⟨(good_gathered loaded).2, hsome.trans clashing_areas, ?_, ?_⟩
  · intro p q h
    obtain ⟨⟨one, other⟩, hsplit, hpair⟩ := Option.map_eq_some_iff.mp h
    cases hpair
    obtain ⟨hsub, hclash, hlt⟩ := splitSpans_sound hsplit
    obtain ⟨hmatters, hshares⟩ := clash_iff.mp hclash
    have hone := found_of_mem (hsub.subset List.mem_cons_self)
    have hother := found_of_mem (hsub.subset (List.mem_cons_of_mem _ (List.mem_singleton_self other)))
    exact ⟨one, other, hsub, hmatters, hshares, hlt, rfl, rfl, hone, hother⟩
  · intro l hperm hsorted
    exact Bool.eq_iff_iff.mpr ((sweepSpans_isSome loaded hperm hsorted).trans hsome.symm)

/-! ## A private slot -/

/-- What the language gives for a step of a path, written on an object. -/
def get [DecidableEq K] (heap : Heap Id K) (value : Id) : Step K → Option Id
  | .index i =>
      match heap value with
      | .sequence _ items => items[i]?
      | _ => none
  | .key k =>
      match heap value with
      | .mapping items => (items.find? fun p => p.1 = k).map Prod.snd
      | _ => none
  | .attr name =>
      match heap value with
      | .sequence (some names) items => ((names.zip items).find? fun p => p.1 = name).map Prod.snd
      | .holder o => o.getattribute name
      | _ => none

/-- What the language gives for a path. -/
def follow [DecidableEq K] (heap : Heap Id K) (result : Id) : Path K → Option Id
  | .result => some result
  | .part parent step => (follow heap result parent).bind fun value => get heap value step

theorem whole_bounds : ∀ b ∈ ({0, 1, 2, 3} : Finset Nat), 0 ≤ b ∧ b < 4 := by decide

theorem whole_empty : 4 = 0 → ({0, 1, 2, 3} : Finset Nat) = ∅ := by decide

theorem window_bounds : ∀ b ∈ ({1, 2} : Finset Nat), 1 ≤ b ∧ b < 3 := by decide

theorem window_empty : 2 = 0 → ({1, 2} : Finset Nat) = ∅ := by decide

/-- The bytes of `a`. -/
def whole : Area := ⟨4, 0, 4, true, {0, 1, 2, 3}, whole_bounds, whole_empty⟩

/-- The bytes of `a[1:3]`. -/
def window : Area := ⟨2, 1, 3, true, {1, 2}, window_bounds, window_empty⟩

/-- An object of a class `Holder` with the slots `__raw` and `window`. -/
def privateHolder : Holder Nat where
  own := none
  mro := [⟨str "Holder", [str "__raw", str "window"]⟩]
  getattribute name := if name = str "_Holder__raw" then some 1 else if name = str "window" then some 2 else none

def privateHeap : Heap Nat Nat := fun id =>
  if id = 0 then .holder privateHolder else if id = 1 then .array false whole else .array false window

/-- `a, a[:], a[:]`. -/
def sameHeap : Heap Nat Nat := fun id => if id = 0 then .sequence none [1, 2, 3] else .array false whole

/-- The path to a private slot names it as its class does, and the language does not find it there. Of three areas of one
start, the pair named is the first two in the order taken. -/
theorem slot_and_order :
    (splitByAHit decimal privateHeap ⟨true, true⟩ 0 = some (str "result.__raw", str "result.window") ∧
      ∃ path, (gathered privateHeap ⟨true, true⟩ 0).head? = some (path, 1) ∧ render decimal path = str "result.__raw" ∧
        follow privateHeap 0 path = none) ∧
      splitByAHit decimal sameHeap ⟨true, true⟩ 0 = some (str "result[0]", str "result[1]") ∧
        ((sweepSpans ⟨true, true⟩ ((spans sameHeap (gathered sameHeap ⟨true, true⟩ 0)).rotate 1)).map fun pair =>
          (render decimal (inOrder pair).1.path, render decimal (inOrder pair).2.path)) =
            some (str "result[1]", str "result[2]") := by
  refine ⟨⟨rfl, ?_⟩, rfl, rfl⟩
  exact ⟨.part .result (.attr (str "__raw")), rfl, rfl, rfl⟩

end Cash.Parts
