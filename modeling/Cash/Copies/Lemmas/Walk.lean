import Cash.Copies.Heap
import Mathlib.Algebra.Order.BigOperators.Group.List
import Mathlib.Algebra.Order.Group.Nat
import Mathlib.Data.List.Nodup

/-!
# Walks by levels, and exact copies
-/

namespace Cash.Copies

/-!
## Pairs of an object and its copy

A relation between the objects of a heap and those of a later one, under which a value and its copy are alike step by
step and every list or dict has one fresh copy, makes the copy exact.
-/

section

variable {h h' h'' : Heap} {R S : Nat → Nat → Prop} {x y : Val} {a b lo : Nat}

/-! ### Heaps that grow -/

theorem Heap.obj_of_grown (hk : h <+: h') (ha : a < h.length) : h'.obj a = h.obj a := by
  obtain ⟨made, rfl⟩ := hk
  unfold Heap.obj
  rw [List.getElem?_append_left ha]

theorem Heap.obj_mem (ha : a < h.length) : h.obj a ∈ h := by
  unfold Heap.obj
  rw [List.getElem?_eq_getElem ha]
  exact List.getElem_mem ha

theorem Heap.isWritable_of_grown (hk : h <+: h') (ha : a < h.length) : h'.isWritable a = h.isWritable a := by
  unfold Heap.isWritable
  rw [h.obj_of_grown hk ha]

@[simp] theorem Heap.kids_ref (h : Heap) (a : Nat) : h.kids (.ref a) = (h.obj a).items := rfl

theorem Heap.obj_alloc (h : Heap) (o : Obj) : Heap.obj (h ++ [o]) h.length = o := by
  unfold Heap.obj
  rw [List.getElem?_append_right le_rfl, Nat.sub_self]
  rfl

/-! ### What a value reaches -/

/-- The object stands at a place of the value. -/
def Reached (h : Heap) (x : Val) (a : Nat) : Prop := ∃ p, h.valueAt x p = some (.ref a)

theorem Reached.self (h : Heap) (a : Nat) : Reached h (.ref a) a := ⟨[], rfl⟩

theorem Reached.item (hr : Reached h x a) (hb : Val.ref b ∈ (h.obj a).items) : Reached h x b := by
  obtain ⟨p, hp⟩ := hr
  obtain ⟨i, hi⟩ := List.mem_iff_getElem?.mp hb
  exact ⟨p ++ [i], place_concat hp hi⟩

theorem Reached.of_kid (hv : y ∈ h.kids x) (hr : Reached h y a) : Reached h x a := by
  obtain ⟨p, hp⟩ := hr
  obtain ⟨i, hi⟩ := List.mem_iff_getElem?.mp hv
  exact ⟨i :: p, place_cons_eq_some.mpr ⟨y, hi, hp⟩⟩

/-- The objects a value reaches are there, and a dict among them has a key once. -/
structure Heap.Closed (h : Heap) (x : Val) : Prop where
  lt : ∀ {a}, Reached h x a → a < h.length
  keys : ∀ {a}, Reached h x a → (h.obj a).keys.Nodup

theorem Heap.Closed.kid (hx : h.Closed x) (hy : y ∈ h.kids x) : h.Closed y where
  lt hr := hx.lt (hr.of_kid hy)
  keys hr := hx.keys (hr.of_kid hy)

theorem Heap.Closed.item (ha : h.Closed (.ref a)) (hy : y ∈ (h.obj a).items) : h.Closed y := ha.kid hy

theorem Heap.Closed.ref_lt (ha : h.Closed (.ref a)) : a < h.length := ha.lt (.self h a)

theorem Heap.Sound.closed (hs : h.Sound) (hx : h.Has x) : h.Closed x := by
  have hkid : ∀ v, h.Has v → ∀ w ∈ h.kids v, h.Has w := by
    intro v hv w hw
    cases v with
    | atom a => cases hw
    | ref a => exact hs.has _ (Heap.obj_mem hv) w hw
  have hlt : ∀ {a}, Reached h x a → a < h.length := fun ⟨p, hp⟩ => place_induction (P := h.Has) hkid hx hp
  exact ⟨hlt, fun hr => hs.keys _ (Heap.obj_mem (hlt hr))⟩

/-! ### Values that are related -/

/-- A leaf and itself, or two objects that are related. -/
inductive Lift (R : Nat → Nat → Prop) : Val → Val → Prop
  | atom (a : Atom) : Lift R (.atom a) (.atom a)
  | ref {a b : Nat} : R a b → Lift R (.ref a) (.ref b)

theorem Lift.mono (hRS : ∀ a b, R a b → S a b) (hxy : Lift R x y) : Lift S x y := by
  cases hxy with
  | atom a => exact .atom a
  | ref hab => exact .ref (hRS _ _ hab)

/-- Objects of one type, with the same keys, that hold related values. -/
structure Alike (R : Nat → Nat → Prop) (o o' : Obj) : Prop where
  type : o'.type = o.type
  keys : o'.keys = o.keys
  items : List.Forall₂ (Lift R) o.items o'.items

theorem Alike.mono (hRS : ∀ a b, R a b → S a b) {o o' : Obj} (ho : Alike R o o') : Alike S o o' where
  type := ho.type
  keys := ho.keys
  items := ho.items.imp fun _ _ => Lift.mono hRS

/-- The objects of `h` and their copies in `h'`, those of lists and dicts from `lo` on. -/
structure Pairs (h h' : Heap) (lo : Nat) (R : Nat → Nat → Prop) : Prop where
  old : ∀ {a b}, R a b → a < h.length
  new : ∀ {a b}, R a b → b < h'.length
  alike : ∀ {a b}, R a b → Alike R (h.obj a) (h'.obj b)
  fresh : ∀ {a b}, R a b → h.isWritable a = true → lo ≤ b
  one : ∀ {a b a' b'}, R a b → R a' b' → h.isWritable a = true → (a = a' ↔ b = b')

namespace Pairs

theorem mono (hp : Pairs h h' lo R) (hk : h' <+: h'') : Pairs h h'' lo R where
  old := hp.old
  new hab := lt_of_lt_of_le (hp.new hab) hk.length_le
  alike hab := by
    rw [Heap.obj_of_grown hk (hp.new hab)]
    exact hp.alike hab
  fresh := hp.fresh
  one := hp.one

/-- Nothing that was there has changed. -/
theorem base (hp : Pairs h h'' lo R) (hk : h <+: h') : Pairs h' h'' lo R where
  old hab := Nat.lt_of_lt_of_le (hp.old hab) hk.length_le
  new := hp.new
  alike hab := by
    rw [Heap.obj_of_grown hk (hp.old hab)]
    exact hp.alike hab
  fresh hab hw := hp.fresh hab (by rw [← Heap.isWritable_of_grown hk (hp.old hab), hw])
  one hab hab' hw := hp.one hab hab' (by rw [← Heap.isWritable_of_grown hk (hp.old hab), hw])

theorem isWritable_eq (hp : Pairs h h' lo R) (hab : R a b) : h'.isWritable b = h.isWritable a := by
  unfold Heap.isWritable
  rw [(hp.alike hab).type]

theorem simulates (hp : Pairs h h' lo R) : Simulates h.kids h'.kids (Lift R) := by
  intro x y hxy
  cases hxy with
  | atom a => exact .nil
  | ref hab => exact (hp.alike hab).items

theorem look_eq (hp : Pairs h h' lo R) (hxy : Lift R x y) : h'.look y = h.look x := by
  cases hxy with
  | atom a => rfl
  | ref hab =>
    simp only [Heap.look]
    rw [(hp.alike hab).type, (hp.alike hab).keys]

theorem valueAt_rel (hp : Pairs h h' lo R) (hxy : Lift R x y) (p : List Nat) :
    Option.Rel (Lift R) (h.valueAt x p) (h'.valueAt y p) := hp.simulates.place hxy p

/-- What stands at a place of the copy is the copy of what stands there. -/
theorem of_valueAt_right (hp : Pairs h h' lo R) (hxy : Lift R x y) {p : List Nat}
    (hb : h'.valueAt y p = some (.ref b)) : ∃ a, h.valueAt x p = some (.ref a) ∧ R a b := by
  have hrel := hp.valueAt_rel hxy p
  rw [hb] at hrel
  cases hx : h.valueAt x p with
  | none =>
    rw [hx] at hrel
    cases hrel
  | some v =>
    rw [hx] at hrel
    cases hrel with
    | some hv =>
      cases hv with
      | ref hab => exact ⟨_, rfl, hab⟩

theorem of_valueAt_left (hp : Pairs h h' lo R) (hxy : Lift R x y) {p : List Nat}
    (ha : h.valueAt x p = some (.ref a)) : ∃ b, h'.valueAt y p = some (.ref b) ∧ R a b := by
  have hrel := hp.valueAt_rel hxy p
  rw [ha] at hrel
  cases hy : h'.valueAt y p with
  | none =>
    rw [hy] at hrel
    cases hrel
  | some v =>
    rw [hy] at hrel
    cases hrel with
    | some hv =>
      cases hv with
      | ref hab => exact ⟨_, rfl, hab⟩

end Pairs

/-! ### A part of the pairs -/

/-- What was there is as it was. -/
theorem Heap.Closed.valueAt_of_grown (hx : h.Closed x) (hk : h <+: h') (p : List Nat) :
    h'.valueAt x p = h.valueAt x p := by
  induction p generalizing x with
  | nil => rfl
  | cons i p ih =>
    have hkids : h'.kids x = h.kids x := by
      cases x with
      | atom a => rfl
      | ref a => rw [Heap.kids_ref, Heap.kids_ref, Heap.obj_of_grown hk hx.ref_lt]
    rw [Heap.valueAt, Heap.valueAt, place_cons, place_cons, hkids]
    cases hi : (h.kids x)[i]? with
    | none => rfl
    | some y => exact ih (hx.kid (List.mem_of_getElem? hi))

theorem Pairs.exactCopy (hx : h.Closed x) (hp : Pairs h h' lo R) (hk : h <+: h') (hlo : h.length ≤ lo) (hxy : Lift R x y) :
    ExactCopy h h' x y where
  kept := hk
  alike p := by
    have hrel := hp.valueAt_rel hxy p
    generalize h.valueAt x p = v at hrel
    generalize h'.valueAt y p = w at hrel
    cases hrel with
    | none => rfl
    | some hvw => rw [Option.map_some, Option.map_some, hp.look_eq hvw]
  apart {p q b} hb hw hq := by
    obtain ⟨a, -, hab⟩ := hp.of_valueAt_right hxy hb
    rw [hx.valueAt_of_grown hk] at hq
    have hle := hp.fresh hab (by rw [← hp.isWritable_eq hab, hw])
    have hlt := hx.lt ⟨q, hq⟩
    omega
  shared p q := by
    constructor
    · rintro ⟨b, hw, hbp, hbq⟩
      obtain ⟨a, hap, hab⟩ := hp.of_valueAt_right hxy hbp
      obtain ⟨a', haq, hab'⟩ := hp.of_valueAt_right hxy hbq
      have hwa : h.isWritable a = true := by rw [← hp.isWritable_eq hab, hw]
      obtain rfl := (hp.one hab hab' hwa).mpr rfl
      exact ⟨a, hwa, hap, haq⟩
    · rintro ⟨a, hw, hap, haq⟩
      obtain ⟨b, hbp, hab⟩ := hp.of_valueAt_left hxy hap
      obtain ⟨b', hbq, hab'⟩ := hp.of_valueAt_left hxy haq
      obtain rfl := (hp.one hab hab' hw).mp rfl
      exact ⟨b, by rw [hp.isWritable_eq hab, hw], hbp, hbq⟩

theorem Heap.Closed.of_grown (hx : h.Closed x) (hk : h <+: h') : h'.Closed x := by
  have hr : ∀ {a}, Reached h' x a → Reached h x a := fun ⟨p, hp⟩ => ⟨p, by rw [← hx.valueAt_of_grown hk, hp]⟩
  refine ⟨fun ha => Nat.lt_of_lt_of_le (hx.lt (hr ha)) hk.length_le, fun ha => ?_⟩
  rw [Heap.obj_of_grown hk (hx.lt (hr ha))]
  exact hx.keys (hr ha)

/-- Some exact copy is made of the pairs: what the functions below are proved to return. -/
def Copied (h h' : Heap) (lo : Nat) (x y : Val) : Prop := ∃ R, Pairs h h' lo R ∧ Lift R x y

theorem Copied.exactCopy (hx : h.Closed x) (hc : Copied h h' lo x y) (hk : h <+: h') (hlo : h.length ≤ lo) : ExactCopy h h' x y := by
  obtain ⟨R, hp, hxy⟩ := hc
  exact hp.exactCopy hx hk hlo hxy

theorem Copied.atom (a : Atom) : Copied h h' lo (.atom a) (.atom a) :=
  ⟨fun _ _ => False, ⟨False.elim, False.elim, False.elim, False.elim, False.elim⟩, .atom a⟩

/-- Only what is reached needs a copy; a copy made on a heap that has grown since is one of what was there. -/
theorem Pairs.reached (hx : h.Closed x) (hk : h <+: h') (hp : Pairs h' h'' lo R) :
    Pairs h h'' lo fun a b => R a b ∧ Reached h x a where
  old hab := hx.lt hab.2
  new hab := hp.new hab.1
  alike {a b} hab := by
    have halike := hp.alike hab.1
    rw [Heap.obj_of_grown hk (hx.lt hab.2)] at halike
    refine ⟨halike.type, halike.keys, ?_⟩
    refine ((List.forall₂_and_left (p := (· ∈ (h.obj a).items)) _ _).mpr ⟨fun v hv => hv, halike.items⟩).imp ?_
    rintro v w ⟨hv, hvw⟩
    cases hvw with
    | atom c => exact .atom c
    | ref hcd => exact .ref ⟨hcd, hab.2.item hv⟩
  fresh hab hw := hp.fresh hab.1 (by rw [Heap.isWritable_of_grown hk (hx.lt hab.2), hw])
  one hab hab' hw := hp.one hab.1 hab'.1 (by rw [Heap.isWritable_of_grown hk (hx.lt hab.2), hw])

theorem Copied.reached (hx : h.Closed x) (hk : h <+: h') (hc : Copied h' h'' lo x y) :
    ∃ R, Pairs h h'' lo R ∧ Lift R x y ∧ ∀ a b, R a b → Reached h x a := by
  obtain ⟨R, hp, hxy⟩ := hc
  refine ⟨_, hp.reached hx hk, ?_, fun a b hab => hab.2⟩
  cases hxy with
  | atom a => exact .atom a
  | ref hab => exact .ref ⟨hab, .self _ _⟩

/-! ### Pairs put together -/

/-- A container built over copies of what the original holds. -/
theorem Pairs.top (hp : Pairs h h' lo R) (hlo : lo ≤ h'.length) {v : Nat} {o : Obj} (hv : v < h.length)
    (hnew : ∀ b, h.isWritable v = true → ¬ R v b) (ho : Alike R (h.obj v) o) :
    Pairs h (h' ++ [o]) lo fun a b => a = v ∧ b = h'.length ∨ R a b where
  old hab := by
    rcases hab with ⟨rfl, -⟩ | hab
    · exact hv
    · exact hp.old hab
  new hab := by
    rw [List.length_append]
    rcases hab with ⟨-, rfl⟩ | hab
    · simp
    · exact Nat.lt_add_right _ (hp.new hab)
  alike hab := by
    rcases hab with ⟨rfl, rfl⟩ | hab
    · rw [Heap.obj_alloc]
      exact ho.mono fun _ _ => .inr
    · rw [Heap.obj_of_grown (List.prefix_append _ _) (hp.new hab)]
      exact (hp.alike hab).mono fun _ _ => .inr
  fresh hab hw := by
    rcases hab with ⟨rfl, rfl⟩ | hab
    · exact hlo
    · exact hp.fresh hab hw
  one {a b a' b'} hab hab' hw := by
    rcases hab with ⟨rfl, rfl⟩ | hab <;> rcases hab' with ⟨rfl, rfl⟩ | hab'
    · simp
    · have hlt := hp.new hab'
      constructor
      · rintro rfl
        exact absurd hab' (hnew _ hw)
      · rintro rfl
        omega
    · have hlt := hp.new hab
      constructor
      · rintro rfl
        exact absurd hab (hnew _ hw)
      · rintro rfl
        omega
    · exact hp.one hab hab' hw

/-- Copies made one after the other, of parts that have no list or dict in common. -/
theorem Pairs.union {mid : Nat} (hR : Pairs h h' lo R) (hS : Pairs h h'' mid S) (hk : h' <+: h'') (hlo : lo ≤ mid)
    (hmid : h'.length ≤ mid) (hapart : ∀ {a b c}, h.isWritable a = true → R a b → ¬ S a c) :
    Pairs h h'' lo fun a b => R a b ∨ S a b where
  old hab := by
    rcases hab with hab | hab
    · exact hR.old hab
    · exact hS.old hab
  new hab := by
    rcases hab with hab | hab
    · exact (hR.mono hk).new hab
    · exact hS.new hab
  alike hab := by
    rcases hab with hab | hab
    · exact ((hR.mono hk).alike hab).mono fun _ _ => .inl
    · exact (hS.alike hab).mono fun _ _ => .inr
  fresh hab hw := by
    rcases hab with hab | hab
    · exact hR.fresh hab hw
    · exact Nat.le_trans hlo (hS.fresh hab hw)
  one {a b a' b'} hab hab' hw := by
    have hw' : ∀ {c d e}, R c e → S d e → h.isWritable c = true → h.isWritable d = true := by
      intro c d e hc hd hcw
      rw [← hS.isWritable_eq hd, (hR.mono hk).isWritable_eq hc, hcw]
    have hne : ∀ {c d e}, R c e → S d e → h.isWritable c = true → False := by
      intro c d e hc hd hcw
      have hlt := hR.new hc
      have hge := hS.fresh hd (hw' hc hd hcw)
      omega
    rcases hab with hab | hab <;> rcases hab' with hab' | hab'
    · exact hR.one hab hab' hw
    · constructor
      · rintro rfl
        exact absurd hab' (hapart hw hab)
      · rintro rfl
        exact (hne hab hab' hw).elim
    · constructor
      · rintro rfl
        exact absurd hab (hapart hw hab')
      · rintro rfl
        have hge := hS.fresh hab hw
        have hlt := hR.new hab'
        omega
    · exact hS.one hab hab' hw

/-! ### What is shared -/

/-- Tuples all the way down. -/
def Frozen (h : Heap) (x : Val) : Prop := ∀ p a, h.valueAt x p = some (.ref a) → h.isWritable a = false

theorem Frozen.kid (hf : Frozen h x) (hy : y ∈ h.kids x) : Frozen h y := by
  intro p a hp
  obtain ⟨i, hi⟩ := List.mem_iff_getElem?.mp hy
  exact hf (i :: p) a (place_cons_eq_some.mpr ⟨y, hi, hp⟩)

theorem Frozen.of_grown (hx : h.Closed x) (hf : Frozen h x) (hk : h <+: h') : Frozen h' x := by
  intro p a hp
  rw [hx.valueAt_of_grown hk] at hp
  rw [Heap.isWritable_of_grown hk (hx.lt ⟨p, hp⟩)]
  exact hf p a hp

/-- A value that is tuples all the way down is its own copy. -/
theorem Pairs.frozen (h : Heap) (lo : Nat) :
    Pairs h h lo fun a b => a = b ∧ h.Closed (.ref a) ∧ Frozen h (.ref a) where
  old hab := hab.2.1.ref_lt
  new hab := by
    obtain ⟨rfl, ha, -⟩ := hab
    exact ha.ref_lt
  alike {a b} hab := by
    obtain ⟨rfl, ha, hf⟩ := hab
    refine ⟨rfl, rfl, List.forall₂_same.mpr ?_⟩
    intro v hv
    cases v with
    | atom c => exact .atom c
    | ref c => exact .ref ⟨rfl, ha.item hv, hf.kid hv⟩
  fresh {a b} hab hw := by
    have hf := hab.2.2 [] a rfl
    rw [hf] at hw
    cases hw
  one {a b a' b'} hab hab' hw := by
    have hf := hab.2.2 [] a rfl
    rw [hf] at hw
    cases hw

theorem Lift.frozen (hx : h.Closed x) (hf : Frozen h x) :
    Lift (fun a b => a = b ∧ h.Closed (.ref a) ∧ Frozen h (.ref a)) x x := by
  cases x with
  | atom a => exact .atom a
  | ref a => exact .ref ⟨rfl, hx, hf⟩

end

/-!
## The levels of a walk, and what they hold twice

A walk that comes to an end gives every container below the value as often as it is reached. With true reference
counts one that is reached twice is among those held elsewhere, each time.
-/

section

variable {h : Heap}

/-! ### Containers among items -/

@[simp] theorem refs_nil : refs [] = [] := rfl

@[simp] theorem refs_atom (a : Atom) (flat : List Val) : refs (.atom a :: flat) = refs flat := rfl

@[simp] theorem refs_ref (a : Nat) (flat : List Val) : refs (.ref a :: flat) = a :: refs flat := rfl

theorem mem_refs {flat : List Val} {a : Nat} : a ∈ refs flat ↔ Val.ref a ∈ flat := by
  induction flat with
  | nil => simp
  | cons v flat ih =>
    cases v with
    | atom b => simp [ih]
    | ref b => simp [ih]

theorem type_isNode (v : Val) : (h.type v).isNode = v.ref?.isSome := by
  cases v with
  | atom a => rfl
  | ref a =>
    simp only [Heap.type]
    cases h.obj a <;> rfl

/-- Where there is no container, there is none among the items. -/
theorem refs_eq_nil {flat : List Val} (hflat : (flat.map h.type).any Ty.isNode = false) : refs flat = [] := by
  refine List.eq_nil_iff_forall_not_mem.mpr ?_
  intro a ha
  have hnone := List.any_eq_false.mp hflat (h.type (.ref a)) (List.mem_map_of_mem (mem_refs.mp ha))
  rw [type_isNode] at hnone
  exact hnone rfl

/-! ### Walks -/

/-- The levels from one on, down to one of leaves. -/
inductive Walked (h : Heap) : List Nat → List Level → Prop
  | last {level : List Nat} : refs (Level.of h level).flat = [] → Walked h level [Level.of h level]
  | next {level : List Nat} {rest : List Level} :
      Walked h (refs (Level.of h level).flat) rest → Walked h level (Level.of h level :: rest)

theorem walked_of_treeWalkFrom {leaf : Ty → Bool} {n : Nat} {level : List Nat} {levels : List Level}
    (hw : treeWalkFrom leaf h n level = some levels) : Walked h level levels := by
  induction n generalizing level levels with
  | zero => cases hw
  | succ n ih =>
    rw [treeWalkFrom] at hw
    split at hw
    · cases hw
    · split at hw
      · cases hw
      · split at hw
        · rename_i hleaves
          cases hw
          refine .last (refs_eq_nil (h := h) ?_)
          simpa [Level.of] using hleaves
        · obtain ⟨rest, hrest, rfl⟩ := Option.map_eq_some_iff.mp hw
          exact .next (ih hrest)

theorem Walked.ne_nil {level : List Nat} {levels : List Level} (hw : Walked h level levels) : levels ≠ [] := by
  cases hw <;> simp

/-- The first level is the one the walk starts from. -/
theorem Walked.level_eq {level : List Nat} {l : Level} {rest : List Level} (hw : Walked h level (l :: rest)) :
    l = Level.of h level := by
  cases hw <;> rfl

theorem mem_level_flat {level : List Nat} {v : Val} :
    v ∈ (Level.of h level).flat ↔ ∃ a ∈ level, v ∈ (h.obj a).items := List.mem_flatMap

/-! ### Held twice -/

theorem count_refs_le_held {a b : Nat} (hb : b < h.length) : (refs (h.obj b).items).count a ≤ h.held a :=
  List.le_sum_of_mem (List.mem_map_of_mem (Heap.obj_mem hb))

/-- The containers of a level below the top are held by those above it. -/
theorem held_pos {level : List Nat} (hlevel : ∀ a ∈ level, a < h.length) {a : Nat}
    (ha : a ∈ refs (Level.of h level).flat) : 0 < h.held a := by
  obtain ⟨b, hb, hab⟩ := mem_level_flat.mp (mem_refs.mp ha)
  have hpos : 0 < (refs (h.obj b).items).count a := List.count_pos_iff.mpr (mem_refs.mpr hab)
  exact Nat.lt_of_lt_of_le hpos (count_refs_le_held (hlevel b hb))

/-- The containers below the first level of a walk. -/
def belowTop (levels : List Level) : List Nat := levels.tail.flatMap Level.level

/-- The lists of the walk hold what is below its top as often as it is there. -/
theorem count_belowTop_le {level : List Nat} {levels : List Level} (hw : Walked h level levels) (a : Nat) :
    (belowTop levels).count a ≤ ((levelLists levels).map (·.count a)).sum := by
  induction hw with
  | last hflat => simp [belowTop]
  | next hw ih =>
    cases hw with
    | last hflat =>
      simp only [belowTop, List.tail_cons, List.flatMap_cons, List.flatMap_nil, List.append_nil, levelLists]
      split <;> simp [Level.of]
    | next hw =>
      simp only [belowTop, List.tail_cons, List.flatMap_cons, List.count_append, levelLists, List.map_append,
        List.sum_append] at ih ⊢
      split <;> simp [Level.of] at ih ⊢ <;> omega

/-- Where the containers are picked out of a flat list, their own list holds them once more. -/
theorem count_belowTop_lt {level : List Nat} {levels : List Level} (hw : Walked h level levels) {above l : Level}
    (hadj : [above, l] <:+: levels) (hpicked : above.types.all Ty.isNode = false) {a : Nat} (ha : a ∈ l.level) :
    (belowTop levels).count a < ((levelLists levels).map (·.count a)).sum := by
  have hpos : 0 < l.level.count a := List.count_pos_iff.mpr ha
  induction hw with
  | last hflat =>
    have hlen := hadj.length_le
    simp at hlen
  | next hw ih =>
    have hle := count_belowTop_le hw a
    cases hw with
    | last hflat =>
      rcases List.infix_cons_iff.mp hadj with hadj | hadj
      · obtain ⟨rfl, rfl, -⟩ : above = _ ∧ l = _ ∧ True := by simpa using hadj
        simp only [belowTop, List.tail_cons, List.flatMap_cons, List.flatMap_nil, List.append_nil, levelLists, hpicked,
          Bool.false_eq_true, ↓reduceIte, List.cons_append, List.nil_append, List.map_cons, List.sum_cons]
        simp only [Level.of] at hpos ⊢
        omega
      · have hlen := hadj.length_le
        simp at hlen
    | next hw =>
      rcases List.infix_cons_iff.mp hadj with hadj | hadj
      · obtain ⟨rfl, rfl⟩ : above = _ ∧ l = _ := by simpa using hadj
        simp only [belowTop, List.tail_cons, List.flatMap_cons, List.count_append, levelLists, hpicked, List.map_append,
          List.sum_append, Bool.false_eq_true, ↓reduceIte, List.map_cons, List.sum_cons] at hle ⊢
        simp only [Level.of] at hpos hle ⊢
        omega
      · have hlt := ih hadj
        simp only [belowTop, List.tail_cons, List.flatMap_cons, List.count_append, levelLists, List.map_append,
          List.sum_append] at hlt ⊢
        split <;> simp [Level.of] at hlt ⊢ <;> omega

/-- A container below the top is held by one above it, in the heap. -/
theorem Walked.held_pos {level : List Nat} {levels : List Level} (hw : Walked h level levels)
    (hlevel : ∀ a ∈ level, h.Closed (.ref a)) {a : Nat} (ha : a ∈ belowTop levels) : 0 < h.held a := by
  induction hw with
  | last hflat => simp [belowTop] at ha
  | @next level rest hw ih =>
    have hflat : ∀ b ∈ refs (Level.of h level).flat, h.Closed (.ref b) := by
      intro b hb
      obtain ⟨c, hc, hbc⟩ := mem_level_flat.mp (mem_refs.mp hb)
      exact (hlevel c hc).item hbc
    cases rest with
    | nil => simp [belowTop] at ha
    | cons l rest =>
      simp only [belowTop, List.tail_cons, List.flatMap_cons, List.mem_append] at ha
      rcases ha with ha | ha
      · rw [hw.level_eq] at ha
        exact Copies.held_pos (fun b hb => (hlevel b hb).ref_lt) ha
      · exact ih hflat ha

theorem getrefcount_le_cons (rt : Runtime) (lists : List (List Nat)) (held : List Nat) (a : Nat) :
    getrefcount rt h lists a ≤ getrefcount rt h (held :: lists) a := by
  simp only [getrefcount, List.map_cons, List.sum_cons]
  omega

/-- A container with more references than one holder and the lists account for is put among those held elsewhere
wherever it is met. -/
theorem count_heldBelow (rt : Runtime) {lists : List (List Nat)} {held : List Nat} {levels : List Level} {a : Nat}
    (hmore : ∀ above l, [above, l] <:+: levels → a ∈ l.level →
      unsharedRefs rt + (if above.types.all Ty.isNode then 0 else 1) < getrefcount rt h lists a) :
    held.count a + (belowTop levels).count a ≤ (heldBelow rt h lists held levels).count a := by
  induction levels generalizing held with
  | nil => simp [belowTop, heldBelow]
  | cons above levels ih =>
    cases levels with
    | nil => simp [belowTop, heldBelow]
    | cons l rest =>
      rw [heldBelow]
      refine Nat.le_trans ?_ (ih fun above' l' hadj => hmore above' l' (hadj.trans (List.infix_cons List.infix_rfl)))
      simp only [belowTop, List.tail_cons, List.flatMap_cons, List.count_append]
      by_cases ha : a ∈ l.level
      · have hlt := hmore above l (List.prefix_append [above, l] rest).isInfix ha
        have hle := getrefcount_le_cons (h := h) rt lists held a
        rw [List.count_filter (by exact decide_eq_true (Nat.lt_of_lt_of_le hlt hle))]
        omega
      · have hzero := List.count_eq_zero.mpr ha
        omega

/-- Of a value that is copied, no list or dict is reached twice. -/
theorem count_le_one (rt : Runtime) {value : Nat} (hvalue : h.Closed (.ref value)) {levels : List Level}
    (hw : Walked h [value] levels) (hnodup : (sharedIds rt h value levels).Nodup) {a : Nat}
    (ha : h.isWritable a = true) : (levels.flatMap Level.level).count a ≤ 1 := by
  by_contra hmany
  have htop : ∀ b ∈ [value], h.Closed (.ref b) := by
    intro b hb
    rw [List.mem_singleton.mp hb]
    exact hvalue
  have htotal : (levels.flatMap Level.level).count a = [value].count a + (belowTop levels).count a := by
    cases levels with
    | nil => exact absurd rfl hw.ne_nil
    | cons l rest =>
      rw [List.flatMap_cons, List.count_append, hw.level_eq]
      rfl
  have hlists := count_belowTop_le hw a
  have hheld : [value].count a + (belowTop levels).count a ≤ (heldElsewhere rt h value levels).count a := by
    refine count_heldBelow rt ?_
    intro above l hadj hal
    have hbelow : a ∈ belowTop levels := by
      obtain ⟨before, after, rfl⟩ := hadj
      cases before with
      | nil => simp [belowTop, hal]
      | cons first before => simp [belowTop, hal]
    have hpos := hw.held_pos htop hbelow
    rw [unsharedRefs_eq]
    simp only [getrefcount, List.map_cons, List.sum_cons]
    split
    · omega
    · rename_i hpicked
      have hlt := count_belowTop_lt hw hadj (Bool.eq_false_iff.mpr hpicked) hal
      omega
  have hone := List.nodup_iff_count_le_one.mp hnodup a
  rw [sharedIds, List.count_filter ha] at hone
  omega

end

end Cash.Copies
