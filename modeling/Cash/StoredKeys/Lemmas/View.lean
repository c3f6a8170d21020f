import Cash.StoredKeys.View
import Mathlib.Data.List.Basic

/-!
# The view answers as the record it stands for
-/

namespace Cash.StoredKeys

open Py

variable {τ : Type} [LinearOrder τ] {started : τ} {e : Entries τ} {v : View τ} {kind : Kind} {key : Str} {value : Value τ}

/-- No key stands twice in a record, under one kind or under both. -/
def Entries.Good (e : Entries τ) : Prop := (Items.keys (e .keys ++ e .ramOnly)).Nodup

omit [LinearOrder τ] in
theorem Entries.Good.nodup (h : e.Good) (kind : Kind) : (Items.keys (e kind)).Nodup := by
  rw [Entries.Good, Items.keys, List.map_append, List.nodup_append] at h
  cases kind with
  | keys => exact h.1
  | ramOnly => exact h.2.1

omit [LinearOrder τ] in
theorem Entries.Good.disjoint (h : e.Good) (kind : Kind) (hk : key ∈ Items.keys (e kind)) : key ∉ Items.keys (e kind.other) := by
  rw [Entries.Good, Items.keys, List.map_append, List.nodup_append] at h
  intro hother
  cases kind with
  | keys => exact h.2.2 key hk key hother rfl
  | ramOnly => exact h.2.2 key hother key hk rfl

omit [LinearOrder τ] in
theorem Entries.good_iff : e.Good ↔ (∀ kind, (Items.keys (e kind)).Nodup) ∧
    ∀ key, key ∈ Items.keys (e .keys) → key ∉ Items.keys (e .ramOnly) := by
  constructor
  · exact fun h => ⟨h.nodup, fun key => h.disjoint .keys⟩
  · rintro ⟨hnodup, hdisjoint⟩
    rw [Entries.Good, Items.keys, List.map_append, List.nodup_append]
    exact ⟨hnodup .keys, hnodup .ramOnly, fun k hk k' hk' heq => hdisjoint k hk (heq ▸ hk')⟩

/-! ## What the indexes hold -/

/-- The item of an index for an entry. -/
def argsItem (da : Str × Str) (p : Str × Value τ) : Option (Str × Str) :=
  match keyParts p.1 with
  | some q => if (q.dynamic, q.arguments) = da then some (p.1, q.state) else none
  | none => none

/-- The item of `_earlier` for an entry. -/
def earlierItem (started : τ) (p : Str × Value τ) : Option (Str × τ × Option Str) :=
  (earlierTime started p.2).map fun t => (p.1, t, (keyParts p.1).map KeyParts.state)

/-- A counter's value, where it counts anything. -/
def counted (n : ℕ) : Option ℕ := if n = 0 then none else some n

/-- The view stands for the record. -/
structure View.Rep (started : τ) (v : View τ) (e : Entries τ) : Prop where
  entries : v.entries = e
  byArgs : ∀ kind da, Dict.getD (v.byArgs kind) da [] = (e kind).filterMap (argsItem da)
  earlier : v.earlier = (e .keys ++ e .ramOnly).filterMap (earlierItem started)
  states : ∀ state, v.earlierStates.lookup state = counted (v.earlier.countP fun p => p.2.2 = some state)

omit [LinearOrder τ] in
theorem argsItem_key {da : Str × Str} {p : Str × Value τ} {q : Str × Str} (h : argsItem da p = some q) : q.1 = p.1 := by
  unfold argsItem at h
  split at h
  · split at h
    · cases h
      rfl
    · cases h
  · cases h

theorem earlierItem_key {p : Str × Value τ} {q : Str × τ × Option Str} (h : earlierItem started p = some q) : q.1 = p.1 := by
  rw [earlierItem, Option.map_eq_some_iff] at h
  obtain ⟨t, -, rfl⟩ := h
  rfl

section
variable {V W : Type} {f : Str × V → Option (Str × W)}

theorem filterMap_pop (hf : ∀ p q, f p = some q → q.1 = p.1) (items : List (Str × V)) (k : Str) :
    (Items.pop items k).filterMap f = Items.pop (items.filterMap f) k := by
  induction items with
  | nil => rfl
  | cons p items ih =>
      rw [Items.pop, List.filter_cons, List.filterMap_cons]
      cases hp : f p with
      | none =>
          split
          · rw [List.filterMap_cons, hp]
            exact ih
          · exact ih
      | some q =>
          rw [Items.pop, List.filter_cons, hf p q hp]
          split
          · rw [List.filterMap_cons, hp]
            exact congrArg (q :: ·) ih
          · exact ih

theorem mem_keys_filterMap (hf : ∀ p q, f p = some q → q.1 = p.1) {items : List (Str × V)} {k : Str}
    (h : k ∈ Items.keys (items.filterMap f)) : k ∈ Items.keys items := by
  obtain ⟨w, hw⟩ := Items.mem_keys.mp h
  obtain ⟨p, hp, hfp⟩ := List.mem_filterMap.mp hw
  have hk := hf p _ hfp
  exact Items.mem_keys.mpr ⟨p.2, by rw [show k = p.1 from hk]; exact hp⟩

theorem keys_filterMap (hf : ∀ p q, f p = some q → q.1 = p.1) {items : List (Str × V)} (h : (Items.keys items).Nodup) :
    (Items.keys (items.filterMap f)).Nodup := by
  induction items with
  | nil => exact List.nodup_nil
  | cons p items ih =>
      rw [Items.keys, List.map_cons, List.nodup_cons] at h
      rw [List.filterMap_cons]
      split
      · exact ih h.2
      · rename_i q hq
        rw [Items.keys, List.map_cons, List.nodup_cons]
        refine ⟨fun hmem => h.1 ?_, ih h.2⟩
        rw [← hf p q hq]
        exact mem_keys_filterMap hf hmem

theorem countP_pop {items : List (Str × V)} (h : (Items.keys items).Nodup) (q : Str × V → Bool) (k : Str) :
    items.countP q = (Items.pop items k).countP q +
      match items.lookup k with
      | some w => if q (k, w) then 1 else 0
      | none => 0 := by
  induction items with
  | nil => rfl
  | cons p items ih =>
      obtain ⟨k', w⟩ := p
      rw [Items.keys, List.map_cons, List.nodup_cons] at h
      by_cases hk : k = k'
      · subst hk
        have hpop : Items.pop ((k, w) :: items) k = items := by
          rw [Items.pop, List.filter_cons_of_neg (by simp)]
          exact Items.pop_of_not_mem h.1
        rw [hpop, List.lookup_cons_self, List.countP_cons]
      · have hpop : Items.pop ((k', w) :: items) k = (k', w) :: Items.pop items k := by
          rw [Items.pop, List.filter_cons_of_pos (by simpa using Ne.symm hk)]
          rfl
        rw [hpop, List.lookup_cons, beq_false_of_ne hk, List.countP_cons, List.countP_cons, ih h.2]
        dsimp only
        omega

theorem setItem_of_not_mem {items : List (Str × V)} {k : Str} {w : V} (h : k ∉ Items.keys items) :
    Dict.setItem items k w = items ++ [(k, w)] := if_neg h

end

/-! ## One entry in, one entry out -/

theorem lookup_countUp {states : Dict Str ℕ} {state : Option Str} (st : Str) {n : ℕ} (h : states.lookup st = counted n) :
    (View.countUp states state).lookup st = counted (n + if state = some st then 1 else 0) := by
  cases state with
  | none => simpa [View.countUp] using h
  | some s =>
      rw [View.countUp, Dict.modify, Dict.lookup_insert']
      by_cases hs : st = s
      · subst hs
        rw [if_pos rfl, if_pos rfl, h]
        cases n with
        | zero => rfl
        | succ n => rfl
      · rw [if_neg hs, if_neg (by simpa using Ne.symm hs), Nat.add_zero, h]

theorem lookup_countDown {states : Dict Str ℕ} {state : Option Str} (st : Str) {n : ℕ}
    (h : states.lookup st = counted (n + if state = some st then 1 else 0)) :
    (View.countDown states state).lookup st = counted n := by
  cases state with
  | none => simpa [View.countDown] using h
  | some s =>
      rw [View.countDown]
      by_cases hs : st = s
      · subst hs
        rw [if_pos rfl] at h
        have hget : Dict.getD states st 0 = n + 1 := by
          rw [Dict.getD, h]
          rfl
        rw [hget]
        cases n with
        | zero => simp [counted]
        | succ n =>
            rw [if_neg (by omega), Dict.lookup_insert', if_pos rfl]
            rfl
      · rw [if_neg (by simpa using Ne.symm hs), Nat.add_zero] at h
        split
        · rw [Dict.lookup_erase', if_neg hs, h]
        · rw [Dict.lookup_insert', if_neg hs, h]

omit [LinearOrder τ] in
theorem getD_indexAdd {index : Dict (Str × Str) (List (Str × Str))} {items : List (Str × Value τ)} (da : Str × Str)
    (h : ∀ da, Dict.getD index da [] = items.filterMap (argsItem da)) (hkey : key ∉ Items.keys items) :
    Dict.getD (View.indexAdd index key) da [] = (items ++ [(key, value)]).filterMap (argsItem da) := by
  rw [List.filterMap_append, ← h da, View.indexAdd]
  cases hparts : keyParts key with
  | none =>
      have hnone : argsItem da (key, value) = none := by simp only [argsItem, hparts]
      rw [List.filterMap_cons, hnone, List.filterMap_nil, List.append_nil]
  | some p =>
      dsimp only
      rw [Dict.modify, Dict.getD_insert]
      by_cases hda : da = (p.dynamic, p.arguments)
      · subst hda
        have hsome : argsItem (p.dynamic, p.arguments) (key, value) = some (key, p.state) := by simp [argsItem, hparts]
        have hfresh : key ∉ Items.keys (Dict.getD index (p.dynamic, p.arguments) []) := by
          rw [h]
          exact fun hmem => hkey (mem_keys_filterMap (fun _ _ => argsItem_key) hmem)
        rw [if_pos rfl, List.filterMap_cons, hsome]
        exact setItem_of_not_mem hfresh
      · have hnone : argsItem da (key, value) = none := by
          simp only [argsItem, hparts]
          rw [if_neg (Ne.symm hda)]
        rw [if_neg hda, List.filterMap_cons, hnone, List.filterMap_nil, List.append_nil]

omit [LinearOrder τ] in
theorem getD_indexDrop {index : Dict (Str × Str) (List (Str × Str))} {items : List (Str × Value τ)} (da : Str × Str)
    (h : ∀ da, Dict.getD index da [] = items.filterMap (argsItem da)) :
    Dict.getD (View.indexDrop index key) da [] = (Items.pop items key).filterMap (argsItem da) := by
  rw [filterMap_pop (fun _ _ => argsItem_key), ← h da]
  have hother : (∀ p, keyParts key = some p → da ≠ (p.dynamic, p.arguments)) →
      Items.pop (Dict.getD index da []) key = Dict.getD index da [] := by
    intro hne
    apply Items.pop_of_not_mem
    rw [h da]
    intro hmem
    obtain ⟨st, hst⟩ := Items.mem_keys.mp hmem
    obtain ⟨q, -, hq⟩ := List.mem_filterMap.mp hst
    have hkey := argsItem_key hq
    unfold argsItem at hq
    split at hq
    · rename_i p hp
      split at hq
      · rename_i heq
        exact hne p (by rw [← hp, ← hkey]) heq.symm
      · cases hq
    · cases hq
  unfold View.indexDrop
  split
  · rename_i p hparts
    by_cases hda : da = (p.dynamic, p.arguments)
    · subst hda
      split
      · rename_i same hsame
        have hget : Dict.getD index (p.dynamic, p.arguments) [] = same := by rw [Dict.getD, hsame]; rfl
        rw [hget]
        split
        · rename_i hnil
          rw [Dict.getD_erase, if_pos rfl, hnil]
        · rw [Dict.getD_insert, if_pos rfl]
      · rename_i hnone
        have hget : Dict.getD index (p.dynamic, p.arguments) [] = [] := by rw [Dict.getD, hnone]; rfl
        rw [hget]
        rfl
    · have hkeep := hother fun q hq => by
        rw [hparts] at hq
        cases hq
        exact hda
      rw [hkeep]
      split
      · split
        · rw [Dict.getD_erase, if_neg hda]
        · rw [Dict.getD_insert, if_neg hda]
      · rfl
  · rename_i hparts
    rw [hother fun q hq => by rw [hparts] at hq; cases hq]

/-- An entry added at the end of its kind. -/
def Entries.add (e : Entries τ) (kind : Kind) (key : Str) (value : Value τ) : Entries τ :=
  fun k => if k = kind then e k ++ [(key, value)] else e k

/-- An entry taken out of its kind. -/
def Entries.remove (e : Entries τ) (kind : Kind) (key : Str) : Entries τ :=
  fun k => if k = kind then Items.pop (e k) key else e k

theorem View.Rep.enter (h : v.Rep started e) (kind : Kind) (key : Str) (value : Value τ) (hkey : ∀ k, key ∉ Items.keys (e k))
    (hlast : earlierTime started value = none ∨ kind = .ramOnly ∨ e .ramOnly = []) :
    (v.enter started kind key value).Rep started (e.add kind key value) := by
  have hearlier : (v.enter started kind key value).earlier = v.earlier ++ (earlierItem started (key, value)).toList := by
    have hfresh : key ∉ Items.keys v.earlier := by
      rw [h.earlier]
      intro hmem
      have hmem' := mem_keys_filterMap (fun _ _ => earlierItem_key) hmem
      rw [Items.keys, List.map_append, List.mem_append] at hmem'
      exact hmem'.elim (hkey _) (hkey _)
    rw [View.enter, earlierItem]
    cases earlierTime started value with
    | none => exact (List.append_nil _).symm
    | some t => exact setItem_of_not_mem hfresh
  refine ⟨?_, ?_, ?_, ?_⟩
  · funext k
    dsimp only [View.enter, Entries.add]
    rw [h.entries]
    split
    · exact setItem_of_not_mem (hkey k)
    · rfl
  · intro k da
    dsimp only [View.enter, Entries.add]
    split
    · exact getD_indexAdd da (h.byArgs k) (hkey k)
    · exact h.byArgs k da
  · rw [hearlier, h.earlier]
    dsimp only [Entries.add]
    have hone : [(key, value)].filterMap (earlierItem started) = (earlierItem started (key, value)).toList := by
      rw [List.filterMap_cons]
      cases earlierItem started (key, value) <;> rfl
    rw [← hone]
    cases kind with
    | ramOnly => simp only [reduceCtorEq, if_false, if_true, List.filterMap_append, List.append_assoc]
    | keys =>
        simp only [reduceCtorEq, if_false, if_true, List.filterMap_append, List.append_assoc]
        rcases hlast with hnone | hkind | hempty
        · have hnil : [(key, value)].filterMap (earlierItem started) = [] := by
            rw [hone, earlierItem, hnone]
            rfl
          rw [hnil, List.append_nil, List.nil_append]
        · cases hkind
        · rw [hempty, List.filterMap_nil, List.nil_append, List.append_nil]
  · intro st
    rw [hearlier, List.countP_append]
    dsimp only [View.enter]
    rw [earlierItem]
    cases earlierTime started value with
    | none =>
        rw [Option.map_none, Option.toList_none, List.countP_nil, Nat.add_zero]
        exact h.states st
    | some t =>
        rw [Option.map_some, Option.toList_some, List.countP_singleton]
        simpa only [decide_eq_true_eq] using lookup_countUp st (h.states st)

theorem View.Rep.drop (h : v.Rep started e) (hgood : e.Good) (kind : Kind) (key : Str) :
    (v.drop kind key).Rep started (e.remove kind key) := by
  have hmem : key ∈ Items.keys (v.entries kind) ↔ key ∈ Items.keys (e kind) := by rw [h.entries]
  rw [View.drop]
  split
  · rename_i hkey
    rw [hmem] at hkey
    have hpop : Items.pop (e .keys ++ e .ramOnly) key = e.remove kind key .keys ++ e.remove kind key .ramOnly := by
      have hother := Items.pop_of_not_mem (hgood.disjoint kind hkey)
      rw [Items.pop_append]
      cases kind with
      | keys => exact congrArg (_ ++ ·) hother
      | ramOnly => exact congrArg (· ++ _) hother
    have hnodup : (Items.keys v.earlier).Nodup := by
      rw [h.earlier]
      exact keys_filterMap (fun _ _ => earlierItem_key) hgood
    refine ⟨?_, ?_, ?_, ?_⟩
    · funext k
      dsimp only [Entries.remove]
      rw [h.entries]
    · intro k da
      dsimp only [Entries.remove]
      split
      · exact getD_indexDrop da (h.byArgs k)
      · exact h.byArgs k da
    · dsimp only
      rw [h.earlier, ← filterMap_pop (fun _ _ => earlierItem_key), hpop]
    · intro st
      dsimp only
      have hcount := h.states st
      rw [countP_pop hnodup _ key] at hcount
      cases hlookup : v.earlier.lookup key with
      | none =>
          rw [hlookup] at hcount
          exact hcount
      | some p =>
          rw [hlookup] at hcount
          exact lookup_countDown st (by simpa only [decide_eq_true_eq] using hcount)
  · rename_i hkey
    rw [hmem] at hkey
    have hsame : e.remove kind key = e := by
      funext k
      dsimp only [Entries.remove]
      split
      · rename_i hk
        rw [hk, Items.pop_of_not_mem hkey]
      · rfl
    rw [hsame]
    exact h

omit [LinearOrder τ] in
theorem Entries.Good.remove (h : e.Good) (kind : Kind) (key : Str) : (e.remove kind key).Good := by
  obtain ⟨hnodup, hdisjoint⟩ := Entries.good_iff.mp h
  refine Entries.good_iff.mpr ⟨fun k => ?_, fun k hk hk' => hdisjoint k ?_ ?_⟩
  · dsimp only [Entries.remove]
    split
    · exact Items.nodup_pop (hnodup k)
    · exact hnodup k
  · dsimp only [Entries.remove] at hk
    split at hk
    · exact (Items.mem_keys_pop.mp hk).1
    · exact hk
  · dsimp only [Entries.remove] at hk'
    split at hk'
    · exact (Items.mem_keys_pop.mp hk').1
    · exact hk'

omit [LinearOrder τ] in
theorem Entries.put_eq (e : Entries τ) (kind : Kind) (key : Str) (value : Value τ) :
    e.put kind key value = ((e.remove kind.other key).remove kind key).add kind key value := by
  funext k
  cases kind <;> cases k <;> rfl

omit [LinearOrder τ] in
theorem Entries.not_mem_removed (e : Entries τ) (kind : Kind) (key : Str) (k : Kind) :
    key ∉ Items.keys ((e.remove kind.other key).remove kind key k) := by
  intro hmem
  cases kind <;> cases k <;> exact (Items.mem_keys_pop.mp hmem).2 rfl

omit [LinearOrder τ] in
theorem Entries.Good.put (h : e.Good) (kind : Kind) (key : Str) (value : Value τ) : (e.put kind key value).Good := by
  have hremoved := (h.remove kind.other key).remove kind key
  have hfresh := e.not_mem_removed kind key
  rw [Entries.put_eq]
  generalize (e.remove kind.other key).remove kind key = e' at hremoved hfresh
  obtain ⟨hnodup, hdisjoint⟩ := Entries.good_iff.mp hremoved
  have hkeys : ∀ k, Items.keys (e'.add kind key value k) = Items.keys (e' k) ++ if k = kind then [key] else [] := by
    intro k
    dsimp only [Entries.add]
    split
    · exact List.map_append
    · exact (List.append_nil _).symm
  refine Entries.good_iff.mpr ⟨fun k => ?_, fun k hk hk' => ?_⟩
  · rw [hkeys]
    split
    · rw [← List.concat_eq_append]
      exact (hnodup k).concat (hfresh k)
    · rw [List.append_nil]
      exact hnodup k
  · rw [hkeys, List.mem_append] at hk hk'
    rcases hk with hk | hk
    · rcases hk' with hk' | hk'
      · exact hdisjoint k hk hk'
      · split at hk'
        · obtain rfl := List.mem_singleton.mp hk'
          exact hfresh _ hk
        · cases hk'
    · split at hk
      · obtain rfl := List.mem_singleton.mp hk
        rcases hk' with hk' | hk'
        · exact hfresh _ hk'
        · rename_i hkind
          rw [if_neg (by rw [← hkind]; decide)] at hk'
          cases hk'
      · cases hk

theorem View.Rep.put (h : v.Rep started e) (hgood : e.Good) (kind : Kind) (key : Str) (value : Value τ)
    (htime : earlierTime started value = none) :
    (v.put started kind key value).Rep started (e.put kind key value) := by
  rw [Entries.put_eq]
  exact ((h.drop hgood kind.other key).drop (hgood.remove kind.other key) kind key).enter kind key value
    (e.not_mem_removed kind key) (.inl htime)

end Cash.StoredKeys
