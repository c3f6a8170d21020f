import Cash.StoredKeys.Lemmas.View
import Cash.StoredKeys.Record

/-!
# The view of an index, and changes laid over it
-/

namespace Cash.StoredKeys

open Py

variable {τ : Type}

/-! ## The facts read off the indexes -/

section

variable [LinearOrder τ] {started : τ} {e : Entries τ} {v : View τ} {kind : Kind}

/-! ### A record put together -/

/-- The entries with every note put. -/
def Entries.putAll (e : Entries τ) (notes : List (Kind × Str × Value τ)) : Entries τ :=
  notes.foldl (fun e n => e.put n.1 n.2.1 n.2.2) e

omit [LinearOrder τ] in
theorem Entries.Good.putAll (h : e.Good) (notes : List (Kind × Str × Value τ)) : (e.putAll notes).Good := by
  induction notes generalizing e with
  | nil => exact h
  | cons n notes ih => exact ih (h.put n.1 n.2.1 n.2.2)

theorem View.Rep.apply (h : v.Rep started e) (hgood : e.Good) {c : Changes τ}
    (htime : ∀ n ∈ c.notes, earlierTime started n.2.2 = none) : (v.apply started c).Rep started (e.putAll c.notes) := by
  rw [View.apply]
  generalize c.notes = notes at htime
  induction notes generalizing v e with
  | nil => exact h
  | cons n notes ih =>
      exact ih (h.put hgood n.1 n.2.1 n.2.2 (htime n List.mem_cons_self)) (hgood.put _ _ _) fun n hn => htime n (List.mem_cons_of_mem _ hn)

/-- Entries added one after another, of one kind. -/
theorem View.Rep.load (h : v.Rep started e) (kind : Kind) (items : List (Str × Value τ)) (hnodup : (Items.keys items).Nodup)
    (hfresh : ∀ k, ∀ key ∈ Items.keys items, key ∉ Items.keys (e k)) (hlast : kind = .ramOnly ∨ e .ramOnly = []) :
    ((items.map fun p => (kind, p)).foldl (fun v n => v.enter started n.1 n.2.1 n.2.2) v).Rep started
      fun k => if k = kind then e k ++ items else e k := by
  induction items generalizing v e with
  | nil =>
      have hsame : (fun k => if k = kind then e k ++ [] else e k) = e := by
        funext k
        rw [List.append_nil, ite_self]
      rw [hsame]
      exact h
  | cons p items ih =>
      rw [Items.keys, List.map_cons, List.nodup_cons] at hnodup
      have hstep := h.enter kind p.1 p.2 (fun k => hfresh k p.1 List.mem_cons_self) (hlast.imp id id |> .inr)
      have hrest := ih hstep hnodup.2 (fun k key hkey hmem => ?_) ?_
      · rw [List.map_cons, List.foldl_cons]
        convert hrest using 1
        funext k
        dsimp only [Entries.add]
        split
        · rw [List.append_assoc, List.singleton_append]
        · rfl
      · dsimp only [Entries.add] at hmem
        split at hmem
        · rw [Items.keys, List.map_append, List.mem_append] at hmem
          rcases hmem with hmem | hmem
          · exact hfresh k key (List.mem_cons_of_mem _ hkey) hmem
          · obtain rfl := List.mem_singleton.mp hmem
            exact hnodup.1 hkey
        · exact hfresh k key (List.mem_cons_of_mem _ hkey) hmem
      · rcases hlast with hkind | hempty
        · exact .inl hkind
        · by_cases hkind : kind = .ramOnly
          · exact .inl hkind
          · refine .inr ?_
            dsimp only [Entries.add]
            rw [if_neg (Ne.symm hkind), hempty]

/-- A view built on a record stands for it. -/
theorem View.Rep.build (ref : Option ℕ) (disk : Option (Doc τ)) (hgood : ∀ doc, disk = some doc → doc.entries.Good)
    (overlays : List (Changes τ)) (htime : ∀ c ∈ overlays, ∀ n ∈ c.notes, earlierTime started n.2.2 = none) :
    (View.build started ref disk overlays).Rep started
      (overlays.foldl (fun e c => e.putAll c.notes) ((disk.getD .empty).entries)) := by
  have hbare : (⟨ref, fun _ => [], fun _ => ∅, [], ∅⟩ : View τ).Rep started fun _ => [] :=
    ⟨rfl, fun _ _ => rfl, rfl, fun _ => rfl⟩
  have hloaded : ∀ v : View τ, v.Rep started (disk.getD .empty).entries → (disk.getD .empty).entries.Good →
      (overlays.foldl (fun v c => v.apply started c) v).Rep started
        (overlays.foldl (fun e c => e.putAll c.notes) ((disk.getD .empty).entries)) := by
    generalize (disk.getD .empty).entries = e
    induction overlays generalizing e with
    | nil => exact fun v h _ => h
    | cons c overlays ih =>
        intro v h hgood'
        exact ih (fun c hc => htime c (List.mem_cons_of_mem _ hc)) _ _ (h.apply hgood' (htime c List.mem_cons_self))
          (hgood'.putAll _)
  cases disk with
  | none => exact hloaded _ hbare List.nodup_nil
  | some doc =>
      have hdoc := hgood doc rfl
      have hkeys := hbare.load .keys (doc.entries .keys) (hdoc.nodup .keys) (fun _ _ _ h => by cases h) (.inr rfl)
      have hboth := hkeys.load .ramOnly (doc.entries .ramOnly) (hdoc.nodup .ramOnly)
        (fun k key hkey hmem => ?_) (.inl rfl)
      · refine hloaded _ ?_ hdoc
        dsimp only
        rw [List.foldl_append]
        convert hboth using 1
        funext k
        cases k <;> rfl
      · cases k with
        | keys => exact hdoc.disjoint .ramOnly hkey hmem
        | ramOnly => cases hmem

theorem View.put_disk (v : View τ) (kind : Kind) (key : Str) (value : Value τ) : (v.put started kind key value).disk = v.disk := by
  have hdrop : ∀ (v : View τ) kind, (v.drop kind key).disk = v.disk := by
    intro v kind
    rw [View.drop]
    split <;> rfl
  exact (hdrop _ kind).trans (hdrop v kind.other)

theorem View.apply_disk (v : View τ) (c : Changes τ) : (v.apply started c).disk = v.disk := by
  rw [View.apply]
  generalize c.notes = notes
  induction notes generalizing v with
  | nil => rfl
  | cons n notes ih => exact (ih _).trans (v.put_disk n.1 n.2.1 n.2.2)

theorem View.build_disk (ref : Option ℕ) (disk : Option (Doc τ)) (overlays : List (Changes τ)) :
    (View.build started ref disk overlays).disk = ref := by
  have hover : ∀ v : View τ, (overlays.foldl (fun v c => v.apply started c) v).disk = v.disk := by
    induction overlays with
    | nil => exact fun v => rfl
    | cons c overlays ih => exact fun v => (ih _).trans (v.apply_disk c)
  have hload : ∀ (notes : List (Kind × Str × Value τ)) (v : View τ),
      (notes.foldl (fun v n => v.enter started n.1 n.2.1 n.2.2) v).disk = v.disk := by
    intro notes
    induction notes with
    | nil => exact fun v => rfl
    | cons n notes ih => exact fun v => ih _
  refine (hover _).trans ?_
  cases disk with
  | none => rfl
  | some doc => exact hload _ _

/-! ### The facts -/

omit [LinearOrder τ] in
/-- Keys set one after another, each met for the first time, are appended. -/
theorem foldl_setItem {f : List (Str × τ) → Str × Value τ → List (Str × τ)} {time : Value τ → Option τ}
    (hsome : ∀ acc p t, time p.2 = some t → f acc p = Dict.setItem acc p.1 t)
    (hnone : ∀ acc p, time p.2 = none → f acc p = acc) (items : List (Str × Value τ)) (acc : List (Str × τ))
    (hnodup : (Items.keys items).Nodup) (hfresh : ∀ key ∈ Items.keys items, key ∉ Items.keys acc) :
    items.foldl f acc = acc ++ items.filterMap fun p => (time p.2).map fun t => (p.1, t) := by
  induction items generalizing acc with
  | nil => exact (List.append_nil acc).symm
  | cons p items ih =>
      rw [Items.keys, List.map_cons, List.nodup_cons] at hnodup
      rw [List.foldl_cons, List.filterMap_cons]
      cases htime : time p.2 with
      | none =>
          rw [hnone acc p htime]
          exact ih acc hnodup.2 fun key hkey => hfresh key (List.mem_cons_of_mem _ hkey)
      | some t =>
          dsimp only [Option.map_some]
          rw [hsome acc p t htime, setItem_of_not_mem (hfresh p.1 List.mem_cons_self), ih _ hnodup.2, List.append_assoc,
            List.singleton_append]
          intro key hkey hmem
          rw [Items.keys, List.map_append, List.mem_append] at hmem
          rcases hmem with hmem | hmem
          · exact hfresh key (List.mem_cons_of_mem _ hkey) hmem
          · obtain rfl := List.mem_singleton.mp hmem
            exact hnodup.1 hkey

theorem earlierOf_eq (hgood : e.Good) :
    earlierOf started e = (e .keys ++ e .ramOnly).filterMap fun p => (earlierTime started p.2).map fun t => (p.1, t) := by
  refine (foldl_setItem (fun acc p t ht => ?_) (fun acc p ht => ?_) _ [] hgood fun _ _ h => by cases h).trans
    (List.nil_append _)
  · simp only [ht]
  · simp only [ht]

theorem View.Rep.earlierTimes (h : v.Rep started e) (hgood : e.Good) :
    v.earlier.map (fun p => (p.1, p.2.1)) = earlierOf started e := by
  rw [earlierOf_eq hgood, h.earlier, List.map_filterMap]
  congr 1
  funext p
  rw [earlierItem, Option.map_map]
  rfl

theorem View.Rep.earlierStateSet (h : v.Rep started e) (hgood : e.Good) :
    v.earlierStates.keys.toFinset = ((earlierOf started e).filterMap fun p => (keyParts p.1).map KeyParts.state).toFinset := by
  ext state
  have hcount : state ∈ v.earlierStates ↔ ∃ p ∈ v.earlier, p.2.2 = some state := by
    rw [Dict.mem_iff_lookup, h.states]
    constructor
    · rintro ⟨n, hn⟩
      by_contra hnot
      have hzero : v.earlier.countP (fun p => decide (p.2.2 = some state)) = 0 := by
        rw [List.countP_eq_zero]
        intro p hp
        rw [decide_eq_true_eq]
        exact fun heq => hnot ⟨p, hp, heq⟩
      rw [hzero] at hn
      cases hn
    · rintro ⟨p, hp, heq⟩
      have hpos : 0 < v.earlier.countP (fun p => decide (p.2.2 = some state)) :=
        List.countP_pos_iff.mpr ⟨p, hp, by rw [heq]; exact decide_eq_true rfl⟩
      exact ⟨_, if_neg (by omega)⟩
  rw [List.mem_toFinset, List.mem_toFinset, List.mem_filterMap, earlierOf_eq hgood]
  refine Iff.trans hcount ?_
  rw [h.earlier]
  constructor
  · rintro ⟨p, hp, hstate⟩
    obtain ⟨q, hq, hitem⟩ := List.mem_filterMap.mp hp
    rw [earlierItem, Option.map_eq_some_iff] at hitem
    obtain ⟨t, ht, rfl⟩ := hitem
    exact ⟨(q.1, t), List.mem_filterMap.mpr ⟨q, hq, by rw [ht]; rfl⟩, hstate⟩
  · rintro ⟨p, hp, hstate⟩
    obtain ⟨q, hq, hitem⟩ := List.mem_filterMap.mp hp
    rw [Option.map_eq_some_iff] at hitem
    obtain ⟨t, ht, rfl⟩ := hitem
    exact ⟨(q.1, t, (keyParts q.1).map KeyParts.state),
      List.mem_filterMap.mpr ⟨q, hq, by rw [earlierItem, ht]; rfl⟩, hstate⟩

omit [LinearOrder τ] in
theorem find_sameArgs (new : KeyParts) (items : List (Str × Value τ)) :
    (items.map (·.1)).find? (sameUnderOther new) =
      ((items.filterMap (argsItem (new.dynamic, new.arguments))).find? fun p => p.2 ≠ new.state).map (·.1) := by
  induction items with
  | nil => rfl
  | cons p items ih =>
      rw [List.map_cons, List.find?_cons, List.filterMap_cons, sameUnderOther, argsItem]
      cases hparts : keyParts p.1 with
      | none => exact ih
      | some old =>
          dsimp only
          by_cases hda : (old.dynamic, old.arguments) = (new.dynamic, new.arguments)
          · obtain ⟨hd, ha⟩ := Prod.mk.inj hda
            rw [if_pos hda]
            dsimp only
            rw [List.find?_cons]
            by_cases hstate : old.state = new.state
            · rw [decide_eq_false (by simp [hstate]), decide_eq_false (by simp [hstate])]
              exact ih
            · rw [decide_eq_true ⟨hd, ha, hstate⟩, decide_eq_true hstate]
              rfl
          · rw [if_neg hda]
            dsimp only
            rw [decide_eq_false fun h => hda (by rw [h.1, h.2.1])]
            exact ih

theorem View.Rep.same (h : v.Rep started e) (new : KeyParts) :
    (v.sameIn new .ramOnly).or (v.sameIn new .keys) =
      ((e .keys ++ e .ramOnly).map (·.1)).reverse.find? (sameUnderOther new) := by
  rw [View.sameIn, View.sameIn, h.byArgs, h.byArgs, ← List.filterMap_reverse, ← List.filterMap_reverse, ← find_sameArgs,
    ← find_sameArgs, ← List.map_reverse, List.reverse_append, List.map_append, List.find?_append]

theorem View.Rep.lastOther (h : v.Rep started e) (cacheKey : Str) :
    ((v.entries .keys).reverse.find? (·.1 ≠ cacheKey)).map (·.1) =
      ((e .keys).filter (·.1 ≠ cacheKey)).getLast?.map (·.1) := by
  rw [h.entries, ← List.head?_reverse, ← List.filter_reverse, List.head?_filter]

/-- A view that stands for a record answers as `facts_from_doc` does. -/
theorem View.Rep.facts (h : v.Rep started e) (hgood : e.Good) (doc : Doc τ) (hdoc : doc.entries = e) (cacheKey : Str) :
    v.facts cacheKey = factsFromDoc started doc cacheKey := by
  subst hdoc
  unfold View.facts factsFromDoc
  rw [h.lastOther cacheKey]
  cases keyParts cacheKey with
  | none =>
      dsimp only
      rw [h.entries]
  | some new =>
      dsimp only
      rw [h.same new, h.earlierStateSet hgood, h.earlierTimes hgood, h.entries]

end

/-! ## Changes laid over a record -/

section

variable {e : Entries τ} {c : Changes τ} {kind : Kind} {key : Str} {value : Value τ}

/-- The keys noted under either kind. -/
def Changes.noted (c : Changes τ) : List Str := Items.keys (c.entries .keys ++ c.entries .ramOnly)

/-! ### The closed form -/

theorem pop_append_filter (items : List (Str × Value τ)) (keys : List Str) (k : Str) :
    (Items.pop items k).filter (fun p => p.1 ∉ keys) = items.filter fun p => p.1 ∉ k :: keys := by
  rw [Items.pop, List.filter_filter]
  congr 1
  funext p
  simp only [List.mem_cons, not_or, ne_eq, Bool.decide_and]
  exact Bool.and_comm _ _

theorem putAll_eq (notes : List (Kind × Str × Value τ)) (h : (notes.map (·.2.1)).Nodup) (e : Entries τ) (k : Kind) :
    e.putAll notes k = (e k).filter (fun p => p.1 ∉ notes.map (·.2.1)) ++ (notes.filter (·.1 = k)).map (·.2) := by
  induction notes generalizing e with
  | nil => simp [Entries.putAll]
  | cons n notes ih =>
      obtain ⟨kind, key, value⟩ := n
      rw [List.map_cons, List.nodup_cons] at h
      have hstep : e.putAll ((kind, key, value) :: notes) = (e.put kind key value).putAll notes := rfl
      rw [hstep, ih h.2, List.map_cons, Entries.put]
      by_cases hk : k = kind
      · subst hk
        have hkept : [(key, value)].filter (fun p => p.1 ∉ notes.map (·.2.1)) = [(key, value)] :=
          List.filter_cons_of_pos (decide_eq_true h.1)
        rw [if_pos rfl, Items.putLast, List.filter_append, pop_append_filter, hkept, List.filter_cons_of_pos (by simp),
          List.append_assoc]
        rfl
      · rw [if_neg hk, pop_append_filter, List.filter_cons_of_neg (by simpa using Ne.symm hk)]

theorem notes_keys (c : Changes τ) : c.notes.map (·.2.1) = c.noted := by
  simp [Changes.notes, Changes.noted, Items.keys, Function.comp_def]

theorem notes_of (c : Changes τ) (k : Kind) : (c.notes.filter (·.1 = k)).map (·.2) = c.entries k := by
  have hsame : ∀ (kind : Kind) (items : List (Str × Value τ)),
      ((items.map fun p => (kind, p)).filter (·.1 = kind)).map (·.2) = items := by
    intro kind items
    rw [List.filter_map, List.map_map, List.filter_eq_self.mpr (by simp)]
    exact List.map_id items
  have hother : ∀ (kind kind' : Kind) (items : List (Str × Value τ)), kind ≠ kind' →
      ((items.map fun p => (kind, p)).filter (·.1 = kind')).map (·.2) = [] := by
    intro kind kind' items hne
    rw [List.filter_map, List.filter_eq_nil_iff.mpr (by simpa using fun _ _ _ => hne)]
    rfl
  rw [Changes.notes, List.filter_append, List.map_append]
  cases k with
  | keys => rw [hsame, hother _ _ _ (by decide), List.append_nil]
  | ramOnly => rw [hsame, hother _ _ _ (by decide), List.nil_append]

/-- What is noted stands last, and nowhere else. -/
theorem overlay_eq (h : c.entries.Good) (e : Entries τ) (k : Kind) :
    e.putAll c.notes k = (e k).filter (fun p => p.1 ∉ c.noted) ++ c.entries k := by
  rw [putAll_eq _ (by rw [notes_keys]; exact h), notes_keys, notes_of]

theorem mem_noted : key ∈ c.noted ↔ ∃ kind, key ∈ Items.keys (c.entries kind) := by
  rw [Changes.noted, Items.keys, List.map_append, List.mem_append]
  constructor
  · rintro (h | h)
    · exact ⟨.keys, h⟩
    · exact ⟨.ramOnly, h⟩
  · rintro ⟨kind, h⟩
    cases kind with
    | keys => exact .inl h
    | ramOnly => exact .inr h

/-! ### A further note -/

theorem mem_noted_put (key' : Str) (c' : Changes τ) (hc' : c'.entries = c.entries.put kind key value) :
    key' ∈ c'.noted ↔ key' = key ∨ key' ∈ c.noted := by
  rw [mem_noted, mem_noted, hc']
  constructor
  · rintro ⟨k, hk⟩
    rw [Entries.put] at hk
    split at hk
    · rw [Items.putLast, Items.keys, List.map_append, List.mem_append] at hk
      rcases hk with hk | hk
      · exact .inr ⟨k, (Items.mem_keys_pop.mp hk).1⟩
      · exact .inl (List.mem_singleton.mp hk)
    · exact .inr ⟨k, (Items.mem_keys_pop.mp hk).1⟩
  · intro h
    by_cases heq : key' = key
    · refine ⟨kind, ?_⟩
      rw [Entries.put, if_pos rfl, Items.putLast, Items.keys, List.map_append]
      exact List.mem_append_right _ (by rw [heq]; exact List.mem_cons_self)
    · obtain ⟨k, hk⟩ := h.resolve_left heq
      refine ⟨k, ?_⟩
      have hpop := Items.mem_keys_pop.mpr ⟨hk, heq⟩
      rw [Entries.put]
      split
      · rw [Items.putLast, Items.keys, List.map_append]
        exact List.mem_append_left _ hpop
      · exact hpop

/-- A note put among the changes is the note put over the record with them. -/
theorem overlay_put (h : c.entries.Good) (e : Entries τ) (c' : Changes τ) (hc' : c'.entries = c.entries.put kind key value) :
    e.putAll c'.notes = (e.putAll c.notes).put kind key value := by
  have hgood' : c'.entries.Good := hc' ▸ h.put kind key value
  have hrest : ∀ items : List (Str × Value τ), items.filter (fun p => p.1 ∉ c'.noted) =
      Items.pop (items.filter fun p => p.1 ∉ c.noted) key := by
    intro items
    rw [Items.pop, List.filter_filter]
    congr 1
    funext p
    rw [← Bool.decide_and]
    simp only [mem_noted_put p.1 c' hc', not_or, ne_eq]
  funext k
  rw [overlay_eq hgood', hrest, Entries.put, overlay_eq h, hc', Entries.put]
  split
  · rw [Items.putLast, Items.putLast, Items.pop_append, List.append_assoc]
  · rw [Items.pop_append]

/-! ### A write that was remembered -/

/-- What a write saves has its changes already. -/
theorem overlay_saved (h : c.entries.Good) (hlen : ∀ kind, (c.entries kind).length ≤ keysMax) (doc : Doc τ) (k : Kind) :
    (Record.trimmed c doc).entries.putAll c.notes k = (Record.trimmed c doc).entries k := by
  have htrim : (Record.trimmed c doc).entries k = Items.trim (doc.entries.putAll c.notes k) keysMax := rfl
  have hsaved : ∀ n, (((doc.entries k).filter fun p => p.1 ∉ c.noted).drop n).filter (fun p => p.1 ∉ c.noted) =
      ((doc.entries k).filter fun p => p.1 ∉ c.noted).drop n :=
    fun n => List.filter_eq_self.mpr fun p hp => (List.mem_filter.mp (List.mem_of_mem_drop hp)).2
  have hnone : (c.entries k).filter (fun p => p.1 ∉ c.noted) = [] := by
    rw [List.filter_eq_nil_iff]
    intro p hp
    rw [decide_eq_true_eq, not_not]
    exact mem_noted.mpr ⟨k, Items.mem_keys.mpr ⟨p.2, hp⟩⟩
  rw [overlay_eq h, htrim, overlay_eq h, Items.trim_append (hlen k), List.filter_append, hsaved, hnone, List.append_nil]

theorem trimmed_good (doc : Doc τ) (h : doc.entries.Good) : (Record.trimmed c doc).entries.Good := by
  have hgood : (doc.entries.putAll c.notes).Good := h.putAll _
  obtain ⟨hnodup, hdisjoint⟩ := Entries.good_iff.mp hgood
  have hmem : ∀ kind key, key ∈ Items.keys ((Record.trimmed c doc).entries kind) →
      key ∈ Items.keys (doc.entries.putAll c.notes kind) := by
    intro kind key hkey
    obtain ⟨v, hv⟩ := Items.mem_keys.mp hkey
    exact Items.mem_keys.mpr ⟨v, Items.mem_trim hv⟩
  exact Entries.good_iff.mpr ⟨fun kind => Items.nodup_trim (hnodup kind),
    fun key hk hk' => hdisjoint key (hmem _ _ hk) (hmem _ _ hk')⟩

/-! ### Several changes -/

/-- The entries with all the changes over them, the first the lowest. -/
def Entries.overlay (e : Entries τ) (cs : List (Changes τ)) : Entries τ := cs.foldl (fun e c => e.putAll c.notes) e

theorem Entries.overlay_append (e : Entries τ) (cs cs' : List (Changes τ)) : e.overlay (cs ++ cs') = (e.overlay cs).overlay cs' :=
  List.foldl_append

theorem Entries.Good.overlay (h : e.Good) (cs : List (Changes τ)) : (e.overlay cs).Good := by
  induction cs generalizing e with
  | nil => exact h
  | cons c cs ih => exact ih (h.putAll c.notes)

/-- Changes that a record has already change nothing. -/
theorem Entries.overlay_of_saved {cs : List (Changes τ)} (h : ∀ c ∈ cs, e.putAll c.notes = e) : e.overlay cs = e := by
  induction cs with
  | nil => rfl
  | cons c cs ih =>
      have hrest := ih fun c' hc' => h c' (List.mem_cons_of_mem _ hc')
      rw [Entries.overlay, List.foldl_cons, h c List.mem_cons_self]
      exact hrest

theorem apply_entries (cs : List (Changes τ)) (doc : Doc τ) :
    (cs.foldl (fun doc c => c.apply doc) doc).entries = doc.entries.overlay cs := by
  induction cs generalizing doc with
  | nil => rfl
  | cons c cs ih => exact ih (c.apply doc)

end

end Cash.StoredKeys
