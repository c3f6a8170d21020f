import Cash.Slots.Index

/-!
# The log says what the index holds
-/

namespace Cash.Slots

open Py

variable {F : Type} {num : Numbers F} {i j : Index F} {slot key : Str} {v : Version F}

/-! ## What a version noted or popped leaves -/

theorem lookup_pop {W : Type} (items : List (Str × W)) (k k' : Str) :
    (Items.pop items k).lookup k' = if k' = k then none else items.lookup k' := by
  induction items with
  | nil =>
      split
      · rfl
      · rfl
  | cons p items ih =>
      rw [Items.pop, List.filter_cons]
      by_cases hp : p.1 = k
      · rw [if_neg (by simp [hp])]
        refine ih.trans ?_
        split
        · rfl
        · next hk => rw [List.lookup_cons, beq_false_of_ne fun h => hk (h.trans hp)]
      · rw [if_pos (by simp [hp]), List.lookup_cons, List.lookup_cons]
        by_cases hk : k' = p.1
        · rw [hk, beq_self_eq_true, if_neg hp]
        · rw [beq_false_of_ne hk]
          exact ih

theorem lookup_popIn (slots : List (Str × List (Str × Version F))) (slot key s : Str) :
    (Index.popIn slots slot key).lookup s =
      if s = slot then (slots.lookup s).map (Items.pop · key) else slots.lookup s := by
  induction slots with
  | nil =>
      split
      · rfl
      · rfl
  | cons p slots ih =>
      rw [Index.popIn, List.map_cons, List.lookup_cons, List.lookup_cons]
      by_cases hp : p.1 = slot
      · rw [if_pos hp]
        by_cases hs : s = p.1
        · rw [hs, beq_self_eq_true, if_pos hp]
          rfl
        · rw [beq_false_of_ne hs]
          exact ih
      · rw [if_neg hp]
        by_cases hs : s = p.1
        · rw [hs, beq_self_eq_true, if_neg hp]
        · rw [beq_false_of_ne hs]
          exact ih

theorem keys_popIn (slots : List (Str × List (Str × Version F))) (slot key : Str) :
    Items.keys (Index.popIn slots slot key) = Items.keys slots := by
  rw [Items.keys, Index.popIn, List.map_map, Items.keys]
  apply List.map_congr_left
  intro p _
  by_cases hp : p.1 = slot
  · simp [hp]
  · simp [hp]

theorem getD_map_pop (versions : Option (List (Str × Version F))) (key : Str) :
    (versions.map (Items.pop · key)).getD [] = Items.pop (versions.getD []) key := by
  cases versions with
  | none => rfl
  | some _ => rfl

theorem versions_place (i : Index F) (slot : Str) (v : Version F) (s : Str) :
    (i.place slot v).versions s =
      if s = slot then Dict.setItem (i.versions slot) v.key v
      else if i.slotOf.lookup v.key = some s then Items.pop (i.versions s) v.key else i.versions s := by
  unfold Index.place Index.versions
  dsimp only
  rw [Items.lookup_setItem]
  cases hold : i.slotOf.lookup v.key with
  | none =>
      dsimp only
      by_cases hs : s = slot
      · rw [if_pos hs, if_pos hs, Option.getD_some]
      · rw [if_neg hs, if_neg hs, if_neg (by simp)]
  | some old =>
      dsimp only
      by_cases hne : old = slot
      · rw [if_neg (not_not.mpr hne)]
        by_cases hs : s = slot
        · rw [if_pos hs, if_pos hs, Option.getD_some]
        · rw [if_neg hs, if_neg hs, if_neg]
          intro h
          exact hs ((Option.some_inj.mp h).symm.trans hne)
      · rw [if_pos hne, lookup_popIn, lookup_popIn, if_neg (Ne.symm hne)]
        by_cases hs : s = slot
        · rw [if_pos hs, if_pos hs, Option.getD_some]
        · rw [if_neg hs, if_neg hs]
          by_cases hso : s = old
          · rw [if_pos hso, if_pos (by rw [hso]), getD_map_pop]
          · rw [if_neg hso, if_neg fun h => hso (Option.some_inj.mp h).symm]

theorem slotOf_place (i : Index F) (slot : Str) (v : Version F) (k : Str) :
    (i.place slot v).slotOf.lookup k = if k = v.key then some slot else i.slotOf.lookup k := Items.lookup_setItem ..

theorem versions_unplace (i : Index F) (key s : Str) :
    (i.unplace key).versions s = if i.slotOf.lookup key = some s then Items.pop (i.versions s) key else i.versions s := by
  unfold Index.unplace
  cases hslot : i.slotOf.lookup key with
  | none => rw [if_neg (by simp)]
  | some slot =>
      unfold Index.versions
      dsimp only
      rw [lookup_popIn]
      by_cases hs : s = slot
      · rw [if_pos hs, if_pos (by rw [hs]), getD_map_pop]
      · rw [if_neg hs, if_neg fun h => hs (Option.some_inj.mp h).symm]

theorem slotOf_unplace (i : Index F) (key k : Str) :
    (i.unplace key).slotOf.lookup k = if k = key then none else i.slotOf.lookup k := by
  unfold Index.unplace
  split
  · next hnone =>
    split
    · next hk => rw [hk, hnone]
    · rfl
  · exact lookup_pop ..

/-! ## The same versions -/

theorem Index.Same.refl (i : Index F) : i.Same i := ⟨fun _ => rfl, fun _ => rfl⟩

theorem Index.Same.trans {k : Index F} (h : i.Same j) (h' : j.Same k) : i.Same k :=
  ⟨fun s => (h.versions s).trans (h'.versions s), fun key => (h.slotOf key).trans (h'.slotOf key)⟩

theorem Index.Same.place (h : i.Same j) (slot : Str) (v : Version F) : (i.place slot v).Same (j.place slot v) where
  versions s := by rw [versions_place, versions_place, h.versions, h.versions, h.slotOf]
  slotOf k := by rw [slotOf_place, slotOf_place, h.slotOf]

theorem Index.Same.unplace (h : i.Same j) (key : Str) : (i.unplace key).Same (j.unplace key) where
  versions s := by rw [versions_unplace, versions_unplace, h.versions, h.slotOf]
  slotOf k := by rw [slotOf_unplace, slotOf_unplace, h.slotOf]

/-! ## What holds of an index -/

structure Index.Good (i : Index F) : Prop where
  keyed : ∀ slot, ∀ p ∈ i.versions slot, p.2.key = p.1 ∧ i.slotOf.lookup p.1 = some slot
  located : ∀ key slot, i.slotOf.lookup key = some slot → key ∈ Items.keys (i.versions slot)
  nodup : ∀ slot, (Items.keys (i.versions slot)).Nodup
  slots : (Items.keys i.slots).Nodup
  token : ∀ key slot, i.slotOf.lookup key = some slot → Words.Token isSpace key ∧ Words.Token isSpace slot

theorem good_empty : (Index.empty : Index F).Good where
  keyed _ _ h := by cases h
  located _ _ h := by cases h
  nodup _ := List.nodup_nil
  slots := List.nodup_nil
  token _ _ h := by cases h

theorem Index.Good.place (h : i.Good) (hslot : Words.Token isSpace slot) (hkey : Words.Token isSpace v.key) :
    (i.place slot v).Good where
  keyed s p hp := by
    rw [versions_place] at hp
    rw [slotOf_place]
    split at hp
    · next hs =>
      rcases Dict.mem_setItem hp with rfl | hp
      · exact ⟨rfl, by rw [if_pos rfl, hs]⟩
      · obtain ⟨hpk, hlook⟩ := h.keyed slot p hp
        refine ⟨hpk, ?_⟩
        split
        · rw [hs]
        · rw [hlook, hs]
    · split at hp
      · rw [Items.mem_pop] at hp
        rw [if_neg hp.2]
        exact h.keyed s p hp.1
      · next hne =>
        obtain ⟨hpk, hlook⟩ := h.keyed s p hp
        refine ⟨hpk, ?_⟩
        rw [if_neg, hlook]
        rintro heq
        exact hne (heq ▸ hlook)
  located key s hk := by
    rw [slotOf_place] at hk
    rw [versions_place]
    split at hk
    · next heq =>
      rw [if_pos (Option.some_inj.mp hk).symm, heq]
      exact Dict.mem_keys_setItem.mpr (.inl rfl)
    · next hne =>
      have hmem := h.located key s hk
      split
      · next hs => exact Dict.mem_keys_setItem.mpr (.inr (hs ▸ hmem))
      · split
        · exact Items.mem_keys_pop.mpr ⟨hmem, hne⟩
        · exact hmem
  nodup s := by
    rw [versions_place]
    split
    · exact Items.nodup_setItem (h.nodup slot) _ _
    · split
      · exact Items.nodup_pop (h.nodup s)
      · exact h.nodup s
  slots := by
    unfold Index.place
    apply Items.nodup_setItem
    split
    · split
      · rw [keys_popIn]
        exact h.slots
      · exact h.slots
    · exact h.slots
  token key s hk := by
    rw [slotOf_place] at hk
    split at hk
    · next heq =>
      rw [heq, ← Option.some_inj.mp hk]
      exact ⟨hkey, hslot⟩
    · exact h.token key s hk

theorem Index.Good.unplace (h : i.Good) (key : Str) : (i.unplace key).Good where
  keyed s p hp := by
    rw [versions_unplace] at hp
    rw [slotOf_unplace]
    split at hp
    · rw [Items.mem_pop] at hp
      rw [if_neg hp.2]
      exact h.keyed s p hp.1
    · next hne =>
      obtain ⟨hpk, hlook⟩ := h.keyed s p hp
      rw [if_neg, hlook]
      · exact ⟨hpk, rfl⟩
      · intro heq
        exact hne (heq ▸ hlook)
  located k s hk := by
    rw [slotOf_unplace] at hk
    split at hk
    · cases hk
    · next hne =>
      rw [versions_unplace]
      split
      · exact Items.mem_keys_pop.mpr ⟨h.located k s hk, hne⟩
      · exact h.located k s hk
  nodup s := by
    rw [versions_unplace]
    split
    · exact Items.nodup_pop (h.nodup s)
    · exact h.nodup s
  slots := by
    unfold Index.unplace
    split
    · exact h.slots
    · rw [keys_popIn]
      exact h.slots
  token k s hk := by
    rw [slotOf_unplace] at hk
    split at hk
    · cases hk
    · exact h.token k s hk

theorem Index.Good.of_lines (h : i.Good) (n : Nat) : { i with lines := n }.Good := ⟨h.keyed, h.located, h.nodup, h.slots, h.token⟩

/-! ## Lines read back -/

theorem valid_iff {t : Str} : valid t = true ↔ Words.Token isSpace t ∧ ascii t = true := by
  simp only [valid, Bool.and_eq_true, Bool.not_eq_true', List.any_eq_false, Bool.not_eq_true, List.isEmpty_eq_false_iff]
  constructor
  · rintro ⟨⟨hnil, hascii⟩, hspace⟩
    exact ⟨⟨hnil, hspace⟩, hascii⟩
  · rintro ⟨htoken, hascii⟩
    exact ⟨⟨htoken.ne_nil, hascii⟩, htoken.notSep⟩

theorem valid_removed : valid removed = true := by decide

theorem ascii_append {s t : Str} : ascii (s ++ t) = true ↔ ascii s = true ∧ ascii t = true := by
  rw [ascii, List.all_append, Bool.and_eq_true, ascii, ascii]

theorem ascii_flatten {lines : List Str} : ascii lines.flatten = true ↔ ∀ line ∈ lines, ascii line = true := by
  rw [ascii, List.all_flatten, List.all_eq_true]
  rfl

theorem decode_of_ascii {s : Str} (h : ascii s = true) : decode s = s := by
  rw [ascii, List.all_eq_true] at h
  refine (List.map_congr_left fun c hc => ?_).trans (List.map_id s)
  exact if_pos (of_decide_eq_true (h c hc))

theorem words_join {ts : List Str} (h : ∀ t ∈ ts, Words.Token isSpace t) : words (Words.join 32 10 ts) = ts :=
  Words.split_join rfl rfl h

/-- A line of words, as it is written. -/
structure Line (line : Str) : Prop where
  ascii : ascii line = true
  ended : ∃ s, line = s ++ [10] ∧ s ≠ [] ∧ ∀ c ∈ s, c ≠ 10 ∧ c ≠ 13

theorem line_join {ts : List Str} (hts : ts ≠ []) (h : ∀ t ∈ ts, Words.Token isSpace t)
    (hascii : ascii (Words.join 32 10 ts) = true) : Line (Words.join 32 10 ts) := by
  obtain ⟨s, hs, hin⟩ := Words.join_eq 32 10 ts
  refine ⟨hascii, s, hs, ?_, fun c hc => ?_⟩
  · rintro rfl
    apply hts
    rw [← words_join h, hs]
    rfl
  · rcases hin c hc with rfl | ⟨t, ht, hct⟩
    · decide
    · have hspace := (h t ht).notSep c hct
      constructor
      · rintro rfl
        cases hspace
      · rintro rfl
        cases hspace

theorem token_version (hslot : Words.Token isSpace slot) (hkey : Words.Token isSpace v.key) :
    ∀ t ∈ [slot, v.key, num.intText v.size, num.repr v.cost, num.repr v.used], Words.Token isSpace t := by
  intro t ht
  simp only [List.mem_cons, List.not_mem_nil, or_false] at ht
  rcases ht with rfl | rfl | rfl | rfl | rfl
  · exact hslot
  · exact hkey
  · exact (valid_iff.mp (num.valid_intText _)).1
  · exact (valid_iff.mp (num.valid_repr _)).1
  · exact (valid_iff.mp (num.valid_repr _)).1

theorem take_versionLine (i : Index F) (hslot : Words.Token isSpace slot) (hkey : Words.Token isSpace v.key) :
    i.take num (words (versionLine num slot v)) = i.place slot v := by
  rw [versionLine, words_join (token_version hslot hkey), Index.take, num.int_intText, num.float_repr, num.float_repr]

theorem token_removed (hkey : valid key = true) : ∀ t ∈ [removed, key], Words.Token isSpace t := by
  intro t ht
  simp only [List.mem_cons, List.not_mem_nil, or_false] at ht
  rcases ht with rfl | rfl
  · exact (valid_iff.mp valid_removed).1
  · exact (valid_iff.mp hkey).1

theorem take_removedLine (i : Index F) (hkey : valid key = true) :
    i.take num (words (removedLine key)) = i.unplace key := by
  rw [removedLine, words_join (token_removed hkey), Index.take, if_pos rfl]

theorem ascii_join {ts : List Str} (h : ∀ t ∈ ts, ascii t = true) : ascii (Words.join 32 10 ts) = true := by
  obtain ⟨s, hs, hin⟩ := Words.join_eq 32 10 ts
  rw [hs, ascii_append, ascii, List.all_eq_true]
  refine ⟨fun c hc => ?_, rfl⟩
  rcases hin c hc with rfl | ⟨t, ht, hct⟩
  · rfl
  · have hascii := h t ht
    rw [ascii, List.all_eq_true] at hascii
    exact hascii c hct

theorem line_versionLine (hslot : Words.Token isSpace slot) (hkey : Words.Token isSpace v.key)
    (hascii : ascii (versionLine num slot v) = true) : Line (versionLine num slot v) :=
  line_join (List.cons_ne_nil _ _) (token_version hslot hkey) hascii

theorem ascii_versionLine (hslot : ascii slot = true) (hkey : ascii v.key = true) : ascii (versionLine num slot v) = true := by
  apply ascii_join
  intro t ht
  simp only [List.mem_cons, List.not_mem_nil, or_false] at ht
  rcases ht with rfl | rfl | rfl | rfl | rfl
  · exact hslot
  · exact hkey
  · exact (valid_iff.mp (num.valid_intText _)).2
  · exact (valid_iff.mp (num.valid_repr _)).2
  · exact (valid_iff.mp (num.valid_repr _)).2

theorem line_removedLine (hkey : valid key = true) : Line (removedLine key) := by
  apply line_join (List.cons_ne_nil _ _) (token_removed hkey)
  apply ascii_join
  intro t ht
  simp only [List.mem_cons, List.not_mem_nil, or_false] at ht
  rcases ht with rfl | rfl
  · exact (valid_iff.mp valid_removed).2
  · exact (valid_iff.mp hkey).2

theorem Index.Same.left_lines (h : i.Same j) (n : Nat) : { i with lines := n }.Same j := ⟨h.versions, h.slotOf⟩

theorem Index.Same.right_lines (h : i.Same j) (n : Nat) : i.Same { j with lines := n } := ⟨h.versions, h.slotOf⟩

theorem Index.Good.of_same (h : i.Good) (hsame : i.Same j) (hslots : (Items.keys j.slots).Nodup) : j.Good where
  keyed s p hp := by
    rw [← hsame.versions] at hp
    rw [← hsame.slotOf]
    exact h.keyed s p hp
  located k s hk := by
    rw [← hsame.slotOf] at hk
    rw [← hsame.versions]
    exact h.located k s hk
  nodup s := hsame.versions s ▸ h.nodup s
  slots := hslots
  token k s hk := h.token k s ((hsame.slotOf k).trans hk)

theorem Index.Good.take (h : i.Good) {ts : List Str} (hts : ∀ t ∈ ts, Words.Token isSpace t) : (i.take num ts).Good := by
  unfold Index.take
  split
  · split
    · exact h.unplace _
    · exact h
  · split
    · exact h.place (hts _ (by simp)) (hts _ (by simp))
    · exact h
  · exact h

theorem good_foldl_loadLine (lines : List Str) (h : i.Good) : (lines.foldl (Index.loadLine num) i).Good := by
  induction lines generalizing i with
  | nil => exact h
  | cons line lines ih => exact ih ((h.take fun t ht => (Words.token_of_mem_split ht).1).of_lines _)

/-! ## Lines appended -/

theorem ended_nil : Ended [] := fun c hc => by cases hc

theorem ended_append {file : Str} {lines : List Str} (h : Ended file) (hlines : ∀ line ∈ lines, Line line) :
    Ended (file ++ lines.flatten) := by
  rcases List.eq_nil_or_concat' lines with rfl | ⟨front, line, rfl⟩
  · rw [List.flatten_nil, List.append_nil]
    exact h
  · obtain ⟨s, rfl, -⟩ := (hlines line (by simp)).ended
    intro c hc
    rw [List.flatten_append, List.flatten_singleton, ← List.append_assoc, ← List.append_assoc, List.getLast?_concat] at hc
    exact .inr (Option.some_inj.mp hc).symm

theorem lines_flatten {lines : List Str} (hlines : ∀ line ∈ lines, Line line) : Words.lines 10 lines.flatten = lines := by
  induction lines with
  | nil => rfl
  | cons line lines ih =>
      obtain ⟨s, rfl, -, hs⟩ := (hlines line List.mem_cons_self).ended
      rw [List.flatten_cons, List.append_assoc, List.singleton_append, Words.lines_line fun h => (hs 10 h).1 rfl,
        ih fun l hl => hlines l (List.mem_cons_of_mem _ hl)]

/-- Lines appended to a file that ends its last line are read after it. -/
theorem fileLines_append {file : Str} {lines : List Str} (h : Ended file) (hlines : ∀ line ∈ lines, Line line) :
    fileLines (file ++ lines.flatten) = fileLines file ++ lines := by
  have hascii : ascii lines.flatten = true := ascii_flatten.mpr fun line hline => (hlines line hline).ascii
  have hmem : ∀ c ∈ lines.flatten, c ≠ 13 := by
    intro c hc
    obtain ⟨line, hline, hc⟩ := List.mem_flatten.mp hc
    obtain ⟨s, rfl, -, hs⟩ := (hlines line hline).ended
    rcases List.mem_append.mp hc with hc | hc
    · exact (hs c hc).2
    · rw [List.mem_singleton.mp hc]
      decide
  have hhead : ∀ c ∈ lines.flatten.head?, c ≠ 10 := by
    cases lines with
    | nil => exact fun c hc => by cases hc
    | cons line lines =>
        obtain ⟨s, rfl, hne, hs⟩ := (hlines line List.mem_cons_self).ended
        obtain ⟨d, s', rfl⟩ := List.exists_cons_of_ne_nil hne
        intro c hc
        exact Option.some_inj.mp hc ▸ (hs d List.mem_cons_self).1
  have hended : Words.Ended 13 10 (decode file) := by
    intro c hc
    rw [decode, List.getLast?_map, Option.mem_def, Option.map_eq_some_iff] at hc
    obtain ⟨d, hd, rfl⟩ := hc
    rcases h d hd with rfl | rfl
    · exact .inl rfl
    · exact .inr rfl
  have hdecode : decode (file ++ lines.flatten) = decode file ++ lines.flatten := by
    rw [decode, List.map_append, ← decode, ← decode, decode_of_ascii hascii]
  rw [fileLines, hdecode, Words.lines_newlines_append hended (fun h => hmem 13 h rfl) hhead, lines_flatten hlines, fileLines]

theorem load_append {file : Str} {lines : List Str} (h : Ended file) (hlines : ∀ line ∈ lines, Line line) :
    load num (file ++ lines.flatten) = lines.foldl (Index.loadLine num) (load num file) := by
  rw [load, fileLines_append h hlines, List.foldl_append, load]

theorem load_versionLine {file : Str} (hfile : Ended file) (h : (load num file).Same i) (hslot : Words.Token isSpace slot)
    (hkey : Words.Token isSpace v.key) (hascii : ascii (versionLine num slot v) = true) :
    (load num (file ++ [versionLine num slot v].flatten)).Same (i.place slot v) := by
  rw [load_append hfile fun line hline => List.mem_singleton.mp hline ▸ line_versionLine hslot hkey hascii, List.foldl_cons,
    List.foldl_nil, Index.loadLine, take_versionLine _ hslot hkey]
  exact (h.place slot v).left_lines _

/-- A version changed in its own slot is the version noted there again. -/
theorem same_setItem (hkey : i.slotOf.lookup v.key = some slot) :
    (i.place slot v).Same { i with slots := Dict.setItem i.slots slot (Dict.setItem (i.versions slot) v.key v) } where
  versions s := by
    rw [versions_place]
    unfold Index.versions
    dsimp only
    rw [Items.lookup_setItem]
    by_cases hs : s = slot
    · rw [if_pos hs, if_pos hs, Option.getD_some]
    · rw [if_neg hs, if_neg hs, hkey, if_neg fun heq => hs (Option.some_inj.mp heq).symm]
  slotOf k := by
    rw [slotOf_place]
    split
    · next hk => rw [hk, hkey]
    · rfl

theorem forgetKeys_spec (keys : List Str) (i j : Index F) (hi : i.Good) (h : j.Same i)
    (hkeys : ∀ key ∈ keys, (i.slotOf.lookup key).isSome = true → valid key = true) :
    (forgetKeys i keys).1.Good ∧ ((forgetKeys i keys).2.foldl (Index.loadLine num) j).Same (forgetKeys i keys).1 := by
  induction keys generalizing i j with
  | nil => exact ⟨hi, h⟩
  | cons key keys ih =>
      rw [forgetKeys]
      cases hslot : i.slotOf.lookup key with
      | none => exact ih i j hi h fun k hk => hkeys k (List.mem_cons_of_mem _ hk)
      | some slot =>
          have hvalid : valid key = true := hkeys key List.mem_cons_self (by rw [hslot]; rfl)
          dsimp only
          rw [if_pos hvalid, List.foldl_cons, Index.loadLine, take_removedLine j hvalid]
          refine ih _ _ (hi.unplace key) ((h.unplace key).left_lines _) fun k hk hnoted => ?_
          rw [slotOf_unplace] at hnoted
          split at hnoted
          · cases hnoted
          · exact hkeys k (List.mem_cons_of_mem _ hk) hnoted

/-- What is forgotten is noted no more, and nothing else is noted. -/
theorem noted_forgetKeys {i : Index F} {keys : List Str} {key : Str}
    (h : ((forgetKeys i keys).1.slotOf.lookup key).isSome = true) : (i.slotOf.lookup key).isSome = true := by
  induction keys generalizing i with
  | nil => exact h
  | cons k keys ih =>
      rw [forgetKeys] at h
      split at h
      · exact ih h
      · have hnoted := ih h
        rw [slotOf_unplace] at hnoted
        split at hnoted
        · cases hnoted
        · exact hnoted

theorem line_forgetKeys {i : Index F} {keys : List Str} : ∀ line ∈ (forgetKeys i keys).2, Line line := by
  induction keys generalizing i with
  | nil => exact fun line h => by cases h
  | cons key keys ih =>
      rw [forgetKeys]
      split
      · exact ih
      · dsimp only
        split
        · next hvalid =>
          intro line hline
          rcases List.mem_cons.mp hline with rfl | hline
          · exact line_removedLine hvalid
          · exact ih line hline
        · exact ih

/-! ## Compaction -/

/-- Versions noted one after the other. -/
def placeAll (items : List (Str × Version F)) (i : Index F) : Index F := items.foldl (fun i p => i.place p.1 p.2) i

theorem foldl_versionLine (items : List (Str × Version F)) (h : i.Same j)
    (htoken : ∀ p ∈ items, Words.Token isSpace p.1 ∧ Words.Token isSpace p.2.key) :
    ((items.map fun p => versionLine num p.1 p.2).foldl (Index.loadLine num) i).Same (placeAll items j) := by
  induction items generalizing i j with
  | nil => exact h
  | cons p items ih =>
      obtain ⟨hslot, hkey⟩ := htoken p List.mem_cons_self
      rw [List.map_cons, List.foldl_cons, Index.loadLine, take_versionLine i hslot hkey, placeAll, List.foldl_cons]
      exact ih ((h.place p.1 p.2).left_lines _) fun q hq => htoken q (List.mem_cons_of_mem _ hq)

/-- New keys are put last in their slots. -/
theorem placeAll_spec (items : List (Str × Version F)) (i : Index F) (hnodup : (items.map (·.2.key)).Nodup)
    (hnew : ∀ p ∈ items, i.slotOf.lookup p.2.key = none ∧ ∀ s, p.2.key ∉ Items.keys (i.versions s)) :
    (∀ s, (placeAll items i).versions s = i.versions s ++ (items.filter (·.1 = s)).map fun p => (p.2.key, p.2)) ∧
      ∀ key s, (placeAll items i).slotOf.lookup key = some s ↔
        (∃ p ∈ items, p.2.key = key ∧ p.1 = s) ∨ i.slotOf.lookup key = some s := by
  induction items generalizing i with
  | nil =>
      refine ⟨fun s => (List.append_nil _).symm, fun key s => ⟨.inr, ?_⟩⟩
      rintro (⟨p, hp, -⟩ | h)
      · cases hp
      · exact h
  | cons p items ih =>
      rw [List.map_cons, List.nodup_cons] at hnodup
      obtain ⟨hnone, hout⟩ := hnew p List.mem_cons_self
      have hversions : ∀ s, (i.place p.1 p.2).versions s =
          i.versions s ++ if p.1 = s then [(p.2.key, p.2)] else [] := by
        intro s
        rw [versions_place, hnone]
        by_cases hs : s = p.1
        · rw [if_pos hs, if_pos hs.symm, hs, Dict.setItem]
          exact if_neg (hout p.1)
        · rw [if_neg hs, if_neg (Ne.symm hs), if_neg (by simp), List.append_nil]
      have hne : ∀ q ∈ items, q.2.key ≠ p.2.key := fun q hq heq => hnodup.1 (heq ▸ List.mem_map.mpr ⟨q, hq, rfl⟩)
      obtain ⟨hvs, hss⟩ := ih (i.place p.1 p.2) hnodup.2 fun q hq => by
        obtain ⟨hq', hqout⟩ := hnew q (List.mem_cons_of_mem _ hq)
        rw [slotOf_place, if_neg (hne q hq)]
        refine ⟨hq', fun s hmem => ?_⟩
        rw [hversions, Items.keys, List.map_append, List.mem_append] at hmem
        rcases hmem with hmem | hmem
        · exact hqout s hmem
        · split at hmem
          · exact hne q hq (List.mem_singleton.mp hmem)
          · cases hmem
      refine ⟨fun s => ?_, fun key s => ?_⟩
      · rw [placeAll, List.foldl_cons]
        refine (hvs s).trans ?_
        rw [hversions, List.append_assoc, List.filter_cons]
        by_cases hs : p.1 = s
        · rw [if_pos hs, if_pos (decide_eq_true hs)]
          rfl
        · rw [if_neg hs, if_neg (by simpa using hs)]
          rfl
      · rw [placeAll, List.foldl_cons]
        refine (hss key s).trans ?_
        rw [slotOf_place]
        constructor
        · rintro (⟨q, hq, hk, hs⟩ | h)
          · exact .inl ⟨q, List.mem_cons_of_mem _ hq, hk, hs⟩
          · split at h
            · next hk => exact .inl ⟨p, List.mem_cons_self, hk.symm, Option.some_inj.mp h⟩
            · exact .inr h
        · rintro (⟨q, hq, hk, hs⟩ | h)
          · rcases List.mem_cons.mp hq with rfl | hq
            · right
              rw [if_pos hk.symm, hs]
            · exact .inl ⟨q, hq, hk, hs⟩
          · right
            rw [if_neg, h]
            rintro rfl
            rw [hnone] at h
            cases h

/-- The slots and versions, in order. -/
def Index.items (i : Index F) : List (Str × Version F) := i.slots.flatMap fun p => p.2.map fun q => (p.1, q.2)

theorem body_eq (i : Index F) : body num i = i.items.map fun p => versionLine num p.1 p.2 := by
  rw [body, Index.items, List.map_flatMap]
  simp only [List.map_map, Function.comp_def]

theorem Index.Good.versions_of_mem (h : i.Good) {p : Str × List (Str × Version F)} (hp : p ∈ i.slots) : i.versions p.1 = p.2 := by
  rw [Index.versions, Items.lookup_eq_of_mem h.slots hp, Option.getD_some]

theorem filter_items (slots : List (Str × List (Str × Version F))) (h : (Items.keys slots).Nodup) (s : Str) :
    (slots.flatMap fun p => p.2.map fun q => (p.1, q.2)).filter (·.1 = s) =
      ((slots.lookup s).getD []).map fun q => (s, q.2) := by
  induction slots with
  | nil => rfl
  | cons p slots ih =>
      rw [Items.keys, List.map_cons, List.nodup_cons] at h
      rw [List.flatMap_cons, List.filter_append, ih h.2, List.filter_map, List.lookup_cons]
      by_cases hs : p.1 = s
      · have hnone : slots.lookup s = none := by
          rw [List.lookup_eq_none_iff]
          intro q hq
          have hne : s ≠ q.1 := fun heq => h.1 (List.mem_map.mpr ⟨q, hq, (hs.trans heq).symm⟩)
          simpa using hne
        rw [hnone, hs, beq_self_eq_true, List.filter_eq_self.mpr fun q _ => by simp]
        exact List.append_nil _
      · rw [beq_false_of_ne (Ne.symm hs), List.filter_eq_nil_iff.mpr fun q _ => by simp [hs]]
        rfl

/-- An item stands under the slot that its key is noted for. -/
theorem Index.Good.slotOf_of_mem_items (h : i.Good) {p : Str × Version F} (hp : p ∈ i.items) :
    i.slotOf.lookup p.2.key = some p.1 := by
  obtain ⟨r, hr, hp⟩ := List.mem_flatMap.mp hp
  obtain ⟨q, hq, rfl⟩ := List.mem_map.mp hp
  obtain ⟨hkey, hslot⟩ := h.keyed r.1 q (by rw [h.versions_of_mem hr]; exact hq)
  rw [hkey]
  exact hslot

theorem Index.Good.token_of_mem_items (h : i.Good) (p : Str × Version F) (hp : p ∈ i.items) :
    Words.Token isSpace p.1 ∧ Words.Token isSpace p.2.key :=
  (h.token _ _ (h.slotOf_of_mem_items hp)).symm

theorem Index.Good.line_body (h : i.Good) (hascii : ascii (body num i).flatten = true) : ∀ line ∈ body num i, Line line := by
  intro line hline
  have hline' := ascii_flatten.mp hascii line hline
  rw [body_eq] at hline
  obtain ⟨p, hp, rfl⟩ := List.mem_map.mp hline
  obtain ⟨hslot, hkey⟩ := h.token_of_mem_items p hp
  exact line_versionLine hslot hkey hline'

/-- A key that a slot is noted for is that of an item of it. -/
theorem Index.Good.mem_items_of_slotOf (h : i.Good) {key s : Str} (hslot : i.slotOf.lookup key = some s) :
    ∃ p ∈ i.items, p.2.key = key ∧ p.1 = s := by
  obtain ⟨v, hv⟩ := Items.mem_keys.mp (h.located key s hslot)
  have hkey := (h.keyed s _ hv).1
  have hlook : (i.slots.lookup s).isSome := by
    rw [Index.versions] at hv
    cases hs : i.slots.lookup s with
    | none =>
        rw [hs] at hv
        cases hv
    | some _ => rfl
  obtain ⟨versions, hs⟩ := Option.isSome_iff_exists.mp hlook
  rw [Index.versions, hs, Option.getD_some] at hv
  refine ⟨(s, v), List.mem_flatMap.mpr ⟨(s, versions), ?_, List.mem_map.mpr ⟨_, hv, rfl⟩⟩, hkey, rfl⟩
  exact Items.mem_of_lookup hs

theorem Index.Good.nodup_items (h : i.Good) : (i.items.map (·.2.key)).Nodup := by
  rw [Index.items, List.map_flatMap]
  apply List.nodup_flatMap.mpr
  have hkeys : ∀ p ∈ i.slots, (p.2.map fun q => (p.1, q.2)).map (·.2.key) = Items.keys (i.versions p.1) := by
    intro p hp
    rw [h.versions_of_mem hp, List.map_map, Items.keys]
    apply List.map_congr_left
    intro q hq
    exact (h.keyed p.1 q (by rw [h.versions_of_mem hp]; exact hq)).1
  refine ⟨fun p hp => ?_, ?_⟩
  · rw [hkeys p hp]
    exact h.nodup p.1
  · have hslots : i.slots.Pairwise fun p q => p.1 ≠ q.1 := List.pairwise_map.mp h.slots
    refine hslots.imp_of_mem fun {p q} hp hq hne => ?_
    intro k hkp hkq
    change k ∈ (p.2.map fun q => (p.1, q.2)).map (·.2.key) at hkp
    change k ∈ (q.2.map fun r => (q.1, r.2)).map (·.2.key) at hkq
    rw [hkeys p hp] at hkp
    rw [hkeys q hq] at hkq
    obtain ⟨v, hv⟩ := Items.mem_keys.mp hkp
    obtain ⟨w, hw⟩ := Items.mem_keys.mp hkq
    have heq := (h.keyed p.1 _ hv).2.symm.trans (h.keyed q.1 _ hw).2
    exact hne (Option.some_inj.mp heq)

theorem load_body (h : i.Good) (hascii : ascii (body num i).flatten = true) : (load num (body num i).flatten).Same i := by
  have hload : load num (body num i).flatten = (body num i).foldl (Index.loadLine num) .empty :=
    load_append ended_nil (h.line_body hascii)
  rw [hload, body_eq]
  refine (foldl_versionLine i.items (.refl _) h.token_of_mem_items).trans ?_
  obtain ⟨hversions, hslots⟩ := placeAll_spec i.items .empty h.nodup_items fun p _ => ⟨rfl, fun s => List.not_mem_nil⟩
  refine ⟨fun s => ?_, fun key => ?_⟩
  · rw [hversions, Index.items, filter_items i.slots h.slots s, List.map_map]
    refine (List.nil_append _).trans ((List.map_congr_left fun q hq => ?_).trans (List.map_id _))
    have hkey := (h.keyed s q hq).1
    exact Prod.ext hkey rfl
  · apply Option.ext
    intro s
    rw [hslots]
    constructor
    · rintro (⟨p, hp, rfl, rfl⟩ | h')
      · exact h.slotOf_of_mem_items hp
      · cases h'
    · exact fun hslot => .inl (h.mem_items_of_slotOf hslot)

end Cash.Slots
