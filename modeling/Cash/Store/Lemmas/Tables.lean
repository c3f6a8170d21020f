import Cash.Store.Good
import Cash.Store.Lemmas.Good
import Mathlib.Data.List.Dedup

/-!
# The sections keep the tables in agreement

For each section of the store: the holders of a file and the files of an entry stay one relation, the places
of an entry stay within the files it holds, and the digests of a pack include those placed in it.
-/

namespace Cash.Store

open Bytes Py Chunks Entry

variable {H : Hashes}

namespace Tables

/-- The writes that hold the file, as the tables count them. -/
def pends (t : Tables) (name : Str) : Nat := t.pending.getD name 0

/-- The holders of a file and the files of an entry are one relation. -/
def Paired (t : Tables) : Prop := ∀ name stem, stem ∈ t.holdersOf name ↔ name ∈ t.heldOf stem

end Tables

/-- The tables agree with each other. -/
structure Inv (H : Hashes) (t : Tables) : Prop where
  good : GoodTables H t
  paired : t.Paired
  placedBy : ∀ stem places, t.placedBy.lookup stem = some places →
    stem ∈ t.heldBy ∧ ∀ d p, places.lookup d = some p → p.name ∈ t.heldOf stem
  inPack : ∀ d p, t.places.lookup d = some p → d ∈ t.inPack.getD p.name []

theorem paired_new : Tables.new.Paired := by
  intro name stem
  simp [Tables.holdersOf, Tables.heldOf, Tables.new, Dict.getD]

theorem inv_new : Inv H Tables.new where
  good := goodTables_new
  paired := paired_new
  placedBy stem places h := by simp [Tables.new] at h
  inPack d p h := by simp [Tables.new] at h

/-! ## Writes in flight -/

theorem pends_pend (t : Tables) (name n : Str) :
    (t.pend name).pends n = t.pends n + if n = name then 1 else 0 := by
  unfold Tables.pends Tables.pend
  rw [Dict.getD_insert]
  by_cases h : n = name
  · simp [h]
  · simp [h]

theorem getD_unpendOne (pending : Dict Str Nat) (name n : Str) :
    (Tables.unpendOne pending name).getD n 0 = pending.getD n 0 - if n = name then 1 else 0 := by
  unfold Tables.unpendOne
  dsimp only
  split
  · rw [Dict.getD_insert]
    by_cases h : n = name
    · simp [h]
    · simp [h]
  · rename_i hleft
    rw [Dict.getD_erase]
    by_cases h : n = name
    · subst h
      simp only [if_true]
      omega
    · simp [h]

theorem getD_foldl_unpend (names : List Str) (pending : Dict Str Nat) (n : Str) :
    (names.foldl Tables.unpendOne pending).getD n 0 = pending.getD n 0 - names.count n := by
  induction names generalizing pending with
  | nil => simp
  | cons name names ih =>
      rw [List.foldl_cons, ih, getD_unpendOne, List.count_cons]
      by_cases h : n = name
      · subst h
        simp only [if_true, beq_self_eq_true]
        omega
      · have hname : name ≠ n := fun he => h he.symm
        simp [h, hname]

theorem pends_unpend (names : List Str) (t : Tables) (n : Str) : (t.unpend names).pends n = t.pends n - names.count n :=
  getD_foldl_unpend names t.pending n

/-! ## Holders -/

theorem mem_dropHolder {stem s name n : Str} {holders : Dict Str (List Str)} :
    s ∈ (Tables.dropHolder stem holders name).getD n [] ↔ s ∈ holders.getD n [] ∧ ¬(s = stem ∧ n = name) := by
  unfold Tables.dropHolder
  cases hlook : holders.lookup name with
  | none =>
      constructor
      · refine fun h => ⟨h, ?_⟩
        rintro ⟨-, rfl⟩
        simp [Dict.getD, hlook] at h
      · exact fun h => h.1
  | some stems =>
      have hn : holders.getD name [] = stems := by simp [Dict.getD, hlook]
      dsimp only
      split
      · rename_i hleft
        rw [Dict.getD_erase]
        by_cases hnn : n = name
        · subst hnn
          simp only [if_true, List.not_mem_nil, and_true, false_iff, not_and, not_not, hn]
          intro hs
          by_contra hne
          have : s ∈ stems.filter (· ≠ stem) := by simp [hs, hne]
          rw [hleft] at this
          cases this
        · simp [hnn]
      · rw [Dict.getD_insert]
        by_cases hnn : n = name
        · subst hnn
          simp [hn]
        · simp [hnn]

theorem mem_foldl_dropHolder {stem s n : Str} {names : List Str} {holders : Dict Str (List Str)} :
    s ∈ (names.foldl (Tables.dropHolder stem) holders).getD n [] ↔
      s ∈ holders.getD n [] ∧ ¬(s = stem ∧ n ∈ names) := by
  induction names generalizing holders with
  | nil => simp
  | cons name names ih =>
      rw [List.foldl_cons, ih, mem_dropHolder, List.mem_cons]
      tauto

theorem mem_foldl_addHolder {stem s n : Str} {names : List Str} {holders : Dict Str (List Str)} :
    s ∈ (names.foldl (Tables.addHolder stem) holders).getD n [] ↔
      s ∈ holders.getD n [] ∨ s = stem ∧ n ∈ names := by
  induction names generalizing holders with
  | nil => simp
  | cons name names ih =>
      rw [List.foldl_cons, ih, Tables.addHolder, Dict.getD_insert, List.mem_cons]
      by_cases hn : n = name
      · subst hn
        simp only [if_true, List.mem_insert_iff, true_or, and_true]
        tauto
      · simp only [hn, if_false, false_or]

theorem mem_holdersOf_setHolder {t : Tables} {stem s n : Str} {names before : List Str} :
    s ∈ (t.setHolder stem names before).holdersOf n ↔
      s = stem ∧ n ∈ names ∨ s ∈ t.holdersOf n ∧ ¬(s = stem ∧ n ∈ before ∧ n ∉ names) := by
  simp only [Tables.setHolder, Tables.holdersOf, mem_foldl_addHolder, mem_foldl_dropHolder, List.mem_filter,
    decide_eq_true_eq]
  tauto

theorem heldOf_setHolder (t : Tables) (stem s : Str) (names before : List Str) :
    (t.setHolder stem names before).heldOf s = if s = stem then names else t.heldOf s := by
  simp only [Tables.setHolder, Tables.heldOf]
  split
  · rename_i hnil
    rw [Dict.getD_erase, hnil]
  · rw [Dict.getD_insert]

theorem mem_heldBy_setHolder {t : Tables} {stem s : Str} {names before : List Str} :
    s ∈ (t.setHolder stem names before).heldBy ↔ s = stem ∧ names ≠ [] ∨ s ≠ stem ∧ s ∈ t.heldBy := by
  simp only [Tables.setHolder]
  by_cases hnil : names = []
  · rw [if_pos hnil, AList.mem_erase]
    simp [hnil]
  · rw [if_neg hnil, AList.mem_insert]
    by_cases hs : s = stem
    · simp [hs, hnil]
    · simp [hs]

/-- Files and entries stay one relation when all an entry held is given up or held again. -/
theorem Tables.Paired.setHolder {t : Tables} (h : t.Paired) {stem : Str} {before : List Str}
    (hb : ∀ n ∈ t.heldOf stem, n ∈ before) (names : List Str) : (t.setHolder stem names before).Paired := by
  intro name s
  rw [mem_holdersOf_setHolder, heldOf_setHolder, h name s]
  by_cases hs : s = stem
  · subst hs
    have := hb name
    simp only [true_and, if_true]
    tauto
  · simp [hs]

/-- What `commit` and `release` take for the files held before. -/
theorem heldOf_subset_before (t : Tables) (stem : Str) (held : List Str) :
    ∀ n ∈ t.heldOf stem, n ∈ (t.heldBy.lookup stem).getD held := by
  intro n hn
  unfold Tables.heldOf Dict.getD at hn
  cases hlook : t.heldBy.lookup stem with
  | none => simp [hlook] at hn
  | some names => simpa [hlook] using hn

theorem Tables.Paired.commit {t : Tables} (h : t.Paired) (stem : Str) (held : Held) (replaced : Option Held)
    (places : Places) : (t.commit stem held replaced places).2.Paired := by
  have h' : (Tables.unpend (held.map (·.1)) { t with size := t.size.update held }).Paired := h
  exact h'.setHolder (heldOf_subset_before _ _ _) _

theorem heldOf_commit (t : Tables) (stem : Str) (held : Held) (replaced : Option Held) (places : Places) (s : Str) :
    (t.commit stem held replaced places).2.heldOf s = if s = stem then (held.map (·.1)).dedup else t.heldOf s :=
  heldOf_setHolder _ stem s _ []

theorem pends_commit (t : Tables) (stem : Str) (held : Held) (replaced : Option Held) (places : Places) (n : Str) :
    (t.commit stem held replaced places).2.pends n = t.pends n - (held.map (·.1)).count n := by
  rw [← pends_unpend]
  rfl

theorem Tables.Paired.release {t : Tables} (h : t.Paired) (stem : Str) (held : Option Held) :
    (t.release stem held).2.Paired :=
  h.setHolder (heldOf_subset_before _ _ _) _

theorem heldOf_release (t : Tables) (stem : Str) (held : Option Held) (s : Str) :
    (t.release stem held).2.heldOf s = if s = stem then [] else t.heldOf s :=
  heldOf_setHolder t stem s [] []

/-! ## The files and places of an entry -/

/-- An entry's files and places set together. -/
theorem Inv.setEntry {t : Tables} (h : Inv H t) {stem : Str} {names before : List Str} {places : Places}
    (hb : ∀ n ∈ t.heldOf stem, n ∈ before) (hp : GoodPlaces H places) (hnames : ∀ p ∈ places, p.2.name ∈ names) :
    Inv H ((t.setHolder stem names before).setPlaced stem places) where
  good := (h.good.setHolder ..).setPlaced hp stem
  paired := h.paired.setHolder hb names
  placedBy s ps hs := by
    -- An entry other than `stem` keeps its files and its places.
    have hother : s ≠ stem → t.placedBy.lookup s = some ps → s ∈ (t.setHolder stem names before).heldBy ∧
        ∀ d p, ps.lookup d = some p → p.name ∈ (t.setHolder stem names before).heldOf s := by
      intro hne hs
      obtain ⟨hmem, hin⟩ := h.placedBy s ps hs
      refine ⟨mem_heldBy_setHolder.mpr (.inr ⟨hne, hmem⟩), fun d p hd => ?_⟩
      rw [heldOf_setHolder, if_neg hne]
      exact hin d p hd
    simp only [Tables.setPlaced] at hs
    split at hs
    · obtain ⟨hne, hs⟩ := Dict.lookup_of_erase hs
      exact hother hne hs
    · rename_i hparsed
      rcases Dict.lookup_insert_cases hs with ⟨rfl, rfl⟩ | ⟨hne, hs⟩
      · have hin : ∀ q ∈ parsePlaces places, q.2.name ∈ names := fun q hq => hnames q (List.mem_of_mem_filter hq)
        obtain ⟨q, rest, hq⟩ := List.exists_cons_of_ne_nil hparsed
        have hnil : names ≠ [] := List.ne_nil_of_mem (hin q (by simp [hq]))
        have hmem : s ∈ (t.setHolder s names before).heldBy := mem_heldBy_setHolder.mpr (.inl ⟨rfl, hnil⟩)
        refine ⟨hmem, fun d p hd => ?_⟩
        change p.name ∈ (t.setHolder s names before).heldOf s
        rw [heldOf_setHolder, if_pos rfl]
        rcases Dict.lookup_update hd with hd | ⟨_, hd⟩
        · exact hin _ hd
        · simp at hd
      · exact hother hne hs
  inPack := h.inPack

theorem Inv.congr {t t' : Tables} (h : Inv H t) (h₁ : t'.heldBy = t.heldBy) (h₂ : t'.holders = t.holders)
    (h₃ : t'.placedBy = t.placedBy) (h₄ : t'.places = t.places) (h₅ : t'.inPack = t.inPack) : Inv H t' := by
  refine ⟨h.good.congr h₄ h₃, ?_, ?_, ?_⟩
  · simpa only [Tables.Paired, Tables.holdersOf, Tables.heldOf, h₁, h₂] using h.paired
  · simpa only [Tables.heldOf, h₁, h₃] using h.placedBy
  · simpa only [h₄, h₅] using h.inPack

theorem Inv.commit {t : Tables} (h : Inv H t) (stem : Str) {held : Held} (replaced : Option Held) {places : Places}
    (hp : GoodPlaces H places) (hnames : ∀ p ∈ places, p.2.name ∈ held.map (·.1)) :
    Inv H (t.commit stem held replaced places).2 := by
  have h' : Inv H (Tables.unpend (held.map (·.1)) { t with size := t.size.update held }) :=
    h.congr rfl rfl rfl rfl rfl
  exact h'.setEntry (heldOf_subset_before _ _ _) hp fun p hpp => List.mem_dedup.mpr (hnames p hpp)

theorem Inv.release {t : Tables} (h : Inv H t) (stem : Str) (held : Option Held) :
    Inv H (t.release stem held).2 := by
  have hplaces : ∀ p ∈ ([] : Places), p.2.name ∈ ([] : List Str) := fun p hp => by cases hp
  exact h.setEntry (heldOf_subset_before _ _ _) (fun p hp => by cases hp) hplaces

/-! ## Places -/

theorem Inv.learn {t : Tables} (h : Inv H t) {name : Str} {placed : Places} (hp : GoodPlaces H placed)
    (hname : ∀ p ∈ placed, p.2.name = name) : Inv H (t.learn name placed) where
  good := h.good.learn hp name
  paired := h.paired
  placedBy := h.placedBy
  inPack d p hd := by
    simp only [Tables.learn] at hd ⊢
    rw [Dict.getD_insert]
    rcases Dict.lookup_update hd with hd | ⟨-, hd⟩
    · have hkey : d ∈ placed.map (·.1) := List.mem_map.mpr ⟨(d, p), hd, rfl⟩
      rw [if_pos (hname _ hd)]
      exact List.mem_union_iff.mpr (.inr hkey)
    · have hin := h.inPack d p hd
      by_cases hpn : p.name = name
      · rw [if_pos hpn]
        rw [hpn] at hin
        exact List.mem_union_iff.mpr (.inl hin)
      · rw [if_neg hpn]
        exact hin

theorem Inv.forget {t : Tables} (h : Inv H t) (name : Str) : Inv H (t.forget name) where
  good := h.good.forget name
  paired := h.paired
  placedBy := h.placedBy
  inPack d p hd := by
    obtain ⟨hgone, hd⟩ := lookup_foldl_erase hd
    have hin := h.inPack d p hd
    -- A chunk placed in the pack forgotten is one of those that are gone.
    have hne : p.name ≠ name := by
      intro hpn
      rw [hpn] at hin
      exact hgone (List.mem_filter.mpr ⟨hin, by simp [hd, hpn]⟩)
    simp only [Tables.forget]
    rw [Dict.getD_erase, if_neg hne]
    exact hin

theorem Inv.unplaceOne {t : Tables} (h : Inv H t) (pack : Str) (e : Sigma fun _ : Digest => Place) :
    Inv H (t.unplaceOne pack e) where
  good := ⟨fun d p hd => h.good.places d p (Dict.lookup_of_erase hd).2, h.good.placedBy⟩
  paired := h.paired
  placedBy := h.placedBy
  inPack d p hd := by
    obtain ⟨hne, hd⟩ := Dict.lookup_of_erase hd
    have hin := h.inPack d p hd
    simp only [Tables.unplaceOne]
    cases hlook : t.inPack.lookup pack with
    | none => exact hin
    | some digests =>
        dsimp only
        rw [Dict.getD_insert]
        by_cases hpn : p.name = pack
        · have hdig : t.inPack.getD p.name [] = digests := by rw [hpn, Dict.getD, hlook]; rfl
          rw [hdig] at hin
          rw [if_pos hpn]
          exact List.mem_filter.mpr ⟨hin, by simpa using hne⟩
        · rw [if_neg hpn]
          exact hin

theorem Inv.unplace {t : Tables} (h : Inv H t) (pack : Str) (offset : Nat) : Inv H (t.unplace pack offset) := by
  unfold Tables.unplace
  generalize t.places.entries.filter _ = gone
  induction gone generalizing t with
  | nil => exact h
  | cons e gone ih => exact ih (h.unplaceOne pack e)

/-! ## The index -/

theorem Inv.learnAll {t : Tables} {groups : List (Str × Places)} (h : Inv H t)
    (hg : ∀ g ∈ groups, GoodPlaces H g.2 ∧ ∀ p ∈ g.2, p.2.name = g.1) : Inv H (t.learnAll groups) := by
  induction groups generalizing t with
  | nil => exact h
  | cons g groups ih =>
      obtain ⟨hp, hname⟩ := hg g (by simp)
      exact ih (h.learn hp hname) fun g h => hg g (by simp [h])

theorem heldOf_of_not_mem {t : Tables} {stem : Str} (h : stem ∉ t.heldBy) : t.heldOf stem = [] := by
  have : t.heldBy.lookup stem = none := AList.lookup_eq_none.mpr h
  simp [Tables.heldOf, Dict.getD, this]

theorem Tables.Paired.indexEntry {t : Tables} (h : t.Paired) (f : Tables.Found) : (t.indexEntry f).Paired := by
  unfold Tables.indexEntry
  split
  · exact h
  · rename_i hstem
    exact h.setHolder (by simp [heldOf_of_not_mem hstem]) _

theorem Inv.indexEntry {t : Tables} (h : Inv H t) {f : Tables.Found} (hp : GoodPlaces H f.places)
    (hheld : ∀ p ∈ f.places, p.2.name ∈ f.held.map (·.1)) : Inv H (t.indexEntry f) := by
  unfold Tables.indexEntry
  split
  · exact h
  · rename_i hstem
    exact h.setEntry (by simp [heldOf_of_not_mem hstem]) hp fun p hpp => List.mem_dedup.mpr (hheld p hpp)

theorem Inv.indexAll {t : Tables} {found : List Tables.Found} (h : Inv H t)
    (hf : ∀ f ∈ found, GoodPlaces H f.places ∧ ∀ p ∈ f.places, p.2.name ∈ f.held.map (·.1)) :
    Inv H (t.indexAll found) := by
  induction found generalizing t with
  | nil => exact h
  | cons f found ih =>
      obtain ⟨hp, hheld⟩ := hf f (by simp)
      exact ih (h.indexEntry hp hheld) fun f h => hf f (by simp [h])

theorem Inv.index {t : Tables} (h : Inv H t) {found : List Tables.Found}
    (hf : ∀ f ∈ found, GoodPlaces H f.places ∧ ∀ p ∈ f.places, p.2.name ∈ f.held.map (·.1)) (started : Nat) :
    Inv H (t.index started found).2 := by
  have hplaced : ∀ g ∈ Tables.placesByPack found, GoodPlaces H g.2 ∧ ∀ p ∈ g.2, p.2.name = g.1 := by
    intro g hg
    refine ⟨fun q hq => ?_, fun q hq => (mem_placesByPack hg hq).1⟩
    obtain ⟨-, f, hff, hq⟩ := mem_placesByPack hg hq
    exact (hf f hff).1.parse q hq
  unfold Tables.index
  split
  · exact h
  · have h₀ : Inv H { t with size := Tables.setDefaults t.size (Dict.update ∅ (found.flatMap (·.held))) } :=
      h.congr rfl rfl rfl rfl rfl
    exact ((h₀.learnAll hplaced).indexAll hf).congr rfl rfl rfl rfl rfl

/-- The index leaves the writes in flight alone. -/
theorem pending_index (t : Tables) (started : Nat) (found : List Tables.Found) :
    (t.index started found).2.pending = t.pending := by
  have hlearn : ∀ (groups : List (Str × Places)) (t : Tables), (t.learnAll groups).pending = t.pending := by
    intro groups
    induction groups with
    | nil => exact fun _ => rfl
    | cons g groups ih => exact fun t => ih _
  have hindex : ∀ (found : List Tables.Found) (t : Tables), (t.indexAll found).pending = t.pending := by
    intro found
    induction found with
    | nil => exact fun _ => rfl
    | cons f found ih =>
        intro t
        refine (ih _).trans ?_
        unfold Tables.indexEntry
        split <;> rfl
  unfold Tables.index
  split
  · rfl
  · exact (hindex _ _).trans (hlearn _ _)

theorem pending_unplace (t : Tables) (pack : Str) (offset : Nat) : (t.unplace pack offset).pending = t.pending := by
  unfold Tables.unplace
  generalize t.places.entries.filter _ = gone
  induction gone generalizing t with
  | nil => rfl
  | cons e gone ih => exact ih _

/-! ## Chunks moved to a new pack -/

/-- The digests that an entry places in a pack. -/
def Tables.PlacesIn (t : Tables) (stem pack : Str) (digests : List Digest) : Prop :=
  ∀ ps, t.placedBy.lookup stem = some ps → ∀ d p, ps.lookup d = some p → p.name = pack → d ∈ digests

/-- The places of an entry once its chunks in `old` are in `new`. -/
theorem lookup_moved {before : Dict Digest Place} {placed : Places} {old new : Str}
    (hkeys : ∀ e ∈ before.entries, e.2.name = old → e.1 ∈ placed.map (·.1)) (hnew : ∀ p ∈ placed, p.2.name = new)
    {d : Digest} {p : Place}
    (h : (Dict.update ∅ (before.entries.map fun e =>
      (e.1, if e.2.name = old then ((Dict.update ∅ placed).lookup e.1).getD e.2 else e.2))).lookup d = some p) :
    p.name = new ∨ before.lookup d = some p ∧ p.name ≠ old := by
  rcases Dict.lookup_update h with h | ⟨-, h⟩
  · obtain ⟨e, he, heq⟩ := List.mem_map.mp h
    simp only [Prod.mk.injEq] at heq
    obtain ⟨rfl, rfl⟩ := heq
    split
    · rename_i hold
      have hmem : e.1 ∈ Dict.update (∅ : Dict Digest Place) placed := Dict.mem_update.mpr (.inl (hkeys e he hold))
      obtain ⟨q, hq⟩ := Dict.mem_iff_lookup.mp hmem
      rw [hq]
      rcases Dict.lookup_update hq with hq | ⟨-, hq⟩
      · exact .inl (hnew _ hq)
      · simp at hq
    · rename_i hold
      exact .inr ⟨Dict.lookup_of_mem_entries he, hold⟩
  · simp at h

theorem placedBy_entries {t : Tables} {stem : Str} {e : Sigma fun _ : Digest => Place}
    (h : e ∈ (t.placedBy.getD stem ∅).entries) : ∃ ps, t.placedBy.lookup stem = some ps ∧ ps.lookup e.1 = some e.2 := by
  unfold Dict.getD at h
  cases hps : t.placedBy.lookup stem with
  | none => simp [hps] at h
  | some ps =>
      rw [hps] at h
      exact ⟨ps, rfl, Dict.lookup_of_mem_entries h⟩

/-- The tables once `stem` holds `new` in place of `old`. -/
def Tables.moveHolder (stem old new : Str) (t : Tables) : Tables :=
  t.setHolder stem (((t.heldOf stem).filter (· ≠ old)).insert new) (t.heldOf stem)

/-- Told or not, the entry holds the new pack. -/
theorem repoint_holders (t : Tables) (stem old new : Str) (placed : Places) :
    (t.repoint stem old new placed).2.heldBy = (t.moveHolder stem old new).heldBy ∧
      (t.repoint stem old new placed).2.holders = (t.moveHolder stem old new).holders ∧
      (t.repoint stem old new placed).2.pending = t.pending ∧
      (t.repoint stem old new placed).2.places = t.places ∧ (t.repoint stem old new placed).2.inPack = t.inPack := by
  simp only [Tables.repoint]
  split <;> exact ⟨rfl, rfl, rfl, rfl, rfl⟩

theorem heldOf_repoint (t : Tables) (stem old new s : Str) (placed : Places) :
    (t.repoint stem old new placed).2.heldOf s =
      if s = stem then ((t.heldOf stem).filter (· ≠ old)).insert new else t.heldOf s := by
  have : (t.repoint stem old new placed).2.heldOf s = (t.moveHolder stem old new).heldOf s := by
    rw [Tables.heldOf, (repoint_holders t stem old new placed).1]
    rfl
  rw [this, Tables.moveHolder, heldOf_setHolder]

theorem mem_heldBy_repoint {t : Tables} {stem old new s : Str} {placed : Places} (hs : s = stem ∨ s ∈ t.heldBy) :
    s ∈ (t.repoint stem old new placed).2.heldBy := by
  rw [(repoint_holders t stem old new placed).1, Tables.moveHolder, mem_heldBy_setHolder]
  by_cases hst : s = stem
  · exact .inl ⟨hst, List.ne_nil_of_mem (List.mem_insert_iff.mpr (.inl rfl))⟩
  · exact .inr ⟨hst, hs.resolve_left hst⟩

theorem Tables.Paired.repoint {t : Tables} (h : t.Paired) (stem old new : Str) (placed : Places) :
    (t.repoint stem old new placed).2.Paired := by
  have hmoved : (t.moveHolder stem old new).Paired := h.setHolder (fun n hn => hn) _
  obtain ⟨hheld, hholders, -⟩ := repoint_holders t stem old new placed
  simpa only [Tables.Paired, Tables.holdersOf, Tables.heldOf, hheld, hholders] using hmoved

/-- An entry all of whose chunks in `old` were moved is told so. -/
theorem repoint_told {t : Tables} {stem old new : Str} {placed : Places}
    (hkeys : t.PlacesIn stem old (placed.map (·.1))) :
    (t.repoint stem old new placed).1 = true ∧
      (t.repoint stem old new placed).2.placedBy =
        t.placedBy.insert stem (Dict.update ∅ ((t.placedBy.getD stem ∅).entries.map fun e =>
          (e.1, if e.2.name = old then ((Dict.update ∅ placed).lookup e.1).getD e.2 else e.2))) := by
  have hall : ((t.moveHolder stem old new).placedBy.getD stem ∅).entries.all fun e =>
      e.2.name ≠ old || decide (e.1 ∈ Dict.update (∅ : Dict Digest Place) placed) := by
    refine List.all_eq_true.mpr fun e he => ?_
    obtain ⟨ps, hps, hlook⟩ := placedBy_entries (t := t) he
    by_cases hold : e.2.name = old
    · have hmem : e.1 ∈ Dict.update (∅ : Dict Digest Place) placed :=
        Dict.mem_update.mpr (.inl (hkeys ps hps _ _ hlook hold))
      simp [hmem]
    · simp [hold]
  unfold Tables.moveHolder at hall
  simp only [Tables.repoint]
  rw [if_pos hall]
  exact ⟨rfl, rfl⟩

theorem Inv.repoint {t : Tables} (h : Inv H t) {stem old new : Str} {placed : Places} (hp : GoodPlaces H placed)
    (hnew : ∀ p ∈ placed, p.2.name = new) (hkeys : t.PlacesIn stem old (placed.map (·.1))) :
    Inv H (t.repoint stem old new placed).2 where
  good := h.good.repoint hp stem old new
  paired := h.paired.repoint stem old new placed
  placedBy s ps hs := by
    rw [(repoint_told hkeys).2] at hs
    rcases Dict.lookup_insert_cases hs with ⟨rfl, rfl⟩ | ⟨hne, hs⟩
    · refine ⟨mem_heldBy_repoint (.inl rfl), fun d p hd => ?_⟩
      have hin : ∀ e ∈ (t.placedBy.getD s ∅).entries, e.2.name = old → e.1 ∈ placed.map (·.1) := by
        intro e he hold
        obtain ⟨ps, hps, hlook⟩ := placedBy_entries he
        exact hkeys ps hps _ _ hlook hold
      rw [heldOf_repoint, if_pos rfl, List.mem_insert_iff]
      rcases lookup_moved hin hnew hd with hd | ⟨hd, hold⟩
      · exact .inl hd
      · obtain ⟨ps, hps, hlook⟩ := placedBy_entries (Dict.mem_entries_of_lookup hd)
        exact .inr (List.mem_filter.mpr ⟨(h.placedBy s ps hps).2 d p hlook, by simpa using hold⟩)
    · obtain ⟨hmem, hin⟩ := h.placedBy s ps hs
      refine ⟨mem_heldBy_repoint (.inr hmem), fun d p hd => ?_⟩
      rw [heldOf_repoint, if_neg hne]
      exact hin d p hd
  inPack := by
    obtain ⟨-, -, -, hplaces, hinPack⟩ := repoint_holders t stem old new placed
    rw [hplaces, hinPack]
    exact h.inPack

theorem Inv.clear {t : Tables} (h : Inv H t) (now : Nat) (hplaced : ∀ stem, stem ∉ t.placedBy) :
    Inv H (t.clear now) where
  good := h.good.clear now
  paired := paired_new
  placedBy stem ps hs := absurd (Dict.mem_of_lookup hs) (hplaced stem)
  inPack d p hd := by simp [Tables.clear] at hd

end Cash.Store
