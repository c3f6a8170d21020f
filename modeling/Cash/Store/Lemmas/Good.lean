import Cash.Chunks.Lemmas.Read
import Cash.Lib.Blocks
import Cash.Store.Good

/-!
# Names determine packs

Where the hashes are injective the name of a pack determines its buffers, so what `_write_pack` writes and
records is what the name says. The sections of the store keep the tables good.
-/

namespace Cash.Store

open Bytes Py Chunks Entry

variable {H : Hashes}

/-! ## Names -/

/-- A name ends in one suffix only. -/
theorem packName_ne_chunkName (sha256 : Bytes → Bytes) (ms : List Digest) (d : Digest) :
    packName sha256 ms ≠ chunkName d := by
  intro h
  have := congrArg List.reverse h
  simp [packName, chunkName, packSuffix, chunkSuffix, str] at this

theorem packName_ne_claim (sha256 : Bytes → Bytes) (ms : List Digest) (name : Str) :
    name ++ claimSuffix ≠ packName sha256 ms := by
  intro h
  have := congrArg List.reverse h
  simp [packName, packSuffix, claimSuffix, str] at this

theorem chunkName_ne_claim (d : Digest) (name : Str) : name ++ claimSuffix ≠ chunkName d := by
  intro h
  have := congrArg List.reverse h
  simp [chunkName, chunkSuffix, claimSuffix, str] at this

theorem packName_endsWith (sha256 : Bytes → Bytes) (ms : List Digest) :
    (packName sha256 ms).endsWith packSuffix = true := by
  simp [packName, Str.endsWith]

theorem Hashes.IsPack.lengths {bufs : List Bytes} (h : H.IsPack bufs) (hH : H.Sound) :
    ∀ d ∈ bufs.map H.bulkDigest, d.length = 32 := by
  intro d hd
  obtain ⟨b, hb, rfl⟩ := List.mem_map.mp hd
  exact hH.digest_length b (h.buffers b hb)

/-- The name of a pack determines the digests of its chunks. -/
theorem packName_inj (hH : H.Sound) {ms ms' : List Digest} (hm : ms ∈ H.packs) (hm' : ms' ∈ H.packs)
    (hl : ∀ d ∈ ms, d.length = 32) (hl' : ∀ d ∈ ms', d.length = 32)
    (h : packName H.sha256 ms = packName H.sha256 ms') : ms = ms' := by
  have h := hex_injective (List.append_cancel_right h)
  have h := hH.sha_inj (Set.mem_image_of_mem _ hm) (Set.mem_image_of_mem _ hm') h
  exact Blocks.flatten_inj (by decide) hl hl' h

/-- The name of a pack determines its buffers. -/
theorem nameOf_inj (hH : H.Sound) {bufs bufs' : List Bytes} (hp : H.IsPack bufs) (hp' : H.IsPack bufs')
    (h : H.nameOf bufs = H.nameOf bufs') : bufs = bufs' := by
  have h := packName_inj hH hp.met hp'.met (hp.lengths hH) (hp'.lengths hH) h
  exact Blocks.map_inj_of_injOn hH.digest_inj hp.buffers hp'.buffers h

/-! ## What `_write_pack` writes -/

theorem goodFile_pack (hH : H.Sound) {bufs : List Bytes} (hp : H.IsPack bufs) :
    GoodFile H (H.nameOf bufs) (packBytes 0 bufs) where
  pack bufs' hp' h := by rw [nameOf_inj hH hp hp' h]
  chunk b _ h := absurd h (packName_ne_chunkName _ _ _)

theorem goodFile_claim (name : Str) : GoodFile H (name ++ claimSuffix) [] where
  pack _ _ h := absurd h (packName_ne_claim _ _ _)
  chunk _ _ h := absurd h (chunkName_ne_claim _ _)

/-- A place of a pack is the place of one of its chunks. -/
theorem mem_packPlaces {name : Str} {offset : Nat} {fresh : List (Digest × Bytes)} {q : Digest × Place}
    (h : q ∈ packPlaces name offset fresh) :
    ∃ (k : Nat) (d : Digest) (v : Bytes) (o : Nat), fresh[k]? = some (d, v) ∧ (packOffsets offset (fresh.map (·.2.length)))[k]? = some o ∧
      q = (d, ⟨name, o, v.length, crcOf v⟩) := by
  induction fresh generalizing offset with
  | nil => cases h
  | cons f rest ih =>
      obtain ⟨d, v⟩ := f
      simp only [packPlaces, List.mem_cons] at h
      rcases h with rfl | h
      · exact ⟨0, d, v, offset + aligned offset, rfl, rfl, rfl⟩
      · obtain ⟨k, d', v', o, hk, ho, rfl⟩ := ih h
        exact ⟨k + 1, d', v', o, by simpa using hk, by simpa [packOffsets] using ho, rfl⟩

@[simp] theorem packPlaces_keys (name : Str) (offset : Nat) (fresh : List (Digest × Bytes)) :
    (packPlaces name offset fresh).map (·.1) = fresh.map (·.1) := by
  induction fresh generalizing offset with
  | nil => rfl
  | cons f rest ih => simp [packPlaces, ih]

/-- The buffers of one pack with their digests. -/
structure Fresh (H : Hashes) (fresh : List (Digest × Bytes)) : Prop where
  buffers : ∀ f ∈ fresh, f.2 ∈ H.buffers
  digests : ∀ f ∈ fresh, f.1 = H.bulkDigest f.2

theorem Fresh.map_digest {fresh : List (Digest × Bytes)} (h : Fresh H fresh) :
    (fresh.map (·.2)).map H.bulkDigest = fresh.map (·.1) := by
  rw [List.map_map]
  apply List.map_congr_left
  intro f hf
  exact (h.digests f hf).symm

theorem Fresh.isPack {fresh : List (Digest × Bytes)} (h : Fresh H fresh) (hm : fresh.map (·.1) ∈ H.packs) :
    H.IsPack (fresh.map (·.2)) where
  buffers b hb := by
    obtain ⟨f, hf, rfl⟩ := List.mem_map.mp hb
    exact h.buffers f hf
  met := by rw [h.map_digest]; exact hm

theorem Fresh.nameOf {fresh : List (Digest × Bytes)} (h : Fresh H fresh) :
    H.nameOf (fresh.map (·.2)) = packName H.sha256 (fresh.map (·.1)) := by
  rw [Hashes.nameOf, h.map_digest]

theorem Fresh.goodPlaces {fresh : List (Digest × Bytes)} (h : Fresh H fresh) (hm : fresh.map (·.1) ∈ H.packs) :
    GoodPlaces H (packPlaces (packName H.sha256 (fresh.map (·.1))) 0 fresh) := by
  intro q hq
  obtain ⟨k, d, v, o, hk, ho, rfl⟩ := mem_packPlaces hq
  have hd : d = H.bulkDigest v := h.digests (d, v) (List.mem_of_getElem? hk)
  rw [hd, ← h.nameOf]
  refine .mk (h.isPack hm) (k := k) (by simp [hk]) ?_
  rw [List.map_map]
  exact ho

/-! ## The sections -/

theorem GoodTables.congr {t t' : Tables} (h : GoodTables H t) (hp : t'.places = t.places)
    (hb : t'.placedBy = t.placedBy) : GoodTables H t' where
  places d p := by rw [hp]; exact h.places d p
  placedBy s ps := by rw [hb]; exact h.placedBy s ps

theorem goodTables_new : GoodTables H Tables.new where
  places d p h := by simp [Tables.new] at h
  placedBy s ps h := by simp [Tables.new] at h

theorem good_of_lookup_update {d : Dict Digest Place} {places : Places} (hd : ∀ k p, d.lookup k = some p → GoodPlace H k p)
    (hp : GoodPlaces H places) : ∀ k p, (Dict.update d places).lookup k = some p → GoodPlace H k p := by
  intro k p h
  rcases Dict.lookup_update h with h | ⟨_, h⟩
  · exact hp _ h
  · exact hd k p h

theorem GoodPlaces.update {places : Places} (hp : GoodPlaces H places) :
    ∀ k p, (Dict.update (∅ : Dict Digest Place) places).lookup k = some p → GoodPlace H k p :=
  good_of_lookup_update (fun k p h => by simp at h) hp

theorem GoodPlaces.parse {places : Places} (h : GoodPlaces H places) : GoodPlaces H (parsePlaces places) :=
  fun p hp => h p (List.mem_of_mem_filter hp)

theorem GoodTables.setHolder {t : Tables} (h : GoodTables H t) (stem : Str) (names before : List Str) :
    GoodTables H (t.setHolder stem names before) :=
  h.congr rfl rfl

theorem GoodTables.setPlaced {t : Tables} (h : GoodTables H t) {places : Places} (hp : GoodPlaces H places)
    (stem : Str) : GoodTables H (t.setPlaced stem places) where
  places := h.places
  placedBy s ps hs := by
    simp only [Tables.setPlaced] at hs
    split at hs
    · rw [Dict.lookup_erase'] at hs
      split at hs
      · cases hs
      · exact h.placedBy s ps hs
    · rw [Dict.lookup_insert'] at hs
      split at hs
      · cases hs
        exact hp.parse.update
      · exact h.placedBy s ps hs

theorem GoodTables.learn {t : Tables} (h : GoodTables H t) {placed : Places} (hp : GoodPlaces H placed)
    (name : Str) : GoodTables H (t.learn name placed) where
  places := good_of_lookup_update h.places hp
  placedBy := h.placedBy

theorem lookup_foldl_erase {places : Dict Digest Place} {gone : List Digest} {d : Digest} {p : Place}
    (h : (gone.foldl (fun places d => places.erase d) places).lookup d = some p) :
    d ∉ gone ∧ places.lookup d = some p := by
  induction gone generalizing places with
  | nil => exact ⟨by simp, h⟩
  | cons g gone ih =>
      obtain ⟨hd, h⟩ := ih h
      rw [Dict.lookup_erase'] at h
      split at h
      · cases h
      · rename_i hne
        exact ⟨by simp [hne, hd], h⟩

theorem GoodTables.forget {t : Tables} (h : GoodTables H t) (name : Str) : GoodTables H (t.forget name) where
  places d p hd := h.places d p (lookup_foldl_erase hd).2
  placedBy := h.placedBy

theorem lookup_foldl_unplace {pack : Str} {gone : List (Sigma fun _ : Digest => Place)} {t : Tables} {d : Digest}
    {p : Place} (h : (gone.foldl (Tables.unplaceOne pack) t).places.lookup d = some p) :
    d ∉ gone.map (·.1) ∧ t.places.lookup d = some p := by
  induction gone generalizing t with
  | nil => exact ⟨by simp, h⟩
  | cons g gone ih =>
      obtain ⟨hd, h⟩ := ih h
      simp only [Tables.unplaceOne, Dict.lookup_erase'] at h
      split at h
      · cases h
      · rename_i hne
        refine ⟨?_, h⟩
        simp only [List.map_cons, List.mem_cons, not_or]
        exact ⟨hne, hd⟩

theorem foldl_unplace_placedBy (pack : Str) (gone : List (Sigma fun _ : Digest => Place)) (t : Tables) :
    (gone.foldl (Tables.unplaceOne pack) t).placedBy = t.placedBy := by
  induction gone generalizing t with
  | nil => rfl
  | cons g gone ih => exact ih _

theorem GoodTables.unplace {t : Tables} (h : GoodTables H t) (pack : Str) (offset : Nat) :
    GoodTables H (t.unplace pack offset) where
  places d p hd := h.places d p (lookup_foldl_unplace hd).2
  placedBy s ps hs := by
    rw [Tables.unplace, foldl_unplace_placedBy] at hs
    exact h.placedBy s ps hs

theorem GoodTables.commit {t : Tables} (h : GoodTables H t) {places : Places} (hp : GoodPlaces H places) (stem : Str)
    (held : Held) (replaced : Option Held) : GoodTables H (t.commit stem held replaced places).2 := by
  apply GoodTables.setPlaced _ hp
  apply GoodTables.setHolder
  exact h.congr rfl rfl

theorem GoodTables.release {t : Tables} (h : GoodTables H t) (stem : Str) (held : Option Held) :
    GoodTables H (t.release stem held).2 where
  places := h.places
  placedBy s ps hs := by
    simp only [Tables.release, Dict.lookup_erase'] at hs
    split at hs
    · cases hs
    · exact h.placedBy s ps hs

/-- The groups of places: those of one pack together. -/
theorem mem_addPlace {placed : List (Str × Places)} {p q : Digest × Place} {g : Str × Places}
    (hg : g ∈ Tables.addPlace placed p) (hq : q ∈ g.2) :
    q = p ∧ g.1 = p.2.name ∨ ∃ g' ∈ placed, q ∈ g'.2 ∧ g'.1 = g.1 := by
  induction placed with
  | nil =>
      simp only [Tables.addPlace, List.mem_singleton] at hg
      subst hg
      exact .inl ⟨List.mem_singleton.mp hq, rfl⟩
  | cons g' rest ih =>
      obtain ⟨name, ps⟩ := g'
      unfold Tables.addPlace at hg
      split at hg
      · rename_i hname
        rcases List.mem_cons.mp hg with rfl | hg
        · rcases List.mem_append.mp hq with hq | hq
          · exact .inr ⟨(name, ps), by simp, hq, rfl⟩
          · exact .inl ⟨List.mem_singleton.mp hq, hname⟩
        · exact .inr ⟨g, by simp [hg], hq, rfl⟩
      · rcases List.mem_cons.mp hg with rfl | hg
        · exact .inr ⟨(name, ps), by simp, hq, rfl⟩
        · rcases ih hg with h | ⟨g', hg', h⟩
          · exact .inl h
          · exact .inr ⟨g', by simp [hg'], h⟩

theorem mem_groups {ps : Places} {placed : List (Str × Places)} {q : Digest × Place} {g : Str × Places}
    (hplaced : ∀ g ∈ placed, ∀ q ∈ g.2, q.2.name = g.1) (hg : g ∈ ps.foldl Tables.addPlace placed) (hq : q ∈ g.2) :
    q.2.name = g.1 ∧ (q ∈ ps ∨ ∃ g ∈ placed, q ∈ g.2) := by
  induction ps generalizing placed with
  | nil => exact ⟨hplaced g hg q hq, .inr ⟨g, hg, hq⟩⟩
  | cons p ps ih =>
      have hplaced' : ∀ g ∈ Tables.addPlace placed p, ∀ q ∈ g.2, q.2.name = g.1 := by
        intro g hg q hq
        rcases mem_addPlace hg hq with ⟨rfl, h⟩ | ⟨g', hg', hq', h⟩
        · exact h.symm
        · rw [← h]
          exact hplaced g' hg' q hq'
      obtain ⟨hname, h⟩ := ih hplaced' hg
      refine ⟨hname, ?_⟩
      rcases h with h | ⟨g', hg', hq'⟩
      · exact .inl (by simp [h])
      · rcases mem_addPlace hg' hq' with ⟨rfl, _⟩ | ⟨g'', hg'', hq'', _⟩
        · exact .inl (by simp)
        · exact .inr ⟨g'', hg'', hq''⟩

theorem mem_placesByPack {found : List Tables.Found} {g : Str × Places} {q : Digest × Place}
    (hg : g ∈ Tables.placesByPack found) (hq : q ∈ g.2) : q.2.name = g.1 ∧ ∃ f ∈ found, q ∈ parsePlaces f.places := by
  obtain ⟨hname, hq⟩ := mem_groups (by simp) hg hq
  refine ⟨hname, ?_⟩
  rcases hq with hq | ⟨_, hg', _⟩
  · exact List.mem_flatMap.mp hq
  · cases hg'

theorem GoodTables.learnAll {t : Tables} {groups : List (Str × Places)} (h : GoodTables H t)
    (hg : ∀ g ∈ groups, GoodPlaces H g.2) : GoodTables H (t.learnAll groups) := by
  induction groups generalizing t with
  | nil => exact h
  | cons g groups ih => exact ih (h.learn (hg g (by simp)) _) fun g h => hg g (by simp [h])

theorem GoodTables.indexAll {t : Tables} {found : List Tables.Found} (h : GoodTables H t)
    (hf : ∀ f ∈ found, GoodPlaces H f.places) : GoodTables H (t.indexAll found) := by
  induction found generalizing t with
  | nil => exact h
  | cons f found ih =>
      refine ih ?_ fun f h => hf f (by simp [h])
      unfold Tables.indexEntry
      split
      · exact h
      · exact (h.setHolder ..).setPlaced (hf f (by simp)) _

theorem GoodTables.index {t : Tables} (h : GoodTables H t) {found : List Tables.Found}
    (hf : ∀ f ∈ found, GoodPlaces H f.places) (started : Nat) : GoodTables H (t.index started found).2 := by
  have hplaced : ∀ g ∈ Tables.placesByPack found, GoodPlaces H g.2 := by
    intro g hg q hq
    obtain ⟨-, f, hff, hq⟩ := mem_placesByPack hg hq
    exact (hf f hff).parse q hq
  unfold Tables.index
  split
  · exact h
  · have h₀ : GoodTables H { t with size := Tables.setDefaults t.size (Dict.update ∅ (found.flatMap (·.held))) } :=
      h.congr rfl rfl
    exact ((h₀.learnAll hplaced).indexAll hf).congr rfl rfl

theorem GoodTables.repoint {t : Tables} (h : GoodTables H t) {placed : Places} (hp : GoodPlaces H placed)
    (stem old new : Str) : GoodTables H (t.repoint stem old new placed).2 := by
  simp only [Tables.repoint]
  split
  · refine ⟨h.places, fun s ps hs => ?_⟩
    simp only [Dict.lookup_insert'] at hs
    split at hs
    · cases hs
      refine GoodPlaces.update fun q hq => ?_
      obtain ⟨e, he, rfl⟩ := List.mem_map.mp hq
      have hbefore : GoodPlace H e.1 e.2 := by
        have hlook := Dict.lookup_of_mem_entries he
        simp only [Dict.getD, Tables.setHolder] at hlook
        cases hst : t.placedBy.lookup stem with
        | none => simp [hst] at hlook
        | some ps =>
            rw [hst] at hlook
            exact h.placedBy stem ps hst e.1 e.2 hlook
      dsimp only
      split
      · cases hm : (Dict.update (∅ : Dict Digest Place) placed).lookup e.1 with
        | none => exact hbefore
        | some p => exact hp.update e.1 p hm
      · exact hbefore
    · exact h.placedBy s ps hs
  · exact h.setHolder ..

theorem GoodTables.clear {t : Tables} (h : GoodTables H t) (now : Nat) : GoodTables H (t.clear now) where
  places d p hd := by simp [Tables.clear] at hd
  placedBy := h.placedBy

end Cash.Store
