import Cash.Chunks.Lemmas.Read
import Cash.Store.Lemmas.Contract

/-!
# Making a pack smaller keeps the folder good

The live chunks of a pack are read from it, so they are the buffers their digests name; the places planned
for them are the places `_write_pack` uses; and an entry told of them is good again.
-/

namespace Cash.Store

open Bytes Py Chunks Entry

variable {H : Hashes} {conf : Conf}

/-! ## The live chunks -/

theorem mem_foldl_live {name : Str} {es : List (Sigma fun _ : Digest => Place)} {live : Places} {q : Digest × Place}
    (h : q ∈ es.foldl (addLive name) live) :
    q ∈ live ∨ q.2.name = name ∧ (⟨q.1, q.2⟩ : Sigma fun _ : Digest => Place) ∈ es := by
  induction es generalizing live with
  | nil => exact .inl h
  | cons e es ih =>
      rcases ih h with h | ⟨hname, h⟩
      · unfold addLive at h
        split at h
        · rename_i hname
          rcases Dict.mem_setItem h with rfl | h
          · exact .inr ⟨hname, by simp⟩
          · exact .inl h
        · exact .inl h
      · exact .inr ⟨hname, by simp [h]⟩

theorem mem_foldl_lives {name : Str} {stems : List Str} {placed : List (Str × Dict Digest Place)} {live : Places}
    {q : Digest × Place} (h : q ∈ stems.foldl (addLives name placed) live) :
    q ∈ live ∨ q.2.name = name ∧ ∃ g ∈ placed, g.2.lookup q.1 = some q.2 := by
  induction stems generalizing live with
  | nil => exact .inl h
  | cons s stems ih =>
      rcases ih h with h | h
      · unfold addLives at h
        cases hfind : placed.find? (fun p => p.1 = s) with
        | none =>
            rw [hfind] at h
            exact .inl h
        | some g =>
            rw [hfind] at h
            rcases mem_foldl_live h with h | ⟨hname, h⟩
            · exact .inl h
            · exact .inr ⟨hname, g, List.mem_of_find?_eq_some hfind, Dict.lookup_of_mem_entries h⟩
      · exact .inr h

/-- A live chunk is one that a holder places in the pack. -/
theorem mem_liveChunks {name : Str} {stems : List Str} {placed : List (Str × Dict Digest Place)} {q : Digest × Place}
    (h : q ∈ liveChunks name stems placed) : q.2.name = name ∧ ∃ g ∈ placed, g.2.lookup q.1 = some q.2 := by
  rcases mem_foldl_lives h with h | h
  · cases h
  · exact h

theorem forall₂_of_mapM {α β : Type} {f : α → Option β} {l : List α} {l' : List β} (h : l.mapM f = some l') :
    List.Forall₂ (fun a b => f a = some b) l l' := by
  induction l generalizing l' with
  | nil =>
      simp only [List.mapM_nil, Option.pure_def, Option.some.injEq] at h
      subst h
      exact .nil
  | cons a l ih =>
      simp only [List.mapM_cons, Option.bind_eq_bind, Option.bind_eq_some_iff, Option.pure_def,
        Option.some.injEq] at h
      obtain ⟨b, hb, bs, hbs, rfl⟩ := h
      exact .cons hb (ih hbs)

theorem exists_of_forall₂ {α β : Type} {R : α → β → Prop} {l : List α} {l' : List β} (h : List.Forall₂ R l l')
    {b : β} (hb : b ∈ l') : ∃ a ∈ l, R a b := by
  induction h with
  | nil => cases hb
  | cons hab _ ih =>
      rcases List.mem_cons.mp hb with rfl | hb
      · exact ⟨_, by simp, hab⟩
      · obtain ⟨a, ha, hR⟩ := ih hb
        exact ⟨a, by simp [ha], hR⟩

theorem compactLook_placed {name : Str} {t : Tables} {placed : List (Str × Dict Digest Place)} {size : Nat}
    (h : t.compactLook name = some (placed, size)) : ∀ g ∈ placed, t.placedBy.lookup g.1 = some g.2 := by
  unfold Tables.compactLook at h
  dsimp only at h
  split at h
  · cases h
  · simp only [Option.map_eq_some_iff, Prod.mk.injEq] at h
    obtain ⟨placed', hm, rfl, rfl⟩ := h
    intro g hg
    obtain ⟨s, _, hs⟩ := exists_of_forall₂ (forall₂_of_mapM hm) hg
    obtain ⟨ps, hps, rfl⟩ := Option.map_eq_some_iff.mp hs
    exact hps

/-! ## The chunks read back -/

/-- The chunk at a place is this buffer of the pack. -/
structure Backed (H : Hashes) (bufs : List Bytes) (q : Digest × Place) (b : Bytes) : Prop where
  met : b ∈ H.buffers
  digest : q.1 = H.bulkDigest b
  nbytes : q.2.nbytes = b.length
  crc : q.2.crc = crcOf b
  chunk : ∃ k : Nat, bufs[k]? = some b ∧ (packOffsets 0 (bufs.map List.length))[k]? = some q.2.offset

theorem exists_backed (hH : H.Sound) {bufs : List Bytes} (hp : H.IsPack bufs) {members : Places}
    (hm : ∀ q ∈ members, GoodPlace H q.1 q.2 ∧ q.2.name = H.nameOf bufs) :
    ∃ bs, List.Forall₂ (Backed H bufs) members bs := by
  induction members with
  | nil => exact ⟨[], .nil⟩
  | cons q members ih =>
      obtain ⟨bs, hbs⟩ := ih fun q hq => hm q (by simp [hq])
      obtain ⟨d, p⟩ := q
      obtain ⟨hgood, hname⟩ := hm (d, p) (by simp)
      cases hgood with
      | mk hp' hb ho =>
          rename_i bufs' k b offset
          have hbufs : bufs' = bufs := nameOf_inj hH hp' hp hname
          subst hbufs
          exact ⟨b :: bs, .cons ⟨hp.buffers b (List.mem_of_getElem? hb), rfl, rfl, rfl, k, hb, ho⟩ hbs⟩

/-- The live chunks with their bytes. -/
def freshOf (members : Places) (bs : List Bytes) : List (Digest × Bytes) := List.zipWith (fun q b => (q.1, b)) members bs

section

variable {bufs : List Bytes} {members : Places} {bs : List Bytes}

theorem asMembers_placed (hb : List.Forall₂ (Backed H bufs) members bs) {i : Nat} {D : Nat → Bytes}
    (hD : ∀ (j : Nat) (b : Bytes), bs[j]? = some b → D (i + j) = b) : ∀ m ∈ asMembers i members, Placed bufs D m := by
  induction hb generalizing i with
  | nil => exact fun m hm => nomatch hm
  | cons hqb _ ih =>
      rename_i q b members bs _
      obtain ⟨d, p⟩ := q
      intro m hm
      simp only [asMembers, List.mem_cons] at hm
      rcases hm with rfl | hm
      · have hDi : D i = b := by simpa using hD 0 b rfl
        obtain ⟨k, hk, ho⟩ := hqb.chunk
        refine ⟨⟨k, p.offset, ?_, ho, rfl⟩, ?_⟩
        · rw [hDi]
          exact hk
        · rw [hDi]
          exact hqb.nbytes
      · refine ih (fun j b hj => ?_) m hm
        have := hD (j + 1) b (by simpa using hj)
        rw [← this]
        congr 1
        omega

theorem readBack_backed (hb : List.Forall₂ (Backed H bufs) members bs) {i : Nat} {data : List (Nat × Bytes)}
    (hdata : ∀ (j : Nat) (b : Bytes), bs[j]? = some b → data.find? (fun p => p.1 = i + j) = some (i + j, b)) :
    readBack data i members = some (freshOf members bs) := by
  induction hb generalizing i with
  | nil => rfl
  | cons hqb _ ih =>
      rename_i q b members bs _
      obtain ⟨d, p⟩ := q
      have h₀ : data.find? (fun p => p.1 = i) = some (i, b) := by simpa using hdata 0 b rfl
      have hrest := ih (i := i + 1) fun j b hj => by
        have := hdata (j + 1) b (by simpa using hj)
        rw [show i + 1 + j = i + (j + 1) by omega]
        exact this
      simp [readBack, h₀, hrest, freshOf]

theorem find_members {i j : Nat} {D : Nat → Bytes} (hj : j < members.length) :
    ((asMembers i members).map fun m => (m.index, D m.index)).find? (fun p => p.1 = i + j) = some (i + j, D (i + j)) := by
  induction members generalizing i j with
  | nil => simp at hj
  | cons q members ih =>
      obtain ⟨d, p⟩ := q
      cases j with
      | zero => simp [asMembers]
      | succ j =>
          have := ih (i := i + 1) (j := j) (by simpa using hj)
          rw [show i + 1 + j = i + (j + 1) by omega] at this
          simpa [asMembers] using this

theorem freshOf_fresh (hb : List.Forall₂ (Backed H bufs) members bs) : Fresh H (freshOf members bs) := by
  induction hb with
  | nil => exact ⟨fun f hf => (nomatch hf), fun f hf => nomatch hf⟩
  | cons hqb _ ih =>
      constructor
      · intro f hf
        rcases List.mem_cons.mp hf with rfl | hf
        · exact hqb.met
        · exact ih.buffers f hf
      · intro f hf
        rcases List.mem_cons.mp hf with rfl | hf
        · exact hqb.digest
        · exact ih.digests f hf

theorem freshOf_keys (hb : List.Forall₂ (Backed H bufs) members bs) :
    (freshOf members bs).map (·.1) = members.map (·.1) := by
  induction hb with
  | nil => rfl
  | cons _ _ ih => simpa [freshOf] using ih

/-- The places planned are the places `_write_pack` uses. -/
theorem plan_eq_packPlaces (hb : List.Forall₂ (Backed H bufs) members bs) (newName : Str) (offset : Nat) :
    plan newName offset members = packPlaces newName offset (freshOf members bs) := by
  induction hb generalizing offset with
  | nil => rfl
  | cons hqb _ ih =>
      rename_i q b members bs _
      obtain ⟨d, p⟩ := q
      have hn := hqb.nbytes
      have hc := hqb.crc
      dsimp only at hn hc
      have hfresh : freshOf ((d, p) :: members) (b :: bs) = (d, b) :: freshOf members bs := rfl
      simp only [plan, hfresh, packPlaces, hn, hc, ih]

/-- A read of the live chunks gives their bytes, or raises. -/
theorem readPack_backed (hb : List.Forall₂ (Backed H bufs) members bs) {name : Str} {file : Option Bytes}
    (henc : conf.env.encodes name = true) (hfile : ∀ data, file = some data → data = packBytes 0 bufs)
    {data : List (Nat × Bytes)} (h : (readPack conf.env (fun _ => file) name (asMembers 0 members)).result = .ok data) :
    readBack data 0 members = some (freshOf members bs) := by
  have hright := readPack_right henc hfile
    (asMembers_placed hb (i := 0) (D := fun j => (bs[j]?).getD []) fun j b hj => by simp [hj])
  rcases hright with hright | ⟨e, hright⟩
  · rw [h] at hright
    cases hright
    apply readBack_backed hb
    intro j b hj
    have hlen : j < members.length := by
      rw [hb.length_eq]
      exact (List.getElem?_eq_some_iff.mp hj).1
    have := find_members (D := fun j => (bs[j]?).getD []) (i := 0) hlen
    simp only [Nat.zero_add] at this ⊢
    rw [this]
    simp [hj]
  · rw [h] at hright
    cases hright

end

/-! ## Entries told -/

theorem mem_movedHeld {held : Held} {old : Str} {new : Str × Nat} {n : Str} (hold : old ∈ held.map (·.1))
    (hne : new.1 ≠ old) : n ∈ (movedHeld old new held).map (·.1) ↔ n = new.1 ∨ n ∈ held.map (·.1) ∧ n ≠ old := by
  unfold movedHeld
  split
  · rename_i hnew
    have hfilter : n ∈ (held.filter fun h => h.1 ≠ old).map (·.1) ↔ n ∈ held.map (·.1) ∧ n ≠ old := by
      simp only [List.mem_map, List.mem_filter, decide_eq_true_eq]
      constructor
      · rintro ⟨h, ⟨hh, hno⟩, rfl⟩
        exact ⟨⟨h, hh, rfl⟩, hno⟩
      · rintro ⟨⟨h, hh, rfl⟩, hno⟩
        exact ⟨h, ⟨hh, hno⟩, rfl⟩
    rw [hfilter]
    constructor
    · exact .inr
    · rintro (rfl | h)
      · exact ⟨hnew, hne⟩
      · exact h
  · simp only [List.map_map, List.mem_map, Function.comp_apply]
    constructor
    · rintro ⟨h, hh, rfl⟩
      by_cases ho : h.1 = old
      · simp [ho]
      · simp only [ho, if_false]
        exact .inr ⟨⟨h, hh, rfl⟩, ho⟩
    · rintro (rfl | ⟨⟨h, hh, rfl⟩, ho⟩)
      · obtain ⟨h, hh, rfl⟩ := List.mem_map.mp hold
        exact ⟨h, hh, by simp⟩
      · exact ⟨h, hh, by simp [ho]⟩

/-- What `moved_head` makes of an entry. -/
theorem moveHead_eq_some {e e' : EntryFile} {old : Str} {new : Str × Nat} {moved : Places}
    (h : moveHead conf e old new moved = some e') :
    e.split = true ∧ old ∈ e.held.map (·.1) ∧ conf.metaLen e' ≤ e.cap ∧
      ∃ places, e.places.mapM (movedPlace old moved) = some places ∧
        e' = { e with held := movedHeld old new e.held, places := places } := by
  unfold moveHead at h
  split at h
  · cases h
  · rename_i hc
    simp only [not_or, Bool.not_eq_false, not_not] at hc
    obtain ⟨places, hp, h⟩ := Option.bind_eq_some_iff.mp h
    dsimp only at h
    split at h
    · cases h
    · rename_i hfits
      cases h
      exact ⟨hc.1, hc.2, Nat.le_of_not_lt hfits, places, hp, rfl⟩

theorem moveHead_good {e e' : EntryFile} {old : Str} {new : Str × Nat} {moved : Places} (he : GoodEntry H e)
    (hm : ∀ m ∈ moved, GoodPlace H m.1 m.2 ∧ m.2.name = new.1) (hne : new.1 ≠ old)
    (h : moveHead conf e old new moved = some e') : GoodEntry H e' := by
  obtain ⟨-, hold, -, places, hp, rfl⟩ := moveHead_eq_some h
  have hplaced : ∀ q ∈ places, GoodPlace H q.1 q.2 ∧
      (q.2.name = new.1 ∨ q.2.name ∈ e.held.map (·.1) ∧ q.2.name ≠ old) := by
    intro q hq
    obtain ⟨p, hpe, hpq⟩ := exists_of_forall₂ (forall₂_of_mapM hp) hq
    unfold movedPlace at hpq
    split at hpq
    · obtain ⟨m, hfind, rfl⟩ := Option.map_eq_some_iff.mp hpq
      obtain ⟨hgood, hname⟩ := hm m (List.mem_of_find?_eq_some hfind)
      have hkey : m.1 = p.1 := by simpa using List.find?_some hfind
      rw [hkey] at hgood
      exact ⟨hgood, .inl hname⟩
    · rename_i hno
      rw [← Option.some.inj hpq]
      exact ⟨he.places p hpe, .inr ⟨he.held p hpe, hno⟩⟩
  exact ⟨fun q hq => (hplaced q hq).1, fun q hq => (mem_movedHeld hold hne).mpr (hplaced q hq).2⟩

/-! ## The programs -/

theorem movedHead_keeps (stem : Str) {old : Str} {new : Str × Nat} {moved : Places}
    (hm : ∀ m ∈ moved, GoodPlace H m.1 m.2 ∧ m.2.name = new.1) (hne : new.1 ≠ old) :
    Keeps H (movedHead conf stem old new moved) fun head => ∀ e, head = some e → GoodEntry H e := by
  refine Prog.Meets.bind (entryAt_keeps stem) fun file hfile => ?_
  cases file with
  | none => exact keeps_pure fun e h => nomatch h
  | some e => exact keeps_pure fun e' he' => moveHead_good (hfile e rfl) hm hne he'

theorem linkIfAbsent_keeps (ino : Nat) (stem : Str) : Keeps H (linkIfAbsent ino stem) fun _ => True := by
  refine keeps_call trivial fun made => ?_
  cases made with
  | done => exact keeps_pure trivial
  | «exists» => exact keeps_pure trivial
  | failed => exact keeps_raise _

theorem takeAway_keeps (stem : Str) : Keeps H (takeAway stem) fun _ => True := by
  refine keeps_call trivial fun b => ?_
  cases b with
  | false => exact keeps_pure trivial
  | true =>
      refine keeps_call trivial fun b => ?_
      cases b with
      | false => exact keeps_pure trivial
      | true =>
          refine keeps_call trivial fun b => ?_
          cases b with
          | false => exact keeps_pure trivial
          | true => exact keeps_perform trivial fun _ _ => trivial

theorem swapIfSame_keeps (new : Nat) (stem : Str) (identity : Bytes × Flt) :
    Keeps H (swapIfSame new stem identity) fun _ => True := by
  have haside : Keeps H (swapAside new stem identity) fun _ => True := by
    refine keeps_then (takeAway_keeps stem) fun aside => ?_
    cases aside with
    | none => exact keeps_raise _
    | some aside =>
        refine keeps_call trivial fun there => ?_
        split
        · exact keeps_then (linkIfAbsent_keeps aside stem) fun _ => keeps_raise _
        · refine keeps_then (linkIfAbsent_keeps new stem) fun linked => ?_
          cases linked with
          | true => exact keeps_pure trivial
          | false => exact keeps_raise _
  refine keeps_call trivial fun made => ?_
  cases made with
  | done =>
      exact haside.ensuring (keeps_call trivial fun _ => keeps_call trivial fun _ => keeps_pure trivial)
  | notFound => exact keeps_raise _
  | failed => exact keeps_raise _

theorem putHead_keeps {head : EntryFile} (hh : GoodEntry H head) (stem : Str) :
    Keeps H (putHead head stem) fun _ => True := by
  have hcopy : Keeps H (copyEntry head stem) fun _ => True := by
    refine keeps_then (keeps_orRaise trivial) fun _ => keeps_call trivial fun src => ?_
    cases src with
    | none => exact keeps_raise _
    | some src =>
        refine keeps_call trivial fun payload => ?_
        cases payload with
        | none => exact keeps_raise _
        | some payload =>
            refine keeps_call ⟨hh.places, hh.held⟩ fun ino => ?_
            cases ino with
            | none => exact keeps_raise _
            | some ino => exact keeps_pure trivial
  refine keeps_call trivial fun made => ?_
  cases made with
  | notFound => exact keeps_raise _
  | failed => exact keeps_raise _
  | done =>
      refine keeps_handle (keeps_then hcopy fun ino => keeps_then (swapIfSame_keeps ino stem _) fun _ => keeps_pure trivial)
        fun e => keeps_call trivial fun _ => ?_
      cases e with
      | replaced => exact keeps_pure trivial
      | os => exact keeps_raise _
      | notFound => exact keeps_raise _
      | keyError => exact keeps_raise _
      | read e => exact keeps_raise _

section

variable {old : Str} {new : Str × Nat} {planned placed : Places}

theorem repoint_keeps (stem : Str) (hm : ∀ m ∈ planned, GoodPlace H m.1 m.2 ∧ m.2.name = new.1) (hne : new.1 ≠ old)
    (hp : GoodPlaces H placed) : Keeps H (repoint conf stem old new planned placed) fun _ => True := by
  refine keeps_call trivial fun taken => ?_
  cases taken with
  | false => exact keeps_pure trivial
  | true =>
      refine Prog.Meets.ensuring ?_ (keeps_perform trivial fun _ _ => trivial)
      refine Prog.Meets.bind (movedHead_keeps stem hm hne) fun head hhead => ?_
      cases head with
      | none => exact keeps_pure trivial
      | some head =>
          refine keeps_then (putHead_keeps (hhead head rfl) stem) fun put => ?_
          cases put with
          | false => exact keeps_pure trivial
          | true =>
              refine keeps_call hp fun told => ?_
              cases told with
              | true => exact keeps_pure trivial
              | false => exact keeps_raise _

theorem repointEach_keeps (stems : List Str) (hm : ∀ m ∈ planned, GoodPlace H m.1 m.2 ∧ m.2.name = new.1)
    (hne : new.1 ≠ old) (hp : GoodPlaces H placed) :
    Keeps H (repointEach conf old new planned placed stems) fun _ => True := by
  induction stems with
  | nil => exact keeps_pure trivial
  | cons stem rest ih =>
      exact keeps_then (repoint_keeps stem hm hne hp) fun _ => keeps_then ih fun _ => keeps_pure trivial

theorem canMoveAll_keeps (stems : List Str) : Keeps H (canMoveAll conf old new planned stems) fun _ => True := by
  induction stems with
  | nil => exact keeps_pure trivial
  | cons stem rest ih =>
      have hhead : Keeps H (movedHead conf stem old new planned) fun _ => True := by
        refine keeps_then ((entryAt_keeps stem).mono (fun _ _ => trivial) fun _ h => h) fun file => ?_
        cases file <;> exact keeps_pure trivial
      refine keeps_then hhead fun head => ?_
      cases head with
      | none => exact keeps_pure trivial
      | some head => exact ih

end

/-- Names of packs can be encoded for the file system. -/
def EncodesPacks (H : Hashes) (conf : Conf) : Prop := ∀ ms, conf.env.encodes (packName H.sha256 ms) = true

theorem readPackFile_keeps {bufs bs : List Bytes} {members : Places} (henc : EncodesPacks H conf) (hp : H.IsPack bufs)
    (hb : List.Forall₂ (Backed H bufs) members bs) :
    Keeps H (readPackFile conf (H.nameOf bufs) (asMembers 0 members)) fun data =>
      readBack data 0 members = some (freshOf members bs) := by
  refine Prog.Meets.bind (keeps_perform trivial fun file h => h) fun file hfile => ?_
  unfold raising
  cases hr : (readPack conf.env (fun _ => file) (H.nameOf bufs) (asMembers 0 members)).result with
  | error e => exact keeps_raise _
  | ok data =>
      refine keeps_pure (readPack_backed hb (henc _) (fun data hd => ?_) hr)
      exact (hfile data hd).pack bufs hp rfl

/-- Live chunks of one pack. -/
structure GoodMembers (H : Hashes) (name : Str) (members : Places) : Prop where
  nonempty : members ≠ []
  places : ∀ q ∈ members, GoodPlace H q.1 q.2 ∧ q.2.name = name

theorem GoodMembers.exists_pack {name : Str} {members : Places} (h : GoodMembers H name members) :
    ∃ bufs, H.IsPack bufs ∧ name = H.nameOf bufs := by
  obtain ⟨⟨d, p⟩, rest, rfl⟩ := List.exists_cons_of_ne_nil h.nonempty
  obtain ⟨hgood, rfl⟩ := h.places (d, p) (by simp)
  cases hgood with
  | mk hp _ _ => exact ⟨_, hp, rfl⟩

theorem rewrite_keeps (hH : H.Sound) (henc : EncodesPacks H conf) {name newName : Str} {members : Places}
    (hm : GoodMembers H name members) (hnew : newName = packName H.sha256 (members.map (·.1))) (hne : newName ≠ name)
    (stems : List Str) : Keeps H (rewrite conf name newName members stems) fun _ => True := by
  obtain ⟨bufs, hpack, rfl⟩ := hm.exists_pack
  obtain ⟨bs, hb⟩ := exists_backed hH hpack hm.places
  refine keeps_then (canMoveAll_keeps stems) fun can => ?_
  cases can with
  | false => exact keeps_pure trivial
  | true =>
      refine Prog.Meets.bind (readPackFile_keeps henc hpack hb) fun data hdata => keeps_call trivial fun there => ?_
      rw [hdata]
      refine Prog.Meets.bind (writePack_keeps hH (freshOf_fresh hb)) fun w hw => ?_
      have hname : w.name = newName := by rw [hw.name, freshOf_keys hb, hnew]
      have hgood : GoodPlaces H w.placed := by
        rw [hw.placed, hw.name]
        exact (freshOf_fresh hb).goodPlaces hw.met
      have hplanned : ∀ m ∈ plan newName 0 members, GoodPlace H m.1 m.2 ∧ m.2.name = w.name := by
        intro m hm
        rw [plan_eq_packPlaces hb, ← hname, ← hw.placed] at hm
        refine ⟨hgood m hm, ?_⟩
        rw [hw.placed] at hm
        obtain ⟨_, _, _, _, _, _, rfl⟩ := mem_packPlaces hm
        rfl
      have hsettle : Keeps H (settle w) fun _ => True :=
        keeps_then (keeps_update fun t ht => ht.congr rfl rfl) fun _ => keeps_unpend _
      refine keeps_then (Prog.Meets.ensuring
        (repointEach_keeps stems hplanned (by rw [hname]; exact hne) hgood) hsettle) fun moved => ?_
      split
      · split
        · exact keeps_pure trivial
        · exact keeps_then (drop_keeps _) fun _ => keeps_pure trivial
      · exact keeps_then (drop_keeps _) fun _ => keeps_pure trivial

theorem claim_keeps (name : Str) : Keeps H (claim name) fun _ => True := by
  refine keeps_call (goodFile_claim name) fun made => ?_
  cases made with
  | done => exact keeps_pure trivial
  | failed => exact keeps_pure trivial
  | «exists» =>
      refine keeps_call trivial fun st => ?_
      cases st with
      | none => exact keeps_pure trivial
      | some st =>
          refine keeps_call trivial fun now => ?_
          by_cases hage : st.mtime < now - orphanChunkAge
          · rw [if_pos hage]
            exact keeps_call trivial fun _ => keeps_pure trivial
          · rw [if_neg hage]
            exact keeps_pure trivial

theorem compactOne_keeps (hH : H.Sound) (henc : EncodesPacks H conf) (name : Str) :
    Keeps H (compactOne conf name) fun _ => True := by
  refine Prog.Meets.bind (keeps_look (Q := fun look => ∀ g, look = some g → ∀ s ∈ g.1, ∀ d p, s.2.lookup d = some p →
    GoodPlace H d p) fun t ht g hg s hs => ht.placedBy s.1 s.2 (compactLook_placed hg s hs)) fun look hlook => ?_
  cases look with
  | none => exact keeps_pure trivial
  | some look =>
      obtain ⟨placed, size⟩ := look
      refine keeps_call trivial fun stems => ?_
      dsimp only
      split
      · exact keeps_pure trivial
      · rename_i hlive
        have hmembers : GoodMembers H name (sortLive (liveChunks name stems placed)) := by
          have hperm := List.perm_insertionSort (fun a b : Digest × Place => a.2.offset ≤ b.2.offset)
            (liveChunks name stems placed)
          constructor
          · intro hnil
            unfold sortLive at hnil
            rw [hnil] at hperm
            exact hlive (.inl hperm.symm.eq_nil)
          · intro q hq
            obtain ⟨hname, g, hg, hlook'⟩ := mem_liveChunks (hperm.mem_iff.mp hq)
            exact ⟨hlook _ rfl g hg _ _ hlook', hname⟩
        refine Prog.Meets.bind (keeps_perform trivial fun newName h => h) ?_
        rintro newName ⟨-, hnew⟩
        split
        · exact keeps_pure trivial
        · rename_i hne
          refine keeps_then (claim_keeps name) fun claimed => ?_
          cases claimed with
          | false => exact keeps_pure trivial
          | true =>
              exact (rewrite_keeps hH henc hmembers hnew hne stems).ensuring
                (keeps_call trivial fun _ => keeps_pure trivial)

theorem compact_keeps (hH : H.Sound) (henc : EncodesPacks H conf) (names : List Str) :
    Keeps H (compact conf names) fun _ => True := by
  have heach : ∀ names : List Str, Keeps H (compactEach conf names) fun _ => True := by
    intro names
    induction names with
    | nil => exact keeps_pure trivial
    | cons name rest ih =>
        have htry : Keeps H (compactTry conf name) fun _ => True := by
          unfold compactTry
          cases name.endsWith packSuffix with
          | true => exact keeps_handle (compactOne_keeps hH henc name) fun _ => keeps_pure trivial
          | false => exact keeps_pure trivial
        exact keeps_then htry fun _ => keeps_then ih fun _ => keeps_pure trivial
  exact keeps_call trivial fun order => heach order

end Cash.Store
