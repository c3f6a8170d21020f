import Cash.Store.Backend
import Cash.Store.Lemmas.Good

/-!
# The operations keep the folder good

Every operation of a store calls only what the contract allows: it changes its tables by good places, and
it writes good files and entries, given that the files and entries it reads are good.
-/

namespace Cash.Store

open Bytes Py Chunks Entry

variable {H : Hashes} {conf : Conf}

/-- The program meets the contract, whatever it raises. -/
abbrev Keeps {α : Type} (H : Hashes) (p : StoreM α) (Q : α → Prop) : Prop :=
  p.Meets (storeContract H) Q fun _ => True

/-! ## Rules -/

theorem keeps_pure {α : Type} {Q : α → Prop} {a : α} (h : Q a) : Keeps H (pure a) Q := h

theorem keeps_raise {α : Type} {Q : α → Prop} (e : Exn) : Keeps H (.raise e) Q := trivial

theorem keeps_perform {α : Type} {Q : α → Prop} {op : Op α} (hmay : (storeContract H).may α op)
    (h : ∀ b, (storeContract H).gives α op b → Q b) : Keeps H (perform op) Q :=
  ⟨hmay, h⟩

theorem keeps_locked {α : Type} {Q : α → Prop} {f : Tables → α × Tables}
    (hf : ∀ t, GoodTables H t → GoodTables H (f t).2) (hQ : ∀ t, GoodTables H t → Q (f t).1) :
    Keeps H (locked f) Q := by
  refine keeps_perform hf fun b hb => ?_
  obtain ⟨t, ht, rfl⟩ := hb
  exact hQ t ht

/-- A section that only looks. -/
theorem keeps_look {α : Type} {Q : α → Prop} {f : Tables → α} (hQ : ∀ t, GoodTables H t → Q (f t)) :
    Keeps H (locked fun t => (f t, t)) Q :=
  keeps_locked (fun _ ht => ht) hQ

theorem keeps_update {f : Tables → Tables} (hf : ∀ t, GoodTables H t → GoodTables H (f t)) :
    Keeps H (update f) fun _ => True :=
  keeps_perform hf fun _ _ => trivial

theorem keeps_pend (name : Str) : Keeps H (update (Tables.pend name)) fun _ => True :=
  keeps_update fun _ ht => ht.congr rfl rfl

theorem keeps_unpend (names : List Str) : Keeps H (update (Tables.unpend names)) fun _ => True :=
  keeps_update fun _ ht => ht.congr rfl rfl

theorem keeps_orRaise {op : Op Bool} (hmay : (storeContract H).may Bool op) : Keeps H (orRaise op) fun _ => True := by
  refine Prog.Meets.bind (keeps_perform (Q := fun _ => True) hmay fun _ _ => trivial) fun b _ => ?_
  cases b with
  | false => exact keeps_raise _
  | true => exact keeps_pure trivial

/-- Two programs one after the other, of the first of which nothing is used. -/
theorem keeps_then {α β : Type} {Q : β → Prop} {p : StoreM α} {f : α → StoreM β} (h : Keeps H p fun _ => True)
    (hf : ∀ a, Keeps H (f a) Q) : Keeps H (p >>= f) Q :=
  Prog.Meets.bind h fun a _ => hf a

/-- A call of which nothing is asked and nothing used. -/
theorem keeps_call {α β : Type} {Q : β → Prop} {op : Op α} {f : α → StoreM β} (hmay : (storeContract H).may α op)
    (hf : ∀ a, Keeps H (f a) Q) : Keeps H (perform op >>= f) Q :=
  keeps_then (keeps_perform hmay fun _ _ => trivial) hf

theorem keeps_handle {α : Type} {Q : α → Prop} {p : StoreM α} {g : Exn → StoreM α} (h : Keeps H p Q)
    (hg : ∀ e, Keeps H (g e) Q) : Keeps H (p.handle g) Q :=
  Prog.Meets.handle h fun e _ => hg e

/-! ## Removing -/

theorem sweepOne_keeps (cutoff : Nat) (name : Str) : Keeps H (sweepOne cutoff name) fun _ => True := by
  refine keeps_then (keeps_look fun _ _ => trivial) fun used => ?_
  cases used with
  | true => exact keeps_pure trivial
  | false =>
      refine keeps_call trivial fun st => ?_
      cases st with
      | none => exact keeps_pure trivial
      | some st =>
          dsimp only
          split
          · refine keeps_call trivial fun b => ?_
            cases b <;> exact keeps_pure trivial
          · exact keeps_pure trivial

theorem sweepEach_keeps (cutoff : Nat) (names : List Str) : Keeps H (sweepEach cutoff names) fun _ => True := by
  induction names with
  | nil => exact keeps_pure trivial
  | cons name rest ih => exact keeps_then (sweepOne_keeps cutoff name) fun _ => keeps_then ih fun _ => keeps_pure trivial

theorem sweepOrphans_keeps : Keeps H sweepOrphans fun _ => True := by
  refine keeps_call trivial fun now => ?_
  refine keeps_call trivial fun listed => ?_
  cases listed with
  | none => exact keeps_pure trivial
  | some listed => exact sweepEach_keeps _ _

theorem entryAt_keeps (stem : Str) : Keeps H (entryAt stem) fun file => ∀ e, file = some e → GoodEntry H e := by
  refine keeps_call trivial fun ino => ?_
  cases ino with
  | none => exact keeps_pure fun e h => by cases h
  | some ino => exact keeps_perform trivial fun file h => h

/-- What an entry said it holds. -/
structure GoodFound (H : Hashes) (f : Tables.Found) : Prop where
  places : GoodPlaces H f.places
  held : ∀ p ∈ f.places, p.2.name ∈ f.held.map (·.1)

theorem entryChunks_keeps (stems : List Str) : Keeps H (entryChunks stems) fun found => ∀ f ∈ found, GoodFound H f := by
  induction stems with
  | nil => exact keeps_pure fun f hf => by cases hf
  | cons stem rest ih =>
      refine Prog.Meets.bind (entryAt_keeps stem) fun file hfile => ?_
      refine Prog.Meets.bind ih fun more hmore => ?_
      cases file with
      | none => exact keeps_pure hmore
      | some e =>
          have he := hfile e rfl
          dsimp only
          split
          · exact keeps_pure hmore
          · refine keeps_pure fun f hf => ?_
            rcases List.mem_cons.mp hf with rfl | hf
            · exact ⟨he.places, he.held⟩
            · exact hmore f hf

theorem ensureIndex_keeps : Keeps H ensureIndex fun _ => True := by
  refine keeps_then (keeps_look fun _ _ => trivial) fun indexed => ?_
  cases indexed with
  | true => exact keeps_pure trivial
  | false =>
      refine keeps_call trivial fun started => ?_
      refine keeps_call trivial fun stems => ?_
      refine Prog.Meets.bind (entryChunks_keeps stems) fun found hfound => ?_
      refine keeps_then (keeps_locked (fun t ht => ht.index (fun f hf => (hfound f hf).places) started) fun _ _ => trivial) fun first => ?_
      cases first with
      | true => exact sweepOrphans_keeps
      | false => exact keeps_pure trivial

theorem dropOne_keeps (name : Str) : Keeps H (dropOne name) fun _ => True := by
  refine keeps_then (keeps_look fun _ _ => trivial) fun look => ?_
  cases look with
  | none => exact keeps_pure trivial
  | some look =>
      refine keeps_call trivial fun st => ?_
      cases st with
      | none => exact keeps_pure trivial
      | some st =>
          dsimp only
          split
          · exact keeps_pure trivial
          · refine keeps_call trivial fun gone => ?_
            cases gone with
            | false => exact keeps_pure trivial
            | true =>
                refine keeps_then (keeps_update fun t ht => ht.congr rfl rfl) fun _ => ?_
                exact keeps_then (keeps_update fun t ht => ht.forget name) fun _ => keeps_pure trivial

theorem dropEach_keeps (names : List Str) : Keeps H (dropEach names) fun _ => True := by
  induction names with
  | nil => exact keeps_pure trivial
  | cons name rest ih => exact keeps_then (dropOne_keeps name) fun _ => keeps_then ih fun _ => keeps_pure trivial

theorem drop_keeps (names : List Str) : Keeps H (drop names) fun _ => True := by
  unfold drop
  split
  · exact keeps_pure trivial
  · refine keeps_call trivial fun order => ?_
    exact keeps_then ensureIndex_keeps fun _ => keeps_then (dropEach_keeps order) fun _ => keeps_pure trivial

theorem abandon_keeps (held : Held) : Keeps H (abandon held) fun _ => True :=
  keeps_then (keeps_unpend _) fun _ => drop_keeps _

/-! ## Writing -/

theorem noteOwn_keeps (name : Str) : Keeps H (noteOwn name) fun _ => True := by
  refine keeps_call trivial fun st => ?_
  cases st with
  | none => exact keeps_pure trivial
  | some st => exact keeps_update fun t ht => ht.congr rfl rfl

theorem holdStored_keeps (name : Str) : Keeps H (holdStored name) fun _ => True := by
  refine keeps_then (keeps_pend name) fun _ => ?_
  have htouch : Keeps H (touch name) fun _ => True := by
    refine keeps_call trivial fun b => ?_
    cases b with
    | true => exact keeps_perform trivial fun _ _ => trivial
    | false => exact keeps_pure trivial
  refine keeps_then htouch fun st => ?_
  cases st with
  | none => exact keeps_then (keeps_unpend _) fun _ => keeps_pure trivial
  | some st => exact keeps_then (noteOwn_keeps name) fun _ => keeps_pure trivial

theorem holdChunk_keeps (name : Str) (nbytes : Nat) : Keeps H (holdChunk name nbytes) fun _ => True := by
  refine keeps_then (keeps_pend name) fun _ => ?_
  have hreuse : Keeps H (reuse name nbytes) fun _ => True := by
    refine keeps_call trivial fun data => ?_
    cases data with
    | none => exact keeps_pure trivial
    | some data =>
        dsimp only
        split
        · exact keeps_pure trivial
        · refine keeps_call trivial fun b => ?_
          cases b <;> exact keeps_pure trivial
  refine keeps_then hreuse fun crc => ?_
  cases crc with
  | none => exact keeps_then (keeps_unpend _) fun _ => keeps_pure trivial
  | some crc => exact keeps_then (noteOwn_keeps name) fun _ => keeps_pure trivial

theorem chunkTemp_keeps : Keeps H chunkTemp fun _ => True := by
  refine keeps_call trivial fun made => ?_
  cases made with
  | done => exact keeps_pure trivial
  | failed => exact keeps_raise _
  | notFound =>
      refine keeps_then (keeps_orRaise trivial) fun _ => ?_
      refine keeps_call trivial fun made => ?_
      cases made with
      | done => exact keeps_pure trivial
      | failed => exact keeps_raise _
      | notFound => exact keeps_raise _

theorem writeMembers_keeps (offset : Nat) (views : List Bytes) : Keeps H (writeMembers offset views) fun _ => True := by
  induction views generalizing offset with
  | nil => exact keeps_pure trivial
  | cons view rest ih =>
      have hwrites : Keeps H (do orRaise .own; orRaise .own; writeMembers (offset + aligned offset + view.length + trailer) rest)
          fun _ => True :=
        keeps_then (keeps_orRaise trivial) fun _ => keeps_then (keeps_orRaise trivial) fun _ => ih _
      unfold writeMembers
      split
      · exact keeps_then (keeps_orRaise trivial) fun _ => hwrites
      · exact hwrites

theorem storePack_keeps {name : Str} {views : List Bytes} (h : GoodFile H name (packBytes 0 views)) :
    Keeps H (storePack name views) fun _ => True := by
  refine keeps_call trivial fun before => ?_
  refine keeps_then chunkTemp_keeps fun _ => ?_
  refine keeps_then (keeps_handle ?_ fun e => keeps_call trivial fun _ => keeps_raise e) fun _ =>
    keeps_then (noteOwn_keeps name) fun _ => keeps_pure trivial
  exact keeps_then (writeMembers_keeps 0 views) fun _ => keeps_orRaise h

/-- What a pack written tells. -/
structure GoodWritten (H : Hashes) (fresh : List (Digest × Bytes)) (w : Written) : Prop where
  met : fresh.map (·.1) ∈ H.packs
  name : w.name = packName H.sha256 (fresh.map (·.1))
  placed : w.placed = packPlaces w.name 0 fresh
  size : w.size = packEnd 0 (fresh.map (·.2.length))

theorem writePack_keeps (hH : H.Sound) {fresh : List (Digest × Bytes)} (hf : Fresh H fresh) :
    Keeps H (writePack fresh) (GoodWritten H fresh) := by
  refine Prog.Meets.bind (keeps_perform trivial fun name h => h) ?_
  rintro name ⟨hmet, rfl⟩
  refine keeps_then (keeps_pend _) fun _ => ?_
  have hfile := goodFile_pack hH (hf.isPack hmet)
  rw [hf.nameOf] at hfile
  refine keeps_then (keeps_handle (storePack_keeps hfile) fun e => keeps_then (keeps_unpend _) fun _ => keeps_raise e) fun before => ?_
  refine keeps_then (keeps_update fun t ht => ht.learn (hf.goodPlaces hmet) _) fun _ => ?_
  exact keeps_pure ⟨hmet, rfl, rfl, rfl⟩

/-- The variables of `put_all` at work on met buffers. -/
structure GoodPut (H : Hashes) (st : Put) : Prop where
  places : GoodPlaces H st.places
  held : ∀ p ∈ st.places, p.2.name ∈ st.files.map (·.1)
  fresh : Fresh H st.fresh

/-- A place added in a file that is held. -/
theorem GoodPut.addPlace {st : Put} (h : GoodPut H st) {digest : Digest} {p : Place} (hp : GoodPlace H digest p)
    {files : Held} (hfiles : ∀ n, n ∈ st.files.map (·.1) ∨ n = p.name → n ∈ files.map (·.1))
    (refs : List (Nat × Digest × Bytes)) :
    GoodPut H { st with files := files, refs := refs, places := Dict.setItem st.places digest p } where
  places q hq := by
    rcases Dict.mem_setItem hq with rfl | hq
    · exact hp
    · exact h.places q hq
  held q hq := by
    rcases Dict.mem_setItem hq with rfl | hq
    · exact hfiles _ (.inr rfl)
    · exact hfiles _ (.inl (h.held q hq))
  fresh := h.fresh

theorem holdFile_keeps (files : Held) (name : Str) : Keeps H (holdFile files name) fun r =>
    ∀ files', r = some files' → ∀ n, n ∈ files.map (·.1) ∨ n = name → n ∈ files'.map (·.1) := by
  unfold holdFile
  split
  · rename_i hname
    refine keeps_pure fun files' h n hn => ?_
    cases h
    rcases hn with hn | rfl
    · exact hn
    · exact hname
  · refine keeps_then (holdStored_keeps name) fun size => ?_
    cases size with
    | none => exact keeps_pure fun files' h => by cases h
    | some size =>
        refine keeps_pure fun files' h n hn => ?_
        cases h
        exact Dict.mem_keys_setItem.mpr hn.symm

theorem usePlace_keeps {st : Put} (h : GoodPut H st) (i : Nat) (view : Bytes) {digest : Digest} {place : Option Place}
    (hp : ∀ p, place = some p → GoodPlace H digest p) :
    Keeps H (usePlace st i view digest place) fun r => ∀ st', r = some st' → GoodPut H st' := by
  unfold usePlace
  cases place with
  | none => exact keeps_pure fun st' h => by cases h
  | some p =>
      dsimp only
      split
      · exact keeps_pure fun st' h => by cases h
      · refine Prog.Meets.bind (holdFile_keeps st.files p.name) fun files hfiles => ?_
        cases files with
        | none =>
            exact keeps_then (keeps_update fun t ht => ht.forget _) fun _ => keeps_pure fun st' h => by cases h
        | some files =>
            refine keeps_pure fun st' hst => ?_
            cases hst
            exact h.addPlace (hp p rfl) (hfiles files rfl) _

theorem useChunk_keeps {st : Put} (h : GoodPut H st) (i : Nat) (view : Bytes) (digest : Digest) :
    Keeps H (useChunk st i view digest) fun r => ∀ st', r = some st' → GoodPut H st' := by
  refine keeps_then (keeps_look fun _ _ => trivial) fun old => ?_
  cases old with
  | false => exact keeps_pure fun st' h => by cases h
  | true =>
      dsimp only
      cases (st.oldCrcs.find? fun p => p.1 = chunkName digest).map (·.2) with
      | some crc =>
          refine keeps_pure fun st' hst => ?_
          cases hst
          exact ⟨h.places, h.held, h.fresh⟩
      | none =>
          refine keeps_then (holdChunk_keeps _ _) fun crc => ?_
          cases crc with
          | none => exact keeps_pure fun st' h => by cases h
          | some crc =>
              refine keeps_pure fun st' hst => ?_
              cases hst
              exact ⟨h.places, fun p hp => Dict.mem_keys_setItem.mpr (.inr (h.held p hp)), h.fresh⟩

theorem wait_good {st : Put} (h : GoodPut H st) (i : Nat) {view : Bytes} {digest : Digest} (hv : view ∈ H.buffers)
    (hd : digest = H.bulkDigest view) : GoodPut H (wait st i view digest) where
  places := h.places
  held := h.held
  fresh := by
    unfold wait
    dsimp only
    split
    · exact h.fresh
    · constructor
      · intro f hf
        rcases List.mem_append.mp hf with hf | hf
        · exact h.fresh.buffers f hf
        · rw [List.mem_singleton.mp hf]
          exact hv
      · intro f hf
        rcases List.mem_append.mp hf with hf | hf
        · exact h.fresh.digests f hf
        · rw [List.mem_singleton.mp hf]
          exact hd

/-- A buffer with the digest its caller has. -/
structure GoodView (H : Hashes) (v : Bytes × Option Digest) : Prop where
  met : v.1 ∈ H.buffers
  known : ∀ d, v.2 = some d → d = H.bulkDigest v.1

theorem digestOf_keeps {view : Bytes} {known : Option Digest} (h : GoodView H (view, known)) :
    Keeps H (digestOf view known) fun d => d = H.bulkDigest view := by
  cases known with
  | some d => exact keeps_pure (h.known d rfl)
  | none => exact keeps_perform h.met fun d hd => hd

theorem putOne_keeps {st : Put} (h : GoodPut H st) (i : Nat) {view : Bytes} {known : Option Digest}
    (hv : GoodView H (view, known)) : Keeps H (putOne st i view known) (GoodPut H) := by
  apply Prog.Meets.bind (digestOf_keeps hv)
  rintro digest rfl
  apply Prog.Meets.bind (keeps_look (Q := fun place => ∀ p, place = some p → GoodPlace H (H.bulkDigest view) p)
    fun t ht p hp => ht.places _ p hp)
  intro place hplace
  refine Prog.Meets.bind (usePlace_keeps h i view hplace) fun used hused => ?_
  cases used with
  | some st' => exact keeps_pure (hused st' rfl)
  | none =>
      refine Prog.Meets.bind (useChunk_keeps h i view _) fun used hused => ?_
      cases used with
      | some st' => exact keeps_pure (hused st' rfl)
      | none => exact keeps_pure (wait_good h i hv.met rfl)

theorem putEach_keeps {st : Put} (h : GoodPut H st) (i : Nat) {views : List (Bytes × Option Digest)}
    (hv : ∀ v ∈ views, GoodView H v) : Keeps H (putEach st i views) (GoodPut H) := by
  induction views generalizing st i with
  | nil => exact keeps_pure h
  | cons v rest ih =>
      obtain ⟨view, known⟩ := v
      apply Prog.Meets.bind (putOne_keeps h i (hv _ (by simp)))
      intro st' h'
      exact ih h' (i + 1) fun v h => hv v (by simp [h])

theorem placeWaiting_good {written : Places} {st : Put} (h : GoodPut H st)
    (hw : ∀ p ∈ written, GoodPlace H p.1 p.2 ∧ p.2.name ∈ st.files.map (·.1)) : GoodPut H (placeWaiting written st) := by
  have hstep : ∀ (waiting : List (Nat × Digest)) (st : Put), GoodPut H st →
      (∀ p ∈ written, GoodPlace H p.1 p.2 ∧ p.2.name ∈ st.files.map (·.1)) →
      GoodPut H (waiting.foldl (placeOne written) st) := by
    intro waiting
    induction waiting with
    | nil => exact fun st h _ => h
    | cons w waiting ih =>
        intro st h hw
        rw [List.foldl_cons]
        cases hfind : written.find? (fun p => p.1 = w.2) with
        | none =>
            simp only [placeOne, hfind]
            exact ih st h hw
        | some p =>
            have hmem := List.mem_of_find?_eq_some hfind
            have hkey : p.1 = w.2 := by simpa using List.find?_some hfind
            obtain ⟨hgood, hname⟩ := hw p hmem
            rw [hkey] at hgood
            simp only [placeOne, hfind]
            refine ih _ (h.addPlace hgood (fun n hn => ?_) _) hw
            rcases hn with hn | rfl
            · exact hn
            · exact hname
  exact hstep st.waiting st h hw

/-- What `put_all` returns is fit for an entry. -/
structure GoodStored (H : Hashes) (s : Stored) : Prop where
  places : GoodPlaces H s.places
  held : ∀ p ∈ s.places, p.2.name ∈ s.held.map (·.1)

theorem putAll_keeps (hH : H.Sound) {views : List Bytes} {known : List (Option Digest)}
    (hv : ∀ v ∈ views.zip known, GoodView H v) : Keeps H (putAll views known) (GoodStored H) := by
  refine keeps_then ensureIndex_keeps fun _ => ?_
  have hnone : GoodPut H ⟨[], [], [], [], [], []⟩ :=
    ⟨fun p hp => (nomatch hp), fun p hp => (nomatch hp), ⟨fun f hf => (nomatch hf), fun f hf => nomatch hf⟩⟩
  refine Prog.Meets.bind (putEach_keeps hnone 0 hv) fun st h => ?_
  dsimp only
  split
  · exact keeps_pure ⟨h.places, h.held⟩
  · apply Prog.Meets.bind (keeps_handle (writePack_keeps hH h.fresh) fun e =>
      keeps_then (abandon_keeps _) fun _ => keeps_raise e)
    intro w hw
    have hgood : GoodPlaces H w.placed := by
      rw [hw.placed, hw.name]
      exact h.fresh.goodPlaces hw.met
    have hput : GoodPut H { st with files := Dict.setItem st.files w.name w.size } :=
      ⟨h.places, fun p hp => Dict.mem_keys_setItem.mpr (.inr (h.held p hp)), h.fresh⟩
    have hplaced := placeWaiting_good hput fun p hp => ⟨hgood p hp, by
      rw [hw.placed] at hp
      obtain ⟨_, _, _, _, _, _, rfl⟩ := mem_packPlaces hp
      exact Dict.mem_keys_setItem.mpr (.inl rfl)⟩
    exact keeps_pure ⟨hplaced.places, hplaced.held⟩

end Cash.Store
