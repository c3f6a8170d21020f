import Cash.Store.Lemmas.Compact
import Cash.Store.World

/-!
# Reads and tasks among many processes
-/

namespace Cash.Store

open Bytes Py Chunks Entry

variable {H : Hashes} {conf : Conf}

/-!
## Reads of chunks are right

With good places and good files, whatever the table of an entry asks for: what `read_chunks` returns for an
index is the buffer its digest names, and everything it raises is a `ChunkError`.
-/

def IsChunkError (e : Exn) : Prop := ∃ c, e = .read (.chunk c)

/-- The name of a pack can be encoded for the file system, and a place of a chunk can be shown. -/
structure PlainNames (H : Hashes) (conf : Conf) : Prop where
  encodes : EncodesPacks H conf
  shows : ∀ d p, GoodPlace H d p → conf.env.reprReturns (placeVal p) = true

/-- The program meets the contract and raises nothing but a `ChunkError`. -/
abbrev Reads {α : Type} (H : Hashes) (p : StoreM α) (Q : α → Prop) : Prop :=
  p.Meets (storeContract H) Q IsChunkError

/-- The buffer that was asked for under the index. -/
def Asked (H : Hashes) (ws : List Wanted) (i : Nat) (data : Bytes) : Prop :=
  ∀ w ∈ ws, w.index = i → ∀ b ∈ H.buffers, H.bulkDigest b = w.digest → data = b

/-- For each index one buffer that answers whatever was asked. -/
theorem exists_answer (hH : H.Sound) {ws : List Wanted} (hws : (ws.map (·.index)).Nodup) :
    ∃ D : Nat → Bytes, ∀ i, Asked H ws i (D i) := by
  classical
  refine ⟨fun i => if h : ∃ b ∈ H.buffers, ∃ w ∈ ws, w.index = i ∧ H.bulkDigest b = w.digest then h.choose else [], ?_⟩
  rintro i w hw rfl b hb hd
  have h : ∃ b ∈ H.buffers, ∃ w' ∈ ws, w'.index = w.index ∧ H.bulkDigest b = w'.digest := ⟨b, hb, w, hw, rfl, hd⟩
  dsimp only
  rw [dif_pos h]
  obtain ⟨hb', w', hw', hidx, hd'⟩ := h.choose_spec
  have hww : w' = w := List.inj_on_of_nodup_map hws hw' hw hidx
  rw [hww, ← hd] at hd'
  exact hH.digest_inj hb' hb hd'

theorem get_placesItems {places : Places} {d : Digest} {v : Val} (h : placeOf (some (placesItems places)) d = some v) :
    ∃ p, (d, p) ∈ places ∧ v = placeVal p := by
  simp only [placeOf, Option.getD_some, Items.get] at h
  cases hfind : (placesItems places).find? fun q => q.1.isStr (hex d) with
  | none => simp [hfind] at h
  | some q =>
      obtain ⟨p, hp, rfl⟩ := List.mem_map.mp (List.mem_of_find?_eq_some hfind)
      have hkey : hex p.1 = hex d := by simpa using List.find?_some hfind
      rw [hfind] at h
      cases h
      exact ⟨p.2, by rw [← hex_injective hkey]; exact hp, rfl⟩

/-! ### One chunk -/

theorem readChunk_cases {env : Env} {dir : ChunkDir} {digest : Digest} {nbytes : Nat} {crc : Bytes} :
    (∃ file, dir (chunkName digest) = some file ∧ file.length = nbytes + trailer ∧
      (readChunk env dir digest nbytes crc).result = .ok (file.take nbytes)) ∨
    ∃ c, (readChunk env dir digest nbytes crc).result = .error (.chunk c) := by
  simp only [readChunk]
  cases hdir : dir (chunkName digest) with
  | none => exact .inr ⟨_, rfl⟩
  | some file =>
      dsimp only
      by_cases hsize : file.length ≠ nbytes + trailer
      · rw [if_pos hsize]
        exact .inr ⟨_, rfl⟩
      · rw [if_neg hsize, Io.result_bind_ok (allocUnless_result ..)]
        by_cases hcrc : crcOf (file.take nbytes) ≠ crc
        · rw [if_pos hcrc]
          exact .inr ⟨_, rfl⟩
        · rw [if_neg hcrc]
          exact .inl ⟨file, rfl, not_not.mp hsize, rfl⟩

theorem readChunkFile_reads (w : Wanted) :
    Reads H (readChunkFile conf w) fun data => ∀ b ∈ H.buffers, H.bulkDigest b = w.digest → data = b := by
  refine Prog.Meets.bind (P := fun file => ∀ data, file = some data → GoodFile H (chunkName w.digest) data)
    ⟨trivial, fun file h => h⟩ fun file hfile => ?_
  rcases @readChunk_cases conf.env (fun _ => file) w.digest w.nbytes w.crc with ⟨data, hd, hlen, hr⟩ | ⟨c, hr⟩
  · rw [hr]
    intro b hb hdig
    have hgood := (hfile data hd).chunk b hb (by rw [hdig])
    have hn : w.nbytes = b.length := by
      rw [hgood, List.length_append, length_crcOf] at hlen
      simp only [trailer] at hlen
      omega
    rw [hgood, hn]
    simp
  · rw [hr]
    cases c with
    | checksum name => exact ⟨trivial, fun _ _ => ⟨_, rfl⟩⟩
    | missing name => exact ⟨_, rfl⟩
    | wrongSize name size said => exact ⟨_, rfl⟩
    | place digest place => exact ⟨_, rfl⟩
    | outside name size offset nbytes => exact ⟨_, rfl⟩
    | twoDifferent name offset => exact ⟨_, rfl⟩
    | damaged name offset => exact ⟨_, rfl⟩

theorem parsePlace_reads (hplain : PlainNames H conf) {d : Digest} {p : Place} (hp : GoodPlace H d p) (nbytes : Nat) :
    Reads H (raising (parsePlace conf.env d nbytes (placeVal p))) fun r =>
      r = (p.name, (p.offset : Int)) ∧ nbytes = p.nbytes := by
  have hshow := hplain.shows d p hp
  cases hp with
  | mk hpack hb ho =>
      rename_i bufs k b offset
      have hends : (H.nameOf bufs).endsWith packSuffix = true := packName_endsWith _ _
      have hslash : 47 ∉ H.nameOf bufs := by
        intro h
        rcases List.mem_append.mp h with h | h
        · exact not_mem_hex _ (by decide) h
        · simp [packSuffix, str] at h
      by_cases hn : b.length = nbytes
      · subst hn
        unfold raising
        rw [placeVal, parsePlace_result hends hslash]
        exact ⟨rfl, rfl⟩
      · have hne : ¬((b.length : Int) = (nbytes : Int)) := by
          intro h
          exact hn (Int.ofNat_inj.mp h)
        have hr : (parsePlace conf.env (H.bulkDigest b) nbytes (placeVal ⟨H.nameOf bufs, offset, b.length, crcOf b⟩)).result =
            .error (.chunk (.place (H.bulkDigest b) (placeVal ⟨H.nameOf bufs, offset, b.length, crcOf b⟩))) := by
          rw [placeVal] at hshow ⊢
          simp [parsePlace, Io.result_bind, Val.item, Val.toInt, Except.bind, Except.mapError, hne, hshow]
        unfold raising
        rw [hr]
        exact ⟨_, rfl⟩

/-! ### The two loops -/

section

variable {ws : List Wanted} {D : Nat → Bytes}

/-- The chunks of each pack are where they are said to be. -/
def SortedGood (H : Hashes) (D : Nat → Bytes) (byFile : List (Str × List Member)) : Prop :=
  ∀ g ∈ byFile, ∃ bufs, H.IsPack bufs ∧ g.1 = H.nameOf bufs ∧ ∀ m ∈ g.2, Placed bufs D m

theorem addMember_sortedGood (hH : H.Sound) {byFile : List (Str × List Member)} {bufs : List Bytes} {m : Member}
    (h : SortedGood H D byFile) (hpack : H.IsPack bufs) (hm : Placed bufs D m) :
    SortedGood H D (addMember (H.nameOf bufs) m byFile) := by
  induction byFile with
  | nil =>
      intro g hg
      simp only [addMember, List.mem_singleton] at hg
      subst hg
      refine ⟨bufs, hpack, rfl, fun m' hm' => ?_⟩
      rw [List.mem_singleton.mp hm']
      exact hm
  | cons g rest ih =>
      obtain ⟨name, ms⟩ := g
      have hrest : SortedGood H D rest := fun g hg => h g (by simp [hg])
      unfold addMember
      split
      · rename_i heq
        intro g hg
        rcases List.mem_cons.mp hg with rfl | hg
        · obtain ⟨bufs', hpack', hname, hms⟩ := h (name, ms) (by simp)
          have hbufs : bufs' = bufs := nameOf_inj hH hpack' hpack (hname.symm.trans heq)
          subst hbufs
          refine ⟨bufs', hpack, heq, fun m' hm' => ?_⟩
          rcases List.mem_append.mp hm' with hm' | hm'
          · exact hms m' hm'
          · rw [List.mem_singleton.mp hm']
            exact hm
        · exact hrest g hg
      · intro g hg
        rcases List.mem_cons.mp hg with rfl | hg
        · exact h _ (by simp)
        · exact ih hrest g hg

theorem sortChunks_reads (hH : H.Sound) (hplain : PlainNames H conf) {places : Places} (hp : GoodPlaces H places)
    (hD : ∀ i, Asked H ws i (D i)) {todo : List Wanted} (htodo : ∀ w ∈ todo, w ∈ ws)
    (hws : (ws.map (·.index)).Nodup) {byFile : List (Str × List Member)} {out : List (Nat × Bytes)}
    (hsorted : SortedGood H D byFile) (hout : ∀ r ∈ out, Asked H ws r.1 r.2) :
    Reads H (sortChunks conf (placesItems places) byFile out todo) fun r => SortedGood H D r.1 ∧
      (∀ q ∈ r.2, Asked H ws q.1 q.2) ∧ ∀ i, (i ∈ groupIndices r.1 ∨ i ∈ r.2.map (·.1)) ↔
        (i ∈ groupIndices byFile ∨ i ∈ out.map (·.1)) ∨ i ∈ todo.map (·.index) := by
  induction todo generalizing byFile out with
  | nil => exact ⟨hsorted, hout, by simp⟩
  | cons w rest ih =>
      have hw := htodo w (by simp)
      have hrest : ∀ w ∈ rest, w ∈ ws := fun w h => htodo w (by simp [h])
      unfold sortChunks
      cases hplace : placeOf (some (placesItems places)) w.digest with
      | none =>
          refine Prog.Meets.bind (readChunkFile_reads w) fun data hdata => ?_
          have hout' : ∀ r ∈ out ++ [(w.index, data)], Asked H ws r.1 r.2 := by
            intro r hr
            rcases List.mem_append.mp hr with hr | hr
            · exact hout r hr
            · rw [List.mem_singleton.mp hr]
              intro w' hw' hidx
              rw [List.inj_on_of_nodup_map hws hw' hw hidx]
              exact hdata
          refine (ih hrest hsorted hout').mono (fun r hr => ⟨hr.1, hr.2.1, fun i => ?_⟩) fun _ he => he
          rw [hr.2.2 i]
          simp only [List.map_append, List.map_cons, List.map_nil, List.mem_append, List.mem_cons]
          tauto
      | some place =>
          obtain ⟨p, hmem, rfl⟩ := get_placesItems hplace
          have hgood := hp _ hmem
          refine Prog.Meets.bind (parsePlace_reads hplain hgood w.nbytes) ?_
          rintro _ ⟨rfl, hn⟩
          generalize hdig : w.digest = digest at hgood
          cases hgood with
          | mk hpack hb ho =>
              rename_i bufs k b offset
              have hDw : D w.index = b := hD w.index w hw rfl b (hpack.buffers b (List.mem_of_getElem? hb)) hdig.symm
              have hm : Placed bufs D ⟨w.index, offset, w.nbytes, w.crc⟩ :=
                ⟨⟨k, offset, by rw [hDw]; exact hb, ho, rfl⟩, by rw [hDw]; exact hn⟩
              refine (ih hrest (addMember_sortedGood hH hsorted hpack hm) hout).mono
                (fun r hr => ⟨hr.1, hr.2.1, fun i => ?_⟩) fun _ he => he
              rw [hr.2.2 i, mem_groupIndices_addMember]
              simp only [List.map_cons, List.mem_cons]
              tauto

theorem readEachPack_reads (henc : EncodesPacks H conf) (hD : ∀ i, Asked H ws i (D i))
    {byFile : List (Str × List Member)} {out : List (Nat × Bytes)} (hsorted : SortedGood H D byFile)
    (hout : ∀ r ∈ out, Asked H ws r.1 r.2) :
    Reads H (readEachPack conf out byFile) fun found => (∀ q ∈ found, Asked H ws q.1 q.2) ∧
      ∀ i, i ∈ found.map (·.1) ↔ i ∈ groupIndices byFile ∨ i ∈ out.map (·.1) := by
  induction byFile generalizing out with
  | nil => exact ⟨hout, by simp [groupIndices]⟩
  | cons g rest ih =>
      obtain ⟨name, ms⟩ := g
      obtain ⟨bufs, hpack, hname, hms⟩ := hsorted (name, ms) (by simp)
      dsimp only at hname hms
      subst hname
      have hrest : SortedGood H D rest := fun g hg => hsorted g (by simp [hg])
      refine Prog.Meets.bind (P := fun found => found = ms.map fun m => (m.index, D m.index)) ?_ fun found hfound => ?_
      · refine Prog.Meets.bind (P := fun file => ∀ data, file = some data → GoodFile H (H.nameOf bufs) data)
          ⟨trivial, fun file h => h⟩ fun file hfile => ?_
        unfold raising
        rcases readPack_right (henc _) (fun data hd => (hfile data hd).pack bufs hpack rfl) hms with hr | ⟨c, hr⟩
        · rw [Hashes.nameOf, hr]
          exact rfl
        · rw [Hashes.nameOf, hr]
          exact ⟨c, rfl⟩
      · subst hfound
        have hout' : ∀ r ∈ out ++ ms.map (fun m => (m.index, D m.index)), Asked H ws r.1 r.2 := by
          intro r hr
          rcases List.mem_append.mp hr with hr | hr
          · exact hout r hr
          · obtain ⟨m, _, rfl⟩ := List.mem_map.mp hr
            exact hD m.index
        refine (ih hrest hout').mono (fun found hf => ⟨hf.1, fun i => ?_⟩) fun _ he => he
        rw [hf.2 i]
        simp only [groupIndices, List.flatMap_cons, List.mem_append, List.map_append, List.map_map, Function.comp_def]
        tauto

end

/-- What `read_chunks` returns. -/
structure RightReads (H : Hashes) (ws : List Wanted) (found : List (Nat × Bytes)) : Prop where
  all : ∀ w ∈ ws, ∃ data, (w.index, data) ∈ found
  right : ∀ w ∈ ws, ∀ b ∈ H.buffers, H.bulkDigest b = w.digest → ∀ data, (w.index, data) ∈ found → data = b

theorem readStored_reads (hH : H.Sound) (hplain : PlainNames H conf) {places : Places} (hp : GoodPlaces H places)
    {ws : List Wanted} (hws : (ws.map (·.index)).Nodup) :
    Reads H (readStored conf ws (placesItems places)) (RightReads H ws) := by
  obtain ⟨D, hD⟩ := exists_answer hH hws
  refine Prog.Meets.bind (sortChunks_reads hH hplain hp hD (fun w h => h) hws (fun g hg => nomatch hg)
    fun r hr => nomatch hr) ?_
  rintro ⟨byFile, out⟩ ⟨hsorted, hout, hidx⟩
  refine (readEachPack_reads hplain.encodes hD hsorted hout).mono (fun found hf => ?_) fun _ he => he
  constructor
  · intro w hw
    have hmem : w.index ∈ found.map (·.1) := by
      rw [hf.2, hidx]
      exact .inr (List.mem_map_of_mem hw)
    obtain ⟨q, hq, hqi⟩ := List.mem_map.mp hmem
    exact ⟨q.2, by rw [← hqi]; exact hq⟩
  · intro w hw b hb hd data hdata
    exact hf.1 _ hdata w hw rfl b hb hd

/-!
## Processes that keep one folder good

The world honours the contract of the store, and every task of a process meets it.
-/

/-- Every file, every entry and every process is good. -/
structure GoodWorld (H : Hashes) (w : World) : Prop where
  tables : ∀ pid, GoodTables H (w.processes pid).tables
  folder : GoodFolder H w.folder

theorem GoodFolder.insertChunk {F : Folder} (h : GoodFolder H F) {name : Str} {f : File} (hf : GoodFile H name f.data) :
    GoodFolder H { F with chunks := F.chunks.insert name f } where
  chunks n f' hf' := by
    rcases Dict.lookup_insert_cases hf' with ⟨rfl, rfl⟩ | ⟨-, hf'⟩
    · exact hf
    · exact h.chunks n f' hf'
  files := h.files

theorem GoodFolder.insertFile {F : Folder} (h : GoodFolder H F) {ino : Nat} {slot : Slot}
    (hs : ∀ e, slot = .whole e → GoodEntry H e) (entries : Dict Str Nat) :
    GoodFolder H { F with files := F.files.insert ino slot, entries := entries } where
  chunks := h.chunks
  files i e hi := by
    rcases Dict.lookup_insert_cases hi with ⟨rfl, hslot⟩ | ⟨-, hi⟩
    · exact hs e hslot.symm
    · exact h.files i e hi

theorem FolderStep.good {β : Type} {F F' : Folder} {op : Op β} {b : β} (h : FolderStep H F op b F')
    (hF : GoodFolder H F) (hmay : (storeContract H).may β op) : (storeContract H).gives β op b ∧ GoodFolder H F' := by
  cases h with
  | iterate hperm => exact ⟨hperm, hF⟩
  | digest _ => exact ⟨rfl, hF⟩
  | packName hm => exact ⟨⟨hm, rfl⟩, hF⟩
  | utime now hf =>
      have hgood := hF.chunks _ _ hf
      exact ⟨trivial, hF.insertChunk hgood⟩
  | remove _ => exact ⟨trivial, fun n f hf => hF.chunks n f (Dict.lookup_of_erase hf).2, hF.files⟩
  | read =>
      refine ⟨fun data hd => ?_, hF⟩
      obtain ⟨f, hf, rfl⟩ := Option.map_eq_some_iff.mp hd
      exact hF.chunks _ f hf
  | readFails => exact ⟨fun data hd => (nomatch hd), hF⟩
  | replace now => exact ⟨trivial, hF.insertChunk (f := ⟨_, now⟩) hmay⟩
  | create now _ => exact ⟨trivial, hF.insertChunk (f := ⟨_, now⟩) hmay⟩
  | readFile hi =>
      refine ⟨fun e he => ?_, hF⟩
      cases he
      exact hF.files _ _ hi
  | readFileFails => exact ⟨fun e he => (nomatch he), hF⟩
  | tempFile _ => exact ⟨trivial, hF.insertFile (fun e he => by cases he; exact hmay) _⟩
  | takeAside _ => exact ⟨trivial, hF.chunks, hF.files⟩
  | link _ => exact ⟨trivial, hF.chunks, hF.files⟩
  | createEntry _ _ => exact ⟨trivial, hF.insertFile (fun e he => by cases he) _⟩
  | writeFile => exact ⟨trivial, hF.insertFile (fun e he => by cases he; exact hmay) _⟩
  | replaceEntry => exact ⟨trivial, hF.chunks, hF.files⟩
  | removeEntry _ => exact ⟨trivial, hF.chunks, hF.files⟩
  | _ => exact ⟨trivial, hF⟩

theorem CallStep.good {β : Type} {tid : Nat} {p p' : Process} {F F' : Folder} {op : Op β} {b : β}
    (h : CallStep H tid (p, F) op b (p', F')) (hp : GoodTables H p.tables) (hF : GoodFolder H F)
    (hmay : (storeContract H).may β op) :
    (storeContract H).gives β op b ∧ GoodTables H p'.tables ∧ GoodFolder H F' := by
  cases h with
  | locked => exact ⟨⟨_, hp, rfl⟩, hmay _ hp, hF⟩
  | commit => exact ⟨trivial, hp.commit hmay _ _ _, hF⟩
  | release => exact ⟨trivial, hp.release _ _, hF⟩
  | repoint => exact ⟨trivial, hp.repoint hmay _ _ _, hF⟩
  | lock _ => exact ⟨trivial, hp, hF⟩
  | tryLock _ => exact ⟨trivial, hp, hF⟩
  | tryLockHeld _ => exact ⟨trivial, hp, hF⟩
  | unlock =>
      refine ⟨trivial, ?_, hF⟩
      unfold Process.letGo
      split <;> exact hp
  | folder hstep =>
      obtain ⟨hgives, hF'⟩ := hstep.good hF hmay
      exact ⟨hgives, hp, hF'⟩

theorem honours_store : Prog.Honours (worldStep H) (storeContract H) (GoodWorld H) := by
  rintro pid tid β w op b _ hw hmay ⟨p, F, hstep, rfl⟩
  obtain ⟨hgives, hp, hF⟩ := hstep.good (hw.tables pid) hw.folder hmay
  refine ⟨hgives, fun pid' => ?_, hF⟩
  simp only [Function.update_apply]
  split
  · exact hp
  · exact hw.tables pid'

theorem die_good (pid : Nat) (w w' : World) (hw : GoodWorld H w) (h : w.die pid w') : GoodWorld H w' := by
  subst h
  refine ⟨fun pid' => ?_, hw.folder⟩
  simp only [Function.update_apply]
  split
  · exact goodTables_new
  · exact hw.tables pid'

/-! ### The tasks -/

section

variable (hH : H.Sound) (hplain : PlainNames H conf)

include hH hplain

theorem commit_keeps (stem : Str) (held : Held) (replaced : Option Held) {places : Places} (hp : GoodPlaces H places) :
    Keeps H (commit conf stem held replaced places) fun _ => True :=
  keeps_call hp fun _ =>
    keeps_then (drop_keeps _) fun _ => keeps_then (compact_keeps hH hplain.encodes _) fun _ => keeps_pure trivial

theorem release_keeps (stem : Str) (held : Option Held) : Keeps H (release conf stem held) fun _ => True :=
  keeps_call trivial fun _ =>
    keeps_then (drop_keeps _) fun _ => keeps_then (compact_keeps hH hplain.encodes _) fun _ => keeps_pure trivial

omit hH hplain in
theorem chunksHeld_keeps (stem : Str) : Keeps H (chunksHeld stem) fun _ => True := by
  refine keeps_then (keeps_look fun _ _ => trivial) fun known => ?_
  cases known with
  | true => exact keeps_pure trivial
  | false =>
      refine keeps_call trivial fun dir => ?_
      cases dir with
      | false => exact keeps_pure trivial
      | true =>
          refine keeps_then ((entryAt_keeps stem).mono (fun _ _ => trivial) fun _ h => h) fun file => ?_
          cases file <;> exact keeps_pure trivial

omit hH hplain in
theorem writeFile_keeps (stem : Str) {file : EntryFile} (hf : GoodEntry H file) :
    Keeps H (writeFile stem file) fun _ => True := by
  have hnew : Keeps H (writeNewInPlace stem file) fun _ => True := by
    refine keeps_call trivial fun made => ?_
    cases made with
    | error _ => exact keeps_pure trivial
    | ok ino =>
        refine keeps_call hf fun written => ?_
        cases written with
        | true => exact keeps_pure trivial
        | false => exact keeps_call trivial fun _ => keeps_raise _
  have hatomic : Keeps H (atomicWrite stem file) fun _ => True := by
    refine keeps_call trivial fun made => ?_
    cases made with
    | failed => exact keeps_raise _
    | notFound => exact keeps_raise _
    | done =>
        refine keeps_call hf fun ino => ?_
        cases ino with
        | none => exact keeps_call trivial fun _ => keeps_raise _
        | some ino =>
            refine keeps_call trivial fun done => ?_
            cases done with
            | true => exact keeps_pure trivial
            | false => exact keeps_call trivial fun _ => keeps_raise _
  refine keeps_then hnew fun made => ?_
  cases made with
  | true => exact keeps_pure trivial
  | false => exact hatomic

omit hH hplain in
theorem placeEntry_keeps (stem : Str) {file : Option EntryFile} (hf : ∀ e, file = some e → GoodEntry H e) :
    Keeps H (placeEntry stem file) fun _ => True := by
  cases file with
  | none => exact keeps_raise _
  | some file =>
      have hwrite := writeFile_keeps stem (hf file rfl)
      have hretry : Keeps H (writeFileRetry stem file) fun _ => True := by
        refine keeps_handle hwrite fun e => ?_
        cases e with
        | notFound =>
            exact keeps_then (keeps_orRaise trivial) fun _ => keeps_call trivial fun _ => keeps_call trivial fun _ => hwrite
        | os => exact keeps_raise _
        | replaced => exact keeps_raise _
        | keyError => exact keeps_raise _
        | read e => exact keeps_raise _
      refine keeps_call trivial fun old => ?_
      cases old with
      | none => exact keeps_then hretry fun _ => keeps_pure trivial
      | some old => exact keeps_then (chunksHeld_keeps stem) fun _ => keeps_then hretry fun _ => keeps_pure trivial

theorem writeCacheFiles_keeps (stem : Str) {views : List Bytes} {known : List (Option Digest)}
    (hv : ∀ v ∈ views.zip known, GoodView H v) (pack : Stored → Option EntryFile) :
    Keeps H (writeCacheFiles conf stem views known pack) fun _ => True := by
  have hkept : Keeps H (keepApart views known) (GoodStored H) := by
    unfold keepApart
    split
    · exact keeps_pure ⟨fun p hp => (nomatch hp), fun p hp => nomatch hp⟩
    · exact putAll_keeps hH hv
  refine Prog.Meets.bind hkept fun s hs => keeps_call trivial fun _ => ?_
  have hfile : ∀ e, packedWith pack s = some e → GoodEntry H e := by
    intro e he
    obtain ⟨e', -, rfl⟩ := Option.map_eq_some_iff.mp he
    exact ⟨hs.places, hs.held⟩
  refine keeps_then (Prog.Meets.ensuring ?_ (keeps_perform trivial fun _ _ => trivial)) fun _ => keeps_pure trivial
  refine keeps_then (keeps_handle (placeEntry_keeps stem hfile) fun e => keeps_then (abandon_keeps _) fun _ => keeps_raise e)
    fun r => ?_
  exact keeps_then (commit_keeps hH hplain stem s.held r.2 hs.places) fun _ => keeps_pure trivial

theorem removePath_keeps (stem : Str) : Keeps H (removePath conf stem) fun _ => True := by
  refine keeps_then (chunksHeld_keeps stem) fun held => keeps_call trivial fun size => keeps_call trivial fun _ =>
    keeps_call trivial fun removed => keeps_call trivial fun _ => ?_
  have hrelease := keeps_then (Q := fun _ => True) (release_keeps hH hplain stem held) fun freed =>
    keeps_pure (H := H) (a := ((size.getD 0 : Nat) + freed : Int)) trivial
  cases removed with
  | failed => exact keeps_pure trivial
  | done => exact hrelease
  | notFound => exact hrelease

omit hH hplain in
theorem removeEach_keeps (names : List Str) : Keeps H (removeEach names) fun _ => True := by
  induction names with
  | nil => exact keeps_pure trivial
  | cons name rest ih => exact keeps_call trivial fun _ => ih

omit hH hplain in
theorem clear_keeps : Keeps H clear fun _ => True := by
  refine keeps_call trivial fun now => keeps_then (keeps_update fun t ht => ht.clear now) fun _ =>
    keeps_call trivial fun listed => ?_
  cases listed with
  | none => exact keeps_pure trivial
  | some listed => exact removeEach_keeps _

theorem removeDamaged_keeps (stem pack : Str) (offset : Nat) :
    Keeps H (removeDamaged conf stem pack offset) fun _ => True := by
  have hpaths : ∀ stems : List Str, Keeps H (removePaths conf stems) fun _ => True := by
    intro stems
    induction stems with
    | nil => exact keeps_pure trivial
    | cons stem rest ih => exact keeps_then (removePath_keeps hH hplain stem) fun _ => keeps_then ih fun _ => keeps_pure trivial
  have hdamaged : Keeps H (damaged pack offset) fun _ => True :=
    keeps_then ensureIndex_keeps fun _ => keeps_locked (fun t ht => ht.unplace pack offset) fun _ _ => trivial
  exact keeps_then hdamaged fun _ => keeps_call trivial fun order => hpaths order

omit hH hplain in
theorem clearAll_keeps : Keeps H clearAll fun _ => True := by
  have hentries : ∀ stems : List Str, Keeps H (removeEntries stems) fun _ => True := by
    intro stems
    induction stems with
    | nil => exact keeps_pure trivial
    | cons stem rest ih => exact keeps_call trivial fun _ => ih
  exact keeps_call trivial fun stems => keeps_then (hentries stems) fun _ => clear_keeps

/-- A read comes back with the right bytes of a good entry. -/
def RightReply (H : Hashes) : Reply → Prop
  | .done => True
  | .read e ws found => GoodEntry H e ∧ RightReads H ws found

omit hH hplain in
theorem quiet_reads {α : Type} {p : StoreM α} (h : Keeps H p fun _ => True) : Reads H (quiet p) (RightReply H) :=
  Prog.Meets.after (h.mono (fun _ _ => trivial) fun _ _ => trivial)

theorem task_reads {p : StoreM Reply} (h : Task H conf p) : Reads H p (RightReply H) := by
  cases h with
  | write stem views known pack hv =>
      exact quiet_reads (writeCacheFiles_keeps hH hplain stem (fun v h => ⟨(hv v h).1, (hv v h).2⟩) pack)
  | remove stem => exact quiet_reads (removePath_keeps hH hplain stem)
  | removeDamaged stem pack offset => exact quiet_reads (removeDamaged_keeps hH hplain stem pack offset)
  | release stem held => exact quiet_reads (release_keeps hH hplain stem held)
  | drop names => exact quiet_reads (drop_keeps names)
  | ensureIndex => exact quiet_reads ensureIndex_keeps
  | sweepOrphans => exact quiet_reads sweepOrphans_keeps
  | compactOne name => exact quiet_reads (compactOne_keeps hH hplain.encodes name)
  | clear => exact quiet_reads clear_keeps
  | clearAll => exact quiet_reads clearAll_keeps
  | read stem table htable =>
      refine Prog.Meets.bind (P := fun file => ∀ e, file = some e → GoodEntry H e) ?_ fun file hfile => ?_
      · refine ⟨trivial, fun ino _ => ?_⟩
        cases ino with
        | none => exact fun e he => nomatch he
        | some ino => exact ⟨trivial, fun file h => h⟩
      · cases file with
        | none => exact trivial
        | some e =>
            have he := hfile e rfl
            exact Prog.Meets.bind (readStored_reads hH hplain he.places (htable e)) fun found hfound => ⟨he, hfound⟩

end

end Cash.Store
