import Cash.Store.Lemmas.Index
import Cash.Store.Lemmas.Live
import Cash.Store.Lemmas.World

/-!
# The chunk store
-/

namespace Cash.Store

open Bytes Py Chunks Entry

variable {H : Hashes} {conf : Conf}

/-!
## The chunk store

The results about `ChunkStore`: reads among any number of processes.
-/

/-! ### A read is right or a `ChunkError` -/

/-- Any number of processes write, remove, sweep, compact and clear in one folder, and any of them may stop
between two calls. When `read_chunks` returns for an entry, the bytes under the index of a chunk that the
entry's metadata places are the buffer with that chunk's digest; all it raises is a `ChunkError`. -/
theorem readChunks_right (hH : H.Sound) (hplain : PlainNames H conf) {F : Folder} (hF : GoodFolder H F)
    {c : Prog.Config Op Exn Reply World} (hc : Reachable H conf F c) {tid : Nat} {t : Prog.Thread Op Exn Reply}
    (ht : c.threads tid = some t) :
    (∀ e ws found, t.prog = .ret (.read e ws found) → ∀ w ∈ ws, ∀ p, (w.digest, p) ∈ e.places →
      ∃ b ∈ H.buffers, H.bulkDigest b = w.digest ∧ (w.index, b) ∈ found ∧
        ∀ data, (w.index, data) ∈ found → data = b) ∧
    ∀ e, t.prog = .raise e → ∃ c, e = .read (.chunk c) := by
  have hstart : GoodWorld H ⟨fun _ => .new, F⟩ := ⟨fun _ => goodTables_new, hF⟩
  obtain ⟨-, hmeets⟩ := honours_store.reaches die_good (fun p hp => task_reads hH hplain hp) hstart hc
  have hprog := hmeets tid t ht
  constructor
  · intro e ws found hret w hw p hp
    rw [hret] at hprog
    obtain ⟨he, hfound⟩ := hprog
    have hgood := he.places _ hp
    generalize hd : w.digest = d at hgood
    cases hgood with
    | @mk bufs k b offset hpack hb _ =>
        have hmet := hpack.buffers b (List.mem_of_getElem? hb)
        have hright := hfound.right w hw b hmet hd.symm
        obtain ⟨data, hdata⟩ := hfound.all w hw
        refine ⟨b, hmet, rfl, ?_, hright⟩
        rw [← hright data hdata]
        exact hdata
  · intro e hraise
    rw [hraise] at hprog
    exact hprog

/-- `bulk_digest(b"\x01")`, hashed with SHA-256. -/
def oneDigest : Digest :=
  [229, 201, 172, 249, 182, 96, 180, 76, 221, 2, 31, 255, 73, 53, 195, 236, 129, 13, 164, 126, 239, 172, 11, 88, 45,
    129, 116, 95, 74, 226, 11, 62]

/-- The SHA-256 of that digest. -/
def oneSha : Bytes :=
  [92, 83, 5, 220, 4, 45, 34, 97, 153, 229, 39, 194, 153, 145, 13, 77, 253, 167, 179, 62, 64, 56, 24, 91, 230, 172,
    126, 96, 6, 97, 81, 186]

def oneHash : Hashes := ⟨fun _ => oneSha, fun _ => oneDigest, {[1]}, {[oneDigest]}⟩

theorem oneHash_sound : oneHash.Sound where
  digest_inj := Set.injOn_singleton _ _
  digest_length _ _ := rfl
  sha_inj := by simp [oneHash]

def oneConf : Conf :=
  ⟨⟨fun _ => none, true, true, fun _ => true, false, fun _ => true, fun _ => none, fun _ => none, fun _ => true⟩, fun _ => 0⟩

def onePack : Str := packName (fun _ => oneSha) [oneDigest]

def oneEntry : EntryFile :=
  ⟨true, 64, [(onePack, 5)], packPlaces onePack 0 [(oneDigest, [1])], [0, 0, 0, 0], .fin 1 0, [], []⟩

/-- A folder with one entry, which keeps the byte 1 apart. -/
def oneFolder : Folder :=
  ⟨AList.singleton onePack ⟨packBytes 0 [[1]], 0⟩, AList.singleton [97] 0, AList.singleton 0 (.whole oneEntry)⟩

def oneWanted : List Wanted := [⟨0, oneDigest, crcOf [1], 1⟩]

theorem lookup_singleton {K V : Type} [DecidableEq K] {k k' : K} {v v' : V}
    (h : (AList.singleton k v : Dict K V).lookup k' = some v') : k' = k ∧ v' = v := by
  have h : (AList.insert k v (∅ : Dict K V)).lookup k' = some v' := h
  rcases Dict.lookup_insert_cases h with h | ⟨-, h⟩
  · exact h
  · simp at h

theorem oneFolder_good : GoodFolder oneHash oneFolder := by
  have hfresh : Fresh oneHash [(oneDigest, [1])] := ⟨by simp [oneHash], by simp [oneHash]⟩
  have hpack : oneHash.IsPack [[1]] := hfresh.isPack (by simp [oneHash])
  constructor
  · intro name f hf
    obtain ⟨rfl, rfl⟩ := lookup_singleton hf
    exact goodFile_pack oneHash_sound hpack
  · intro ino e he
    obtain ⟨rfl, he⟩ := lookup_singleton he
    cases he
    exact ⟨hfresh.goodPlaces (by simp [oneHash]), by simp [oneEntry, packPlaces]⟩

theorem one_plain : PlainNames oneHash oneConf := ⟨fun _ => rfl, fun _ _ _ => rfl⟩

/-- A read of that entry, alone in the folder. -/
theorem one_exec : Prog.Exec (worldStep oneHash 0 0) (readTask oneConf [97] fun _ => oneWanted)
    ⟨fun _ => .new, oneFolder⟩ (.ok (.read oneEntry oneWanted [(0, [1])])) ⟨fun _ => .new, oneFolder⟩ := by
  have hsame : (⟨fun _ => .new, oneFolder⟩ : World) = ⟨Function.update (fun _ => .new) 0 .new, oneFolder⟩ := by simp
  refine .call ⟨.new, oneFolder, .folder .openEntry, hsame⟩ ?_
  refine .call ⟨.new, oneFolder, .folder (.readFile (e := oneEntry) rfl), hsame⟩ ?_
  refine .call ⟨.new, oneFolder, .folder .read, hsame⟩ ?_
  exact .ret

theorem readChunks_right_of_one : ∃ c, Reachable oneHash oneConf oneFolder c ∧
    c.threads 0 = some ⟨0, .ret (.read oneEntry oneWanted [(0, [1])])⟩ ∧
    ∃ b ∈ oneHash.buffers, oneHash.bulkDigest b = oneDigest ∧ (0, b) ∈ [((0 : Nat), ([1] : Bytes))] := by
  have hstart : Prog.Sched (worldStep oneHash) (Task oneHash oneConf) World.die (.initial ⟨fun _ => .new, oneFolder⟩)
      ⟨⟨fun _ => .new, oneFolder⟩, Function.update (fun _ => none) 0 (some ⟨0, readTask oneConf [97] fun _ => oneWanted⟩)⟩ :=
    .start 0 rfl (.read [97] (fun _ => oneWanted) fun _ => by simp [oneWanted])
  have hrun : Reachable oneHash oneConf oneFolder ⟨⟨fun _ => .new, oneFolder⟩,
      Function.update (fun _ => none) 0 (some ⟨0, .ret (.read oneEntry oneWanted [(0, [1])])⟩)⟩ :=
    .head hstart (Prog.Sched.run one_exec _)
  refine ⟨_, hrun, rfl, ?_⟩
  obtain ⟨hread, -⟩ := @readChunks_right _ _ oneHash_sound one_plain _ oneFolder_good _ hrun 0 _ rfl
  obtain ⟨b, hb, hd, hmem, -⟩ := hread oneEntry oneWanted [(0, [1])] rfl ⟨0, oneDigest, crcOf [1], 1⟩ (by simp [oneWanted])
    _ (List.mem_cons_self ..)
  exact ⟨b, hb, hd, hmem⟩

/-! ## The tables are a consistent index -/

/-- What is known of a write in flight. -/
structure GoodFlight (H : Hashes) (w : Flight) : Prop where
  nodup : (w.held.map (·.1)).Nodup
  places : GoodPlaces H w.places
  held : ∀ p ∈ w.places, p.2.name ∈ w.held.map (·.1)

/-- The tables agree with each other, and count the writes in flight. -/
structure GoodLedger (H : Hashes) (l : Ledger) : Prop where
  inv : Inv H l.tables
  flights : ∀ w ∈ l.flights, GoodFlight H w
  pends : ∀ n, l.tables.pends n = holding l.flights n

theorem GoodLedger.consistent {l : Ledger} (h : GoodLedger H l) : Consistent l where
  holders name stem := by
    rw [h.inv.paired name stem]
    refine ⟨fun hn => ⟨?_, hn⟩, fun hn => hn.2⟩
    by_contra hstem
    rw [heldOf_of_not_mem hstem] at hn
    cases hn
  placedBy := h.inv.placedBy
  inPack := h.inv.inPack
  pending := h.pends

/-! ### Writes in flight -/

theorem holding_append (ws : List Flight) {w : Flight} (hw : (w.held.map (·.1)).Nodup) (n : Str) :
    holding (ws ++ [w]) n = holding ws n + (w.held.map (·.1)).count n := by
  unfold holding
  rw [List.countP_append, List.countP_singleton, hw.count]
  simp only [decide_eq_true_eq]

theorem holding_eq_add {ws : List Flight} {i : Nat} {w : Flight} (hi : ws[i]? = some w)
    (hw : (w.held.map (·.1)).Nodup) (n : Str) :
    holding ws n = holding (ws.eraseIdx i) n + (w.held.map (·.1)).count n := by
  obtain ⟨hlt, rfl⟩ := List.getElem?_eq_some_iff.mp hi
  have hperm := List.getElem_cons_eraseIdx_perm hlt
  unfold holding
  rw [← hperm.countP_eq, List.countP_cons, hw.count]
  simp only [decide_eq_true_eq]

theorem GoodLedger.kept {t t' : Tables} {ws : List Flight} (h : GoodLedger H ⟨t, ws⟩)
    (hk : Inv H t' ∧ t'.pends = t.pends) : GoodLedger H ⟨t', ws⟩ where
  inv := hk.1
  flights := h.flights
  pends n := by
    dsimp only
    rw [hk.2]
    exact h.pends n

theorem GoodLedger.landed {t t' : Tables} {ws : List Flight} (h : GoodLedger H ⟨t, ws⟩) {i : Nat} {w : Flight}
    (hw : ws[i]? = some w) (hi : Inv H t') (hp : ∀ n, t'.pends n = t.pends n - (w.held.map (·.1)).count n) :
    GoodLedger H ⟨t', ws.eraseIdx i⟩ where
  inv := hi
  flights w' hw' := h.flights w' (List.mem_of_mem_eraseIdx hw')
  pends n := by
    have := h.pends n
    dsimp only at this ⊢
    rw [hp n, this, holding_eq_add hw (h.flights w (List.mem_of_getElem? hw)).nodup]
    omega

/-! ### The operations -/

theorem exec_kept {α : Type} {p : StoreM α} (h : Rests (openRules H) (Kept H) p) {t t' : Tables} {r : Except Exn α}
    (hx : Prog.Exec (openSem H) p t r t') (hi : Inv H t) : Inv H t' ∧ t'.pends = t.pends := by
  obtain ⟨hok, herr⟩ := (h t).exec hx
  cases r with
  | ok a => exact hok a rfl hi
  | error e => exact herr e rfl hi

/-- A program of which the same is known however it ends. -/
theorem exec_wp {α : Type} {p : StoreM α} {t t' : Tables} {r : Except Exn α} {Q : Tables → Prop}
    (hx : Prog.Exec (openSem H) p t r t') (h : p.Wp (openRules H) (fun _ => Q) (fun _ => Q) t) : Q t' := by
  obtain ⟨hok, herr⟩ := h.exec hx
  cases r with
  | ok a => exact hok a rfl
  | error e => exact herr e rfl

theorem commit_wp (hH : H.Sound) (henc : EncodesPacks H conf) {t : Tables} (hi : Inv H t) (stem : Str) {held : Held}
    (replaced : Option Held) {places : Places} (hp : GoodPlaces H places)
    (hnames : ∀ p ∈ places, p.2.name ∈ held.map (·.1)) : (commit conf stem held replaced places).Wp (openRules H)
      (fun _ t' => Inv H t' ∧ t'.pends = (t.unpend (held.map (·.1))).pends)
      (fun _ t' => Inv H t' ∧ t'.pends = (t.unpend (held.map (·.1))).pends) t := by
  refine Prog.Wp.bind fun gone t₁ hs => ⟨trivial, ?_⟩
  have hi₁ := hi.commit stem replaced hp hnames
  rw [← show (gone, t₁) = _ from hs] at hi₁
  have hp₁ : t₁.pends = (t.unpend (held.map (·.1))).pends := by
    rw [show t₁ = (t.commit stem held replaced places).2 from congrArg Prod.snd hs]
    rfl
  refine Prog.Wp.seq (Kept.wp (drop_kept gone) hi₁ hp₁) (fun _ t₂ h₂ => ?_) fun _ _ h => h
  exact Prog.Wp.seq (Kept.wp (compact_kept hH henc _) h₂.1 h₂.2) (fun _ _ h => h) fun _ _ h => h

theorem release_wp (hH : H.Sound) (henc : EncodesPacks H conf) {t : Tables} (hi : Inv H t) (stem : Str)
    (held : Option Held) : (release conf stem held).Wp (openRules H) (fun _ t' => Inv H t' ∧ t'.pends = t.pends)
      (fun _ t' => Inv H t' ∧ t'.pends = t.pends) t := by
  refine Prog.Wp.bind fun before t₁ hs => ⟨trivial, ?_⟩
  have hi₁ := hi.release stem held
  rw [← show (before, t₁) = _ from hs] at hi₁
  have hp₁ : t₁.pends = t.pends := by
    rw [show t₁ = (t.release stem held).2 from congrArg Prod.snd hs]
    rfl
  refine Prog.Wp.seq (Kept.wp (drop_kept before) hi₁ hp₁) (fun _ t₂ h₂ => ?_) fun _ _ h => h
  exact Prog.Wp.seq (Kept.wp (compact_kept hH henc _) h₂.1 h₂.2) (fun _ _ h => h) fun _ _ h => h

theorem damaged_kept (pack : Str) (offset : Nat) : Rests (openRules H) (Kept H) (damaged pack offset) := by
  refine calm_kept.bind ensureIndex_kept fun _ => fun t => wp_locked fun hi => ⟨hi.unplace pack offset, ?_⟩
  unfold Tables.pends
  dsimp only
  rw [pending_unplace]

theorem clear_wp {t : Tables} (hi : Inv H t) (hplaced : ∀ stem, stem ∉ t.placedBy) :
    clear.Wp (openRules H) (fun _ t' => Inv H t' ∧ t'.pends = t.pends) (fun _ t' => Inv H t' ∧ t'.pends = t.pends) t := by
  have heach : ∀ names, Rests (openRules H) (Kept H) (removeEach names) := by
    intro names
    induction names with
    | nil => exact calm_kept.rests_pure _
    | cons name rest ih => exact calm_kept.thenCall rfl fun _ => ih
  refine wp_call rfl fun now _ => Prog.Wp.bind (wp_update (wp_call rfl fun listed _ => ?_))
  have hi₁ := hi.clear now hplaced
  cases listed with
  | none => exact ⟨hi₁, rfl⟩
  | some listed => exact Kept.wp (heach _) hi₁ rfl

/-- One operation keeps the tables a consistent index, unless it is a `clear` while chunks are placed. -/
theorem LedgerStep.good (hH : H.Sound) (henc : EncodesPacks H conf) {l l' : Ledger} {op : Operation}
    (h : LedgerStep H conf l op l') (hop : ClearsUnplaced l op) (hl : GoodLedger H l) : GoodLedger H l' := by
  cases h with
  | @putAll t t' ws views known s hviews hx =>
      have hv : ∀ v ∈ views.zip known, GoodView H v := fun v hmem => ⟨(hviews v hmem).1, (hviews v hmem).2⟩
      obtain ⟨hi, hcounts, hnodup⟩ := ((putAll_puts hH hl.inv hv).exec hx).1 s rfl
      have hgood := (((putAll_keeps hH hv).wp hl.inv.good).exec hx).1 s rfl
      refine ⟨hi, fun w hw => ?_, fun n => ?_⟩
      · rcases List.mem_append.mp hw with hw | hw
        · exact hl.flights w hw
        · rw [List.mem_singleton.mp hw]
          exact ⟨hnodup, hgood.places, hgood.held⟩
      · have := hl.pends n
        dsimp only at this ⊢
        rw [hcounts n, this, holding_append ws hnodup]
  | putAllRaises hviews hx =>
      exact hl.kept (((putAll_puts hH hl.inv fun v hmem => ⟨(hviews v hmem).1, (hviews v hmem).2⟩).exec hx).2 _ rfl)
  | commit hw hx =>
      have hgood := hl.flights _ (List.mem_of_getElem? hw)
      obtain ⟨hi, hp⟩ := exec_wp hx (commit_wp hH henc hl.inv _ _ hgood.places hgood.held)
      exact hl.landed hw hi fun n => by rw [hp, pends_unpend]
  | commitPlain hx =>
      exact hl.kept (exec_wp hx (commit_wp hH henc hl.inv _ _ (fun _ hp => nomatch hp) fun _ hp => nomatch hp))
  | @abandon t t' ws i w r hw hx =>
      have hcounts : Counts (t.unpend (w.held.map (·.1))) t (w.held.map (·.1)) := by
        intro n
        have hadd := holding_eq_add hw (hl.flights w (List.mem_of_getElem? hw)).nodup n
        have hpends : t.pends n = holding ws n := hl.pends n
        rw [pends_unpend]
        omega
      obtain ⟨hi, hp⟩ := exec_wp hx (abandon_kept hl.inv hcounts)
      exact hl.landed hw hi fun n => by rw [hp, pends_unpend]
  | release hx => exact hl.kept (exec_wp hx (release_wp hH henc hl.inv _ _))
  | ensureIndex hx => exact hl.kept (exec_kept ensureIndex_kept hx hl.inv)
  | compactOne hx => exact hl.kept (exec_kept (compactOne_kept hH henc _) hx hl.inv)
  | damaged hx => exact hl.kept (exec_kept (damaged_kept _ _) hx hl.inv)
  | clear hx => exact hl.kept (exec_wp hx (clear_wp hl.inv (hop rfl)))

/-! ### Whole runs -/

/-- The steps that clear no placed chunks. -/
def UnplacedSteps (H : Hashes) (conf : Conf) (l : Ledger) (op : Operation) (l' : Ledger) : Prop :=
  LedgerStep H conf l op l' ∧ ClearsUnplaced l op

/-- In every run of a process in which `clear` finds no entry with chunks in a pack, the tables are a
consistent index in every state reached. -/
theorem tables_consistent (hH : H.Sound) (henc : EncodesPacks H conf) {ops : List Operation} {l : Ledger}
    (hrun : Run (UnplacedSteps H conf) ⟨.new, []⟩ ops l) : Consistent l := by
  have hgood : GoodLedger H l := by
    refine hrun.invariant (I := fun _ l => GoodLedger H l) ?_ fun _ op l l' hl hstep => hstep.1.good hH henc hstep.2 hl
    refine ⟨inv_new, fun w hw => (nomatch hw), fun n => ?_⟩
    simp [Tables.pends, Tables.new, Dict.getD, holding]
  exact hgood.consistent

/-- The tables of a process that has read the folder of one entry. -/
def oneTables : Tables := (Tables.new.index 0 [⟨[97], oneEntry.held, oneEntry.places⟩]).2

theorem one_index : Prog.Exec (openSem oneHash) ensureIndex .new (.ok 0) oneTables := by
  have hentry : GoodEntry oneHash oneEntry := oneFolder_good.files 0 oneEntry rfl
  refine .call (b := false) rfl ?_
  refine .call (b := (0 : Nat)) ⟨trivial, rfl⟩ ?_
  refine .call (b := [[97]]) ⟨trivial, rfl⟩ ?_
  refine .call (b := some 0) ⟨trivial, rfl⟩ ?_
  refine .call (b := some oneEntry) ⟨fun e he => by cases he; exact hentry, rfl⟩ ?_
  refine .call (b := true) rfl ?_
  refine .call (b := (0 : Nat)) ⟨trivial, rfl⟩ ?_
  refine .call (b := none) ⟨trivial, rfl⟩ ?_
  exact .ret

/-- A process that reads the folder of one entry. -/
theorem tables_consistent_of_one : ∃ ops l, Run (UnplacedSteps oneHash oneConf) ⟨.new, []⟩ ops l ∧
    [97] ∈ l.tables.heldBy ∧ Consistent l := by
  have hrun : Run (UnplacedSteps oneHash oneConf) ⟨.new, []⟩ ([] ++ [.ensureIndex]) ⟨oneTables, []⟩ :=
    .snoc .nil ⟨.ensureIndex one_index, fun h => by cases h⟩
  exact ⟨_, _, hrun, by decide, tables_consistent oneHash_sound (fun _ => rfl) hrun⟩

/-- `clear` keeps what it knows of where the chunks of an entry are, and nothing else of the entry. -/
theorem tables_inconsistent_after_clear :
    ∃ ops l, Run (LedgerStep oneHash oneConf) ⟨.new, []⟩ ops l ∧ ¬Consistent l := by
  have h₁ : Run (LedgerStep oneHash oneConf) ⟨.new, []⟩ ([] ++ [.ensureIndex]) ⟨oneTables, []⟩ :=
    .snoc .nil (.ensureIndex one_index)
  have hclear : Prog.Exec (openSem oneHash) clear oneTables (.ok ()) (oneTables.clear 0) := by
    refine .call (b := (0 : Nat)) ⟨trivial, rfl⟩ ?_
    refine .call (b := ()) rfl ?_
    refine .call (b := none) ⟨trivial, rfl⟩ ?_
    exact .ret
  refine ⟨_, _, .snoc h₁ (.clear hclear), fun h => ?_⟩
  obtain ⟨ps, hps⟩ : ∃ ps, (oneTables.clear 0).placedBy.lookup [97] = some ps := ⟨_, rfl⟩
  exact absurd (h.placedBy [97] ps hps).1 (by decide)

/-! ## No live chunk is lost -/

/-- The threads of one process write and remove entries, their calls in any order. Where no file in use is
removed, every file in the list of chunks of a live entry is in the chunk folder. -/
theorem liveChunks_exist {F : Folder} {c : Prog.Config Op Exn Unit Single} (hc : Reaches conf (carefulStep H) F c)
    {stem : Str} {names : List Str} (hlive : c.state.live.lookup stem = some names) :
    ∀ n ∈ names, n ∈ c.state.folder.chunks := by
  have hstart : Present ⟨.new, F, ∅⟩ fun _ => Pins.none := by
    refine ⟨paired_new, ⟨[], fun n => rfl, fun tid n => rfl⟩, fun tid n hn => ?_, fun stem names hl => ?_⟩
    · cases hn
    · simp at hl
  obtain ⟨γ, hok, -, -⟩ := pins_tracks.reaches (fun p hp => work_pins hp) hstart hc
  exact fun n hn => ((hok.live stem names hlive).2 n hn).2

/-! ### A file in use removed -/

/-- The entry `b` is written with the byte 1 kept apart. -/
def oneWrite : StoreM Unit := do
  let _ ← writeCacheFiles oneConf [98] [[1]] [some oneDigest] fun _ => some oneEntry

/-- The process, once it has released the entry `a` of the folder. -/
def oneReleased : Single := ⟨⟨(oneTables.release [97] none).2, fun _ => none⟩, oneFolder, ∅⟩

theorem one_indexed : Prog.Exec (carefulStep oneHash 0 0) (do let _ ← ensureIndex) ⟨.new, oneFolder, ∅⟩ (.ok ())
    ⟨⟨oneTables, fun _ => none⟩, oneFolder, ∅⟩ := by
  refine .call (b := false) ⟨⟨_, _, .locked, rfl⟩, trivial⟩ ?_
  refine .call ⟨⟨_, _, .folder (.time 0), rfl⟩, trivial⟩ ?_
  refine .call ⟨⟨_, _, .folder (.entryFiles (.refl _)), rfl⟩, trivial⟩ ?_
  refine .call ⟨⟨_, _, .folder .openEntry, rfl⟩, trivial⟩ ?_
  refine .call ⟨⟨_, _, .folder (.readFile (e := oneEntry) rfl), rfl⟩, trivial⟩ ?_
  refine .call ⟨⟨_, _, .locked, rfl⟩, trivial⟩ ?_
  refine .call ⟨⟨_, _, .folder (.time 0), rfl⟩, trivial⟩ ?_
  refine .call ⟨⟨_, _, .folder .scanFails, rfl⟩, trivial⟩ ?_
  exact .ret

/-- A release that has looked at the pack and is about to remove it. -/
theorem one_releasing : ∃ k, Prog.Leads (carefulStep oneHash 0 1) (do let _ ← release oneConf [97] none)
    ⟨⟨oneTables, fun _ => none⟩, oneFolder, ∅⟩ (.call (.remove onePack) k) oneReleased := by
  apply Exists.intro
  refine .call ⟨⟨_, _, .release, rfl⟩, trivial⟩ ?_
  refine .call ⟨⟨_, _, .folder (.iterate (.refl _)), rfl⟩, trivial⟩ ?_
  refine .call ⟨⟨_, _, .locked, rfl⟩, trivial⟩ ?_
  refine .call ⟨⟨_, _, .locked, rfl⟩, trivial⟩ ?_
  refine .call ⟨⟨_, _, .folder .stat, rfl⟩, trivial⟩ ?_
  exact .here

/-- Then the entry `b` is written, with its chunk in that pack. -/
theorem one_written : ∃ t, Prog.Exec (carefulStep oneHash 0 2) oneWrite oneReleased (.ok ()) t ∧
    t.live.lookup [98] = some [onePack] ∧ onePack ∈ t.folder.chunks := by
  refine Prog.Exec.before ⟨⟨_, _, .locked, rfl⟩, trivial⟩ ?_
  refine Prog.Exec.before ⟨⟨_, _, .locked, rfl⟩, trivial⟩ ?_
  refine Prog.Exec.before ⟨⟨_, _, .locked, rfl⟩, trivial⟩ ?_
  refine Prog.Exec.before ⟨⟨_, _, .folder (.utime 1 rfl), rfl⟩, trivial⟩ ?_
  refine Prog.Exec.before ⟨⟨_, _, .folder .stat, rfl⟩, trivial⟩ ?_
  refine Prog.Exec.before ⟨⟨_, _, .folder .stat, rfl⟩, trivial⟩ ?_
  refine Prog.Exec.before ⟨⟨_, _, .locked, rfl⟩, trivial⟩ ?_
  refine Prog.Exec.before ⟨⟨_, _, .lock (fun _ _ h => nomatch h), rfl⟩, trivial⟩ ?_
  refine Prog.Exec.before ⟨⟨_, _, .folder .statEntryFails, rfl⟩, trivial⟩ ?_
  refine Prog.Exec.before ⟨⟨_, _, .folder (@FolderStep.createEntry _ _ _ 1 (by decide) (by decide)), rfl⟩, trivial⟩ ?_
  refine Prog.Exec.before ⟨⟨_, _, .folder .writeFile, rfl⟩, trivial⟩ ?_
  refine Prog.Exec.before ⟨⟨_, _, .commit, rfl⟩, trivial⟩ ?_
  refine Prog.Exec.before ⟨⟨_, _, .folder (.iterate (.refl _)), rfl⟩, trivial⟩ ?_
  refine Prog.Exec.before ⟨⟨_, _, .locked, rfl⟩, trivial⟩ ?_
  refine Prog.Exec.before ⟨⟨_, _, .folder (.iterate (.refl _)), rfl⟩, trivial⟩ ?_
  refine Prog.Exec.before ⟨⟨_, _, .unlock, rfl⟩, trivial⟩ ?_
  exact ⟨_, .ret, rfl, by decide⟩

/-- The three threads one after the other, but for the removal. -/
theorem one_reaches : ∃ c k, Reaches oneConf (carefulStep oneHash) oneFolder c ∧
    c.threads 1 = some ⟨0, .call (.remove onePack) k⟩ ∧
    c.state.live.lookup [98] = some [onePack] ∧ onePack ∈ c.state.folder.chunks := by
  obtain ⟨k, hreleasing⟩ := one_releasing
  obtain ⟨t, hwritten, hlive, hthere⟩ := one_written
  have h₀ : Reaches oneConf (carefulStep oneHash) oneFolder
      ⟨⟨⟨oneTables, fun _ => none⟩, oneFolder, ∅⟩, Function.update (fun _ => none) 0 (some ⟨0, .ret ()⟩)⟩ :=
    .head (.start 0 rfl .ensureIndex) (Prog.Sched.run one_indexed _)
  have hreleaser := h₀.tail
    (.start 0 (show _ = none from rfl) (.release [97] none) : Prog.Sched _ _ _ _ ⟨_, Function.update _ 1 _⟩)
  have h₁ := hreleaser.trans (Prog.Sched.leads hreleasing _)
  have hwriter := h₁.tail (.start 0 (show _ = none from rfl)
    (.write [98] [[1]] [some oneDigest] fun _ => some oneEntry) : Prog.Sched _ _ _ _ ⟨_, Function.update _ 2 _⟩)
  have h₂ := hwriter.trans (Prog.Sched.run hwritten _)
  exact ⟨_, k, h₂, rfl, hlive, hthere⟩

theorem liveChunks_exist_of_one : ∃ c, Reaches oneConf (carefulStep oneHash) oneFolder c ∧
    c.state.live.lookup [98] = some [onePack] ∧ onePack ∈ c.state.folder.chunks := by
  obtain ⟨c, -, hc, -, hlive, -⟩ := one_reaches
  exact ⟨c, hc, hlive, liveChunks_exist hc hlive onePack (by simp)⟩

/-- `_drop` has found the pack in no use when a write takes it up again, and removes it then. -/
theorem liveChunk_lost : ∃ c, Reaches oneConf (singleStep oneHash) oneFolder c ∧
    c.state.live.lookup [98] = some [onePack] ∧ onePack ∉ c.state.folder.chunks := by
  obtain ⟨c, k, hc, hthread, hlive, hthere⟩ := one_reaches
  have hc' : Reaches oneConf (singleStep oneHash) oneFolder c := by
    refine Relation.ReflTransGen.mono ?_ _ _ hc
    intro c c' hstep
    cases hstep with
    | start pid hfree hp => exact .start pid hfree hp
    | call hthread hsem => exact .call hthread hsem.1
    | die pid hdie => exact hdie.elim
  have hremove : singleStep oneHash 0 1 Bool c.state (.remove onePack) true
      ⟨c.state.process, { c.state.folder with chunks := c.state.folder.chunks.erase onePack }, c.state.live⟩ :=
    ⟨_, _, .folder (.remove hthere), rfl⟩
  refine ⟨_, .tail hc' (.call hthread hremove), hlive, ?_⟩
  simp [AList.mem_erase]

end Cash.Store
