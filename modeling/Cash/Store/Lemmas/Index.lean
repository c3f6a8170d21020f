import Cash.Store.Lemmas.Calm
import Cash.Store.Lemmas.Compact
import Cash.Store.Lemmas.Tables

/-!
# The operations keep the tables in agreement

What each operation of a store does to the tables of its process, where the answers of its calls come from a
good folder: the tables agree again when it ends, and it holds the files it says it holds.
-/

namespace Cash.Store

open Bytes Py Chunks Entry

variable {H : Hashes} {conf : Conf}

/-- What calls do to the tables, as rules. -/
abbrev openRules (H : Hashes) : Prog.Rules Op Tables := (openSem H).rules fun _ => True

/-- A call that is no section leaves the tables alone. -/
theorem openSem_call {β : Type} {op : Op β} {b : β} {t t' : Tables} (h : op.isSection = false)
    (hs : openSem H β t op b t') : (storeContract H).gives β op b ∧ t' = t := by
  cases op <;> first | exact hs | cases h

theorem Tables.Same.trans {t t' t'' : Tables} (h : t.Same t') (h' : t'.Same t'') : t.Same t'' where
  heldBy := h'.heldBy.trans h.heldBy
  holders := h'.holders.trans h.holders
  pending := h'.pending.trans h.pending
  places := h'.places.trans h.places
  inPack := h'.inPack.trans h.inPack
  placedBy := h'.placedBy.trans h.placedBy

theorem Inv.same {t t' : Tables} (h : Inv H t) (hs : t.Same t') : Inv H t' :=
  h.congr hs.heldBy hs.holders hs.placedBy hs.places hs.inPack

theorem calm_same : Calm (openRules H) Tables.Same Tables.Same where
  refl := .refl
  trans := .trans
  same h := h
  call h P s hP b s' hsem := by
    obtain ⟨-, rfl⟩ := openSem_call h hsem
    exact ⟨trivial, hP b _ (.refl _)⟩
  locked h P s hP b s' hsem := by
    have hs := h s
    rw [← show (b, s') = _ from hsem] at hs
    exact ⟨trivial, hP b s' hs⟩

/-- The tables agree as they did, and count the same writes. -/
def Kept (H : Hashes) (t t' : Tables) : Prop := Inv H t → Inv H t' ∧ t'.pends = t.pends

theorem Tables.Same.kept {t t' : Tables} (h : t.Same t') : Kept H t t' := by
  intro hi
  refine ⟨hi.same h, ?_⟩
  unfold Tables.pends
  rw [h.pending]

theorem calm_kept : Calm (openRules H) (Kept H) (Kept H) where
  refl t hi := ⟨hi, rfl⟩
  trans h h' hi := by
    obtain ⟨hi', hp⟩ := h hi
    obtain ⟨hi'', hp'⟩ := h' hi'
    exact ⟨hi'', hp'.trans hp⟩
  same h := h.kept
  call h P s hP b s' hsem := by
    obtain ⟨-, rfl⟩ := openSem_call h hsem
    exact ⟨trivial, hP b _ fun hi => ⟨hi, rfl⟩⟩
  locked h P s hP b s' hsem := by
    have hs := h s
    rw [← show (b, s') = _ from hsem] at hs
    exact ⟨trivial, hP b s' hs⟩

/-- What is known where the tables agree. -/
theorem rests_kept {α : Type} {p : StoreM α}
    (h : ∀ t, Inv H t → p.Wp (openRules H) (fun _ t' => Inv H t' ∧ t'.pends = t.pends)
      (fun _ t' => Inv H t' ∧ t'.pends = t.pends) t) : Rests (openRules H) (Kept H) p := by
  intro t
  by_cases hi : Inv H t
  · exact (h t hi).mono (fun _ _ hk _ => hk) fun _ _ hk _ => hk
  · have hany : ∀ (p : StoreM α) (s : Tables), p.Wp (openRules H) (fun _ t' => Kept H t t') (fun _ t' => Kept H t t') s := by
      intro p
      induction p with
      | ret a => exact fun s hi' => absurd hi' hi
      | raise e => exact fun s hi' => absurd hi' hi
      | call op k ih => exact fun s b s' _ => ⟨trivial, ih b s'⟩
    exact hany p t

/-- A program that meets the store's contract, in tables that are good. -/
theorem Keeps.wp {α : Type} {p : StoreM α} {Q : α → Prop} (h : Keeps H p Q) {t : Tables} (ht : GoodTables H t) :
    p.Wp (openRules H) (fun a _ => Q a) (fun _ _ => True) t := by
  induction p generalizing t with
  | ret a => exact h
  | raise e => trivial
  | call op k ih =>
      obtain ⟨hmay, hk⟩ := h
      intro b t' hsem
      refine ⟨trivial, ?_⟩
      cases op with
      | locked f =>
          have heq : (b, t') = f t := hsem
          have hgood := hmay t ht
          rw [← heq] at hgood
          exact ih b (hk b ⟨t, ht, by rw [← heq]⟩) hgood
      | commit stem held replaced places =>
          have heq : (b, t') = t.commit stem held replaced places := hsem
          have hgood := ht.commit hmay stem held replaced
          rw [← heq] at hgood
          exact ih b (hk b trivial) hgood
      | release stem held =>
          have heq : (b, t') = t.release stem held := hsem
          have hgood := ht.release stem held
          rw [← heq] at hgood
          exact ih b (hk b trivial) hgood
      | repoint stem old new placed =>
          have heq : (b, t') = t.repoint stem old new placed := hsem
          have hgood := ht.repoint hmay stem old new
          rw [← heq] at hgood
          exact ih b (hk b trivial) hgood
      | _ =>
          obtain ⟨hgives, rfl⟩ := openSem_call rfl hsem
          exact ih b (hk b hgives) ht

/-- A program that leaves the tables alone, with what its contract says of its answer. -/
theorem Keeps.rests {α : Type} {p : StoreM α} {Q : α → Prop} (h : Keeps H p Q)
    (hp : Rests (openRules H) Tables.Same p) {t : Tables} (ht : Inv H t) :
    p.Wp (openRules H) (fun a t' => Q a ∧ t.Same t') (fun _ t' => t.Same t') t :=
  ((h.wp ht.good).and (hp t)).mono (fun _ _ h => h) fun _ _ h => h.2

section

variable {α β : Type} {t : Tables} {Q : α → Tables → Prop} {E : Exn → Tables → Prop}

theorem wp_locked {f : Tables → α × Tables} (h : Q (f t).1 (f t).2) : (locked f).Wp (openRules H) Q E t := by
  intro b t' hs
  obtain ⟨rfl, rfl⟩ := Prod.ext_iff.mp (show (b, t') = f t from hs)
  exact ⟨trivial, h⟩

theorem wp_update {f : Tables → Tables} {Q : Unit → Tables → Prop} (h : Q () (f t)) :
    (update f).Wp (openRules H) Q E t :=
  wp_locked h

theorem wp_perform {op : Op α} (hop : op.isSection = false) (h : ∀ b, (storeContract H).gives α op b → Q b t) :
    (perform op).Wp (openRules H) Q E t := by
  intro b t' hs
  obtain ⟨hgives, rfl⟩ := openSem_call hop hs
  exact ⟨trivial, h b hgives⟩

/-- A call that is no section, and the rest. -/
theorem wp_call {op : Op β} {f : β → StoreM α} (hop : op.isSection = false)
    (h : ∀ b, (storeContract H).gives β op b → (f b).Wp (openRules H) Q E t) :
    (perform op >>= f).Wp (openRules H) Q E t :=
  Prog.Wp.bind (wp_perform hop h)

end

/-! ## Removing -/

theorem ensureIndex_kept : Rests (openRules H) (Kept H) ensureIndex := by
  refine rests_kept fun t hi => Prog.Wp.bind (wp_locked ?_)
  dsimp only
  split
  · exact ⟨hi, rfl⟩
  · refine wp_call rfl fun started _ => wp_call rfl fun stems _ => ?_
    refine Prog.Wp.seq ((entryChunks_keeps stems).rests (calm_same.entryChunks stems) hi) (fun found t₁ h₁ => ?_)
      fun _ t₁ h₁ => h₁.kept hi
    obtain ⟨hfound, hsame⟩ := h₁
    obtain ⟨hi₁, hp₁⟩ := hsame.kept hi
    refine Prog.Wp.bind (wp_locked ?_)
    have hi₂ := hi₁.index (fun f hf => ⟨(hfound f hf).places, (hfound f hf).held⟩) started
    have hp₂ : (t₁.index started found).2.pends = t.pends := by
      rw [← hp₁]
      unfold Tables.pends
      rw [pending_index]
    generalize t₁.index started found = r at hi₂ hp₂
    obtain ⟨first, t₂⟩ := r
    cases first with
    | true =>
        refine (calm_same.sweepOrphans t₂).mono (fun _ t₃ h₃ => ?_) fun _ t₃ h₃ => ?_ <;>
        · obtain ⟨hi₃, hp₃⟩ := h₃.kept hi₂
          exact ⟨hi₃, hp₃.trans hp₂⟩
    | false => exact ⟨hi₂, hp₂⟩

theorem forget_kept (name : Str) (t : Tables) : Kept H t (t.forget name) := fun hi => ⟨hi.forget name, rfl⟩

theorem drop_kept (names : List Str) : Rests (openRules H) (Kept H) (drop names) :=
  calm_kept.drop forget_kept ensureIndex_kept names

/-- The writes counted, with `names` counted once more each. -/
def Counts (t t' : Tables) (names : List Str) : Prop := ∀ n, t'.pends n = t.pends n + names.count n

/-! ## Holding -/

/-- A file held, or not. -/
structure Holds (H : Hashes) (t t' : Tables) (names : List Str) : Prop where
  inv : Inv H t'
  counts : Counts t t' names
  places : t'.places = t.places

theorem Holds.pend {t : Tables} (hi : Inv H t) (name : Str) : Holds H t (t.pend name) [name] where
  inv := hi.congr rfl rfl rfl rfl rfl
  counts n := by
    rw [pends_pend]
    by_cases h : n = name
    · simp [h]
    · simp [h, Ne.symm h]
  places := rfl

theorem Holds.unpend {t t' : Tables} {names : List Str} (h : Holds H t t' names) : Holds H t (t'.unpend names) [] where
  inv := h.inv.congr rfl rfl rfl rfl rfl
  counts n := by
    rw [pends_unpend, h.counts n]
    simp
  places := h.places

theorem Holds.same {t t' t'' : Tables} {names : List Str} (h : Holds H t t' names) (hs : t'.Same t'') :
    Holds H t t'' names where
  inv := h.inv.same hs
  counts n := by
    rw [Tables.pends, hs.pending]
    exact h.counts n
  places := hs.places.trans h.places

theorem noteOwn_same (name : Str) (t : Tables) :
    (noteOwn name).Wp (openRules H) (fun _ t' => t.Same t') (fun _ _ => False) t := by
  refine wp_call rfl fun st _ => ?_
  cases st with
  | none => exact .refl t
  | some st => exact wp_update ⟨rfl, rfl, rfl, rfl, rfl, rfl⟩

theorem holdStored_holds {t : Tables} (hi : Inv H t) (name : Str) : (holdStored name).Wp (openRules H)
    (fun r t' => Holds H t t' (if r.isSome then [name] else [])) (fun _ _ => False) t := by
  have htouch : ∀ t Q E, (∀ a, Q a t) → (touch name).Wp (openRules H) Q E t := by
    intro t Q E hQ
    refine wp_call rfl fun b _ => ?_
    cases b with
    | true => exact wp_perform rfl fun st _ => hQ st
    | false => exact hQ none
  have hheld := Holds.pend hi name
  refine Prog.Wp.bind (wp_update (Prog.Wp.bind (htouch _ _ _ fun a => ?_)))
  cases a with
  | none => exact Prog.Wp.bind (wp_update hheld.unpend)
  | some a => exact Prog.Wp.seq (noteOwn_same name _) (fun _ _ hs => hheld.same hs) fun _ _ h => h

theorem holdChunk_holds {t : Tables} (hi : Inv H t) (name : Str) (nbytes : Nat) : (holdChunk name nbytes).Wp (openRules H)
    (fun r t' => Holds H t t' (if r.isSome then [name] else [])) (fun _ _ => False) t := by
  have hreuse : ∀ t Q E, (∀ a, Q a t) → (reuse name nbytes).Wp (openRules H) Q E t := by
    intro t Q E hQ
    refine wp_call rfl fun data _ => ?_
    cases data with
    | none => exact hQ none
    | some data =>
        dsimp only
        split
        · exact hQ none
        · refine wp_call rfl fun b _ => ?_
          cases b with
          | true => exact hQ _
          | false => exact hQ none
  have hheld := Holds.pend hi name
  refine Prog.Wp.bind (wp_update (Prog.Wp.bind (hreuse _ _ _ fun a => ?_)))
  cases a with
  | none => exact Prog.Wp.bind (wp_update hheld.unpend)
  | some a => exact Prog.Wp.seq (noteOwn_same name _) (fun _ _ hs => hheld.same hs) fun _ _ h => h

theorem Counts.trans {t t' t'' : Tables} {names names' : List Str} (h : Counts t t' names) (h' : Counts t' t'' names') :
    Counts t t'' (names ++ names') := by
  intro n
  rw [h' n, h n, List.count_append]
  omega

/-! ## The loop of `put_all` -/

/-- The variables of `put_all`, begun in `t₀` and now in `t`. -/
structure Putting (H : Hashes) (t₀ t : Tables) (st : Put) : Prop where
  inv : Inv H t
  good : GoodPut H st
  counts : Counts t₀ t (st.files.map (·.1))
  nodup : (st.files.map (·.1)).Nodup
  /-- A pack held is known to place a chunk. -/
  sources : ∀ n ∈ st.files.map (·.1), (∃ d p, t.places.lookup d = some p ∧ p.name = n) ∨ ∃ d, n = chunkName d
  chunks : ∀ d, chunkName d ∈ st.files.map (·.1) → chunkName d ∈ st.oldCrcs.map (·.1)
  /-- A chunk that waits has no place. -/
  unplaced : ∀ d ∈ st.fresh.map (·.1), t.places.lookup d = none

theorem keys_setItem_of_not_mem {K V : Type} [DecidableEq K] {items : List (K × V)} {k : K} (v : V)
    (h : k ∉ items.map (·.1)) : (Dict.setItem items k v).map (·.1) = items.map (·.1) ++ [k] := by
  unfold Dict.setItem
  rw [if_neg h, List.map_append]
  rfl

/-- A section that forgets no pack held, and a file held or not. -/
theorem Putting.holds {t₀ t t' : Tables} {st : Put} (h : Putting H t₀ t st) (hh : Holds H t t' []) :
    Putting H t₀ t' st where
  inv := hh.inv
  good := h.good
  counts := by simpa using h.counts.trans hh.counts
  nodup := h.nodup
  sources := by rw [hh.places]; exact h.sources
  chunks := h.chunks
  unplaced := by rw [hh.places]; exact h.unplaced

/-- The places after a pack is forgotten: those in other packs. -/
theorem lookup_forget {t : Tables} (hi : Inv H t) {name : Str} {d : Digest} {p : Place} :
    (t.forget name).places.lookup d = some p ↔ t.places.lookup d = some p ∧ p.name ≠ name := by
  have hgone : ∀ (gone : List Digest) (places : Dict Digest Place), d ∉ gone →
      (gone.foldl (fun places d => places.erase d) places).lookup d = places.lookup d := by
    intro gone
    induction gone with
    | nil => exact fun _ _ => rfl
    | cons g gone ih =>
        intro places hd
        simp only [List.mem_cons, not_or] at hd
        rw [List.foldl_cons, ih _ hd.2, Dict.lookup_erase', if_neg hd.1]
  constructor
  · intro h
    obtain ⟨hd, h⟩ := lookup_foldl_erase h
    refine ⟨h, fun hn => hd ?_⟩
    have hin := hi.inPack d p h
    rw [hn] at hin
    exact List.mem_filter.mpr ⟨hin, by simp [h, hn]⟩
  · rintro ⟨h, hn⟩
    refine (hgone _ _ fun hd => ?_).trans h
    have := (List.mem_filter.mp hd).2
    simp [h, hn] at this

/-- A pack that is not held is forgotten. -/
theorem Putting.forget {t₀ t : Tables} {st : Put} (h : Putting H t₀ t st) {name : Str}
    (hn : name ∉ st.files.map (·.1)) : Putting H t₀ (t.forget name) st where
  inv := h.inv.forget name
  good := h.good
  counts := h.counts
  nodup := h.nodup
  sources n hmem := by
    rcases h.sources n hmem with ⟨d, p, hd, rfl⟩ | hc
    · refine .inl ⟨d, p, (lookup_forget h.inv).mpr ⟨hd, fun hpn => hn ?_⟩, rfl⟩
      rw [← hpn]
      exact hmem
    · exact .inr hc
  chunks := h.chunks
  unplaced d hd := by
    cases hlook : (t.forget name).places.lookup d with
    | none => rfl
    | some p =>
        have := h.unplaced d hd
        rw [((lookup_forget h.inv).mp hlook).1] at this
        cases this

theorem holdFile_holds {t : Tables} (hi : Inv H t) (files : Held) (name : Str) :
    (holdFile files name).Wp (openRules H) (fun r t' =>
      match r with
      | none => name ∉ files.map (·.1) ∧ Holds H t t' []
      | some files' => name ∈ files.map (·.1) ∧ files' = files ∧ t' = t ∨
          name ∉ files.map (·.1) ∧ files'.map (·.1) = files.map (·.1) ++ [name] ∧ Holds H t t' [name])
      (fun _ _ => False) t := by
  unfold holdFile
  split
  · rename_i hname
    exact .inl ⟨hname, rfl, rfl⟩
  · rename_i hname
    refine Prog.Wp.seq (holdStored_holds hi name) (fun r t' hh => ?_) fun _ _ h => h
    cases r with
    | none => exact ⟨hname, hh⟩
    | some size => exact .inr ⟨hname, keys_setItem_of_not_mem size hname, hh⟩

theorem goodPlace_nbytes (hH : H.Sound) {view : Bytes} (hv : view ∈ H.buffers) {p : Place}
    (hp : GoodPlace H (H.bulkDigest view) p) : p.nbytes = view.length := by
  generalize hd : H.bulkDigest view = d at hp
  cases hp with
  | mk hpack hb ho =>
      rename_i bufs k b offset
      have := hH.digest_inj hv (hpack.buffers b (List.mem_of_getElem? hb)) hd
      rw [this]

theorem goodPlace_ne_chunkName {d d' : Digest} {p : Place} (hp : GoodPlace H d p) : p.name ≠ chunkName d' := by
  cases hp with
  | mk _ _ _ => exact packName_ne_chunkName _ _ _

theorem usePlace_puts (hH : H.Sound) {t₀ t : Tables} {st : Put} (h : Putting H t₀ t st) (i : Nat) {view : Bytes}
    (hv : view ∈ H.buffers) : (usePlace st i view (H.bulkDigest view) (t.places.lookup (H.bulkDigest view))).Wp (openRules H)
      (fun r t' =>
        match r with
        | none => Putting H t₀ t' st ∧ t'.places.lookup (H.bulkDigest view) = none
        | some st' => Putting H t₀ t' st')
      (fun _ _ => False) t := by
  unfold usePlace
  cases hlook : t.places.lookup (H.bulkDigest view) with
  | none => exact ⟨h, hlook⟩
  | some p =>
      have hgood := h.inv.good.places _ p hlook
      dsimp only
      rw [if_neg (not_not.mpr (goodPlace_nbytes hH hv hgood))]
      refine Prog.Wp.seq (holdFile_holds h.inv st.files p.name) (fun r t' hh => ?_) fun _ _ h => h
      cases r with
      | none =>
          obtain ⟨hname, hh⟩ := hh
          have h' := h.holds hh
          refine Prog.Wp.bind (wp_update ⟨h'.forget hname, ?_⟩)
          cases hforget : (t'.forget p.name).places.lookup (H.bulkDigest view) with
          | none => rfl
          | some q =>
              obtain ⟨hq, hne⟩ := (lookup_forget h'.inv).mp hforget
              rw [hh.places, hlook] at hq
              cases hq
              exact absurd rfl hne
      | some files =>
          rcases hh with ⟨hname, rfl, rfl⟩ | ⟨hname, hkeys, hh⟩
          · refine ⟨h.inv, h.good.addPlace hgood (fun n hn => ?_) _, h.counts, h.nodup, h.sources, h.chunks, h.unplaced⟩
            rcases hn with hn | rfl
            · exact hn
            · exact hname
          · have hkeys' : ∀ n, n ∈ files.map (·.1) ↔ n ∈ st.files.map (·.1) ∨ n = p.name := by
              intro n
              rw [hkeys, List.mem_append, List.mem_singleton]
            refine ⟨hh.inv, h.good.addPlace hgood (fun n hn => (hkeys' n).mpr hn) _, ?_, ?_, ?_, ?_, ?_⟩
            · dsimp only
              rw [hkeys]
              exact h.counts.trans hh.counts
            · dsimp only
              rw [hkeys]
              exact h.nodup.append (List.nodup_singleton _) (by simpa using hname)
            · intro n hn
              rw [hh.places]
              rcases (hkeys' n).mp hn with hn | rfl
              · exact h.sources n hn
              · exact .inl ⟨_, p, hlook, rfl⟩
            · intro d hd
              rcases (hkeys' _).mp hd with hd | hd
              · exact h.chunks d hd
              · exact absurd hd.symm (goodPlace_ne_chunkName hgood)
            · intro d hd
              rw [hh.places]
              exact h.unplaced d hd

theorem useChunk_puts {t₀ t : Tables} {st : Put} (h : Putting H t₀ t st) (i : Nat) (view : Bytes) (digest : Digest) :
    (useChunk st i view digest).Wp (openRules H)
      (fun r t' =>
        match r with
        | none => Putting H t₀ t' st ∧ t'.places.lookup digest = t.places.lookup digest
        | some st' => Putting H t₀ t' st')
      (fun _ _ => False) t := by
  refine Prog.Wp.bind (wp_locked ?_)
  dsimp only
  cases t.oldChunks with
  | false => exact ⟨h, rfl⟩
  | true =>
      simp only [if_true]
      cases hfind : st.oldCrcs.find? (fun p => p.1 = chunkName digest) with
      | some crc =>
          exact ⟨h.inv, ⟨h.good.places, h.good.held, h.good.fresh⟩, h.counts, h.nodup, h.sources, h.chunks, h.unplaced⟩
      | none =>
          have hname : chunkName digest ∉ st.files.map (·.1) := by
            intro hmem
            obtain ⟨q, hq, hkey⟩ := List.mem_map.mp (h.chunks digest hmem)
            have := List.find?_eq_none.mp hfind q hq
            simp [hkey] at this
          refine Prog.Wp.seq (holdChunk_holds h.inv (chunkName digest) view.length) (fun r t' hh => ?_) fun _ _ h => h
          cases r with
          | none => exact ⟨h.holds hh, by rw [hh.places]⟩
          | some crc =>
              have hkeys := keys_setItem_of_not_mem (view.length + trailer) hname
              have hkeys' : ∀ n, n ∈ (Dict.setItem st.files (chunkName digest) (view.length + trailer)).map (·.1) ↔
                  n = chunkName digest ∨ n ∈ st.files.map (·.1) := fun n => Dict.mem_keys_setItem
              refine ⟨hh.inv, ⟨h.good.places, fun p hp => (hkeys' _).mpr (.inr (h.good.held p hp)), h.good.fresh⟩,
                ?_, ?_, ?_, ?_, ?_⟩
              · dsimp only
                rw [hkeys]
                exact h.counts.trans hh.counts
              · dsimp only
                rw [hkeys]
                exact h.nodup.append (List.nodup_singleton _) (by simpa using hname)
              · intro n hn
                rw [hh.places]
                rcases (hkeys' n).mp hn with rfl | hn
                · exact .inr ⟨digest, rfl⟩
                · exact h.sources n hn
              · intro d hd
                dsimp only
                rw [List.map_append, List.mem_append]
                rcases (hkeys' _).mp hd with hd | hd
                · exact .inr (by simp [hd])
                · exact .inl (h.chunks d hd)
              · intro d hd
                rw [hh.places]
                exact h.unplaced d hd

theorem Putting.wait {t₀ t : Tables} {st : Put} (h : Putting H t₀ t st) (i : Nat) {view : Bytes} {digest : Digest}
    (hv : view ∈ H.buffers) (hd : digest = H.bulkDigest view) (hnone : t.places.lookup digest = none) :
    Putting H t₀ t (wait st i view digest) where
  inv := h.inv
  good := wait_good h.good i hv hd
  counts := h.counts
  nodup := h.nodup
  sources := h.sources
  chunks := h.chunks
  unplaced d hmem := by
    unfold Store.wait at hmem
    dsimp only at hmem
    split at hmem
    · exact h.unplaced d hmem
    · rw [List.map_append, List.mem_append] at hmem
      rcases hmem with hmem | hmem
      · exact h.unplaced d hmem
      · have : d = digest := by simpa using hmem
        rw [this]
        exact hnone

theorem putOne_puts (hH : H.Sound) {t₀ t : Tables} {st : Put} (h : Putting H t₀ t st) (i : Nat) {view : Bytes}
    {known : Option Digest} (hv : GoodView H (view, known)) :
    (putOne st i view known).Wp (openRules H) (fun st' t' => Putting H t₀ t' st') (fun _ _ => False) t := by
  have hdigest : (digestOf view known).Wp (openRules H) (fun d t' => d = H.bulkDigest view ∧ t' = t) (fun _ _ => False) t := by
    cases known with
    | some d => exact ⟨hv.known d rfl, rfl⟩
    | none => exact wp_perform rfl fun d hd => ⟨hd, rfl⟩
  refine Prog.Wp.seq hdigest ?_ fun _ _ h => h
  rintro _ _ ⟨rfl, rfl⟩
  refine Prog.Wp.bind (wp_locked (Prog.Wp.seq (usePlace_puts hH h i hv.met) (fun used t₁ h₁ => ?_) fun _ _ h => h))
  cases used with
  | some st' => exact h₁
  | none =>
      obtain ⟨h₁, hnone⟩ := h₁
      refine Prog.Wp.seq (useChunk_puts h₁ i view _) (fun used t₂ h₂ => ?_) fun _ _ h => h
      cases used with
      | some st' => exact h₂
      | none => exact h₂.1.wait i hv.met rfl (h₂.2.trans hnone)

theorem putEach_puts (hH : H.Sound) {t₀ t : Tables} {st : Put} (h : Putting H t₀ t st) (i : Nat)
    {views : List (Bytes × Option Digest)} (hv : ∀ v ∈ views, GoodView H v) :
    (putEach st i views).Wp (openRules H) (fun st' t' => Putting H t₀ t' st') (fun _ _ => False) t := by
  induction views generalizing st i t with
  | nil => exact h
  | cons v rest ih =>
      obtain ⟨view, known⟩ := v
      refine Prog.Wp.seq (putOne_puts hH h i (hv _ (by simp))) (fun st' t' h' => ?_) fun _ _ h => h
      exact ih h' (i + 1) fun v hmem => hv v (by simp [hmem])

/-! ## A pack written -/

theorem storePack_same (name : Str) (views : List Bytes) : Rests (openRules H) Tables.Same (storePack name views) := by
  refine calm_same.thenCall rfl fun before => calm_same.bind calm_same.chunkTemp fun _ => ?_
  refine calm_same.bind (calm_same.handle ?_ fun e => calm_same.thenCall rfl fun _ => calm_same.rests_raise e) fun _ =>
    calm_same.bind (calm_same.noteOwn name) fun _ => calm_same.rests_pure _
  exact calm_same.bind (calm_same.writeMembers 0 views) fun _ => calm_same.orRaise rfl

/-- The tables once a pack is written: it is counted once, and the entries are as they were. -/
structure Packed (H : Hashes) (t t' : Tables) (name : Str) : Prop where
  inv : Inv H t'
  counts : Counts t t' [name]
  heldBy : t'.heldBy = t.heldBy
  placedBy : t'.placedBy = t.placedBy

theorem writePack_packs {t : Tables} (hi : Inv H t) {fresh : List (Digest × Bytes)} (hf : Fresh H fresh) :
    (writePack fresh).Wp (openRules H) (fun w t' => GoodWritten H fresh w ∧ Packed H t t' w.name)
      (fun _ t' => Holds H t t' []) t := by
  refine wp_call rfl fun name hname => ?_
  obtain ⟨hmet, rfl⟩ := hname
  have hheld := Holds.pend hi (packName H.sha256 (fresh.map (·.1)))
  refine Prog.Wp.bind (wp_update (Prog.Wp.bind (Prog.Wp.handle ((storePack_same _ _ _).mono (fun before t₁ hs => ?_)
    fun e t₁ hs => Prog.Wp.bind (wp_update (hheld.same hs).unpend)))))
  have hheld₁ := hheld.same hs
  have hplaces := hf.goodPlaces hmet
  refine Prog.Wp.bind (wp_update ⟨⟨hmet, rfl, rfl, rfl⟩, hheld₁.inv.learn hplaces fun p hp => ?_, hheld₁.counts,
    hs.heldBy, hs.placedBy⟩)
  obtain ⟨_, _, _, _, _, _, rfl⟩ := mem_packPlaces hp
  rfl

/-- A new pack is not one that is held already. -/
theorem Putting.name_fresh (hH : H.Sound) {t₀ t : Tables} {st : Put} (h : Putting H t₀ t st)
    (hm : st.fresh.map (·.1) ∈ H.packs) : packName H.sha256 (st.fresh.map (·.1)) ∉ st.files.map (·.1) := by
  intro hmem
  rcases h.sources _ hmem with ⟨d, p, hd, hname⟩ | ⟨d, hc⟩
  · have hgood := h.inv.good.places d p hd
    cases hgood with
    | mk hpack hb ho =>
        rename_i bufs k b offset
        have hfresh := h.good.fresh
        have hlen : ∀ d ∈ st.fresh.map (·.1), d.length = 32 := by
          rw [← hfresh.map_digest]
          exact (hfresh.isPack hm).lengths hH
        have hms := packName_inj hH hpack.met hm (hpack.lengths hH) hlen hname
        have hin : H.bulkDigest b ∈ st.fresh.map (·.1) := by
          rw [← hms]
          exact List.mem_map_of_mem (List.mem_of_getElem? hb)
        rw [h.unplaced _ hin] at hd
        cases hd
  · exact packName_ne_chunkName _ _ _ hc

theorem Counts.unpend {t t' : Tables} {names : List Str} (h : Counts t t' names) :
    (t'.unpend names).pends = t.pends := by
  funext n
  rw [pends_unpend, h n]
  omega

/-- A write given up: it holds nothing any more. -/
theorem abandon_kept {t t' : Tables} {held : Held} (hi : Inv H t') (h : Counts t t' (held.map (·.1))) :
    (abandon held).Wp (openRules H) (fun _ t'' => Inv H t'' ∧ t''.pends = t.pends)
      (fun _ t'' => Inv H t'' ∧ t''.pends = t.pends) t' := by
  have hi' : Inv H (t'.unpend (held.map (·.1))) := hi.congr rfl rfl rfl rfl rfl
  refine Prog.Wp.bind (wp_update ((drop_kept _ _).mono (fun _ _ hk => ?_) fun _ _ hk => ?_)) <;>
  · obtain ⟨hi'', hp⟩ := hk hi'
    exact ⟨hi'', hp.trans h.unpend⟩

/-- `put_all` holds the files it returns, once each; when it raises it holds nothing. -/
theorem putAll_puts (hH : H.Sound) {t : Tables} (hi : Inv H t) {views : List Bytes} {known : List (Option Digest)}
    (hv : ∀ v ∈ views.zip known, GoodView H v) :
    (putAll views known).Wp (openRules H)
      (fun s t' => Inv H t' ∧ Counts t t' (s.held.map (·.1)) ∧ (s.held.map (·.1)).Nodup)
      (fun _ t' => Inv H t' ∧ t'.pends = t.pends) t := by
  refine Prog.Wp.seq (ensureIndex_kept t) (fun _ t₁ hk => ?_) fun _ t₁ hk => hk hi
  obtain ⟨hi₁, hp₁⟩ := hk hi
  have hnone : Putting H t₁ t₁ ⟨[], [], [], [], [], []⟩ :=
    { inv := hi₁
      good := ⟨fun p hp => (nomatch hp), fun p hp => (nomatch hp), ⟨fun f hf => (nomatch hf), fun f hf => nomatch hf⟩⟩
      counts := fun n => by simp
      nodup := List.nodup_nil
      sources := fun n hn => nomatch hn
      chunks := fun d hd => nomatch hd
      unplaced := fun d hd => nomatch hd }
  refine Prog.Wp.seq (putEach_puts hH hnone 0 hv) (fun st t₂ h => ?_) fun _ _ h => h.elim
  have hcounts : ∀ {t' names}, Counts t₁ t' names → Counts t t' names := fun h n => by rw [h n, hp₁]
  dsimp only
  split
  · exact ⟨h.inv, hcounts h.counts, h.nodup⟩
  · refine Prog.Wp.bind (Prog.Wp.handle ((writePack_packs h.inv h.good.fresh).mono (fun w t₃ hw => ?_) fun e t₃ hh => ?_))
    · obtain ⟨hw, hpacked⟩ := hw
      have hname : w.name ∉ st.files.map (·.1) := by
        rw [hw.name]
        exact h.name_fresh hH hw.met
      have hkeys := keys_setItem_of_not_mem w.size hname
      refine ⟨hpacked.inv, ?_, ?_⟩
      · dsimp only
        rw [placeWaiting_files, hkeys]
        exact hcounts (h.counts.trans hpacked.counts)
      · dsimp only
        rw [placeWaiting_files, hkeys]
        exact h.nodup.append (List.nodup_singleton _) (by simpa using hname)
    · have hc : Counts t t₃ (st.files.map (·.1)) := by simpa using hcounts (h.counts.trans hh.counts)
      exact Prog.Wp.seq (abandon_kept hh.inv hc) (fun _ _ hk => hk) fun _ _ hk => hk

/-! ## Making packs smaller -/

theorem keys_foldl_live {name : Str} {es : List (Sigma fun _ : Digest => Place)} {live : Places} {d : Digest}
    (h : d ∈ live.map (·.1) ∨ ∃ e ∈ es, e.1 = d ∧ e.2.name = name) : d ∈ (es.foldl (addLive name) live).map (·.1) := by
  induction es generalizing live with
  | nil => simpa using h
  | cons e es ih =>
      apply ih
      rcases h with h | ⟨e', he', rfl, hname⟩
      · refine .inl ?_
        unfold addLive
        split
        · exact Dict.mem_keys_setItem.mpr (.inr h)
        · exact h
      · rcases List.mem_cons.mp he' with rfl | he'
        · refine .inl ?_
          rw [addLive, if_pos hname]
          exact Dict.mem_keys_setItem.mpr (.inl rfl)
        · exact .inr ⟨e', he', rfl, hname⟩

/-- Every chunk that a holder places in the pack is live. -/
theorem mem_keys_liveChunks {name : Str} {stems : List Str} {placed : List (Str × Dict Digest Place)} {s : Str}
    {ps : Dict Digest Place} (hs : s ∈ stems) (hfind : placed.find? (fun p => p.1 = s) = some (s, ps)) {d : Digest}
    {p : Place} (hd : ps.lookup d = some p) (hp : p.name = name) : d ∈ (liveChunks name stems placed).map (·.1) := by
  have hkeep : ∀ (stems : List Str) (live : Places), d ∈ live.map (·.1) →
      d ∈ (stems.foldl (addLives name placed) live).map (·.1) := by
    intro stems
    induction stems with
    | nil => exact fun _ h => h
    | cons s stems ih =>
        intro live h
        apply ih
        unfold addLives
        split
        · exact h
        · exact keys_foldl_live (.inl h)
  obtain ⟨before, after, rfl⟩ := List.append_of_mem hs
  unfold liveChunks
  rw [List.foldl_append, List.foldl_cons]
  apply hkeep
  unfold addLives
  rw [hfind]
  exact keys_foldl_live (.inr ⟨⟨d, p⟩, Dict.mem_entries_of_lookup hd, rfl, hp⟩)

theorem compactLook_find {name : Str} {t : Tables} {placed : List (Str × Dict Digest Place)} {size : Nat}
    (h : t.compactLook name = some (placed, size)) {s : Str} (hs : s ∈ placed.map (·.1)) {ps : Dict Digest Place}
    (hps : t.placedBy.lookup s = some ps) : placed.find? (fun p => p.1 = s) = some (s, ps) := by
  obtain ⟨g, hg, hkey⟩ := List.mem_map.mp hs
  cases hfind : placed.find? (fun p => p.1 = s) with
  | none =>
      have := List.find?_eq_none.mp hfind g hg
      simp [hkey] at this
  | some g' =>
      obtain ⟨s', ps'⟩ := g'
      have hs' : s' = s := by simpa using List.find?_some hfind
      have hps' := compactLook_placed h (s', ps') (List.mem_of_find?_eq_some hfind)
      dsimp only at hps'
      rw [hs', hps] at hps'
      cases hps'
      rw [hs']

/-- The tables while the holders of a pack are told: the chunks they place in `old` are among those moved. -/
structure Telling (H : Hashes) (t t' : Tables) (old : Str) (digests : List Digest) (stems : List Str) : Prop where
  inv : Inv H t'
  pends : t'.pends = t.pends
  within : ∀ s ∈ stems, t'.PlacesIn s old digests

theorem Telling.same {t t' t'' : Tables} {old : Str} {digests : List Digest} {stems : List Str}
    (h : Telling H t t' old digests stems) (hs : t'.Same t'') : Telling H t t'' old digests stems where
  inv := h.inv.same hs
  pends := (hs.kept h.inv).2.trans h.pends
  within := by
    unfold Tables.PlacesIn
    rw [hs.placedBy]
    exact h.within

theorem Telling.repoint {t t' : Tables} {stem old new : Str} {placed : Places} {stems : List Str}
    (h : Telling H t t' old (placed.map (·.1)) stems) (hp : GoodPlaces H placed) (hnew : ∀ p ∈ placed, p.2.name = new)
    (hne : new ≠ old) (hstem : stem ∈ stems) :
    (t'.repoint stem old new placed).1 = true ∧
      Telling H t (t'.repoint stem old new placed).2 old (placed.map (·.1)) stems := by
  have hkeys := h.within stem hstem
  obtain ⟨htold, hplaced⟩ := @repoint_told t' stem old new placed hkeys
  refine ⟨htold, h.inv.repoint hp hnew hkeys, ?_, fun s hs ps hps d p hd hold => ?_⟩
  · rw [← h.pends]
    unfold Tables.pends
    rw [(repoint_holders t' stem old new placed).2.2.1]
  · rw [hplaced] at hps
    rcases Dict.lookup_insert_cases hps with ⟨rfl, rfl⟩ | ⟨-, hps⟩
    · have hin : ∀ e ∈ (t'.placedBy.getD s ∅).entries, e.2.name = old → e.1 ∈ placed.map (·.1) := by
        intro e he hold
        obtain ⟨ps, hps, hlook⟩ := placedBy_entries he
        exact hkeys ps hps _ _ hlook hold
      rcases lookup_moved hin hnew hd with hn | ⟨-, hno⟩
      · exact absurd (hn.symm.trans hold) hne
      · exact absurd hold hno
    · exact h.within s hs ps hps d p hd hold

section

variable {t : Tables} {old : Str} {new : Str × Nat} {planned placed : Places}

theorem repoint_tells {t' : Tables} {stem : Str} {stems : List Str} (h : Telling H t t' old (placed.map (·.1)) stems)
    (hp : GoodPlaces H placed) (hnew : ∀ p ∈ placed, p.2.name = new.1) (hne : new.1 ≠ old) (hstem : stem ∈ stems) :
    (repoint conf stem old new planned placed).Wp (openRules H)
      (fun _ t'' => Telling H t t'' old (placed.map (·.1)) stems)
      (fun _ t'' => Telling H t t'' old (placed.map (·.1)) stems) t' := by
  refine wp_call rfl fun taken _ => ?_
  cases taken with
  | false => exact h
  | true =>
      have hunlock : ∀ t'', Telling H t t'' old (placed.map (·.1)) stems →
          (perform (.unlock stem) : StoreM Unit).Wp (openRules H)
            (fun _ t'' => Telling H t t'' old (placed.map (·.1)) stems)
            (fun _ t'' => Telling H t t'' old (placed.map (·.1)) stems) t'' :=
        fun t'' h'' => wp_perform rfl fun _ _ => h''
      refine Prog.Wp.ensuring (Prog.Wp.mono ?_ (fun _ t'' h'' => hunlock t'' h'') fun _ t'' h'' => hunlock t'' h'')
      refine Prog.Wp.seq (calm_same.movedHead conf stem old new planned t') (fun head t₁ hs => ?_) fun _ _ hs => h.same hs
      have h₁ := h.same hs
      cases head with
      | none => exact h₁
      | some head =>
          refine Prog.Wp.seq (calm_same.putHead head stem t₁) (fun put t₂ hs => ?_) fun _ _ hs => h₁.same hs
          have h₂ := h₁.same hs
          cases put with
          | false => exact h₂
          | true =>
              refine Prog.Wp.bind fun told t₃ hs => ⟨trivial, ?_⟩
              have heq : (told, t₃) = t₂.repoint stem old new.1 placed := hs
              obtain ⟨htold, h₃⟩ := h₂.repoint hp hnew hne hstem
              rw [← heq] at htold h₃
              dsimp only at htold
              subst htold
              exact h₃

theorem repointEach_tells {t' : Tables} {stems all : List Str} (h : Telling H t t' old (placed.map (·.1)) all)
    (hp : GoodPlaces H placed) (hnew : ∀ p ∈ placed, p.2.name = new.1) (hne : new.1 ≠ old) (hsub : ∀ s ∈ stems, s ∈ all) :
    (repointEach conf old new planned placed stems).Wp (openRules H)
      (fun _ t'' => Telling H t t'' old (placed.map (·.1)) all)
      (fun _ t'' => Telling H t t'' old (placed.map (·.1)) all) t' := by
  induction stems generalizing t' with
  | nil => exact h
  | cons stem rest ih =>
      refine Prog.Wp.seq (repoint_tells h hp hnew hne (hsub stem (by simp))) (fun told t₁ h₁ => ?_) fun _ _ h => h
      refine Prog.Wp.seq (ih h₁ fun s hs => hsub s (by simp [hs])) (fun _ _ h₂ => h₂) fun _ _ h => h

end

theorem settle_kept {t t' : Tables} {w : Written} (hi : Inv H t') (h : Counts t t' [w.name]) :
    (settle w).Wp (openRules H) (fun _ t'' => Inv H t'' ∧ t''.pends = t.pends) (fun _ _ => False) t' := by
  have h' : Counts t { t' with size := t'.size.insert w.name w.size } [w.name] := h
  exact Prog.Wp.bind (wp_update (wp_update ⟨hi.congr rfl rfl rfl rfl rfl, h'.unpend⟩))

/-- Told or not, the new pack is held until the holders have been asked, and no longer. -/
theorem tellAll_kept {t t' : Tables} {w : Written} (hi : Inv H t') (hc : Counts t t' [w.name]) {old : Str}
    {planned : Places} {stems : List Str} (hp : GoodPlaces H w.placed) (hnames : ∀ p ∈ w.placed, p.2.name = w.name)
    (hne : w.name ≠ old) (hwithin : ∀ s ∈ stems, t'.PlacesIn s old (w.placed.map (·.1))) :
    ((repointEach conf old (w.name, w.size) planned w.placed stems).ensuring (settle w)).Wp (openRules H)
      (fun _ t'' => Inv H t'' ∧ t''.pends = t.pends) (fun _ t'' => Inv H t'' ∧ t''.pends = t.pends) t' := by
  have htelling : Telling H t' t' old (w.placed.map (·.1)) stems := ⟨hi, rfl, hwithin⟩
  have htold : (repointEach conf old (w.name, w.size) planned w.placed stems).Wp (openRules H)
      (fun _ t'' => Telling H t' t'' old (w.placed.map (·.1)) stems)
      (fun _ t'' => Telling H t' t'' old (w.placed.map (·.1)) stems) t' :=
    repointEach_tells htelling hp hnames hne fun s hs => hs
  refine Prog.Wp.ensuring (htold.mono (fun _ t₁ h₁ => ?_) fun _ t₁ h₁ => ?_) <;>
  · have hc₁ : Counts t t₁ [w.name] := by
      intro n
      rw [h₁.pends]
      exact hc n
    exact (settle_kept h₁.inv hc₁).mono (fun _ _ h => h) fun _ _ h => h.elim

theorem Kept.wp {α : Type} {p : StoreM α} (h : Rests (openRules H) (Kept H) p) {t t' : Tables} (hi : Inv H t')
    (hp : t'.pends = t.pends) : p.Wp (openRules H) (fun _ t'' => Inv H t'' ∧ t''.pends = t.pends)
      (fun _ t'' => Inv H t'' ∧ t''.pends = t.pends) t' := by
  refine (h t').mono (fun _ _ hk => ?_) fun _ _ hk => ?_ <;>
  · obtain ⟨hi', hp'⟩ := hk hi
    exact ⟨hi', hp'.trans hp⟩

theorem rewrite_kept (hH : H.Sound) (henc : EncodesPacks H conf) {t : Tables} (hi : Inv H t) {name newName : Str}
    {members : Places} (hm : GoodMembers H name members) (hnew : newName = packName H.sha256 (members.map (·.1)))
    (hne : newName ≠ name) {stems : List Str} (hwithin : ∀ s ∈ stems, t.PlacesIn s name (members.map (·.1))) :
    (rewrite conf name newName members stems).Wp (openRules H) (fun _ t' => Inv H t' ∧ t'.pends = t.pends)
      (fun _ t' => Inv H t' ∧ t'.pends = t.pends) t := by
  obtain ⟨bufs, hpack, rfl⟩ := hm.exists_pack
  obtain ⟨bs, hb⟩ := exists_backed hH hpack hm.places
  refine Prog.Wp.seq (calm_same.canMoveAll conf _ _ _ stems t) (fun can t₁ hs₁ => ?_) fun _ _ hs => hs.kept hi
  obtain ⟨hi₁, hp₁⟩ := hs₁.kept hi
  cases can with
  | false => exact ⟨hi₁, hp₁⟩
  | true =>
      refine Prog.Wp.seq ((readPackFile_keeps henc hpack hb).rests (calm_same.readPackFile conf _ _) hi₁)
        (fun data t₂ h₂ => ?_) fun _ _ hs => (hs₁.trans hs).kept hi
      obtain ⟨hdata, hs₂⟩ := h₂
      have hs₂ := hs₁.trans hs₂
      obtain ⟨hi₂, hp₂⟩ := hs₂.kept hi
      refine wp_call rfl fun there _ => ?_
      rw [hdata]
      refine Prog.Wp.seq (writePack_packs hi₂ (freshOf_fresh hb)) (fun w t₃ h₃ => ?_) fun _ t₃ h₃ => ?_
      · obtain ⟨hw, hpacked⟩ := h₃
        have hname : w.name = newName := by rw [hw.name, freshOf_keys hb, hnew]
        have hkeys : w.placed.map (·.1) = members.map (·.1) := by rw [hw.placed, packPlaces_keys, freshOf_keys hb]
        have hgood : GoodPlaces H w.placed := by
          rw [hw.placed, hw.name]
          exact (freshOf_fresh hb).goodPlaces hw.met
        have hnames : ∀ p ∈ w.placed, p.2.name = w.name := by
          intro p hp
          rw [hw.placed] at hp
          obtain ⟨_, _, _, _, _, _, rfl⟩ := mem_packPlaces hp
          rfl
        have hcounts : Counts t t₃ [w.name] := fun n => by rw [hpacked.counts n, hp₂]
        have hwithin₃ : ∀ s ∈ stems, t₃.PlacesIn s (H.nameOf bufs) (w.placed.map (·.1)) := by
          unfold Tables.PlacesIn
          rw [hpacked.placedBy, hs₂.placedBy, hkeys]
          exact hwithin
        refine Prog.Wp.seq (tellAll_kept hpacked.inv hcounts hgood hnames (by rw [hname]; exact hne) hwithin₃)
          (fun moved t₅ h₅ => ?_) fun _ _ h => h
        obtain ⟨hi₅, hp₅⟩ := h₅
        have hdrop := fun names => Kept.wp (drop_kept (H := H) names) hi₅ hp₅
        split
        · split
          · exact ⟨hi₅, hp₅⟩
          · exact Prog.Wp.seq (hdrop _) (fun _ _ h => h) fun _ _ h => h
        · exact Prog.Wp.seq (hdrop _) (fun _ _ h => h) fun _ _ h => h
      · refine ⟨h₃.inv, ?_⟩
        funext n
        rw [h₃.counts n, hp₂]
        simp

theorem compactOne_kept (hH : H.Sound) (henc : EncodesPacks H conf) (name : Str) :
    Rests (openRules H) (Kept H) (compactOne conf name) := by
  refine rests_kept fun t hi => Prog.Wp.bind (wp_locked ?_)
  dsimp only
  cases hlook : t.compactLook name with
  | none => exact ⟨hi, rfl⟩
  | some look =>
      obtain ⟨placed, size⟩ := look
      refine wp_call rfl fun stems hperm => ?_
      split
      · exact ⟨hi, rfl⟩
      · rename_i hlive
        have hsort := List.perm_insertionSort (fun a b : Digest × Place => a.2.offset ≤ b.2.offset)
          (liveChunks name stems placed)
        have hmembers : GoodMembers H name (sortLive (liveChunks name stems placed)) := by
          constructor
          · intro hnil
            unfold sortLive at hnil
            rw [hnil] at hsort
            exact hlive (.inl hsort.symm.eq_nil)
          · intro q hq
            obtain ⟨hname, g, hg, hlook'⟩ := mem_liveChunks (hsort.mem_iff.mp hq)
            exact ⟨hi.good.placedBy g.1 g.2 (compactLook_placed hlook g hg) _ _ hlook', hname⟩
        have hwithin : ∀ s ∈ stems, t.PlacesIn s name ((sortLive (liveChunks name stems placed)).map (·.1)) := by
          intro s hs ps hps d p hd hp
          have hkey : s ∈ placed.map (·.1) := (show stems.Perm _ from hperm).mem_iff.mp hs
          exact (hsort.map _).mem_iff.mpr (mem_keys_liveChunks hs (compactLook_find hlook hkey hps) hd hp)
        refine wp_call rfl fun newName hnew => ?_
        split
        · exact ⟨hi, rfl⟩
        · rename_i hne
          refine Prog.Wp.seq (calm_same.claim name t) (fun claimed t₁ hs => ?_) fun _ _ hs => hs.kept hi
          obtain ⟨hi₁, hp₁⟩ := hs.kept hi
          cases claimed with
          | false => exact ⟨hi₁, hp₁⟩
          | true =>
              have hwithin₁ : ∀ s ∈ stems, t₁.PlacesIn s name ((sortLive (liveChunks name stems placed)).map (·.1)) := by
                unfold Tables.PlacesIn
                rw [hs.placedBy]
                exact hwithin
              have hrewrite := rewrite_kept hH henc hi₁ hmembers hnew.2 hne hwithin₁
              rw [hp₁] at hrewrite
              refine Prog.Wp.ensuring (hrewrite.mono (fun _ t₂ h₂ => ?_) fun _ t₂ h₂ => ?_) <;>
              · exact wp_call rfl fun _ _ => h₂

theorem compact_kept (hH : H.Sound) (henc : EncodesPacks H conf) (names : List Str) :
    Rests (openRules H) (Kept H) (compact conf names) := by
  have heach : ∀ names, Rests (openRules H) (Kept H) (compactEach conf names) := by
    intro names
    induction names with
    | nil => exact calm_kept.rests_pure _
    | cons name rest ih =>
        have htry : Rests (openRules H) (Kept H) (compactTry conf name) := by
          unfold compactTry
          split
          · exact calm_kept.handle (compactOne_kept hH henc name) fun _ => calm_kept.rests_pure _
          · exact calm_kept.rests_pure _
        exact calm_kept.bind htry fun _ => calm_kept.bind ih fun _ => calm_kept.rests_pure _
  exact calm_kept.thenCall rfl fun order => heach order

end Cash.Store
