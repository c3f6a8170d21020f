import Cash.Files.Lemmas.Deps

/-!
# A file that is left alone
-/

namespace Cash.Files.Deps

variable {P D : Type} {env : Env D} {s s' : State P D} {st : Stat} {path : P} {ino : Nat}

theorem getElem?_concat_cases {α : Type} {l : List α} {x y : α} {j : Nat} (h : (l ++ [x])[j]? = some y) :
    l[j]? = some y ∨ y = x := by
  rw [List.getElem?_append] at h
  split at h
  · exact .inl h
  · exact .inr (List.mem_singleton.mp (List.mem_of_getElem? h))

theorem inodes_external {e : External} (h : e.Spares ino) : (s.external env e).inodes ino = s.inodes ino := by
  cases e with
  | wait ns => rfl
  | write i content mtimeNs | touch i mtimeNs => simp [State.external, State.change, Ne.symm h]

theorem inodes_pass (pause : List External) : ∀ s : State P D, (∀ e ∈ pause, e.Spares ino) →
    (s.pass env pause).inodes ino = s.inodes ino := by
  induction pause with
  | nil => exact fun _ _ => rfl
  | cons e pause ih =>
    intro s h
    obtain ⟨he, hpause⟩ := List.forall_mem_cons.mp h
    exact (ih _ hpause).trans (inodes_external he)

theorem inodes_readDigest (s : State P D) (path : P) (key : Option Stat) :
    (readDigest env s path key).2.inodes = s.inodes := by
  unfold readDigest
  split
  · rfl
  · cases key <;> rfl

theorem inodes_fileContentHash (s : State P D) (path : P) (size : Option Nat) (given : Option Stat)
    {pause : List External} (h : ∀ e ∈ pause, e.Spares ino) :
    (fileContentHash env s path size given pause).2.inodes ino = s.inodes ino := by
  unfold fileContentHash
  split
  · rfl
  · simp only
    split
    · split
      · rfl
      · rw [inodes_readDigest, inodes_pass pause s h]
    · rw [inodes_readDigest, inodes_pass pause s h]

/-- What is known of the file of a path since it was left alone: from number `m` on the reads, and from number `n`
on the entries, are of the file as it is. -/
structure Alone (env : Env D) (path : P) (ino : Nat) (file : Inode) (m n : Nat) (s : State P D) : Prop where
  names : s.paths path = some ino
  inode : s.inodes ino = file
  known : ∀ {j read}, m ≤ j → s.known[j]? = some (path, read) → read.digest = env.digest file.content
  entries : ∀ {j entry}, n ≤ j → s.entries[j]? = some (path, entry) →
    entry.stat = s.statOf ino ∧ entry.hash = some (env.digest file.content)

variable {file : Inode} {m n : Nat}

theorem Alone.stat (h : Alone env path ino file m n s) : s.stat path = some (s.statOf ino) := by
  simp [State.stat, h.names]

theorem statOf_eq (hfile : s'.inodes ino = s.inodes ino) : s'.statOf ino = s.statOf ino := by
  simp [State.statOf, hfile]

/-- Nothing is recorded. -/
theorem Alone.same (h : Alone env path ino file m n s) (hpath : s'.paths path = s.paths path)
    (hfile : s'.inodes ino = s.inodes ino) (hknown : s'.known = s.known) (hentries : s'.entries = s.entries) :
    Alone env path ino file m n s' :=
  ⟨hpath.trans h.names, hfile.trans h.inode, fun hj hread => h.known hj (hknown ▸ hread), fun hj hentry => by
    rw [statOf_eq hfile]
    exact h.entries hj (hentries ▸ hentry)⟩

theorem Alone.addKnown (h : Alone env path ino file m n s) {p : P} {read : Known D}
    (hread : p = path → read.digest = env.digest file.content) :
    Alone env path ino file m n { s with known := s.known ++ [(p, read)] } := by
  refine ⟨h.names, h.inode, fun {j read'} hj hread' => ?_, h.entries⟩
  rcases getElem?_concat_cases hread' with hread' | heq
  · exact h.known hj hread'
  · cases heq
    exact hread rfl

theorem Alone.addEntry (h : Alone env path ino file m n s) {p : P} {entry : Entry D}
    (hentry : p = path → entry.stat = s.statOf ino ∧ entry.hash = some (env.digest file.content)) :
    Alone env path ino file m n { s with entries := s.entries ++ [(p, entry)] } := by
  refine ⟨h.names, h.inode, h.known, fun {j entry'} hj hentry' => ?_⟩
  rcases getElem?_concat_cases hentry' with hentry' | heq
  · exact h.entries hj hentry'
  · cases heq
    exact hentry rfl

theorem Alone.pass (h : Alone env path ino file m n s) {pause : List External} (hspares : ∀ e ∈ pause, e.Spares ino) :
    Alone env path ino file m n (s.pass env pause) := by
  have hheld := sameHeld_pass env s pause
  exact h.same (by rw [hheld.paths]) (inodes_pass pause s hspares) hheld.known hheld.entries

/-- A call takes the digest of the file as it is. -/
theorem Alone.taken (h : Alone env path ino file m n s) (hgood : Good env s) {p : P} {pauses : Pauses}
    (hspares : pauses.Spares ino) (hcalm : Calm env s p pauses) (hstat : s.stat p = some st) (given : Option Stat)
    (hgiven : ∀ st' ∈ given, st' = st) :
    let r := fileContentHash env ((s.pass env pauses.ask).pass env pauses.askAgain) p (some st.size) given pauses.read
    Alone env path ino file m n r.2 ∧
      ∃ digest, r.1 = some digest ∧ (p = path → digest = env.digest file.content) := by
  intro r
  have htaken := hgood.taken hstat hcalm given hgiven
  obtain ⟨digest, hdigest, hright⟩ := htaken.right
  have hinodes : r.2.inodes ino = s.inodes ino :=
    calc r.2.inodes ino
      _ = ((s.pass env pauses.ask).pass env pauses.askAgain).inodes ino :=
        inodes_fileContentHash _ p (some st.size) given hspares.2.2
      _ = (s.pass env pauses.ask).inodes ino := inodes_pass _ _ hspares.2.1
      _ = s.inodes ino := inodes_pass _ _ hspares.1
  refine ⟨h.same (by rw [htaken.paths]) hinodes htaken.known htaken.entries, digest, hdigest, ?_⟩
  rintro rfl
  obtain rfl : s.statOf ino = st := by simpa [h.stat] using hstat
  rw [← h.inode, ← hinodes]
  exact (hright (statOf_eq hinodes)).symm

theorem Alone.read (h : Alone env path ino file m n s) (hgood : Good env s) {p : P} {ownStat noted : Bool}
    {pauses : Pauses} (hspares : pauses.Spares ino) (hcalm : Calm env s p pauses) :
    Alone env path ino file m n (Deps.read env s p ownStat noted pauses) := by
  cases hstat : s.stat p with
  | none =>
    simp only [Deps.read, hstat]
    exact h
  | some st =>
    obtain ⟨halone, digest, hdigest, heq⟩ :=
      h.taken hgood hspares hcalm hstat (if ownStat then none else some st) (by cases ownStat <;> simp)
    simp only [Deps.read, hstat]
    generalize fileContentHash env _ p (some st.size) _ pauses.read = r at *
    obtain ⟨r, s'⟩ := r
    cases hdigest
    exact halone.addKnown heq

theorem Alone.digestLater (h : Alone env path ino file m n s) (hgood : Good env s) {p : P} {pauses : Pauses}
    (hspares : pauses.Spares ino) : Alone env path ino file m n (Deps.digestLater env s p pauses) := by
  have halone := (h.pass hspares.1).pass hspares.2.1
  have hgood := (hgood.pass pauses.ask).pass pauses.askAgain
  cases hstat : s.stat p with
  | none =>
    simp only [Deps.digestLater, hstat]
    exact h
  | some st =>
    simp only [Deps.digestLater, hstat]
    have hst : p = path → ((s.pass env pauses.ask).pass env pauses.askAgain).statOf st.ino = st ∧ st.ino = ino := by
      rintro rfl
      obtain rfl : s.statOf ino = st := by simpa [h.stat] using hstat
      refine ⟨?_, rfl⟩
      exact (statOf_eq (inodes_pass _ _ hspares.2.1)).trans (statOf_eq (inodes_pass _ _ hspares.1))
    generalize (s.pass env pauses.ask).pass env pauses.askAgain = s₂ at *
    split
    · split
      · rename_i digest hlookup
        refine halone.addKnown fun hp => ?_
        obtain ⟨hnow, hino⟩ := hst hp
        rw [← halone.inode, ← hino]
        exact ((hgood.memo hlookup).2 hnow).symm
      · exact halone.same rfl rfl rfl rfl
    · exact halone

theorem Alone.settle (h : Alone env path ino file m n s) (hgood : Good env s) {p : P} {d : Deferred} {pauses : Pauses}
    (hspares : pauses.Spares ino) (hcalm : Calm env s p pauses) :
    Alone env path ino file m n (Deps.settle env s p d pauses) := by
  cases hstat : s.stat p with
  | none =>
    simp only [Deps.settle, hstat]
    exact h
  | some now =>
    simp only [Deps.settle, hstat]
    split
    · rename_i hsame
      obtain ⟨rfl, -⟩ := hsame
      -- the same call with nothing between the two looks at the clock
      have hcalm' : Calm env s p { pauses with askAgain := [] } :=
        ⟨fun st hst => ⟨(hcalm.asked st hst).1, (hcalm.asked st hst).1⟩, hcalm.stated, hcalm.stated⟩
      have hspares' : ({ pauses with askAgain := [] } : Pauses).Spares ino :=
        ⟨hspares.1, fun _ he => (List.not_mem_nil he).elim, hspares.2.2⟩
      obtain ⟨halone, digest, hdigest, heq⟩ := h.taken hgood hspares' hcalm' hstat (some d.stat) (by simp)
      simp only [State.pass, List.foldl_nil] at halone hdigest
      simp only [State.pass]
      generalize fileContentHash env _ p (some d.stat.size) _ pauses.read = r at *
      obtain ⟨r, s'⟩ := r
      cases hdigest
      exact halone.addKnown heq
    · exact h

theorem Alone.snapshotFileDep (h : Alone env path ino file m n s) (hgood : Good env s) {p : P}
    {known : Option (Known D)} {pauses : Pauses} (hspares : pauses.Spares ino) (hcalm : Calm env s p pauses)
    (hknown : p = path → ∀ read ∈ known, read.digest = env.digest file.content) :
    Alone env path ino file m n (Deps.snapshotFileDep env s p known pauses) := by
  cases hstat : s.stat p with
  | none =>
    simp only [Deps.snapshotFileDep, hstat]
    exact h
  | some st =>
    have hst : p = path → st = s.statOf ino := by
      rintro rfl
      simpa [h.stat] using hstat.symm
    cases hfilter : known.filter fun read => read.key = st.key with
    | some read =>
      simp only [Deps.snapshotFileDep, hstat, hfilter]
      refine h.addEntry fun hp => ⟨hst hp, ?_⟩
      rw [hknown hp read (Option.filter_eq_some_iff.mp hfilter).1]
    | none =>
      obtain ⟨halone, digest, hdigest, heq⟩ := h.taken hgood hspares hcalm hstat (some st) (by simp)
      simp only [Deps.snapshotFileDep, hstat, hfilter]
      generalize fileContentHash env _ p (some st.size) (some st) pauses.read = r at *
      obtain ⟨r, s'⟩ := r
      cases hdigest
      refine halone.addEntry fun hp => ⟨?_, by rw [heq hp]⟩
      exact (hst hp).trans (statOf_eq (h.inode.trans halone.inode.symm))

section Check

variable [DecidableEq D] {stored : Entry D} {pauses : Pauses}

/-- A check moves the time of an entry, and nothing else of it. -/
theorem Alone.fileDepIsFresh (h : Alone env path ino file m n s) (hgood : Good env s) {p : P} (stored : Entry D)
    (hspares : pauses.Spares ino) (hcalm : Calm env s p pauses) :
    Alone env path ino file m n (Deps.fileDepIsFresh env s p stored pauses).2.2 ∧
      (Deps.fileDepIsFresh env s p stored pauses).2.1.stat = stored.stat ∧
      (Deps.fileDepIsFresh env s p stored pauses).2.1.hash = stored.hash := by
  cases hstat : s.stat p with
  | none =>
    simp only [Deps.fileDepIsFresh, hstat]
    exact ⟨h, trivial, trivial⟩
  | some st =>
    simp only [Deps.fileDepIsFresh, hstat]
    split
    · exact ⟨h, rfl, rfl⟩
    · split
      · split
        · exact ⟨h, rfl, rfl⟩
        · have halone := (h.taken hgood hspares hcalm hstat (some st) (by simp)).1
          have hnoted := noteSettled_cases env st stored (s.pass env pauses.ask).clock
          split
          · exact ⟨halone, rfl, rfl⟩
          · refine ⟨halone, ?_⟩
            rcases hnoted with heq | ⟨-, heq⟩ <;> rw [heq] <;> exact ⟨rfl, rfl⟩
      · exact ⟨h, rfl, rfl⟩

theorem Alone.fresh (h : Alone env path ino file m n s) (hgood : Good env s) (hspares : pauses.Spares ino)
    (hcalm : Calm env s path pauses) (hstat : stored.stat = s.statOf ino)
    (hhash : stored.hash = some (env.digest file.content)) :
    (Deps.fileDepIsFresh env s path stored pauses).1 = .fresh := by
  obtain ⟨-, digest, hdigest, heq⟩ := h.taken hgood hspares hcalm h.stat (some (s.statOf ino)) (by simp)
  have hdigest := heq rfl ▸ hdigest
  simp only [Deps.fileDepIsFresh, h.stat, hstat, hhash, hdigest, ne_eq, not_true_eq_false, if_false]
  split <;> rfl

end Check

/-! ## Runs -/

variable [DecidableEq P] [DecidableEq D]

theorem Alone.exec (h : Alone env path ino file m n s) (hgood : Good env s) {event : Event P}
    (hspares : event.Spares path ino m) (hcalm : event.Calm env s) :
    Alone env path ino file m n (exec env s event) := by
  cases event with
  | external e =>
    have hheld := sameHeld_external env s e
    exact h.same (by rw [Deps.exec, hheld.paths]) (inodes_external hspares) hheld.known hheld.entries
  | replace p i => exact h.same (by simp [Deps.exec, Ne.symm hspares]) rfl rfl rfl
  | map i | forget key => exact h.same rfl rfl rfl rfl
  | fileContentHash p pauses =>
    have halone := h.pass hspares.1
    have hgood := hgood.pass pauses.ask
    cases hstat : (s.pass env pauses.ask).stat p with
    | none =>
      simp only [Deps.exec, Deps.fileContentHash, hstat]
      exact halone
    | some st =>
      have hashed := hgood.fileContentHash none none pauses.read (stat_eq hstat).1 hstat rfl (hcalm.stated st hstat)
      exact halone.same (by rw [Deps.exec, hashed.paths]) (inodes_fileContentHash _ p _ _ hspares.2.2) hashed.known
        hashed.entries
  | read p ownStat noted pauses => exact h.read hgood hspares hcalm
  | digestLater p pauses => exact h.digestLater hgood hspares
  | settle i pauses =>
    simp only [Deps.exec]
    split
    · rename_i p d hd
      exact h.settle hgood hspares (hcalm _ hd)
    · exact h
  | snapshot p i pauses =>
    refine h.snapshotFileDep hgood hspares.1 hcalm.1 fun hp read hread => ?_
    obtain ⟨x, hx, rfl⟩ := Option.map_eq_some_iff.mp hread
    obtain ⟨hbind, hpath⟩ := Option.filter_eq_some_iff.mp hx
    obtain ⟨j, hj, hget⟩ := Option.bind_eq_some_iff.mp hbind
    have hpath : x.1 = path := by simpa [hp] using hpath
    exact h.known (hspares.2 j hj) (hpath ▸ hget)
  | check i pauses =>
    simp only [Deps.exec]
    split
    · rename_i p stored he
      obtain ⟨halone, hstat, hhash⟩ := h.fileDepIsFresh hgood stored hspares (hcalm _ he)
      refine ⟨halone.names, halone.inode, halone.known, fun {j entry} hj hentry => ?_⟩
      have hentries := (hgood.fileDepIsFresh (hcalm _ he) (hgood.entries _ (List.mem_of_getElem? he))).entries
      rcases eq_or_ne i j with rfl | hne
      · rw [List.getElem?_set_self', hentries, he] at hentry
        cases hentry
        rw [hstat, hhash]
        exact halone.entries hj (hentries ▸ he)
      · rw [List.getElem?_set_ne hne] at hentry
        exact halone.entries hj hentry
    · exact h

end Cash.Files.Deps
