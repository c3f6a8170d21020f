import Cash.Files.Deps

/-!
# What a digest taken of a settled file says
-/

namespace Cash.Files.Deps

variable {P D : Type} {env : Env D} {s s' s'' : State P D} {st : Stat} {digest : D} {path : P}

/-! ## Changes of the file system -/

/-- Time has gone on, and a file that has changed was changed since. -/
structure Later (env : Env D) (s s' : State P D) : Prop where
  clock : s.clock ≤ s'.clock
  changed : ∀ ino, s'.inodes ino = s.inodes ino ∨ s.clock < (s'.inodes ino).ctimeNs + env.tick

theorem Later.refl (s : State P D) : Later env s s := ⟨Nat.le_refl _, fun _ => .inl rfl⟩

theorem Later.of_eq (hclock : s'.clock = s.clock) (hinodes : s'.inodes = s.inodes) : Later env s s' :=
  ⟨hclock.ge, fun ino => .inl (by rw [hinodes])⟩

theorem Later.trans (h₁ : Later env s s') (h₂ : Later env s' s'') : Later env s s'' := by
  refine ⟨h₁.clock.trans h₂.clock, fun ino => ?_⟩
  rcases h₂.changed ino with heq | hlt
  · rcases h₁.changed ino with heq' | hlt'
    · exact .inl (heq.trans heq')
    · exact .inr (by rwa [heq])
  · exact .inr (h₁.clock.trans_lt hlt)

theorem clock_lt_stamp (s : State P D) : s.clock < s.stamp env + env.tick := by
  have hmod := Nat.mod_lt s.clock env.tick_pos
  unfold State.stamp
  omega

theorem later_change (ino : Nat) (content : Bytes) (mtimeNs : Option Nat) :
    Later env s (s.change env ino content mtimeNs) := by
  refine ⟨Nat.le_refl _, fun i => ?_⟩
  by_cases hi : i = ino
  · right
    simpa [State.change, hi] using clock_lt_stamp s
  · left
    simp [State.change, hi]

theorem later_external (e : External) : Later env s (s.external env e) := by
  cases e with
  | wait ns => exact ⟨Nat.le_add_right _ _, fun _ => .inl rfl⟩
  | write ino content mtimeNs => exact later_change ..
  | touch ino mtimeNs => exact later_change ..

/-- What a pause leaves alone. -/
structure SameHeld (s s' : State P D) : Prop where
  paths : s'.paths = s.paths
  mapped : s'.mapped = s.mapped
  memo : s'.memo = s.memo
  deferred : s'.deferred = s.deferred
  known : s'.known = s.known
  entries : s'.entries = s.entries

theorem sameHeld_external (env : Env D) (s : State P D) (e : External) : SameHeld s (s.external env e) := by
  cases e <;> exact ⟨rfl, rfl, rfl, rfl, rfl, rfl⟩

theorem SameHeld.trans (h₁ : SameHeld s s') (h₂ : SameHeld s' s'') : SameHeld s s'' :=
  ⟨h₂.paths.trans h₁.paths, h₂.mapped.trans h₁.mapped, h₂.memo.trans h₁.memo, h₂.deferred.trans h₁.deferred,
    h₂.known.trans h₁.known, h₂.entries.trans h₁.entries⟩

theorem pass_spec (pause : List External) : ∀ s : State P D,
    Later env s (s.pass env pause) ∧ SameHeld s (s.pass env pause) := by
  induction pause with
  | nil => exact fun s => ⟨.refl s, ⟨rfl, rfl, rfl, rfl, rfl, rfl⟩⟩
  | cons e pause ih =>
    intro s
    obtain ⟨hlater, hheld⟩ := ih (s.external env e)
    exact ⟨(later_external e).trans hlater, (sameHeld_external env s e).trans hheld⟩

theorem later_pass (env : Env D) (s : State P D) (pause : List External) : Later env s (s.pass env pause) :=
  (pass_spec pause s).1

theorem sameHeld_pass (env : Env D) (s : State P D) (pause : List External) : SameHeld s (s.pass env pause) :=
  (pass_spec pause s).2

/-! ## Digests that hold -/

/-- No write can leave the stat any more: its tick is over. -/
def Sealed (env : Env D) (s : State P D) (st : Stat) : Prop := st.ctimeNs + env.tick ≤ s.clock

/-- The file has the digest as long as it has the stat. -/
def Right (env : Env D) (s : State P D) (st : Stat) (digest : D) : Prop :=
  s.statOf st.ino = st → env.digest (s.inodes st.ino).content = digest

theorem Sealed.later (h : Sealed env s st) (hlater : Later env s s') : Sealed env s' st := h.trans hlater.clock

theorem Right.later (h : Right env s st digest) (hsealed : Sealed env s st) (hlater : Later env s s') :
    Right env s' st digest := by
  intro hstat
  rcases hlater.changed st.ino with heq | hlt
  · rw [heq]
    refine h ?_
    rw [← hstat]
    simp only [State.statOf, heq]
  · have hctime : (s'.inodes st.ino).ctimeNs = st.ctimeNs := congrArg Stat.ctimeNs hstat
    unfold Sealed at hsealed
    omega

/-- A digest noted as taken at a time is right for good if the file was old enough then. -/
def Holds (env : Env D) (s : State P D) (st : Stat) (digest : D) (hashedAt : Option Nat) : Prop :=
  ∀ t ∈ hashedAt, st.mtimeNs + env.minAge < t → Sealed env s st ∧ Right env s st digest

theorem Holds.later {hashedAt : Option Nat} (h : Holds env s st digest hashedAt) (hlater : Later env s s') :
    Holds env s' st digest hashedAt := by
  intro t ht hold
  obtain ⟨hsealed, hright⟩ := h t ht hold
  exact ⟨hsealed.later hlater, hright.later hsealed hlater⟩

def Known.stat (read : Known D) : Stat := ⟨read.ino, read.key.size, read.key.mtimeNs, read.key.ctimeNs⟩

theorem stat_of_key {read : Known D} (hkey : read.key = st.key) (hino : read.ino = st.ino) : read.stat = st := by
  simp [Known.stat, hkey, hino, Stat.key]

/-- All that is held, holds. -/
structure Good (env : Env D) (s : State P D) : Prop where
  memo : ∀ {st digest}, s.memo.lookup st = some digest → Sealed env s st ∧ Right env s st digest
  deferred : ∀ x ∈ s.deferred, Sealed env s x.2.stat
  known : ∀ x ∈ s.known, Holds env s x.2.stat x.2.digest x.2.hashedAt
  entries : ∀ x ∈ s.entries, ∀ hash ∈ x.2.hash, Holds env s x.2.stat hash x.2.hashedAt

theorem Good.initial (h : s.Initial) : Good env s := by
  obtain ⟨hmemo, hdeferred, hknown, hentries⟩ := h
  refine ⟨fun {st digest} hlookup => ?_, fun x hx => ?_, fun x hx => ?_, fun x hx => ?_⟩
  · rw [hmemo] at hlookup
    simp at hlookup
  · simp [hdeferred] at hx
  · simp [hknown] at hx
  · simp [hentries] at hx

/-- Time goes on, and nothing is held that was not. -/
theorem Good.later (h : Good env s) (hlater : Later env s s')
    (hmemo : ∀ {st digest}, s'.memo.lookup st = some digest → s.memo.lookup st = some digest)
    (hdeferred : s'.deferred = s.deferred) (hknown : s'.known = s.known) (hentries : s'.entries = s.entries) :
    Good env s' := by
  refine ⟨fun hlookup => ?_, fun x hx => ?_, fun x hx => ?_, fun x hx hash hhash => ?_⟩
  · obtain ⟨hsealed, hright⟩ := h.memo (hmemo hlookup)
    exact ⟨hsealed.later hlater, hright.later hsealed hlater⟩
  · exact (h.deferred x (hdeferred ▸ hx)).later hlater
  · exact (h.known x (hknown ▸ hx)).later hlater
  · exact (h.entries x (hentries ▸ hx) hash hhash).later hlater

theorem Good.pass (h : Good env s) (pause : List External) : Good env (s.pass env pause) := by
  have hheld := sameHeld_pass env s pause
  exact h.later (later_pass env s pause) (fun hlookup => hheld.memo ▸ hlookup) hheld.deferred hheld.known hheld.entries

theorem Good.remember (h : Good env s) (hsealed : Sealed env s st) (hright : Right env s st digest) :
    Good env { s with memo := s.memo.insert st digest } := by
  refine ⟨fun {st' digest'} hlookup => ?_, h.deferred, h.known, h.entries⟩
  rcases Dict.lookup_insert_cases hlookup with ⟨rfl, rfl⟩ | ⟨-, hlookup⟩
  · exact ⟨hsealed, hright⟩
  · exact h.memo hlookup

theorem Good.addKnown (h : Good env s) (read : Known D) (hread : Holds env s read.stat read.digest read.hashedAt) :
    Good env { s with known := s.known ++ [(path, read)] } := by
  refine ⟨h.memo, h.deferred, fun x hx => ?_, h.entries⟩
  rcases List.mem_append.mp hx with hx | hx
  · exact h.known x hx
  · rw [List.mem_singleton.mp hx]
    exact hread

theorem Good.addEntry (h : Good env s) (entry : Entry D)
    (hentry : ∀ hash ∈ entry.hash, Holds env s entry.stat hash entry.hashedAt) :
    Good env { s with entries := s.entries ++ [(path, entry)] } := by
  refine ⟨h.memo, h.deferred, h.known, fun x hx => ?_⟩
  rcases List.mem_append.mp hx with hx | hx
  · exact h.entries x hx
  · rw [List.mem_singleton.mp hx]
    exact hentry

/-! ## Calls without a pause -/

def noPauses : Pauses := ⟨[], [], []⟩

theorem calm_of_stat {s : State P D} {path : P} {st : Stat} (hstat : s.stat path = some st)
    (hover : TickOver env s.clock st) : Calm env s path noPauses := by
  have hst : ∀ st', s.stat path = some st' → TickOver env s.clock st' := by
    intro st' hst'
    rw [hstat] at hst'
    cases hst'
    exact hover
  exact ⟨fun st' hst' => ⟨hst st' hst', hst st' hst'⟩, hst, hst⟩

/-! ## The digest of a file -/

theorem stat_eq (h : s.stat path = some st) : s.paths path = some st.ino ∧ s.statOf st.ino = st := by
  obtain ⟨ino, hpath, rfl⟩ := Option.map_eq_some_iff.mp h
  exact ⟨hpath, rfl⟩

theorem content_eq {ino : Nat} (h : s.paths path = some ino) : s.content path = some (s.inodes ino).content := by
  simp [State.content, h]

/-- Where the digest of a file comes from: the memo, or the file as it is read. -/
theorem fileContentHash_cases (size : Option Nat) (given : Option Stat) (pause : List External) {ino : Nat}
    (hpath : s.paths path = some ino) (hst : (given <|> s.stat path) = some st) {key : Stat}
    (hkey : key = { st with size := size.getD st.size }) :
    (trusted env s st = true ∧ ∃ digest, s.memo.lookup key = some digest ∧
      fileContentHash env s path size given pause = (some digest, s)) ∨
    ∃ memo, fileContentHash env s path size given pause =
        (some (env.digest ((s.pass env pause).inodes ino).content), { s.pass env pause with memo := memo }) ∧
      (memo = (s.pass env pause).memo ∨ trusted env s st = true ∧
        memo = (s.pass env pause).memo.insert key (env.digest ((s.pass env pause).inodes ino).content)) := by
  subst hkey
  have hcontent : (s.pass env pause).content path = some ((s.pass env pause).inodes ino).content :=
    content_eq (by rw [(sameHeld_pass env s pause).paths, hpath])
  simp only [fileContentHash, hst]
  by_cases htrusted : trusted env s st = true
  · simp only [htrusted, if_true]
    split
    · rename_i digest hlookup
      exact .inl ⟨trivial, digest, hlookup, rfl⟩
    · refine .inr ⟨_, ?_, .inr ⟨trivial, rfl⟩⟩
      simp [readDigest, hcontent]
  · simp only [htrusted]
    refine .inr ⟨_, ?_, .inl rfl⟩
    simp [readDigest, hcontent]

theorem sealed_of_trusted (htrusted : trusted env s st = true) (hover : TickOver env s.clock st) : Sealed env s st := by
  simp only [trusted, Bool.and_eq_true, decide_eq_true_eq] at htrusted
  exact hover htrusted.1

/-- What a call of `file_content_hash` does to a good state, for a file that can be read. -/
structure Hashed (env : Env D) (s : State P D) (key : Stat) (r : Option D × State P D) : Prop where
  good : Good env r.2
  later : Later env s r.2
  paths : r.2.paths = s.paths
  deferred : r.2.deferred = s.deferred
  known : r.2.known = s.known
  entries : r.2.entries = s.entries
  digest : ∃ digest, r.1 = some digest ∧
    (s.memo.lookup key = some digest ∧ r.2 = s ∨ env.digest (r.2.inodes key.ino).content = digest)

theorem Good.fileContentHash (h : Good env s) (size : Option Nat) (given : Option Stat) (pause : List External)
    {key : Stat} (hpath : s.paths path = some st.ino) (hst : (given <|> s.stat path) = some st)
    (hkey : key = { st with size := size.getD st.size }) (hover : TickOver env s.clock st) :
    Hashed env s key (fileContentHash env s path size given pause) := by
  have hino : key.ino = st.ino := by rw [hkey]
  have hheld := sameHeld_pass env s pause
  rcases fileContentHash_cases size given pause hpath hst hkey with
    ⟨-, digest, hlookup, heq⟩ | ⟨memo, heq, hmemo⟩
  · rw [heq]
    exact ⟨h, .refl s, rfl, rfl, rfl, rfl, digest, rfl, .inl ⟨hlookup, rfl⟩⟩
  · have hdigest : env.digest ((s.pass env pause).inodes key.ino).content =
        env.digest ((s.pass env pause).inodes st.ino).content := by rw [hino]
    have hlater : Later env s { s.pass env pause with memo := memo } :=
      (later_pass env s pause).trans (.of_eq rfl rfl)
    rw [heq]
    refine ⟨?_, hlater, hheld.paths, hheld.deferred, hheld.known, hheld.entries, _, rfl, .inr hdigest⟩
    rcases hmemo with rfl | ⟨htrusted, rfl⟩
    · exact h.pass pause
    · have hsealed : Sealed env s key := by
        rw [hkey]
        exact sealed_of_trusted htrusted hover
      exact (h.pass pause).remember (hsealed.later (later_pass env s pause)) fun _ => hdigest

/-! ## The calls -/

/-- A digest taken at `t`, or later in the same call. -/
theorem holds_of_right {t : Nat} (hover : TickOver env t st) (ht : t ≤ s.clock) (hright : Right env s st digest) :
    Holds env s st digest (some t) := by
  intro t' ht' hold
  cases ht'
  exact ⟨(hover hold).trans ht, hright⟩

/-- What is left when a call that has the stat `st` of the path has taken its digest. -/
structure Taken (env : Env D) (s : State P D) (path : P) (st : Stat) (pauses : Pauses) (r : Option D × State P D) :
    Prop where
  good : Good env r.2
  later : Later env (s.pass env pauses.ask) r.2
  paths : r.2.paths = s.paths
  deferred : r.2.deferred = s.deferred
  known : r.2.known = s.known
  entries : r.2.entries = s.entries
  right : ∃ digest, r.1 = some digest ∧ Right env r.2 st digest
  holds : ∀ digest, r.1 = some digest → Holds env r.2 st digest (some (s.pass env pauses.ask).clock)

theorem Good.taken (h : Good env s) {pauses : Pauses} (hstat : s.stat path = some st)
    (hcalm : Calm env s path pauses) (given : Option Stat) (hgiven : ∀ st' ∈ given, st' = st) :
    Taken env s path st pauses (Deps.fileContentHash env ((s.pass env pauses.ask).pass env pauses.askAgain) path
      (some st.size) given pauses.read) := by
  have hgood := (h.pass pauses.ask).pass pauses.askAgain
  have hheld := (sameHeld_pass env s pauses.ask).trans (sameHeld_pass env _ pauses.askAgain)
  have hlater := later_pass env (s.pass env pauses.ask) pauses.askAgain
  obtain ⟨hover₁, hover₂⟩ := hcalm.asked st hstat
  have hagain := hcalm.again
  generalize (s.pass env pauses.ask).pass env pauses.askAgain = s₂ at *
  have hpath : s₂.paths path = some st.ino := by
    rw [hheld.paths]
    exact (stat_eq hstat).1
  -- the stat the digest is looked up under: that of the read, or one of its own
  obtain ⟨st', hst', hino, hover, hsame⟩ : ∃ st', (given <|> s₂.stat path) = some st' ∧ st'.ino = st.ino ∧
      TickOver env s₂.clock st' ∧ (s₂.statOf st.ino = st → st' = st) := by
    cases given with
    | some st' =>
      cases hgiven st' rfl
      exact ⟨st, rfl, rfl, hover₂, fun _ => rfl⟩
    | none =>
      have hown : s₂.stat path = some (s₂.statOf st.ino) := by simp [State.stat, hpath]
      exact ⟨_, hown, rfl, hagain _ hown, id⟩
  have hashed := hgood.fileContentHash (some st.size) given pauses.read (hino ▸ hpath) hst' rfl hover
  obtain ⟨digest, hdigest, hfrom⟩ := hashed.digest
  have hright : Right env (Deps.fileContentHash env s₂ path (some st.size) given pauses.read).2 st digest := by
    intro hnow
    rcases hfrom with ⟨hlookup, heq⟩ | hread
    · rw [heq] at hnow ⊢
      rw [hsame hnow] at hlookup
      exact (hgood.memo hlookup).2 hnow
    · rw [← hread]
      simp [hino]
  refine ⟨hashed.good, hlater.trans hashed.later, hashed.paths.trans hheld.paths,
    hashed.deferred.trans hheld.deferred, hashed.known.trans hheld.known, hashed.entries.trans hheld.entries,
    ⟨digest, hdigest, hright⟩, fun digest' hdigest' => ?_⟩
  rw [hdigest] at hdigest'
  cases hdigest'
  exact holds_of_right hover₁ (hlater.trans hashed.later).clock hright

theorem Good.read (h : Good env s) {ownStat noted : Bool} {pauses : Pauses} (hcalm : Calm env s path pauses) :
    Good env (Deps.read env s path ownStat noted pauses) := by
  unfold Deps.read
  split
  · exact h
  rename_i st hstat
  have htaken := h.taken hstat hcalm (if ownStat then none else some st) (by cases ownStat <;> simp)
  simp only
  split
  · rename_i digest s' heq
    rw [heq] at htaken
    refine htaken.good.addKnown _ fun t ht => ?_
    cases noted with
    | false => cases ht
    | true => exact htaken.holds digest rfl t ht
  · rename_i s' heq
    rw [heq] at htaken
    exact htaken.good

theorem Good.digestLater (h : Good env s) {pauses : Pauses} (hcalm : Calm env s path pauses) :
    Good env (Deps.digestLater env s path pauses) := by
  have hgood := (h.pass pauses.ask).pass pauses.askAgain
  have hlater := later_pass env (s.pass env pauses.ask) pauses.askAgain
  unfold Deps.digestLater
  split
  · exact h
  rename_i st hstat
  obtain ⟨hover₁, hover₂⟩ := hcalm.asked st hstat
  simp only
  generalize (s.pass env pauses.ask).pass env pauses.askAgain = s₂ at *
  split
  · rename_i htrusted
    split
    · rename_i digest hlookup
      exact hgood.addKnown _ (holds_of_right hover₁ hlater.clock (hgood.memo hlookup).2)
    · refine ⟨hgood.memo, fun x hx => ?_, hgood.known, hgood.entries⟩
      rcases List.mem_append.mp hx with hx | hx
      · exact hgood.deferred x hx
      · rw [List.mem_singleton.mp hx]
        exact sealed_of_trusted htrusted hover₂
  · exact hgood

theorem Good.settle (h : Good env s) {d : Deferred} {pauses : Pauses} (hd : Sealed env s d.stat)
    (hcalm : Calm env s path pauses) : Good env (Deps.settle env s path d pauses) := by
  unfold Deps.settle
  split
  · exact h
  rename_i now hstat
  split
  · rename_i hsame
    obtain ⟨rfl, -⟩ := hsame
    have hpath : (s.pass env pauses.ask).paths path = some d.stat.ino := by
      rw [(sameHeld_pass env s pauses.ask).paths]
      exact (stat_eq hstat).1
    have hgood := h.pass pauses.ask
    have hashed := hgood.fileContentHash (some d.stat.size) (some d.stat) pauses.read hpath rfl rfl
      (hcalm.asked _ hstat).1
    obtain ⟨digest, hdigest, hfrom⟩ := hashed.digest
    simp only
    split
    · rename_i digest' s' heq
      rw [heq] at hashed hdigest hfrom
      cases hdigest
      refine hashed.good.addKnown _ fun t ht hold => ?_
      have hsealed := (hd.later (later_pass env s pauses.ask)).later hashed.later
      refine ⟨hsealed, fun hnow => ?_⟩
      rcases hfrom with ⟨hlookup, heq'⟩ | hread
      · subst heq'
        exact (hgood.memo hlookup).2 hnow
      · exact hread
    · rename_i s' heq
      rw [heq] at hashed
      exact hashed.good
  · exact h

theorem Good.snapshotFileDep (h : Good env s) {known : Option (Known D)} {pauses : Pauses}
    (hknown : ∀ read ∈ known, Holds env s read.stat read.digest read.hashedAt)
    (hread : ∀ read st, known = some read → s.stat path = some st → read.key = st.key → read.ino = st.ino)
    (hcalm : Calm env s path pauses) : Good env (Deps.snapshotFileDep env s path known pauses) := by
  cases hstat : s.stat path with
  | none =>
    simp only [Deps.snapshotFileDep, hstat]
    exact h
  | some st =>
    cases hfilter : known.filter fun read => read.key = st.key with
    | some read =>
      obtain ⟨hsome, hkey⟩ := Option.filter_eq_some_iff.mp hfilter
      have hkey : read.key = st.key := by simpa using hkey
      simp only [Deps.snapshotFileDep, hstat, hfilter]
      refine h.addEntry _ fun hash hhash => ?_
      cases hhash
      have hholds := hknown read hsome
      rwa [stat_of_key hkey (hread read st hsome hstat hkey)] at hholds
    | none =>
      have htaken := h.taken hstat hcalm (some st) (by simp)
      simp only [Deps.snapshotFileDep, hstat, hfilter]
      obtain ⟨digest, hdigest, -⟩ := htaken.right
      generalize Deps.fileContentHash env _ path (some st.size) (some st) pauses.read = r at *
      obtain ⟨r, s'⟩ := r
      cases hdigest
      refine htaken.good.addEntry _ fun hash hhash => ?_
      cases hhash
      exact htaken.holds digest rfl

/-! ## The check -/

section Check

variable {stored : Entry D} {pauses : Pauses}

theorem unchangedSinceHashed_iff : unchangedSinceHashed env st stored = true ↔ ∃ t ∈ stored.hashedAt,
    st.mtimeNs = stored.stat.mtimeNs ∧ st.ino = stored.stat.ino ∧ stored.stat.ctimeNs = st.ctimeNs ∧
      st.mtimeNs + env.minAge < t := by
  unfold unchangedSinceHashed
  split
  · rename_i hnone
    simp [hnone]
  · rename_i t hsome
    simp [hsome, and_assoc]

theorem noteSettled_cases (env : Env D) (st : Stat) (stored : Entry D) (checkedAt : Nat) :
    noteSettled env st stored checkedAt = stored ∨
      unchangedSinceHashed env st { stored with hashedAt := some checkedAt } = true ∧
        noteSettled env st stored checkedAt = { stored with hashedAt := some checkedAt } := by
  unfold noteSettled
  split
  · exact .inl rfl
  · split
    · rename_i h
      exact .inr ⟨h, rfl⟩
    · exact .inl rfl

/-- A check that answers fresh for an entry with a digest has found it in the file. -/
theorem held_of_fresh [DecidableEq D] (h : Good env s) {hash : D} (hcalm : Calm env s path pauses)
    (hstored : ∀ hash ∈ stored.hash, Holds env s stored.stat hash stored.hashedAt) (hhash : stored.hash = some hash)
    (hfresh : (fileDepIsFresh env s path stored pauses).1 = .fresh) : Held env s path pauses hash := by
  unfold fileDepIsFresh at hfresh
  split at hfresh
  · cases hfresh
  rename_i st hstat
  obtain ⟨hpath, hst⟩ := stat_eq hstat
  split at hfresh
  · cases hfresh
  rename_i hsize
  have hsize : st.size = stored.stat.size := not_not.mp hsize
  rw [hhash] at hfresh
  simp only at hfresh
  split at hfresh
  · -- not read: the stat is the one the digest was taken at
    rename_i hunchanged
    obtain ⟨t, ht, hmtime, hino, hctime, hold⟩ :=
      unchangedSinceHashed_iff.mp (Bool.and_eq_true _ _ ▸ hunchanged).1
    have heq : stored.stat = st := by
      cases st
      cases hstored' : stored.stat
      simp_all
    obtain ⟨-, hright⟩ := hstored hash hhash t ht (heq ▸ hold)
    refine ⟨s, by simp, ?_⟩
    rw [heq] at hright
    simp [content_eq hpath, hright hst]
  · have hgood := (h.pass pauses.ask).pass pauses.askAgain
    have hheld := (sameHeld_pass env s pauses.ask).trans (sameHeld_pass env _ pauses.askAgain)
    have hover := (hcalm.asked st hstat).2
    have hpath₂ : ((s.pass env pauses.ask).pass env pauses.askAgain).paths path = some st.ino := by
      rw [hheld.paths, hpath]
    rcases fileContentHash_cases (some st.size) (some st) pauses.read hpath₂ rfl rfl with
      ⟨-, digest, hlookup, heq⟩ | ⟨memo, heq, -⟩
    · rw [heq] at hfresh
      have hdigest : digest = hash := by
        by_contra hne
        simp [hne] at hfresh
      subst hdigest
      rw [hheld.memo] at hlookup
      refine ⟨s, by simp, ?_⟩
      simp [content_eq hpath, (h.memo hlookup).2 hst]
    · rw [heq] at hfresh
      have hcontent : (((s.pass env pauses.ask).pass env pauses.askAgain).pass env pauses.read).content path =
          some ((((s.pass env pauses.ask).pass env pauses.askAgain).pass env pauses.read).inodes st.ino).content :=
        content_eq (by rw [(sameHeld_pass env _ pauses.read).paths, hpath₂])
      refine ⟨_, List.mem_cons_of_mem _ (List.mem_singleton_self _), ?_⟩
      rw [hcontent]
      by_contra hne
      have hne : env.digest _ ≠ hash := fun heq => hne (congrArg some heq)
      simp [hne] at hfresh

/-- What a check leaves of a good state and of the entry. -/
structure Checked (env : Env D) (s : State P D) (r : Answer × Entry D × State P D) : Prop where
  good : Good env r.2.2
  entries : r.2.2.entries = s.entries
  holds : ∀ hash ∈ r.2.1.hash, Holds env r.2.2 r.2.1.stat hash r.2.1.hashedAt

theorem Good.fileDepIsFresh [DecidableEq D] (h : Good env s) (hcalm : Calm env s path pauses)
    (hstored : ∀ hash ∈ stored.hash, Holds env s stored.stat hash stored.hashedAt) :
    Checked env s (Deps.fileDepIsFresh env s path stored pauses) := by
  cases hstat : s.stat path with
  | none =>
    simp only [Deps.fileDepIsFresh, hstat]
    exact ⟨h, rfl, hstored⟩
  | some st =>
    simp only [Deps.fileDepIsFresh, hstat]
    split
    · exact ⟨h, rfl, hstored⟩
    rename_i hsize
    have hsize : st.size = stored.stat.size := not_not.mp hsize
    cases hhash : stored.hash with
    | none =>
      refine ⟨h, rfl, fun hash' hhash' => ?_⟩
      simp [hhash] at hhash'
    | some hash =>
      simp only
      split
      · exact ⟨h, rfl, hstored⟩
      have htaken := h.taken hstat hcalm (some st) (by simp)
      obtain ⟨digest, hdigest, hright⟩ := htaken.right
      have hholds := htaken.holds digest hdigest
      have hlater : Later env s (Deps.fileContentHash env ((s.pass env pauses.ask).pass env pauses.askAgain) path
        (some st.size) (some st) pauses.read).2 := (later_pass env s pauses.ask).trans htaken.later
      generalize Deps.fileContentHash env _ path (some st.size) (some st) pauses.read = r at *
      split
      · exact ⟨htaken.good, htaken.entries, fun hash' hhash' => (hstored hash' hhash').later hlater⟩
      rename_i hsame
      have hsame : digest = hash := by
        rw [hdigest] at hsame
        simpa using hsame
      refine ⟨htaken.good, htaken.entries, ?_⟩
      rcases noteSettled_cases env st stored (s.pass env pauses.ask).clock with heq | ⟨hunchanged, heq⟩
      · rw [heq]
        exact fun hash' hhash' => (hstored hash' hhash').later hlater
      · -- the digest was just taken, under the stat that is recorded
        obtain ⟨t, -, hmtime, hino, hctime, -⟩ := unchangedSinceHashed_iff.mp hunchanged
        have hst : stored.stat = st := by
          cases st
          cases hstat' : stored.stat
          simp_all
        rw [heq]
        intro hash' hhash'
        have hhash' : hash' = hash := by simpa [hhash] using hhash'.symm
        simp only [hst, hhash', ← hsame]
        exact hholds

end Check

/-! ## Runs -/

variable [DecidableEq P] [DecidableEq D]

theorem Good.exec (h : Good env s) {event : Event P} (hcalm : event.Calm env s) : Good env (exec env s event) := by
  cases event with
  | external e =>
    have hheld := sameHeld_external env s e
    exact h.later (later_external e) (fun hlookup => hheld.memo ▸ hlookup) hheld.deferred hheld.known hheld.entries
  | replace path ino => exact h.later (.of_eq rfl rfl) id rfl rfl rfl
  | map ino => exact h.later (.of_eq rfl rfl) id rfl rfl rfl
  | forget key => exact h.later (.of_eq rfl rfl) (fun hlookup => (Dict.lookup_of_erase hlookup).2) rfl rfl rfl
  | fileContentHash path pauses =>
    have hgood := h.pass pauses.ask
    cases hstat : (s.pass env pauses.ask).stat path with
    | none =>
      simp only [Deps.exec, Deps.fileContentHash, hstat]
      exact hgood
    | some st =>
      exact (hgood.fileContentHash none none pauses.read (stat_eq hstat).1 hstat rfl (hcalm.stated st hstat)).good
  | read path ownStat noted pauses => exact h.read hcalm
  | digestLater path pauses => exact h.digestLater hcalm
  | settle i pauses =>
    simp only [Deps.exec]
    split
    · rename_i path d hd
      exact h.settle (h.deferred _ (List.mem_of_getElem? hd)) (hcalm _ hd)
    · exact h
  | snapshot path i pauses =>
    refine h.snapshotFileDep (fun read hread => ?_) hcalm.2 hcalm.1
    obtain ⟨x, hx, rfl⟩ := Option.map_eq_some_iff.mp hread
    obtain ⟨j, -, hj⟩ := Option.bind_eq_some_iff.mp (Option.filter_eq_some_iff.mp hx).1
    exact h.known x (List.mem_of_getElem? hj)
  | check i pauses =>
    simp only [Deps.exec]
    split
    · rename_i path stored he
      have hmem := List.mem_of_getElem? he
      have hchecked := h.fileDepIsFresh (hcalm _ he) (h.entries _ hmem)
      refine ⟨hchecked.good.memo, hchecked.good.deferred, hchecked.good.known, fun x hx => ?_⟩
      rcases List.mem_or_eq_of_mem_set hx with hx | rfl
      · exact hchecked.good.entries x hx
      · exact hchecked.holds
    · exact h

end Cash.Files.Deps
