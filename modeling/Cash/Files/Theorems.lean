import Cash.Files.Lemmas.Alone
import Cash.Files.Lemmas.Versions
import Cash.Lib.Run

/-!
# File dependencies
-/

namespace Cash.Files

/-! ## One earliest version for each content -/

section

open Dict

variable {D : Type} [DecidableEq D] {startedNs : Int} {bytes : Version → D} {s s' : World D} {calls : List (Call D)}
  {own recorded root : Version}

/-- The links hold the same bytes, an answer answers itself, and what the calls have found is answered alike. -/
structure Inv (bytes : Version → D) (s : World D) : Prop where
  link : ∀ v root, s.process.earlier.lookup v = some root → bytes v = bytes root
  content : ∀ d c, s.process.byContent.lookup d = some c → bytes c = d
  known : ∀ d c, s.process.byContent.lookup d = some c → s.process.earlier.lookup c ≠ none
  answer : ∀ v, s.process.answer (s.process.answer v) = s.process.answer v
  noted : ∀ v w, (v, w) ∈ s.noted → s.process.answer v = s.process.answer w
  hashed : ∀ v d, (v, d) ∈ s.hashed →
    ∃ c, s.process.byContent.lookup d = some c ∧ s.process.answer v = s.process.answer c
  logged : Logged s.process

theorem Inv.start : Inv bytes (World.start : World D) := by
  have hanswer : ∀ v, (Process.start : Process D).answer v = v := fun v => rfl
  refine ⟨nofun, nofun, nofun, ?_, nofun, nofun, ⟨nofun, ?_, nofun⟩⟩
  · intro v
    rfl
  · intro v _
    rfl

theorem Inv.bytes_answer (h : Inv bytes s) (v : Version) : bytes (s.process.answer v) = bytes v := by
  cases hv : s.process.earlier.lookup v with
  | none => rw [answer_of_none hv]
  | some root => rw [answer_of_some hv, h.link v root hv]

/-- A step after which every version is answered as before. -/
theorem Inv.same (h : Inv bytes s) {p : Process D} {noted : List (Version × Version)} {hashed : List (Version × D)}
    (hanswer : ∀ v, p.answer v = s.process.answer v)
    (hlink : ∀ v root, p.earlier.lookup v = some root → s.process.answer v = root)
    (hcontent : ∀ d c, p.byContent.lookup d = some c → bytes c = d ∧ p.earlier.lookup c ≠ none)
    (hnoted : ∀ v w, (v, w) ∈ noted → (v, w) ∈ s.noted ∨ s.process.answer v = s.process.answer w)
    (hbefore : ∀ d c, s.process.byContent.lookup d = some c → p.byContent.lookup d = some c)
    (hhashed : ∀ v d, (v, d) ∈ hashed → (v, d) ∈ s.hashed ∨ p.byContent.lookup d = some v) (hlogged : Logged p) :
    Inv bytes ⟨p, noted, hashed⟩ := by
  refine ⟨?_, fun d c hd => (hcontent d c hd).1, fun d c hd => (hcontent d c hd).2, ?_, ?_, ?_, hlogged⟩
  · intro v root hv
    rw [← hlink v root hv, h.bytes_answer]
  · intro v
    simp only [hanswer]
    exact h.answer v
  · intro v w hvw
    simp only [hanswer]
    rcases hnoted v w hvw with hvw | hvw
    · exact h.noted v w hvw
    · exact hvw
  · intro v d hvd
    simp only [hanswer]
    rcases hhashed v d hvd with hvd | hvd
    · obtain ⟨c, hc, heq⟩ := h.hashed v d hvd
      exact ⟨c, hbefore d c hc, heq⟩
    · exact ⟨v, hvd, rfl⟩

/-- A step that links a version that had no link. -/
theorem Inv.relink (h : Inv bytes s) {p : Process D} {noted : List (Version × Version)} {hashed : List (Version × D)}
    (halone : s.process.Alone own) (hroot : s.process.answer root = root) (hne : root ≠ own)
    (hbytes : bytes own = bytes root)
    (hlink : ∀ v, p.earlier.lookup v = if v = own then some root else s.process.earlier.lookup v)
    (hcontent : ∀ d, p.byContent.lookup d = s.process.byContent.lookup d)
    (hnoted : ∀ v w, (v, w) ∈ noted → (v, w) ∈ s.noted ∨ v = own ∧ w ≠ own ∧ s.process.answer w = root)
    (hhashed : ∀ v d, (v, d) ∈ hashed → (v, d) ∈ s.hashed ∨ v = own ∧ s.process.byContent.lookup d = some root)
    (hlogged : Logged p) : Inv bytes ⟨p, noted, hashed⟩ := by
  have hanswer : ∀ v, p.answer v = if v = own then root else s.process.answer v := by
    intro v
    unfold Process.answer
    rw [hlink]
    split <;> rfl
  refine ⟨?_, ?_, ?_, ?_, ?_, ?_, hlogged⟩
  · intro v r hv
    dsimp only at hv
    rw [hlink] at hv
    split at hv
    · rename_i heq
      cases hv
      rw [heq, hbytes]
    · exact h.link v r hv
  · intro d c hd
    exact h.content d c ((hcontent d).symm.trans hd)
  · intro d c hd
    dsimp only
    rw [hlink]
    split
    · exact Option.some_ne_none root
    · exact h.known d c ((hcontent d).symm.trans hd)
  · intro v
    simp only [hanswer]
    by_cases hv : v = own
    · rw [if_pos hv, if_neg hne, hroot]
    · rw [if_neg hv, if_neg, h.answer]
      intro heq
      exact hv (halone.2 v heq)
  · intro v w hvw
    simp only [hanswer]
    rcases hnoted v w hvw with hvw | ⟨rfl, hw, hwroot⟩
    · exact answer_alike halone (h.noted v w hvw)
    · rw [if_pos rfl, if_neg hw, hwroot]
  · intro v d hvd
    simp only [hanswer]
    rcases hhashed v d hvd with hvd | ⟨rfl, hd⟩
    · obtain ⟨c, hc, heq⟩ := h.hashed v d hvd
      exact ⟨c, (hcontent d).trans hc, answer_alike halone heq⟩
    · exact ⟨root, (hcontent d).trans hd, by rw [if_pos rfl, if_neg hne, hroot]⟩

/-- A step that only marks versions used. -/
theorem Inv.touched (h : Inv bytes s) {p : Process D} {noted : List (Version × Version)}
    (hearlier : ∀ v, p.earlier.lookup v = s.process.earlier.lookup v)
    (hcontent : ∀ d, p.byContent.lookup d = s.process.byContent.lookup d)
    (hnoted : ∀ v w, (v, w) ∈ noted → (v, w) ∈ s.noted ∨ s.process.answer v = s.process.answer w)
    (hlogged : Logged p) : Inv bytes ⟨p, noted, s.hashed⟩ := by
  refine h.same (fun v => answer_eq (hearlier v)) ?_ ?_ hnoted ?_ (fun v d hvd => .inl hvd) hlogged
  · intro v root hv
    exact answer_of_some ((hearlier v).symm.trans hv)
  · intro d c hd
    rw [hcontent] at hd
    rw [hearlier]
    exact ⟨h.content d c hd, h.known d c hd⟩
  · intro d c hd
    rw [hcontent]
    exact hd

theorem Inv.noteSameContent (h : Inv bytes s) (hbytes : bytes own = bytes recorded)
    (hsteady : Steady startedNs s.process (.noteSameContent own recorded)) :
    Inv bytes { s with
      process := s.process.noteSameContent own recorded, noted := (own, recorded) :: s.noted } := by
  have hnoted : ∀ v w, (v, w) ∈ (own, recorded) :: s.noted → (v, w) ∈ s.noted ∨ v = own ∧ w = recorded := by
    intro v w hvw
    rcases List.mem_cons.mp hvw with heq | hvw
    · cases heq
      exact .inr ⟨rfl, rfl⟩
    · exact .inl hvw
  unfold Process.noteSameContent
  by_cases hself : own = recorded
  · rw [if_pos hself]
    refine h.touched (fun _ => rfl) (fun _ => rfl) ?_ h.logged
    intro v w hvw
    rcases hnoted v w hvw with hvw | ⟨rfl, rfl⟩
    · exact .inl hvw
    · exact .inr (by rw [hself])
  rw [if_neg hself]
  dsimp only
  rw [lookup_touch]
  by_cases hknown : s.process.earlier.lookup own = some (s.process.answer recorded)
  · rw [if_pos hknown]
    refine h.touched (by simp) (fun _ => rfl) ?_ (h.logged.congr rfl (by simp))
    intro v w hvw
    rcases hnoted v w hvw with hvw | ⟨rfl, rfl⟩
    · exact .inl hvw
    · exact .inr (answer_of_some hknown)
  rw [if_neg hknown]
  obtain ⟨hlinked, hroom⟩ := hsteady hself hknown
  have hroom' : s.process.lines < compactAt ∨
      ((s.process.earlier.touch recorded).insert own (s.process.answer recorded)).entries.length ≤ keep := by
    have hle := length_insert_le (s.process.earlier.touch recorded) own (s.process.answer recorded)
    rw [length_touch] at hle
    rcases hroom with hroom | hroom
    · exact .inl hroom
    · exact .inr (by omega)
  have hlogged : Logged { s.process with earlier := s.process.earlier.touch recorded } :=
    h.logged.congr rfl (by simp)
  by_cases hsame : s.process.answer own = s.process.answer recorded
  · -- The version answers the recorded one and has no link of its own.
    have hnone : s.process.earlier.lookup own = none := by
      cases hown : s.process.earlier.lookup own with
      | none => rfl
      | some r =>
        rw [hown, ← hsame, answer_of_some hown] at hknown
        exact absurd rfl hknown
    have hroot : s.process.answer recorded = own := hsame.symm.trans (answer_of_none hnone)
    rw [hroot] at hroom' ⊢
    refine h.same ?_ ?_ ?_ ?_ (fun d c hd => by simpa using hd) (fun v d hvd => .inl hvd) ?_
    · intro v
      rw [answer_eq (p := { s.process with earlier := (s.process.earlier.touch recorded).insert own own })
        (by rw [write_earlier]), answer_insert { s.process with earlier := s.process.earlier.touch recorded }]
      split
      · rename_i hv
        rw [hv, answer_of_none hnone]
      · exact answer_eq (lookup_touch _ _ _)
    · intro v r hv
      rw [write_earlier, lookup_insert', lookup_touch] at hv
      split at hv
      · rename_i heq
        cases hv
        rw [heq, answer_of_none hnone]
      · exact answer_of_some hv
    · intro d c hd
      rw [write_byContent] at hd
      refine ⟨h.content d c hd, ?_⟩
      rw [write_earlier, lookup_insert', lookup_touch]
      split
      · exact Option.some_ne_none own
      · exact h.known d c hd
    · intro v w hvw
      rcases hnoted v w hvw with hvw | ⟨rfl, rfl⟩
      · exact .inl hvw
      · exact .inr hsame
    · refine Logged.write ?_ hroom'
      refine (hlogged.insertSelf (by rw [lookup_touch]; exact hnone)).selfLine (w := recorded) ?_ (Ne.symm hself) ?_
      · simp
      · rw [answer_insert { s.process with earlier := s.process.earlier.touch recorded }, if_neg (Ne.symm hself)]
        exact (answer_eq (lookup_touch _ _ _)).trans hroot
  · have halone := hlinked.resolve_left hsame
    have hne : s.process.answer recorded ≠ own := fun heq => hsame (halone.1.trans heq.symm)
    refine h.relink halone (h.answer recorded) hne (hbytes.trans (h.bytes_answer recorded).symm) ?_ ?_ ?_
      (fun v d hvd => .inl hvd) ?_
    · intro v
      rw [write_earlier, lookup_insert', lookup_touch]
    · intro d
      rw [write_byContent]
    · intro v w hvw
      rcases hnoted v w hvw with hvw | ⟨rfl, rfl⟩
      · exact .inl hvw
      · exact .inr ⟨rfl, Ne.symm hself, rfl⟩
    · refine Logged.write (hlogged.link ?_ hne) hroom'
      have hanswer : ∀ v, { s.process with earlier := s.process.earlier.touch recorded }.answer v = s.process.answer v :=
        fun v => answer_eq (lookup_touch _ _ _)
      exact ⟨(hanswer own).trans halone.1, fun v hv => halone.2 v ((hanswer v).symm.trans hv)⟩

theorem Inv.linkContent (h : Inv bytes s) {d : D} (hd : d = bytes own) (hnone : s.process.earlier.lookup own = none)
    (hsteady : match s.process.byContent.lookup d with
      | none => s.process.Roomy
      | some root => s.process.answer root = root ∧ s.process.Alone own ∧ s.process.lines < compactAt) :
    Inv bytes { s with process := (s.process.linkContent own d).2, hashed := (own, d) :: s.hashed } := by
  unfold Process.linkContent
  cases hc : s.process.byContent.lookup d with
  | none =>
    rw [hc] at hsteady
    dsimp only
    refine h.same ?_ ?_ ?_ (fun v w hvw => .inl hvw) ?_ ?_ ?_
    · intro v
      rw [answer_insert]
      split
      · rename_i hv
        rw [hv, answer_of_none hnone]
      · exact answer_eq (by rw [write_earlier])
    · intro v r hv
      dsimp only at hv
      rw [lookup_insert', write_earlier] at hv
      split at hv
      · rename_i heq
        cases hv
        rw [heq, answer_of_none hnone]
      · exact answer_of_some hv
    · intro d' c hd'
      dsimp only at hd' ⊢
      rw [write_byContent] at hd'
      rw [lookup_insert', write_earlier]
      rcases lookup_insert_cases hd' with ⟨rfl, rfl⟩ | ⟨-, hd'⟩
      · exact ⟨hd.symm, by simp⟩
      · refine ⟨h.content d' c hd', ?_⟩
        split
        · exact Option.some_ne_none own
        · exact h.known d' c hd'
    · intro d' c hd'
      dsimp only
      rw [write_byContent, lookup_insert']
      split
      · rename_i heq
        rw [heq, hc] at hd'
        cases hd'
      · exact hd'
    · intro v d' hvd
      rcases List.mem_cons.mp hvd with heq | hvd
      · cases heq
        exact .inr (by simp)
      · exact .inl hvd
    · refine Logged.insertSelf ?_ (by rw [write_earlier]; exact hnone)
      have hbefore : Logged { s.process with byContent := s.process.byContent.insert d own } :=
        h.logged.congr rfl fun _ => rfl
      refine Logged.write (hbefore.contentLine d own) ?_
      exact hsteady.imp_right Nat.le_of_lt
  | some root =>
    rw [hc] at hsteady
    obtain ⟨hroot, halone, hlines⟩ := hsteady
    have hne : root ≠ own := by
      rintro rfl
      exact h.known d root hc hnone
    dsimp only
    rw [write_of_lt (p := { s.process with byContent := s.process.byContent.touch d }) hlines]
    refine h.relink halone hroot hne (hd.symm.trans (h.content d root hc).symm) ?_ (by simp) (fun v w hvw => .inl hvw) ?_ ?_
    · intro v
      rw [lookup_insert']
    · intro v d' hvd
      rcases List.mem_cons.mp hvd with heq | hvd
      · cases heq
        exact .inr ⟨rfl, hc⟩
      · exact .inl hvd
    · exact (h.logged.link halone hne).congr rfl fun _ => rfl

theorem Inv.contentVersion (h : Inv bytes s) {digest : Option D} (hdigest : ∀ d, digest = some d → d = bytes own)
    (hsteady : Steady startedNs s.process (.contentVersion own digest)) :
    Inv bytes { s with
      process := (s.process.contentVersion startedNs own digest).2
      hashed := hashedBy startedNs s.process own digest ++ s.hashed } := by
  unfold Process.contentVersion
  cases hown : s.process.earlier.lookup own with
  | some known =>
    have hnot : s.process.hashes startedNs own = false := by simp [Process.hashes, hown]
    simp only [hashedBy, hnot]
    exact h.touched (by simp) (fun _ => rfl) (fun v w hvw => .inl hvw) (h.logged.congr rfl (by simp))
  | none =>
    by_cases hold : max own.mtimeNs own.ctimeNs < startedNs
    · have hnot : s.process.hashes startedNs own = false := by simp [Process.hashes, hold]
      simp only [hashedBy, hnot, hold]
      exact h
    · have hhashes : s.process.hashes startedNs own = true := by simp [Process.hashes, hown, hold]
      simp only [hashedBy, hhashes, hold]
      cases digest with
      | none => exact h
      | some d => exact h.linkContent (hdigest d rfl) hown (hsteady d rfl hhashes)

theorem Inv.step (h : Inv bytes s) {c : Call D} (hs : steadyStep startedNs bytes s c s') : Inv bytes s' := by
  obtain ⟨hstep, hsteady⟩ := hs
  cases hstep with
  | fileVersion own =>
    exact h.touched (by simp [Process.fileVersion]) (fun _ => rfl) (fun v w hvw => .inl hvw)
      (h.logged.congr rfl (by simp [Process.fileVersion]))
  | contentVersion own digest hdigest => exact h.contentVersion hdigest hsteady
  | noteSameContent own recorded hbytes => exact h.noteSameContent hbytes hsteady
  | compact => exact h.touched (fun _ => rfl) (fun _ => rfl) (fun v w hvw => .inl hvw) (logged_compact hsteady)

theorem Inv.faithful (h : Inv bytes s) : Faithful bytes s := by
  refine ⟨?_, ?_, h.answer, h.logged.answer_load⟩
  · intro v w hvw
    rw [← h.bytes_answer v, ← h.bytes_answer w, hvw]
  · intro v w hvw
    induction hvw with
    | rel v w hfound =>
      rcases hfound with hvw | ⟨d, hv, hw⟩
      · exact h.noted v w hvw
      · obtain ⟨c, hc, heq⟩ := h.hashed v d hv
        obtain ⟨c', hc', heq'⟩ := h.hashed w d hw
        rw [hc] at hc'
        cases hc'
        exact heq.trans heq'.symm
    | refl v => rfl
    | symm v w _ ih => exact ih.symm
    | trans u v w _ _ ih ih' => exact ih.trans ih'

/-- Where a call links a version to another only if it has no link and no other has one to it: versions answered
alike hold the same bytes, those found to hold the same bytes are answered alike, and a process that loads the
log answers the same. -/
theorem versions_faithful (h : Run (steadyStep startedNs bytes) World.start calls s) : Faithful bytes s := by
  have hinv : Inv bytes s := by
    refine h.invariant (I := fun _ s => Inv bytes s) .start ?_
    intro _ c s s' hi hs
    exact hi.step hs
  exact hinv.faithful

/-- A file is written twice with the same bytes, and a third version is found to hold those of the second. -/
theorem versions_faithful_of_three : ∃ (calls : List (Call Nat)) (s : World Nat),
    Run (steadyStep 0 fun _ => 7) World.start calls s ∧ Faithful (fun _ => 7) s ∧
      s.process.answer ⟨3, 1, 3⟩ = ⟨1, 1, 1⟩ ∧ s.Established ⟨3, 1, 3⟩ ⟨1, 1, 1⟩ := by
  have hrun : ∃ (calls : List (Call Nat)) (s : World Nat), Run (steadyStep 0 fun _ => 7) World.start calls s ∧
      s.noted = [(⟨3, 1, 3⟩, ⟨2, 1, 2⟩)] ∧ s.hashed = [(⟨2, 1, 2⟩, 7), (⟨1, 1, 1⟩, 7)] ∧
      s.process.answer ⟨3, 1, 3⟩ = ⟨1, 1, 1⟩ := by
    have h : Run (steadyStep 0 fun _ => 7) (World.start : World Nat) [] World.start := .nil
    replace h := h.snoc ⟨.contentVersion ⟨1, 1, 1⟩ (some 7) (by simp), by
      rintro d hd -
      cases hd
      exact .inl (by decide)⟩
    replace h := h.snoc ⟨.contentVersion ⟨2, 1, 2⟩ (some 7) (by simp), by
      rintro d hd -
      cases hd
      exact ⟨rfl, alone_of_entries rfl (by decide), by decide⟩⟩
    replace h := h.snoc ⟨.noteSameContent ⟨3, 1, 3⟩ ⟨2, 1, 2⟩ rfl, by
      rintro - -
      exact ⟨.inr (alone_of_entries rfl (by decide)), .inl (by decide)⟩⟩
    exact ⟨_, _, h, rfl, rfl, rfl⟩
  obtain ⟨calls, s, hs, hnoted, hhashed, hanswer⟩ := hrun
  refine ⟨calls, s, hs, versions_faithful hs, hanswer, ?_⟩
  refine .trans _ ⟨2, 1, 2⟩ _ (.rel _ _ (.inl ?_)) (.rel _ _ (.inr ⟨7, ?_, ?_⟩))
  · simp [hnoted]
  · simp [hhashed]
  · simp [hhashed]

/-- The version first seen with a content is then found to hold the bytes of an earlier one: a third with that
content is answered the first, which is answered the earlier one. -/
theorem versions_disagree : ∃ (calls : List (Call Nat)) (s : World Nat),
    Run (Step 0 fun _ => 7) World.start calls s ∧ ¬ Faithful (fun _ => 7) s := by
  have hrun : ∃ (calls : List (Call Nat)) (s : World Nat), Run (Step 0 fun _ => 7) World.start calls s ∧
      s.process.answer ⟨2, 1, 2⟩ = ⟨1, 1, 1⟩ ∧ s.process.answer ⟨1, 1, 1⟩ = ⟨0, 1, 0⟩ := by
    have h : Run (Step 0 fun _ => 7) (World.start : World Nat) [] World.start := .nil
    replace h := h.snoc (.contentVersion ⟨1, 1, 1⟩ (some 7) (by simp))
    replace h := h.snoc (.noteSameContent ⟨1, 1, 1⟩ ⟨0, 1, 0⟩ rfl)
    replace h := h.snoc (.contentVersion ⟨2, 1, 2⟩ (some 7) (by simp))
    exact ⟨_, _, h, rfl, rfl⟩
  obtain ⟨calls, s, hs, hanswer, hroot⟩ := hrun
  refine ⟨calls, s, hs, ?_⟩
  intro hf
  have hidem := hf.answer ⟨2, 1, 2⟩
  rw [hanswer, hroot] at hidem
  cases hidem

end

/-! ## A dependency that is fresh -/

namespace Deps

variable {P D : Type} [DecidableEq P] [DecidableEq D] {env : Env D} {s₀ s s' : State P D}

theorem good_of_run {events : List (Event P)} (hinitial : s₀.Initial) (hrun : Run (CalmStep env) s₀ events s) :
    Good env s := by
  refine hrun.invariant (I := fun _ s => Good env s) (Good.initial hinitial) ?_
  rintro - event s s' hgood ⟨hcalm, rfl⟩
  exact hgood.exec hcalm

theorem alone_of_run {events : List (Event P)} {path : P} {ino : Nat} {file : Inode} {m n : Nat}
    (hgood : Good env s) (halone : Alone env path ino file m n s) (hrun : Run (CalmStep env) s events s')
    (hspares : ∀ event ∈ events, event.Spares path ino m) : Good env s' ∧ Alone env path ino file m n s' := by
  induction hrun with
  | nil => exact ⟨hgood, halone⟩
  | @snoc events event s₁ s₂ _ hstep ih =>
    obtain ⟨hcalm, rfl⟩ := hstep
    obtain ⟨hgood₁, halone₁⟩ := ih fun e he => hspares e (List.mem_append_left _ he)
    exact ⟨hgood₁.exec hcalm, halone₁.exec hgood₁ (hspares event (by simp)) hcalm⟩

/-- In a run in which no digest is taken within the tick of a put back file's last change, and no snapshot takes the
digest of another file's read, an entry that is judged fresh is of bytes the file has, and one of a file left alone
since before it was made is judged fresh. -/
theorem fileDepIsFresh_holds {events : List (Event P)} (hinitial : s₀.Initial)
    (hrun : Run (CalmStep env) s₀ events s) {i : Nat} {path : P} {stored : Entry D} {pauses : Pauses}
    (hentry : s.entries[i]? = some (path, stored)) (hcalm : (Event.check i pauses : Event P).Calm env s) :
    (∀ hash, stored.hash = some hash → (fileDepIsFresh env s path stored pauses).1 = .fresh →
        Held env s path pauses hash) ∧
      ∀ earlier later s₁ ino, Run (CalmStep env) s₀ earlier s₁ → Run (CalmStep env) s₁ later s →
        s₁.paths path = some ino → (∀ event ∈ later, event.Spares path ino s₁.known.length) →
        s₁.entries.length ≤ i → pauses.Spares ino → (fileDepIsFresh env s path stored pauses).1 = .fresh := by
  have hgood := good_of_run hinitial hrun
  have hcalm := hcalm _ hentry
  refine ⟨fun hash hhash hfresh => ?_, fun earlier later s₁ ino hearlier hlater hpath hspares hi hpauses => ?_⟩
  · exact held_of_fresh hgood hcalm (hgood.entries _ (List.mem_of_getElem? hentry)) hhash hfresh
  · -- nothing is recorded from there on yet
    have halone : Alone env path ino (s₁.inodes ino) s₁.known.length s₁.entries.length s₁ := by
      refine ⟨hpath, rfl, fun hj hread => ?_, fun hj hentry => ?_⟩
      · rw [List.getElem?_eq_none hj] at hread
        cases hread
      · rw [List.getElem?_eq_none hj] at hentry
        cases hentry
    obtain ⟨-, halone⟩ := alone_of_run (good_of_run hinitial hearlier) halone hlater hspares
    obtain ⟨hstat, hhash⟩ := halone.entries hi hentry
    exact halone.fresh hgood hpauses hcalm hstat hhash

/-! ### One file -/

/-- Bytes are their own digest, and stamps are rounded down to multiples of four. -/
def bytesEnv : Env Bytes := ⟨id, 1, 4, by decide, by decide⟩

/-- A path that names a file of the byte 1, last changed 100 s ago. -/
def oneFile : State Unit Bytes :=
  ⟨1000, fun _ => ⟨[1], 900, 900⟩, fun _ => some 1, [], ∅, [], [], []⟩

/-- The file is snapshotted and checked. -/
theorem fileDepIsFresh_holds_oneFile :
    (fileDepIsFresh bytesEnv (exec bytesEnv oneFile (.snapshot () none noPauses)) ()
        ⟨⟨1, 1, 900, 900⟩, some [1], some 1000⟩ noPauses).1 = .fresh ∧
      Held bytesEnv (exec bytesEnv oneFile (.snapshot () none noPauses)) () noPauses [1] := by
  have hfresh : (fileDepIsFresh bytesEnv (exec bytesEnv oneFile (.snapshot () none noPauses)) ()
      ⟨⟨1, 1, 900, 900⟩, some [1], some 1000⟩ noPauses).1 = .fresh := by decide
  have hover : TickOver bytesEnv 1000 ⟨1, 1, 900, 900⟩ := fun _ => by decide
  have hcalm : (Event.snapshot () none noPauses : Event Unit).Calm bytesEnv oneFile :=
    ⟨calm_of_stat rfl hover, fun _ _ hread => by cases hread⟩
  have hrun : Run (CalmStep bytesEnv) oneFile [.snapshot () none noPauses]
      (exec bytesEnv oneFile (.snapshot () none noPauses)) := .snoc .nil ⟨hcalm, rfl⟩
  refine ⟨hfresh, (fileDepIsFresh_holds (i := 0) ⟨rfl, rfl, rfl, rfl⟩ hrun rfl ?_).1 _ rfl hfresh⟩
  rintro e he
  obtain rfl : ((), (⟨⟨1, 1, 900, 900⟩, some [1], some 1000⟩ : Entry Bytes)) = e := Option.some.inj he
  exact calm_of_stat rfl hover

/-- The file is rewritten with its modification time put back, snapshotted, and rewritten so again within the tick. -/
def putBack : State Unit Bytes :=
  [.external (.write 1 [1] (some 0)), .snapshot () none noPauses, .external (.write 1 [2] (some 0))].foldl
    (exec bytesEnv) oneFile

/-- The entry of the first bytes is judged fresh while the file holds the second. -/
theorem putBack_fresh : putBack.entries[0]? = some ((), ⟨⟨1, 1, 0, 1000⟩, some [1], some 1000⟩) ∧
    (fileDepIsFresh bytesEnv putBack () ⟨⟨1, 1, 0, 1000⟩, some [1], some 1000⟩ noPauses).1 = .fresh ∧
    ¬ Held bytesEnv putBack () noPauses [1] := by
  refine ⟨rfl, by decide, ?_⟩
  rintro ⟨moment, hmoment, hheld⟩
  simp only [noPauses, State.pass, List.foldl_nil, List.mem_cons, List.not_mem_nil, or_false, or_self] at hmoment
  subst hmoment
  exact absurd hheld (by decide)

/-- A path named a file of the byte 1 when it was read, and names one of the byte 2, of the same size and stamps, when
it is snapshotted. -/
def replaced : State Unit Bytes :=
  [.read () false true noPauses, .replace () (some 2), .snapshot () (some 0) noPauses].foldl (exec bytesEnv)
    { oneFile with inodes := fun ino => ⟨if ino = 1 then [1] else [2], 900, 900⟩ }

/-- The entry of the second file has the digest of the first, and is judged fresh. -/
example : replaced.entries[0]? = some ((), ⟨⟨2, 1, 900, 900⟩, some [1], some 1000⟩) ∧
    (fileDepIsFresh bytesEnv replaced () ⟨⟨2, 1, 900, 900⟩, some [1], some 1000⟩ noPauses).1 = .fresh ∧
    replaced.content () = some [2] := by
  refine ⟨rfl, by decide, rfl⟩

end Deps

end Cash.Files
