import Mathlib.Data.List.Nodup
import Mathlib.Tactic.Common

/-!
# Noticing a clear

`CacheDirStamp`, `ClearWatcher` and `TieredBackend.bump_generation`, for one stamp file, one process that looks at it and the
other processes. A look within `CHECK_EVERY` of the last one changes nothing and is left out.
-/

namespace Cash.Watch

section

/-! ## The watcher -/

variable {T : Type} [DecidableEq T]

/-- `_generation`. -/
inductive Generation (T : Type)
  | unseen
  | seen (token : Option T)
deriving DecidableEq

/-- `_generation` and `_stamp_writes_seen`. -/
structure ClearWatcher (T : Type) where
  generation : Generation T
  stampWritesSeen : Nat
deriving DecidableEq

/-- `written` and `writes` of the stamp. -/
structure CacheDirStamp (T : Type) where
  written : Option T
  writes : Nat
deriving DecidableEq

namespace ClearWatcher

/-- `known in (_UNSEEN, None)`. -/
def blank : Generation T → Bool
  | .unseen => true
  | .seen none => true
  | .seen (some _) => false

/-- `moved_by_us`. -/
def movedByUs (w : ClearWatcher T) (before after : Option T) : ClearWatcher T :=
  if w.generation = .seen before then { w with generation := .seen after } else w

/-- `cleared`, of a disk tier with this token and stamp. -/
def cleared (w : ClearWatcher T) (token : Option T) (disk : CacheDirStamp T) : Bool × ClearWatcher T :=
  let writes := disk.writes
  -- It stamps only a directory it finds unstamped: a second stamp means the first was removed in between.
  let restamped := decide (w.stampWritesSeen < writes) &&
    (decide (1 ≤ w.stampWritesSeen) || decide (2 ≤ writes - w.stampWritesSeen))
  let known := if blank w.generation && decide (writes ≠ w.stampWritesSeen) then .seen disk.written else w.generation
  (restamped || (!blank known && decide (.seen token ≠ known)), ⟨.seen token, writes⟩)

end ClearWatcher

/-! ## The system -/

/-- The stamp on disk and this process, with what happened since the last look: `used` are the tokens there were, `kept` tells
that the stamp on disk was there at the last look or written since by this process, `lost` that another process removed or
replaced such a stamp, `own` that nothing changed but by this process's first stamp of an unstamped folder and by its bumps. -/
structure State (T : Type) where
  disk : Option T
  stamp : CacheDirStamp T
  watch : ClearWatcher T
  used : List T
  kept : Bool
  lost : Bool
  own : Bool
deriving DecidableEq

inductive Op (T : Type)
  /-- `CacheDirStamp.write` by this process. -/
  | write (token : T)
  /-- `TieredBackend.bump_generation`; none when the stamp cannot be refreshed. -/
  | bump (token : Option T)
  /-- Another process removes the stamp. -/
  | remove
  /-- Another process writes or replaces it. -/
  | rewrite (token : T)
  /-- `ClearWatcher.cleared`. -/
  | look

/-- The tokens an operation makes. -/
def Op.tokens : Op T → List T
  | .write token => [token]
  | .bump token => token.toList
  | .remove => []
  | .rewrite token => [token]
  | .look => []

/-- `CacheDirStamp.bump`. -/
def bumped (disk token : Option T) : Option T :=
  match disk with
  | none => none
  | some old => some (token.getD old)

namespace State

/-- Before anything was looked at. -/
def start (disk : Option T) : State T := ⟨disk, ⟨none, 0⟩, ⟨.unseen, 0⟩, disk.toList, false, false, true⟩

def step (s : State T) (op : Op T) : State T :=
  match op with
  | .write token =>
    { s with
      disk := some token
      stamp := ⟨some token, s.stamp.writes + 1⟩
      used := token :: s.used
      kept := true
      own := s.own && s.disk.isNone && decide (s.stamp.writes = 0) }
  | .bump token =>
    { s with
      disk := bumped s.disk token
      watch := s.watch.movedByUs s.disk (bumped s.disk token)
      used := token.toList ++ s.used }
  | .remove =>
    match s.disk with
    | none => s
    | some _ => { s with disk := none, kept := false, lost := s.lost || s.kept, own := false }
  | .rewrite token => { s with disk := some token, used := token :: s.used, kept := false, lost := s.lost || s.kept, own := false }
  | .look => { s with watch := (s.watch.cleared s.disk s.stamp).2, kept := s.disk.isSome, lost := false, own := true }

/-- The states in which a run looks. -/
def looks (s : State T) : List (Op T) → List (State T)
  | [] => []
  | .look :: ops => s :: looks (s.step .look) ops
  | op :: ops => looks (s.step op) ops

/-- What a look answers. -/
def answer (s : State T) : Bool := (s.watch.cleared s.disk s.stamp).1

/-- A look finds what it should. -/
structure Meets (s : State T) : Prop where
  lost : s.lost = true → s.answer = true
  own : s.own = true → s.answer = false

/-- This process's first stamp was bumped before a look saw it, and nothing else happened. -/
structure StampBumped (s : State T) : Prop where
  own : s.own = true
  unlooked : s.stamp.writes ≠ s.watch.stampWritesSeen
  moved : s.disk ≠ s.stamp.written

end State

end

/-! ## Which looks are right -/

section

open ClearWatcher

variable {T : Type}

theorem blank_or (g : Generation T) : blank g = true ∨ ∃ t, g = .seen (some t) := by
  cases g with
  | unseen => exact .inl rfl
  | seen token =>
      cases token with
      | none => exact .inl rfl
      | some t => exact .inr ⟨t, rfl⟩

theorem bumped_cases (disk token : Option T) :
    bumped disk token = disk ∨ ∃ t t', disk = some t ∧ token = some t' ∧ bumped disk token = some t' := by
  cases disk with
  | none => exact .inl rfl
  | some t =>
      cases token with
      | none => exact .inl rfl
      | some t' => exact .inr ⟨t, t', rfl, rfl, rfl⟩


variable {s : State T} {token t : T}

/-! ### What holds before a look -/

/-- What holds in every state of a run. -/
structure Inv (s : State T) : Prop where
  disk_used : ∀ t, s.disk = some t → t ∈ s.used
  written_used : ∀ t, s.stamp.written = some t → t ∈ s.used
  generation_used : ∀ t, s.watch.generation = .seen (some t) → t ∈ s.used
  seen_le : s.watch.stampWritesSeen ≤ s.stamp.writes
  written_some : 0 < s.stamp.writes → s.stamp.written.isSome
  /-- Once a stamp that was seen is lost, the token looked at last does not come back. -/
  known_lost : ∀ t, s.watch.generation = .seen (some t) → s.lost = true → s.disk ≠ some t
  known_own : ∀ t, s.watch.generation = .seen (some t) → s.own = true →
    s.disk = some t ∧ s.stamp.writes = s.watch.stampWritesSeen
  blank_kept : blank s.watch.generation = true → s.kept = true → s.stamp.writes ≠ s.watch.stampWritesSeen
  /-- A stamp of this process that was lost is told by a second one, or by its token. -/
  blank_lost : blank s.watch.generation = true → s.lost = true → s.stamp.writes ≠ s.watch.stampWritesSeen ∧
    (1 ≤ s.watch.stampWritesSeen ∨ 2 ≤ s.stamp.writes - s.watch.stampWritesSeen ∨ s.disk ≠ s.stamp.written)
  blank_own : blank s.watch.generation = true → s.own = true → s.stamp.writes ≠ s.watch.stampWritesSeen →
    s.stamp.writes = 1 ∧ s.watch.stampWritesSeen = 0

theorem inv_start (disk : Option T) : Inv (State.start disk) where
  disk_used _ h := by
    cases disk with
    | none => cases h
    | some t' =>
        cases h
        exact List.mem_cons_self
  written_used _ h := by cases h
  generation_used _ h := by cases h
  seen_le := Nat.le_refl _
  written_some h := absurd h (Nat.lt_irrefl _)
  known_lost _ h := by cases h
  known_own _ h := by cases h
  blank_kept _ h := by cases h
  blank_lost _ h := by cases h
  blank_own _ _ h := absurd rfl h

theorem inv_more_used (h : Inv s) (more : List T) : Inv { s with used := more ++ s.used } where
  disk_used t ht := List.mem_append_right _ (h.disk_used t ht)
  written_used t ht := List.mem_append_right _ (h.written_used t ht)
  generation_used t ht := List.mem_append_right _ (h.generation_used t ht)
  seen_le := h.seen_le
  written_some := h.written_some
  known_lost := h.known_lost
  known_own := h.known_own
  blank_kept := h.blank_kept
  blank_lost := h.blank_lost
  blank_own := h.blank_own

variable [DecidableEq T]

/-! ### One step -/

theorem inv_write (h : Inv s) (hfresh : token ∉ s.used) : Inv (s.step (.write token)) where
  disk_used _ ht := by
    cases ht
    exact List.mem_cons_self
  written_used _ ht := by
    cases ht
    exact List.mem_cons_self
  generation_used t ht := List.mem_cons_of_mem _ (h.generation_used t ht)
  seen_le := Nat.le_succ_of_le h.seen_le
  written_some _ := rfl
  known_lost t ht _ heq := by
    cases heq
    exact hfresh (h.generation_used _ ht)
  known_own t ht hown := by
    change (s.own && s.disk.isNone && decide (s.stamp.writes = 0)) = true at hown
    rw [Bool.and_eq_true, Bool.and_eq_true] at hown
    have hdisk := hown.1.2
    rw [(h.known_own t ht hown.1.1).1] at hdisk
    cases hdisk
  blank_kept _ _ := Nat.ne_of_gt (Nat.lt_succ_of_le h.seen_le)
  blank_lost hblank hlost := by
    obtain ⟨hne, -⟩ := h.blank_lost hblank hlost
    have hle := h.seen_le
    refine ⟨Nat.ne_of_gt (Nat.lt_succ_of_le hle), .inr (.inl ?_)⟩
    change 2 ≤ s.stamp.writes + 1 - s.watch.stampWritesSeen
    omega
  blank_own _ hown _ := by
    change (s.own && s.disk.isNone && decide (s.stamp.writes = 0)) = true at hown
    rw [Bool.and_eq_true, decide_eq_true_eq] at hown
    have hwrites := hown.2
    have hle := h.seen_le
    change s.stamp.writes + 1 = 1 ∧ s.watch.stampWritesSeen = 0
    omega

theorem step_bump_same {token : Option T} (h : bumped s.disk token = s.disk) :
    s.step (.bump token) = { s with used := token.toList ++ s.used } := by
  have hwatch : s.watch.movedByUs s.disk s.disk = s.watch := by
    rw [movedByUs]
    split
    · next heq => rw [← heq]
    · rfl
  rw [State.step, h, hwatch]

/-- A bump moves the token that a look knew, and no other. -/
theorem inv_bump_moved (h : Inv s) {t t' : T} (hdisk : s.disk = some t) (hfresh : t' ∉ s.used) :
    Inv (s.step (.bump (some t'))) := by
  have hmoved : bumped s.disk (some t') = some t' := by rw [hdisk, bumped, Option.getD_some]
  have hwritten : some t' ≠ s.stamp.written := fun heq => hfresh (h.written_used _ heq.symm)
  by_cases hknown : s.watch.generation = .seen s.disk
  · have hwatch : s.watch.movedByUs s.disk (some t') = { s.watch with generation := .seen (some t') } := by
      rw [movedByUs, if_pos hknown]
    rw [State.step, hmoved, hwatch]
    rw [hdisk] at hknown
    constructor
    · rintro _ ⟨⟩
      exact List.mem_cons_self
    · exact fun t ht => List.mem_cons_of_mem _ (h.written_used t ht)
    · rintro _ ⟨⟩
      exact List.mem_cons_self
    · exact h.seen_le
    · exact h.written_some
    · exact fun _ _ hlost => (h.known_lost t hknown hlost hdisk).elim
    · rintro _ ⟨⟩ hown
      exact ⟨rfl, (h.known_own t hknown hown).2⟩
    · exact fun hblank => by cases hblank
    · exact fun hblank => by cases hblank
    · exact fun hblank => by cases hblank
  · have hwatch : s.watch.movedByUs s.disk (some t') = s.watch := by rw [movedByUs, if_neg hknown]
    rw [State.step, hmoved, hwatch]
    constructor
    · rintro _ ⟨⟩
      exact List.mem_cons_self
    · exact fun t ht => List.mem_cons_of_mem _ (h.written_used t ht)
    · exact fun t ht => List.mem_cons_of_mem _ (h.generation_used t ht)
    · exact h.seen_le
    · exact h.written_some
    · rintro t₀ ht₀ - heq
      cases heq
      exact hfresh (h.generation_used _ ht₀)
    · intro t₀ ht₀ hown
      exact (hknown (ht₀.trans (congrArg _ (h.known_own t₀ ht₀ hown).1.symm))).elim
    · exact h.blank_kept
    · exact fun hblank hlost => ⟨(h.blank_lost hblank hlost).1, .inr (.inr hwritten)⟩
    · exact h.blank_own

theorem inv_bump (h : Inv s) {token : Option T} (hfresh : ∀ t ∈ token, t ∉ s.used) : Inv (s.step (.bump token)) := by
  rcases bumped_cases s.disk token with hsame | ⟨t, t', hdisk, rfl, -⟩
  · rw [step_bump_same hsame]
    exact inv_more_used h _
  · exact inv_bump_moved h hdisk (hfresh t' rfl)

omit [DecidableEq T] in
/-- The stamp that was there is there no more: it is lost, if it had been kept. -/
theorem inv_others (h : Inv s) (disk : Option T) (hfresh : ∀ t, disk = some t → t ∉ s.used) :
    Inv { s with disk := disk, used := disk.toList ++ s.used, kept := false, lost := s.lost || s.kept, own := false } where
  disk_used t ht := by
    cases ht
    exact List.mem_cons_self
  written_used t ht := List.mem_append_right _ (h.written_used t ht)
  generation_used t ht := List.mem_append_right _ (h.generation_used t ht)
  seen_le := h.seen_le
  written_some := h.written_some
  known_lost t ht _ heq := hfresh t heq (h.generation_used t ht)
  known_own _ _ hown := by cases hown
  blank_kept _ hkept := by cases hkept
  blank_lost hblank hlost := by
    have hwrites : s.stamp.writes ≠ s.watch.stampWritesSeen := by
      rcases Bool.or_eq_true .. ▸ hlost with hlost | hkept
      · exact (h.blank_lost hblank hlost).1
      · exact h.blank_kept hblank hkept
    refine ⟨hwrites, .inr (.inr fun heq => ?_)⟩
    have hle := h.seen_le
    obtain ⟨t, ht⟩ := Option.isSome_iff_exists.mp (h.written_some (by omega))
    exact hfresh t (heq.trans ht) (h.written_used t ht)
  blank_own _ hown := by cases hown

theorem inv_look (h : Inv s) : Inv (s.step .look) where
  disk_used := h.disk_used
  written_used := h.written_used
  generation_used t ht := h.disk_used t (Generation.seen.inj ht)
  seen_le := Nat.le_refl _
  written_some := h.written_some
  known_lost _ _ hlost := by cases hlost
  known_own t ht _ := ⟨Generation.seen.inj ht, rfl⟩
  blank_kept hblank hkept := by
    change blank (.seen s.disk) = true at hblank
    change s.disk.isSome = true at hkept
    cases hdisk : s.disk with
    | none =>
        rw [hdisk] at hkept
        cases hkept
    | some t =>
        rw [hdisk] at hblank
        cases hblank
  blank_lost _ hlost := by cases hlost
  blank_own _ _ hwrites := absurd rfl hwrites

theorem inv_step (h : Inv s) (op : Op T) (hfresh : ∀ t ∈ op.tokens, t ∉ s.used) : Inv (s.step op) := by
  cases op with
  | write token => exact inv_write h (hfresh token List.mem_cons_self)
  | bump token => exact inv_bump h fun t ht => hfresh t (Option.mem_toList.mpr ht)
  | remove =>
      cases hdisk : s.disk with
      | none =>
          rw [State.step, hdisk]
          exact h
      | some t =>
          rw [State.step, hdisk]
          exact inv_others h none fun t ht => by cases ht
  | rewrite token =>
      refine inv_others h (some token) fun t ht => ?_
      cases ht
      exact hfresh token List.mem_cons_self
  | look => exact inv_look h

/-! ### One look -/

/-- A look that knows a token. -/
theorem answer_known (h : s.watch.generation = .seen (some t)) (hdisk : s.disk ≠ some t) : s.answer = true := by
  rw [State.answer, cleared]
  dsimp only
  rw [h]
  have hne : Generation.seen s.disk ≠ .seen (some t) := fun heq => hdisk (Generation.seen.inj heq)
  simp [blank, hne]

/-- A look that knows none, when this process stamped since. -/
theorem answer_blank (hblank : blank s.watch.generation = true) (hwrites : s.stamp.writes ≠ s.watch.stampWritesSeen)
    (hwritten : s.stamp.written = some t) (h : s.watch.stampWritesSeen < s.stamp.writes) :
    s.answer = (decide (1 ≤ s.watch.stampWritesSeen) || decide (2 ≤ s.stamp.writes - s.watch.stampWritesSeen) ||
      decide (s.disk ≠ s.stamp.written)) := by
  have hinj : Generation.seen s.disk = .seen (some t) ↔ s.disk = some t := ⟨Generation.seen.inj, congrArg _⟩
  rw [State.answer, cleared]
  dsimp only
  rw [hblank, decide_eq_true hwrites, hwritten, decide_eq_true h, Bool.true_and, Bool.true_and, if_pos rfl, blank]
  simp only [ne_eq, hinj, Bool.not_false, Bool.true_and]

/-- A look that knows none, when this process did not stamp since. -/
theorem answer_nothing (hblank : blank s.watch.generation = true) (hwrites : s.stamp.writes = s.watch.stampWritesSeen) :
    s.answer = false := by
  rw [State.answer, cleared]
  dsimp only
  rw [hblank, hwrites]
  simp [hblank]

theorem answer_same (h : s.watch.generation = .seen (some t)) (hdisk : s.disk = some t)
    (hwrites : s.stamp.writes = s.watch.stampWritesSeen) : s.answer = false := by
  rw [State.answer, cleared]
  dsimp only
  rw [h, hdisk, hwrites]
  simp [blank]

theorem meets_iff (h : Inv s) : s.Meets ↔ ¬s.StampBumped := by
  have hle := h.seen_le
  constructor
  · intro hmeets hbumped
    have hown := hmeets.own hbumped.own
    rcases blank_or s.watch.generation with hblank | ⟨t, ht⟩
    · have hunlooked := hbumped.unlooked
      obtain ⟨t, ht⟩ := Option.isSome_iff_exists.mp (h.written_some (by omega))
      rw [answer_blank hblank hunlooked ht (by omega), decide_eq_true hbumped.moved, Bool.or_true] at hown
      cases hown
    · exact hbumped.unlooked (h.known_own t ht hbumped.own).2
  · intro hbumped
    rcases blank_or s.watch.generation with hblank | ⟨t, ht⟩
    · constructor
      · intro hlost
        obtain ⟨hwrites, hsaid⟩ := h.blank_lost hblank hlost
        obtain ⟨t, ht⟩ := Option.isSome_iff_exists.mp (h.written_some (by omega))
        rw [answer_blank hblank hwrites ht (by omega)]
        simp only [Bool.or_eq_true, decide_eq_true_eq]
        exact or_assoc.mpr hsaid
      · intro hown
        by_cases hwrites : s.stamp.writes = s.watch.stampWritesSeen
        · exact answer_nothing hblank hwrites
        · obtain ⟨hone, hzero⟩ := h.blank_own hblank hown hwrites
          obtain ⟨t, ht⟩ := Option.isSome_iff_exists.mp (h.written_some (by omega))
          have hsame : s.disk = s.stamp.written := not_not.mp fun hmoved => hbumped ⟨hown, hwrites, hmoved⟩
          rw [answer_blank hblank hwrites ht (by omega), hone, hzero, hsame]
          simp
    · constructor
      · exact fun hlost => answer_known ht (h.known_lost t ht hlost)
      · intro hown
        obtain ⟨hdisk, hwrites⟩ := h.known_own t ht hown
        exact answer_same ht hdisk hwrites

/-! ### Runs -/

theorem used_step (s : State T) (op : Op T) : ∀ t ∈ (s.step op).used, t ∈ op.tokens ∨ t ∈ s.used := by
  intro t ht
  cases op with
  | write token => exact (List.mem_cons.mp ht).imp_left List.mem_singleton.mpr
  | bump token => exact List.mem_append.mp ht
  | remove =>
      rw [State.step] at ht
      split at ht
      · exact .inr ht
      · exact .inr ht
  | rewrite token => exact (List.mem_cons.mp ht).imp_left List.mem_singleton.mpr
  | look => exact .inr ht

theorem inv_looks {ops : List (Op T)} : ∀ {s : State T}, Inv s → (ops.flatMap Op.tokens).Nodup →
    (∀ t ∈ ops.flatMap Op.tokens, t ∉ s.used) → ∀ s' ∈ s.looks ops, Inv s' := by
  induction ops with
  | nil => exact fun _ _ _ s' hs' => absurd hs' List.not_mem_nil
  | cons op ops ih =>
      intro s h hnodup hfresh s' hs'
      rw [List.flatMap_cons, List.nodup_append] at hnodup
      have hstep := inv_step h op fun t ht => hfresh t (List.mem_append_left _ ht)
      have hnext : ∀ t ∈ ops.flatMap Op.tokens, t ∉ (s.step op).used := by
        intro t ht hused
        rcases used_step s op t hused with htok | hused
        · exact hnodup.2.2 t htok t ht rfl
        · exact hfresh t (List.mem_append_right _ ht) hused
      have hrest := ih hstep hnodup.2.1 hnext
      cases op with
      | look =>
          rcases List.mem_cons.mp hs' with rfl | hs'
          · exact h
          · exact hrest s' hs'
      | _ => exact hrest s' hs'

/-- The looks of a run are right exactly when none comes after this process's first stamp was bumped unseen. -/
theorem looks_meet_iff {disk : Option T} {ops : List (Op T)} (hfresh : (disk.toList ++ ops.flatMap Op.tokens).Nodup) :
    (∀ s ∈ (State.start disk).looks ops, s.Meets) ↔ ∀ s ∈ (State.start disk).looks ops, ¬s.StampBumped := by
  rw [List.nodup_append] at hfresh
  have hinv := inv_looks (inv_start disk) hfresh.2.1 fun t ht hused => hfresh.2.2 t hused t ht rfl
  exact forall₂_congr fun s hs => meets_iff (hinv s hs)

/-- A first stamp, a bump after a look, and a removal. -/
def quietOps : List (Op Nat) := [.look, .write 1, .look, .bump (some 2), .look, .remove, .write 3, .look]

theorem looks_meet_quiet : ((State.start none).looks quietOps).length = 4 ∧ ∀ s ∈ (State.start none).looks quietOps, s.Meets := by
  have hquiet : ∀ s ∈ (State.start none).looks quietOps,
      ¬(s.own = true ∧ s.stamp.writes ≠ s.watch.stampWritesSeen ∧ s.disk ≠ s.stamp.written) := by
    decide
  have hfresh : ((none : Option Nat).toList ++ quietOps.flatMap Op.tokens).Nodup := by decide
  exact ⟨rfl, (looks_meet_iff hfresh).mpr fun s hs h => hquiet s hs ⟨h.own, h.unlooked, h.moved⟩⟩

/-- The first stamp is bumped before a look saw it, and the look takes that for a clear. -/
theorem first_stamp_bumped : ¬∀ s ∈ (State.start none).looks [.look, .write 1, .bump (some 2), .look], s.Meets := by
  intro h
  have hown := (h _ (List.mem_cons_of_mem _ List.mem_cons_self)).own
  revert hown
  decide

end

end Cash.Watch
