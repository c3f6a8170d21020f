import Cash.StoredKeys.Lemmas.Overlay

/-!
# What a run keeps
-/

namespace Cash.StoredKeys

open Py

variable {τ : Type} [LinearOrder τ] {started : τ} {r : Record τ} {docs : List (Doc τ)}

/-- Changes that notes of this process leave. -/
structure Changes.Sound (started : τ) (c : Changes τ) : Prop where
  good : c.entries.Good
  short : ∀ kind, (c.entries kind).length ≤ keysMax
  late : ∀ n ∈ c.notes, earlierTime started n.2.2 = none

/-- The record at the place has the changes. -/
def Saved (docs : List (Doc τ)) (c : Changes τ) (ref : ℕ) : Prop :=
  ∃ doc, docs[ref]? = some doc ∧ doc.entries.putAll c.notes = doc.entries

/-- What a write at a point holds. -/
def Phase.Sound (docs : List (Doc τ)) (c : Changes τ) : Phase τ → Prop
  | .begun => True
  | .loaded doc => doc.entries.Good
  | .replaced doc => doc.entries.Good ∧ doc.entries.putAll c.notes = doc.entries
  | .ended saved => ∀ ref, saved = some ref → Saved docs c ref

/-- What happens as it should: the clock is not before the start of the process, and no file has a key under both kinds. -/
def Event.Proper (started : τ) : Event τ → Prop
  | .note _ _ now _ _ => started ≤ now
  | .rewrite file => ∀ f doc, file = some f → f.doc = some doc → doc.entries.Good
  | _ => True

namespace Record

/-- A record with the changes that left `_writing` since the view was built, and the write in progress. -/
def below (r : Record τ) (ref : Option ℕ) : Entries τ :=
  (r.contents ref).entries.overlay (r.left.map (·.1) ++ (r.writing.map (·.2)).toList)

/-- The view stands for its record, with the changes that left `_writing` since, the write in progress and what is pending
over it. -/
structure Inv (started : τ) (r : Record τ) : Prop where
  docs : ∀ doc ∈ r.docs, doc.entries.Good
  file : ∀ f doc, r.file = some f → f.doc = some doc → doc.entries.Good
  memo : ∀ m, r.memo = some m → m.2 < r.docs.length
  pending : ∀ c, r.pending = some c → c.Sound started
  writing : ∀ p, r.writing = some p → p.2.Sound started ∧ ∀ w ∈ r.writers, w.id = p.1 → w.changes = p.2
  writers : ∀ w ∈ r.writers, w.changes.Sound started ∧ w.id < r.begun ∧ w.phase.Sound r.docs w.changes
  ids : ∀ w ∈ r.writers, ∀ w' ∈ r.writers, w.id = w'.id → w = w'
  left : ∀ p ∈ r.left, ∀ ref, p.2 = some ref → Saved r.docs p.1 ref
  view : ∀ v, r.view = some v → (∀ ref, v.disk = some ref → ref < r.docs.length) ∧
    v.Rep started ((r.below v.disk).overlay r.pending.toList)

theorem inv_start : Inv started (start : Record τ) where
  docs := fun _ h => by cases h
  file := fun _ _ h => by cases h
  memo := fun _ h => by cases h
  pending := fun _ h => by cases h
  writing := fun _ h => by cases h
  writers := fun _ h => by cases h
  ids := fun _ h => by cases h
  left := fun _ h => by cases h
  view := fun _ h => by cases h

/-! ## Reading -/

theorem Inv.contents_good (h : r.Inv started) (ref : Option ℕ) : (r.contents ref).entries.Good := by
  rw [contents]
  cases hdoc : ref.bind fun n => r.docs[n]? with
  | none => exact List.nodup_nil
  | some doc =>
      obtain ⟨n, -, hn⟩ := Option.bind_eq_some_iff.mp hdoc
      exact h.docs doc (List.mem_of_getElem? hn)

/-- The record with more read. -/
def grown (r : Record τ) (more : List (Doc τ)) (memo : Option (ℕ × ℕ)) (checked : Option ℤ) : Record τ :=
  { r with docs := r.docs ++ more, memo := memo, checked := checked }

omit [LinearOrder τ] in
theorem contents_grown {more : List (Doc τ)} {memo : Option (ℕ × ℕ)} {checked : Option ℤ} {ref : Option ℕ}
    (h : ∀ n, ref = some n → n < r.docs.length) : (r.grown more memo checked).contents ref = r.contents ref := by
  rw [contents, contents]
  cases ref with
  | none => rfl
  | some n =>
      dsimp only [Option.bind_some, grown]
      rw [List.getElem?_append_left (h n rfl)]

omit [LinearOrder τ] in
theorem saved_append {c : Changes τ} {ref : ℕ} (h : Saved docs c ref) (more : List (Doc τ)) : Saved (docs ++ more) c ref := by
  obtain ⟨doc, hdoc, hsame⟩ := h
  have hlt : ref < docs.length := (List.getElem?_eq_some_iff.mp hdoc).1
  exact ⟨doc, by rw [List.getElem?_append_left hlt, hdoc], hsame⟩

omit [LinearOrder τ] in
theorem phase_append {c : Changes τ} {phase : Phase τ} (h : phase.Sound docs c) (more : List (Doc τ)) :
    phase.Sound (docs ++ more) c := by
  cases phase with
  | begun => trivial
  | loaded doc => exact h
  | replaced doc => exact h
  | ended saved => exact fun ref href => saved_append (h ref href) more

theorem Inv.grow (h : r.Inv started) {more : List (Doc τ)} {memo : Option (ℕ × ℕ)} {checked : Option ℤ}
    (hmore : ∀ doc ∈ more, doc.entries.Good) (hmemo : ∀ m, memo = some m → m.2 < (r.docs ++ more).length) :
    (r.grown more memo checked).Inv started where
  docs := fun doc hdoc => (List.mem_append.mp hdoc).elim (h.docs doc) (hmore doc)
  file := h.file
  memo := hmemo
  pending := h.pending
  writing := h.writing
  writers := fun w hw => ⟨(h.writers w hw).1, (h.writers w hw).2.1, phase_append (h.writers w hw).2.2 more⟩
  ids := h.ids
  left := fun p hp ref href => saved_append (h.left p hp ref href) more
  view := by
    intro v hv
    obtain ⟨hdisk, hrep⟩ := h.view v hv
    refine ⟨fun ref href => ?_, ?_⟩
    · have hlt := hdisk ref href
      dsimp only [grown]
      rw [List.length_append]
      omega
    · rw [below, contents_grown hdisk]
      exact hrep

/-- Looking at the file reads at most one more record, and changes nothing else. -/
theorem Inv.diskDoc_grown (h : r.Inv started) (recheckAfter now : ℤ) :
    ∃ more memo checked, (r.diskDoc recheckAfter now).1 = r.grown more memo checked ∧ (∀ doc ∈ more, doc.entries.Good) ∧
      (∀ m, memo = some m → m.2 < (r.docs ++ more).length) ∧
      ∀ ref, (r.diskDoc recheckAfter now).2 = some ref → ref < (r.docs ++ more).length := by
  have hmemo : ∀ ref, r.memo.map (·.2) = some ref → ref < (r.docs ++ []).length := by
    intro ref href
    obtain ⟨m, hm, rfl⟩ := Option.map_eq_some_iff.mp href
    rw [List.append_nil]
    exact h.memo m hm
  have hkeep : ∀ m, r.memo = some m → m.2 < (r.docs ++ []).length := by
    rw [List.append_nil]
    exact h.memo
  have hsame : r = r.grown [] r.memo r.checked := by
    rw [grown, List.append_nil]
  have hstat : ∃ more memo checked, (r.statDoc now).1 = r.grown more memo checked ∧ (∀ doc ∈ more, doc.entries.Good) ∧
      (∀ m, memo = some m → m.2 < (r.docs ++ more).length) ∧
      ∀ ref, (r.statDoc now).2 = some ref → ref < (r.docs ++ more).length := by
    unfold statDoc
    split
    · exact ⟨[], r.memo, r.checked, hsame, (fun _ hd => by cases hd), hkeep, fun _ href => by cases href⟩
    · rename_i f hf
      split
      · refine ⟨[], r.memo, some now, ?_, (fun _ hd => by cases hd), hkeep, hmemo⟩
        rw [grown, List.append_nil]
      · split
        · rename_i doc hdoc
          have hlt : r.docs.length < (r.docs ++ [doc]).length := by
            rw [List.length_append]
            exact Nat.lt_succ_self _
          refine ⟨[doc], some (f.stamp, r.docs.length), some now, rfl, fun d hd => ?_, fun m hm => ?_, fun ref href => ?_⟩
          · rw [List.mem_singleton.mp hd]
            exact h.file f doc hf hdoc
          · cases hm
            exact hlt
          · cases href
            exact hlt
        · exact ⟨[], r.memo, r.checked, hsame, (fun _ hd => by cases hd), hkeep, hmemo⟩
  unfold diskDoc
  split
  · rename_i m checked hm _
    split
    · refine ⟨[], r.memo, r.checked, hsame, (fun _ hd => by cases hd), hkeep, fun ref href => ?_⟩
      cases href
      exact hkeep m hm
    · exact hstat
  · exact hstat

theorem Inv.diskDoc (h : r.Inv started) (recheckAfter now : ℤ) : (r.diskDoc recheckAfter now).1.Inv started := by
  obtain ⟨more, memo, checked, heq, hmore, hmemo, -⟩ := h.diskDoc_grown recheckAfter now
  rw [heq]
  exact h.grow hmore hmemo

omit [LinearOrder τ] in
theorem overlays_eq (r : Record τ) : r.overlays = (r.writing.map (·.2)).toList ++ r.pending.toList := rfl

theorem Inv.overlays_sound (h : r.Inv started) {c : Changes τ} (hc : c ∈ r.overlays) : c.Sound started := by
  rw [overlays_eq, List.mem_append, Option.mem_toList, Option.mem_toList, Option.map_eq_some_iff] at hc
  rcases hc with ⟨p, hp, rfl⟩ | hc
  · exact (h.writing p hp).1
  · exact h.pending c hc

/-- A view built on what is seen of the file stands for what `read` gives. -/
theorem Inv.build (h : r.Inv started) (ref : Option ℕ) :
    (View.build started ref (ref.map fun n => r.contents (some n)) r.overlays).Rep started
      ((r.contents ref).entries.overlay r.overlays) := by
  have hdisk : (ref.map fun n => r.contents (some n)).getD .empty = r.contents ref := by
    cases ref with
    | none => rfl
    | some n => rfl
  rw [← hdisk]
  apply View.Rep.build
  · intro doc hdoc
    obtain ⟨n, -, rfl⟩ := Option.map_eq_some_iff.mp hdoc
    exact h.contents_good (some n)
  · exact fun c hc => (h.overlays_sound hc).late

/-- The record with a view built anew. -/
theorem Inv.rebuilt (h : r.Inv started) {ref : Option ℕ} (hlt : ∀ n, ref = some n → n < r.docs.length) :
    ({ r with view := some (View.build started ref (ref.map fun n => r.contents (some n)) r.overlays), left := [] } :
      Record τ).Inv started where
  docs := h.docs
  file := h.file
  memo := h.memo
  pending := h.pending
  writing := h.writing
  writers := h.writers
  ids := h.ids
  left := fun _ hp => by cases hp
  view := by
    intro v hv
    cases hv
    have hdisk : (View.build started ref (ref.map fun n => r.contents (some n)) r.overlays).disk = ref := by
      rw [View.build_disk]
    rw [hdisk]
    refine ⟨hlt, ?_⟩
    convert h.build ref using 1
    exact (Entries.overlay_append _ _ _).symm

theorem Inv.missFacts (h : r.Inv started) (now : ℤ) (cacheKey : Str) : (r.missFacts started now cacheKey).1.Inv started := by
  have hread := h.diskDoc writeInterval now
  obtain ⟨more, memo, checked, heq, -, -, hlt⟩ := h.diskDoc_grown writeInterval now
  have hlt' : ∀ n, (r.diskDoc writeInterval now).2 = some n → n < (r.diskDoc writeInterval now).1.docs.length := by
    rw [heq]
    exact hlt
  unfold Record.missFacts
  dsimp only
  split
  · split
    · exact hread
    · exact hread.rebuilt hlt'
  · exact hread.rebuilt hlt'

/-! ## Noting -/

theorem Inv.changes_sound (h : r.Inv started) : r.changes.Sound started := by
  rw [changes]
  cases hpending : r.pending with
  | none => exact ⟨List.nodup_nil, fun _ => Nat.zero_le _, fun _ hn => by cases hn⟩
  | some c => exact h.pending c hpending

theorem earlierTime_of_le {value : Value τ} {now : τ} (h : started ≤ now) (hvalue : value.time = some now) :
    earlierTime started value = none := by
  rw [earlierTime, hvalue]
  exact if_neg (not_lt_of_ge h)

/-- The entries of the changes once a key is noted. -/
def noted (r : Record τ) (kind : Kind) (key : Str) (value : Value τ) : Entries τ := fun k =>
  if k = kind then Items.trim (r.changes.entries.put kind key value k) keysMax else r.changes.entries.put kind key value k

omit [LinearOrder τ] in
theorem mem_put {e : Entries τ} {kind k : Kind} {key : Str} {value : Value τ} {p : Str × Value τ} (h : p ∈ e.put kind key value k) :
    p = (key, value) ∨ p ∈ e k := by
  rw [Entries.put] at h
  split at h
  · rw [Items.putLast, List.mem_append, List.mem_singleton] at h
    exact h.symm.imp id fun h => (Items.mem_pop.mp h).1
  · exact .inr (Items.mem_pop.mp h).1

omit [LinearOrder τ] in
theorem mem_notes {c : Changes τ} {n : Kind × Str × Value τ} : n ∈ c.notes ↔ n.2 ∈ c.entries n.1 := by
  obtain ⟨kind, p⟩ := n
  rw [Changes.notes, List.mem_append, List.mem_map, List.mem_map]
  cases kind with
  | keys => simp
  | ramOnly => simp

omit [LinearOrder τ] in
theorem mem_trimmed {r : Record τ} {kind k : Kind} {key : Str} {value : Value τ} {p : Str × Value τ}
    (h : p ∈ r.noted kind key value k) : p ∈ r.changes.entries.put kind key value k := by
  rw [noted] at h
  split at h
  · exact Items.mem_trim h
  · exact h

theorem noted_sound (h : r.changes.Sound started) {kind : Kind} {key : Str} {value : Value τ}
    (htime : earlierTime started value = none) (c : Changes τ) (hc : c.entries = r.noted kind key value) : c.Sound started := by
  have hput := h.good.put kind key value
  obtain ⟨hnodup, hdisjoint⟩ := Entries.good_iff.mp hput
  have hkeys : ∀ k key', key' ∈ Items.keys (r.noted kind key value k) →
      key' ∈ Items.keys (r.changes.entries.put kind key value k) := by
    intro k key' hkey'
    obtain ⟨v, hv⟩ := Items.mem_keys.mp hkey'
    exact Items.mem_keys.mpr ⟨v, mem_trimmed hv⟩
  refine ⟨?_, fun k => ?_, fun n hn => ?_⟩
  · rw [hc]
    refine Entries.good_iff.mpr ⟨fun k => ?_, fun key' hk hk' => hdisjoint key' (hkeys _ _ hk) (hkeys _ _ hk')⟩
    rw [noted]
    split
    · exact Items.nodup_trim (hnodup k)
    · exact hnodup k
  · rw [hc, noted]
    split
    · exact Items.length_trim
    · rename_i hk
      rw [Entries.put, if_neg hk]
      exact (List.length_filter_le _ _).trans (h.short k)
  · rw [mem_notes, hc] at hn
    rcases mem_put (mem_trimmed hn) with heq | hmem
    · rw [heq]
      exact htime
    · exact h.late (n.1, n.2) (mem_notes.mpr hmem)

theorem Inv.note (h : r.Inv started) {kind : Kind} {key : Str} {value : Value τ} {flatLedger : Str → Option Ledger}
    (htime : earlierTime started value = none) : (r.note started kind key value flatLedger).Inv started where
  docs := h.docs
  file := h.file
  memo := h.memo
  pending := by
    intro c hc
    cases hc
    exact noted_sound h.changes_sound htime _ rfl
  writing := h.writing
  writers := h.writers
  ids := h.ids
  left := h.left
  view := by
    intro v hv
    dsimp only [Record.note] at hv
    split at hv
    · cases hv
    · rename_i hlen
      obtain ⟨v', hview, rfl⟩ := Option.map_eq_some_iff.mp hv
      obtain ⟨hdisk, hrep⟩ := h.view v' hview
      refine ⟨fun ref href => hdisk ref (by rw [← View.put_disk]; exact href), ?_⟩
      have hgood : ((r.below v'.disk).overlay r.pending.toList).Good := ((h.contents_good v'.disk).overlay _).overlay _
      have hput := hrep.put hgood kind key value htime
      rw [View.put_disk]
      convert hput using 1
      have hnoted : r.noted kind key value = r.changes.entries.put kind key value := by
        funext k
        rw [noted]
        split
        · rename_i hk
          rw [Items.trim_of_le (by rw [hk]; omega)]
        · rfl
      have hpending : ∀ (e : Entries τ) (c : Changes τ), c.entries = r.noted kind key value →
          e.putAll c.notes = (e.overlay r.pending.toList).put kind key value := by
        intro e c hc
        rw [overlay_put h.changes_sound.good e c (hc.trans hnoted), changes]
        cases r.pending with
        | none => rfl
        | some c => rfl
      exact hpending _ _ rfl

theorem Inv.noteWarningShown (h : r.Inv started) (digest : Str) (time : τ) : (r.noteWarningShown digest time).Inv started where
  docs := h.docs
  file := h.file
  memo := h.memo
  pending := by
    intro c hc
    cases hc
    exact ⟨h.changes_sound.good, h.changes_sound.short, h.changes_sound.late⟩
  writing := h.writing
  writers := h.writers
  ids := h.ids
  left := h.left
  view := by
    intro v hv
    obtain ⟨hdisk, hrep⟩ := h.view v hv
    refine ⟨hdisk, ?_⟩
    convert hrep using 1
    have hpending : ∀ (e : Entries τ) (c : Changes τ), c.entries = r.changes.entries →
        e.putAll c.notes = e.overlay r.pending.toList := by
      intro e c hc
      rw [Changes.notes, hc, changes]
      cases r.pending with
      | none => rfl
      | some c => rfl
    exact hpending _ _ rfl

/-! ## Writing -/

theorem Inv.beginWrite (h : r.Inv started) : r.beginWrite.Inv started := by
  rw [Record.beginWrite]
  cases hpending : r.pending with
  | none => exact h
  | some c =>
      have hnew : ∀ w ∈ r.writers, w.id ≠ r.begun := fun w hw => Nat.ne_of_lt (h.writers w hw).2.1
      exact {
        docs := h.docs
        file := h.file
        memo := h.memo
        pending := fun _ hc => by cases hc
        writing := by
          intro p hp
          cases hp
          refine ⟨h.pending c hpending, fun w hw hid => ?_⟩
          rcases List.mem_append.mp hw with hw | hw
          · exact absurd hid (hnew w hw)
          · rw [List.mem_singleton.mp hw]
        writers := by
          intro w hw
          rcases List.mem_append.mp hw with hw | hw
          · obtain ⟨hsound, hid, hphase⟩ := h.writers w hw
            exact ⟨hsound, Nat.lt_succ_of_lt hid, hphase⟩
          · rw [List.mem_singleton.mp hw]
            exact ⟨h.pending c hpending, Nat.lt_succ_self _, trivial⟩
        ids := by
          intro w hw w' hw' hid
          rcases List.mem_append.mp hw with hw | hw
          · rcases List.mem_append.mp hw' with hw' | hw'
            · exact h.ids w hw w' hw' hid
            · rw [List.mem_singleton.mp hw'] at hid
              exact absurd hid (hnew w hw)
          · rcases List.mem_append.mp hw' with hw' | hw'
            · rw [List.mem_singleton.mp hw] at hid
              exact absurd hid.symm (hnew w' hw')
            · rw [List.mem_singleton.mp hw, List.mem_singleton.mp hw']
        left := by
          intro p hp ref href
          rcases List.mem_append.mp hp with hp | hp
          · exact h.left p hp ref href
          · obtain ⟨q, -, rfl⟩ := Option.map_eq_some_iff.mp (Option.mem_toList.mp hp)
            cases href
        view := by
          intro v hv
          obtain ⟨hdisk, hrep⟩ := h.view v hv
          refine ⟨hdisk, ?_⟩
          convert hrep using 1
          -- what was in the slot has left it, and what was pending is in it
          rw [hpending, below, below, ← Entries.overlay_append, ← Entries.overlay_append]
          dsimp only
          cases r.writing with
          | none => simp [contents]
          | some p => simp [contents] }

theorem Inv.setPhase (h : r.Inv started) {w : Writer τ} (hw : w ∈ r.writers) {phase : Phase τ}
    (hphase : phase.Sound r.docs w.changes) : (r.setPhase w.id phase).Inv started where
  docs := h.docs
  file := h.file
  memo := h.memo
  pending := h.pending
  writing := by
    intro p hp
    obtain ⟨hsound, hsame⟩ := h.writing p hp
    refine ⟨hsound, fun w' hw' hid => ?_⟩
    obtain ⟨w₀, hw₀, rfl⟩ := List.mem_map.mp hw'
    by_cases hphased : w₀.id = w.id
    · rw [if_pos hphased] at hid ⊢
      exact hsame w₀ hw₀ hid
    · rw [if_neg hphased] at hid ⊢
      exact hsame w₀ hw₀ hid
  writers := by
    intro w' hw'
    obtain ⟨w₀, hw₀, rfl⟩ := List.mem_map.mp hw'
    obtain ⟨hsound, hid, hold⟩ := h.writers w₀ hw₀
    split
    · rename_i heq
      obtain rfl := h.ids w₀ hw₀ w hw heq
      exact ⟨hsound, hid, hphase⟩
    · exact ⟨hsound, hid, hold⟩
  ids := by
    intro w₁ hw₁ w₂ hw₂ hid
    obtain ⟨u₁, hu₁, rfl⟩ := List.mem_map.mp hw₁
    obtain ⟨u₂, hu₂, rfl⟩ := List.mem_map.mp hw₂
    have hsame : ∀ u : Writer τ, (if u.id = w.id then { u with phase := phase } else u).id = u.id := fun u => by split <;> rfl
    rw [hsame, hsame] at hid
    rw [h.ids u₁ hu₁ u₂ hu₂ hid]
  left := h.left
  view := h.view

theorem Inv.load (h : r.Inv started) {w : Writer τ} (hw : w ∈ r.writers) (now : ℤ) : (r.load w now).Inv started := by
  rw [Record.load]
  split
  · have hread := h.diskDoc 0 now
    obtain ⟨more, memo, checked, heq, -⟩ := h.diskDoc_grown 0 now
    have hw' : w ∈ (r.diskDoc 0 now).1.writers := by
      rw [heq]
      exact hw
    have hgood : Phase.Sound (r.diskDoc 0 now).1.docs w.changes
        (.loaded ((r.diskDoc 0 now).1.contents (r.diskDoc 0 now).2)) := hread.contents_good _
    exact hread.setPhase hw' hgood
  · exact h

/-- The file may be any record. -/
theorem Inv.withFile (h : r.Inv started) {file : Option (File τ)}
    (hfile : ∀ f doc, file = some f → f.doc = some doc → doc.entries.Good) : ({ r with file := file } : Record τ).Inv started where
  docs := h.docs
  file := hfile
  memo := h.memo
  pending := h.pending
  writing := h.writing
  writers := h.writers
  ids := h.ids
  left := h.left
  view := h.view

theorem Inv.replace (h : r.Inv started) {w : Writer τ} (hw : w ∈ r.writers) (stamp : ℕ) : (r.replace w stamp).Inv started := by
  rw [Record.replace]
  split
  · rename_i doc hphase
    obtain ⟨hsound, -, hdoc⟩ := h.writers w hw
    rw [hphase] at hdoc
    have hgood : (trimmed w.changes doc).entries.Good := trimmed_good doc hdoc
    have hfile : ({ r with file := some ⟨stamp, some (trimmed w.changes doc)⟩ } : Record τ).Inv started := by
      apply h.withFile
      intro f d hf hd
      cases hf
      cases hd
      exact hgood
    have hsaved : Phase.Sound r.docs w.changes (.replaced (trimmed w.changes doc)) :=
      ⟨hgood, funext fun k => overlay_saved hsound.good hsound.short doc k⟩
    exact hfile.setPhase hw hsaved
  · exact h

theorem Inv.rememberWritten (h : r.Inv started) {w : Writer τ} (hw : w ∈ r.writers) (now : ℤ) :
    (r.rememberWritten w now).Inv started := by
  rw [Record.rememberWritten]
  split
  · rename_i doc f hphase _
    obtain ⟨-, -, hdoc⟩ := h.writers w hw
    rw [hphase] at hdoc
    have hlt : r.docs.length < (r.docs ++ [doc]).length := by
      rw [List.length_append]
      exact Nat.lt_succ_self _
    have hgrown : (r.remember f.stamp doc now).1.Inv started := by
      apply h.grow
      · intro d hd
        rw [List.mem_singleton.mp hd]
        exact hdoc.1
      · intro m hm
        cases hm
        exact hlt
    have hsaved : Phase.Sound (r.remember f.stamp doc now).1.docs w.changes (.ended (some (r.remember f.stamp doc now).2)) := by
      intro ref href
      cases href
      refine ⟨doc, ?_, hdoc.2⟩
      dsimp only [remember]
      rw [List.getElem?_append_right (Nat.le_refl _), Nat.sub_self]
      rfl
    exact hgrown.setPhase hw hsaved
  · exact h

theorem Inv.failWrite (h : r.Inv started) {w : Writer τ} (hw : w ∈ r.writers) : (r.failWrite w).Inv started := by
  rw [Record.failWrite]
  split
  · exact h
  · exact h.setPhase hw fun ref href => by cases href

theorem Inv.endWrite (h : r.Inv started) {w : Writer τ} (hw : w ∈ r.writers) : (r.endWrite w).Inv started := by
  rw [Record.endWrite]
  split
  · rename_i saved hphase
    exact {
      docs := h.docs
      file := h.file
      memo := h.memo
      pending := h.pending
      writing := fun _ hp => by cases hp
      writers := fun w' hw' => h.writers w' (List.mem_filter.mp hw').1
      ids := fun w₁ hw₁ w₂ hw₂ => h.ids w₁ (List.mem_filter.mp hw₁).1 w₂ (List.mem_filter.mp hw₂).1
      left := by
        intro p hp ref href
        rcases List.mem_append.mp hp with hp | hp
        · exact h.left p hp ref href
        · obtain ⟨q, hq, rfl⟩ := Option.map_eq_some_iff.mp (Option.mem_toList.mp hp)
          dsimp only at href ⊢
          split at href
          · rename_i hid
            have hsaved := (h.writers w hw).2.2
            rw [hphase] at hsaved
            rw [← (h.writing q hq).2 w hw hid.symm]
            exact hsaved ref href
          · cases href
      view := by
        intro v hv
        obtain ⟨hdisk, hrep⟩ := h.view v hv
        refine ⟨hdisk, ?_⟩
        convert hrep using 1
        rw [below, below]
        dsimp only
        cases r.writing with
        | none => simp [contents]
        | some p => simp [contents] }
  · exact h

theorem Inv.withWriter (h : r.Inv started) {step : Writer τ → Record τ} (hstep : ∀ w ∈ r.writers, (step w).Inv started) (id : ℕ) :
    (r.withWriter id step).Inv started := by
  rw [Record.withWriter]
  split
  · rename_i w hfind
    exact hstep w (List.mem_of_find?_eq_some hfind)
  · exact h

/-! ## The run -/

theorem Inv.after (h : r.Inv started) (event : Event τ) (hevent : event.Proper started) : (r.after started event).Inv started := by
  cases event with
  | note kind key now rest flatLedger => exact h.note (earlierTime_of_le hevent rfl)
  | noteWarningShown digest time => exact h.noteWarningShown digest time
  | look recheckAfter now => exact h.diskDoc recheckAfter now
  | missFacts now cacheKey => exact h.missFacts now cacheKey
  | beginWrite => exact h.beginWrite
  | load id now => exact h.withWriter (fun w hw => h.load hw now) id
  | replace id stamp => exact h.withWriter (fun w hw => h.replace hw stamp) id
  | rememberWritten id now => exact h.withWriter (fun w hw => h.rememberWritten hw now) id
  | failWrite id => exact h.withWriter (fun w hw => h.failWrite hw) id
  | endWrite id => exact h.withWriter (fun w hw => h.endWrite hw) id
  | rewrite file => exact h.withFile hevent
  | evict =>
      exact {
        docs := h.docs
        file := h.file
        memo := fun _ hm => by cases hm
        pending := h.pending
        writing := h.writing
        writers := h.writers
        ids := h.ids
        left := h.left
        view := h.view }
  | fork =>
      exact {
        docs := h.docs
        file := h.file
        memo := h.memo
        pending := h.pending
        writing := fun _ hp => by cases hp
        writers := fun _ hw => by cases hw
        ids := fun _ hw => by cases hw
        left := h.left
        view := fun _ hv => by cases hv }

theorem inv_run {events : List (Event τ)} (h : ∀ event ∈ events, event.Proper started) : (run started events).Inv started := by
  have hall : ∀ r : Record τ, r.Inv started → (events.foldl (Record.after started) r).Inv started := by
    induction events with
    | nil => exact fun r hr => hr
    | cons event events ih =>
        exact fun r hr => ih (fun e he => h e (List.mem_cons_of_mem _ he)) _ (hr.after event (h event List.mem_cons_self))
  exact hall start inv_start

end Record

end Cash.StoredKeys
