import Cash.Opens.Buffer
import Mathlib.Data.List.Nodup

/-!
# What a window collects, and that recording ends

Whatever other windows open and close meanwhile, a window collects what was recorded while it was open, and nothing else, or
says that something was lost; and it says so only when there was no room for it (`window_collects`). While the index is given
its memory whenever the events are, every step ends, and what is recorded is left out exactly when every open window has it
already (`record_ends`).
-/

namespace Cash.Opens

open Machine

variable {b b' : Buffer} {op : Op} {ops : List Op} {start : Nat} {kind : Kind} {path : Path} {memory : Memory}
  {all : List (Kind × Path)} {lost : Bool}

/-- What the windows and the numbers keep. -/
structure Numbered (b : Buffer) : Prop where
  armed : b.armed = true ↔ b.windows ≠ []
  newest : ∀ w ∈ b.windows, w ≤ b.newestStart
  windows : ∀ w ∈ b.windows, w ≤ b.nextSeq
  events : ∀ e ∈ b.events, e.seq < b.nextSeq
  order : b.events.Pairwise fun e e' => e.seq < e'.seq
  lost : b.lastLostSeq < b.nextSeq

theorem numbered_initial : Numbered .initial where
  armed := by simp [Buffer.initial]
  newest _ h := by cases h
  windows _ h := by cases h
  events _ h := by cases h
  order := .nil
  lost := Nat.one_pos

/-! ## What a step does, less the index -/

theorem indexRebuild_eq (h : b.indexRebuild = some b') : ∃ index, b' = { b with index := index } := by
  rw [Buffer.indexRebuild] at h
  split at h
  · cases h
    exact ⟨b.index, rfl⟩
  · obtain ⟨t, -, rfl⟩ := Option.map_eq_some_iff.1 h
    exact ⟨some t, rfl⟩

theorem append_eq {hash : UInt32} (h : b.append hash kind path = some b') : ∃ index, b' =
    { b with events := b.events ++ [⟨b.nextSeq, kind, hash, path⟩], nextSeq := b.nextSeq + 1, index := index } := by
  obtain ⟨t, -, h⟩ := Option.bind_eq_some_iff.1 h
  obtain ⟨t', -, rfl⟩ := Option.map_eq_some_iff.1 h
  exact ⟨some t', rfl⟩

/-- There is no room for what is recorded. -/
def Buffer.drops (b : Buffer) (kind : Kind) (path : Path) (memory : Memory) : Bool :=
  b.armed && b.seen (pathHash path kind) kind path = some false &&
    (maxEvents ≤ b.events.length || b.events.length = b.capEvents && !(memory.events && memory.index))

/-- What recording does. -/
inductive Recorded (b : Buffer) (kind : Kind) (path : Path) : Bool → Buffer → Prop
  | unarmed : b.armed = false → Recorded b kind path false b
  | seen {e : Event} : b.armed = true → e ∈ b.events → e.kind = kind → e.path = path → b.newestStart ≤ e.seq →
      Recorded b kind path false b
  | lost {cap : Nat} : b.armed = true → Recorded b kind path true { b.lose with capEvents := cap }
  | added {cap : Nat} {index : Option (Probe.Table Nat)} : b.armed = true → Recorded b kind path false { b with
      events := b.events ++ [⟨b.nextSeq, kind, pathHash path kind, path⟩], nextSeq := b.nextSeq + 1, index := index,
      capEvents := cap }

theorem seek_stops {ι : Type} {t : Probe.Table ι} {stop : ι → Bool} {fuel j k : Nat} {stopped : Bool}
    (h : Probe.seek t stop fuel j = some (k, stopped)) :
    t.slot k = none ∧ stopped = false ∨ ∃ i, t.slot k = some i ∧ stop i = true ∧ stopped = true := by
  induction fuel generalizing j with
  | zero => cases h
  | succ fuel ih =>
      rw [Probe.seek] at h
      split at h
      · cases h
        exact .inl ⟨‹_›, rfl⟩
      · split at h
        · cases h
          exact .inr ⟨_, ‹_›, ‹_›, rfl⟩
        · exact ih h

theorem event_of_seen {hash : UInt32} (h : b.seen hash kind path = some true) :
    ∃ e ∈ b.events, e.kind = kind ∧ e.path = path ∧ b.newestStart ≤ e.seq := by
  rw [Buffer.seen] at h
  split at h
  · cases h
  · obtain ⟨⟨k, stopped⟩, hseek, rfl⟩ := Option.map_eq_some_iff.1 h
    rcases seek_stops hseek with ⟨-, hfalse⟩ | ⟨i, -, hsame, -⟩
    · cases hfalse
    · rw [Buffer.same, Option.any_eq_true] at hsame
      obtain ⟨e, he, hsame⟩ := hsame
      simp only [Bool.and_eq_true, decide_eq_true_eq] at hsame
      exact ⟨e, List.mem_of_getElem? he, hsame.1.1.2, hsame.2, hsame.1.2⟩

theorem record_eq (h : b.record kind path memory = some b') : Recorded b kind path (b.drops kind path memory) b' := by
  rw [Buffer.record] at h
  by_cases harmed : b.armed = true
  · rw [if_neg (by simp [harmed])] at h
    obtain ⟨seen, hseen, h⟩ := Option.bind_eq_some_iff.1 h
    cases seen with
    | true =>
        cases h
        obtain ⟨e, he, hkind, hpath, hnew⟩ := event_of_seen hseen
        have hdrops : b.drops kind path memory = false := by simp [Buffer.drops, hseen]
        rw [hdrops]
        exact .seen harmed he hkind hpath hnew
    | false =>
        have hdrops : b.drops kind path memory = (decide (maxEvents ≤ b.events.length) ||
            decide (b.events.length = b.capEvents) && !(memory.events && memory.index)) := by
          simp [Buffer.drops, harmed, hseen]
        rw [hdrops]
        rw [if_neg Bool.false_ne_true] at h
        split at h
        · rename_i hfull
          cases h
          rw [decide_eq_true hfull]
          exact .lost harmed
        · rename_i hfull
          rw [decide_eq_false hfull]
          split at h
          · rename_i hcap
            rw [decide_eq_true hcap]
            cases hevents : memory.events with
            | false =>
                rw [hevents] at h
                cases h
                exact .lost harmed
            | true =>
                rw [hevents] at h
                cases hindex : memory.index with
                | false =>
                    rw [hindex] at h
                    cases h
                    exact .lost harmed
                | true =>
                    rw [hindex] at h
                    obtain ⟨b₁, hrebuild, h⟩ := Option.bind_eq_some_iff.1 h
                    obtain ⟨index₁, rfl⟩ := indexRebuild_eq hrebuild
                    obtain ⟨index₂, rfl⟩ := append_eq h
                    exact .added harmed
          · rename_i hcap
            rw [decide_eq_false hcap]
            obtain ⟨index, rfl⟩ := append_eq h
            exact .added harmed
  · rw [if_pos (by simpa using harmed)] at h
    cases h
    have hdrops : b.drops kind path memory = false := by simp [Buffer.drops, harmed]
    rw [hdrops]
    exact .unarmed (Bool.eq_false_iff.2 harmed)

/-- What closing a window leaves, less the index. -/
def Buffer.without (b : Buffer) (start : Nat) : Buffer := { b with
  windows := b.windows.erase start
  newestStart := (b.windows.erase start).foldl max 0
  events := b.events.dropWhile fun e => e.seq < (b.windows.erase start).foldl min (2 ^ 64 - 1)
  armed := b.armed && !(b.windows.erase start).isEmpty }

theorem closeWindow_eq (h : b.closeWindow start = some b') : ∃ index, b' = { b.without start with index := index } := by
  rw [Buffer.closeWindow] at h
  dsimp only at h
  split at h
  · exact indexRebuild_eq h
  · cases h
    exact ⟨b.index, rfl⟩

theorem reset_eq (h : b.reset = some b') :
    ∃ index, b' = { b with windows := [], newestStart := 0, armed := false, events := [], index := index } := indexRebuild_eq h

/-! ## The numbers -/

theorem le_foldl_max {ws : List Nat} {n w : Nat} (hw : w ∈ ws ∨ w ≤ n) : w ≤ ws.foldl max n := by
  induction ws generalizing n with
  | nil =>
      rcases hw with hw | hw
      · cases hw
      · exact hw
  | cons v ws ih =>
      refine ih ?_
      rcases hw with hw | hw
      · rcases List.mem_cons.1 hw with rfl | hw
        · exact .inr (Nat.le_max_right _ _)
        · exact .inl hw
      · exact .inr (Nat.le_trans hw (Nat.le_max_left _ _))

theorem foldl_min_le {ws : List Nat} {n w : Nat} (hw : w ∈ ws ∨ n ≤ w) : ws.foldl min n ≤ w := by
  induction ws generalizing n with
  | nil =>
      rcases hw with hw | hw
      · cases hw
      · exact hw
  | cons v ws ih =>
      refine ih ?_
      rcases hw with hw | hw
      · rcases List.mem_cons.1 hw with rfl | hw
        · exact .inr (Nat.min_le_right _ _)
        · exact .inl hw
      · exact .inr (Nat.le_trans (Nat.min_le_left _ _) hw)

theorem Numbered.record (h : Numbered b) {lost : Bool} (hrecorded : Recorded b kind path lost b') : Numbered b' := by
  cases hrecorded with
  | unarmed _ => exact h
  | seen _ _ _ _ _ => exact h
  | lost _ =>
      exact ⟨h.armed, h.newest, fun w hw => Nat.le_succ_of_le (h.windows w hw), fun e he => Nat.lt_succ_of_lt (h.events e he),
        h.order, Nat.lt_succ_self _⟩
  | added _ =>
      refine ⟨h.armed, h.newest, fun w hw => Nat.le_succ_of_le (h.windows w hw), fun e he => ?_, ?_, Nat.lt_succ_of_lt h.lost⟩
      · rcases List.mem_append.1 he with he | he
        · exact Nat.lt_succ_of_lt (h.events e he)
        · rw [List.mem_singleton.1 he]
          exact Nat.lt_succ_self _
      · refine List.pairwise_append.2 ⟨h.order, List.pairwise_singleton _ _, fun e he e' he' => ?_⟩
        rw [List.mem_singleton.1 he']
        exact h.events e he

theorem Numbered.step (h : Numbered b) (hstep : step b op = some b') : Numbered b' := by
  cases op with
  | record kind path memory => exact h.record (record_eq hstep)
  | openWindow memory =>
      cases hstep
      cases memory with
      | false => exact h
      | true =>
          refine ⟨by simp [Buffer.openWindow], fun w hw => ?_, fun w hw => ?_, h.events, h.order, h.lost⟩
          · rcases List.mem_append.1 hw with hw | hw
            · exact h.windows w hw
            · exact Nat.le_of_eq (List.mem_singleton.1 hw)
          · rcases List.mem_append.1 hw with hw | hw
            · exact h.windows w hw
            · exact Nat.le_of_eq (List.mem_singleton.1 hw)
  | closeWindow start =>
      obtain ⟨index, rfl⟩ := closeWindow_eq hstep
      refine ⟨?_, fun w hw => le_foldl_max (.inl hw), fun w hw => ?_, fun e he => ?_, ?_, h.lost⟩
      · have harmed (hleft : b.windows.erase start ≠ []) : b.armed = true :=
          h.armed.2 fun hnone => hleft (by rw [hnone, List.erase_nil])
        simpa [Buffer.without] using harmed
      · exact h.windows w (List.mem_of_mem_erase hw)
      · exact h.events e ((List.dropWhile_sublist _).subset he)
      · exact h.order.sublist (List.dropWhile_sublist _)
  | reset =>
      obtain ⟨index, rfl⟩ := reset_eq hstep
      exact ⟨by simp, fun w hw => (by cases hw), fun w hw => (by cases hw), fun e he => (by cases he), .nil, h.lost⟩

/-! ## What a window collects -/

/-- The window is open all along. -/
def StaysOpen (start : Nat) : Buffer → List Op → Bool
  | b, [] => start ∈ b.windows
  | b, op :: ops => start ∈ b.windows && (step b op).all fun b' => StaysOpen start b' ops

/-- What is recorded, whether or not there is room. -/
def recorded : List Op → List (Kind × Path)
  | [] => []
  | .record kind path _ :: ops => (kind, path) :: recorded ops
  | _ :: ops => recorded ops

/-- A step has no room for what it records. -/
def Buffer.dropsOp (b : Buffer) : Op → Bool
  | .record kind path memory => b.drops kind path memory
  | _ => false

/-- The events from a window's first on. -/
theorem mem_dropWhile_seq {events : List Event} (horder : events.Pairwise fun e e' => e.seq < e'.seq) {e : Event} :
    e ∈ events.dropWhile (fun e => e.seq < start) ↔ e ∈ events ∧ start ≤ e.seq := by
  induction events with
  | nil => simp
  | cons first rest ih =>
      obtain ⟨hfirst, hrest⟩ := List.pairwise_cons.1 horder
      rw [List.dropWhile_cons]
      split
      · rename_i hlt
        rw [ih hrest, List.mem_cons]
        have hlt' : first.seq < start := by simpa using hlt
        refine ⟨fun ⟨hmem, hle⟩ => ⟨.inr hmem, hle⟩, fun ⟨hmem, hle⟩ => ⟨?_, hle⟩⟩
        rcases hmem with rfl | hmem
        · omega
        · exact hmem
      · rename_i hlt
        have hle : start ≤ first.seq := by simpa using hlt
        refine ⟨fun hmem => ⟨hmem, ?_⟩, fun ⟨hmem, _⟩ => hmem⟩
        rcases List.mem_cons.1 hmem with rfl | hmem
        · exact hle
        · exact Nat.le_of_lt (Nat.lt_of_le_of_lt hle (hfirst e hmem))

/-- What an open window has of what was recorded. -/
structure Collects (start : Nat) (b : Buffer) (all : List (Kind × Path)) (lost : Bool) : Prop where
  has : ∀ kind path, (kind, path) ∈ all → (∃ e ∈ b.events, start ≤ e.seq ∧ e.kind = kind ∧ e.path = path) ∨ start ≤ b.lastLostSeq
  only : ∀ e ∈ b.events, start ≤ e.seq → (e.kind, e.path) ∈ all
  lost_iff : start ≤ b.lastLostSeq ↔ lost = true

theorem Collects.record (h : Collects start b all lost) (hn : Numbered b) (hopen : start ∈ b.windows) {drops : Bool}
    (hrecorded : Recorded b kind path drops b') : Collects start b' (all ++ [(kind, path)]) (lost || drops) := by
  have harmed : b.armed = true := hn.armed.2 (List.ne_nil_of_mem hopen)
  cases hrecorded with
  | unarmed hnot =>
      rw [harmed] at hnot
      cases hnot
  | @seen e _ he hkind hpath hnew =>
      refine ⟨fun kind' path' hmem => ?_, fun e' he' hle => List.mem_append_left _ (h.only e' he' hle), by simpa using h.lost_iff⟩
      rcases List.mem_append.1 hmem with hmem | hmem
      · exact h.has kind' path' hmem
      · cases List.mem_singleton.1 hmem
        exact .inl ⟨e, he, Nat.le_trans (hn.newest start hopen) hnew, hkind, hpath⟩
  | lost _ =>
      have hle : start ≤ b.nextSeq := hn.windows start hopen
      refine ⟨fun _ _ _ => .inr hle, fun e' he' hle' => List.mem_append_left _ (h.only e' he' hle'), ?_⟩
      rw [Bool.or_true]
      exact ⟨fun _ => rfl, fun _ => hle⟩
  | added _ =>
      refine ⟨fun kind' path' hmem => ?_, fun e' he' hle => ?_, by simpa using h.lost_iff⟩
      · rcases List.mem_append.1 hmem with hmem | hmem
        · rcases h.has kind' path' hmem with ⟨e', he', hhas⟩ | hlost
          · exact .inl ⟨e', List.mem_append_left _ he', hhas⟩
          · exact .inr hlost
        · cases List.mem_singleton.1 hmem
          exact .inl ⟨_, List.mem_append_right _ (List.mem_singleton_self _), hn.windows start hopen, rfl, rfl⟩
      · rcases List.mem_append.1 he' with he' | he'
        · exact List.mem_append_left _ (h.only e' he' hle)
        · rw [List.mem_singleton.1 he']
          exact List.mem_append_right _ (List.mem_singleton_self _)

theorem Collects.next (h : Collects start b all lost) (hn : Numbered b) (hopen : start ∈ b.windows)
    (hstep : step b op = some b') (hopen' : start ∈ b'.windows) :
    Collects start b' (all ++ recorded [op]) (lost || b.dropsOp op) := by
  cases op with
  | record kind path memory => exact h.record hn hopen (record_eq hstep)
  | openWindow memory =>
      cases hstep
      change Collects start _ (all ++ []) (lost || false)
      rw [List.append_nil, Bool.or_false]
      cases memory with
      | false => exact h
      | true => exact ⟨h.has, h.only, h.lost_iff⟩
  | closeWindow start' =>
      obtain ⟨index, rfl⟩ := closeWindow_eq hstep
      change Collects start _ (all ++ []) (lost || false)
      rw [List.append_nil, Bool.or_false]
      -- What an open window needs is kept: it begins at the oldest that is open or after.
      have hkept (e : Event) (he : e ∈ b.events) (hle : start ≤ e.seq) : e ∈ (b.without start').events :=
        (mem_dropWhile_seq hn.order).2 ⟨he, Nat.le_trans (foldl_min_le (.inl hopen')) hle⟩
      refine ⟨fun kind path hmem => ?_, fun e he => h.only e ((List.dropWhile_sublist _).subset he), h.lost_iff⟩
      rcases h.has kind path hmem with ⟨e, he, hle, hhas⟩ | hlost
      · exact .inl ⟨e, hkept e he hle, hle, hhas⟩
      · exact .inr hlost
  | reset =>
      obtain ⟨index, rfl⟩ := reset_eq hstep
      cases hopen'

theorem staysOpen_head (h : StaysOpen start b ops = true) : start ∈ b.windows := by
  cases ops with
  | nil => exact of_decide_eq_true h
  | cons op ops => exact of_decide_eq_true (Bool.and_eq_true_iff.1 h).1

theorem staysOpen_tail (h : StaysOpen start b (op :: ops) = true) (hstep : step b op = some b') :
    StaysOpen start b' ops = true := by
  have hrest := (Bool.and_eq_true_iff.1 h).2
  rwa [hstep] at hrest

theorem recorded_cons (op : Op) (ops : List Op) : recorded (op :: ops) = recorded [op] ++ recorded ops := by
  cases op <;> rfl

theorem Collects.rest (h : Collects start b all lost) (hn : Numbered b) (hstays : StaysOpen start b ops = true)
    (hrun : run step b ops = some b') :
    Collects start b' (all ++ recorded ops) (lost || decide (0 < times step (fun b op _ => b.dropsOp op) b ops)) := by
  induction ops generalizing b all lost with
  | nil =>
      cases hrun
      simpa [recorded, times, total] using h
  | cons op ops ih =>
      obtain ⟨b₁, hstep, hrun⟩ := run_cons.1 hrun
      have hlater := staysOpen_tail hstays hstep
      have hrest := ih (h.next hn (staysOpen_head hstays) hstep (staysOpen_head hlater)) (hn.step hstep) hlater hrun
      have htimes : (lost || decide (0 < times step (fun b op _ => b.dropsOp op) b (op :: ops))) =
          (lost || b.dropsOp op || decide (0 < times step (fun b op _ => b.dropsOp op) b₁ ops)) := by
        rw [times_cons hstep]
        cases b.dropsOp op with
        | true => rw [Bool.or_true, Bool.true_or, Bool.toNat_true, decide_eq_true (by omega), Bool.or_true]
        | false => rw [Bool.or_false, Bool.toNat_false, Nat.zero_add]
      rw [htimes, recorded_cons, ← List.append_assoc]
      exact hrest

/-- What a window collects when it closes is what was recorded since it opened, whatever else was opened and closed meanwhile,
unless it says that something was lost; and it says so only if there was once no room. -/
theorem window_collects {before during : List Op} {b₀ b₁ : Buffer} (hbefore : run step .initial before = some b₀)
    (hduring : run step (b₀.openWindow true) during = some b₁)
    (hstays : StaysOpen b₀.nextSeq (b₀.openWindow true) during = true) :
    (∀ x ∈ recorded during, x ∈ (b₁.collected b₀.nextSeq).1 ∨ (b₁.collected b₀.nextSeq).2 = true) ∧
    (∀ x ∈ (b₁.collected b₀.nextSeq).1, x ∈ recorded during) ∧
    ((b₁.collected b₀.nextSeq).2 = true ↔ 0 < times step (fun b op _ => b.dropsOp op) (b₀.openWindow true) during) := by
  have hn₀ : Numbered b₀ := run_keeps (fun _ _ _ h hstep => h.step hstep) numbered_initial hbefore
  have hopen : step b₀ (.openWindow true) = some (b₀.openWindow true) := rfl
  have hn : Numbered (b₀.openWindow true) := hn₀.step hopen
  have hstart : Collects b₀.nextSeq (b₀.openWindow true) [] false := by
    refine ⟨fun _ _ hmem => (by cases hmem), fun e he hle => ?_, ?_⟩
    · exact absurd (hn₀.events e he) (Nat.not_lt.2 hle)
    · exact iff_of_false (Nat.not_le.2 hn₀.lost) Bool.false_ne_true
  have hends := hstart.rest hn hstays hduring
  have hn₁ : Numbered b₁ := run_keeps (fun _ _ _ h hstep => h.step hstep) hn hduring
  rw [List.nil_append, Bool.false_or] at hends
  have hmem (x : Kind × Path) : x ∈ (b₁.collected b₀.nextSeq).1 ↔ ∃ e ∈ b₁.events, b₀.nextSeq ≤ e.seq ∧ (e.kind, e.path) = x := by
    rw [Buffer.collected, List.mem_map]
    refine exists_congr fun e => ?_
    rw [mem_dropWhile_seq hn₁.order, and_assoc]
  refine ⟨fun x hx => ?_, fun x hx => ?_, ?_⟩
  · rcases hends.has x.1 x.2 hx with ⟨e, he, hle, hkind, hpath⟩ | hlost
    · exact .inl ((hmem x).2 ⟨e, he, hle, Prod.ext hkind hpath⟩)
    · exact .inr (decide_eq_true hlost)
  · obtain ⟨e, he, hle, rfl⟩ := (hmem x).1 hx
    exact hends.only e he hle
  · rw [Buffer.collected, decide_eq_true_eq, hends.lost_iff, decide_eq_true_eq]

/-- A window opened after another, that closes first. -/
theorem window_collects_nested : ∃ b₀ b₁,
    run step .initial [.openWindow true, .record .read [47] ⟨true, true⟩] = some b₀ ∧
    run step (b₀.openWindow true) [.record .read [47] ⟨true, true⟩, .closeWindow 1, .record .absent [48] ⟨true, true⟩] = some b₁ ∧
    ((.read, [47]) ∈ (b₁.collected b₀.nextSeq).1 ∨ (b₁.collected b₀.nextSeq).2 = true) :=
  ⟨Option.get _ (by decide +kernel : (run step .initial [.openWindow true, .record .read [47] ⟨true, true⟩]).isSome = true),
    Option.get _ (by decide +kernel), (Option.some_get _).symm, (Option.some_get _).symm,
    (window_collects (Option.some_get _).symm (Option.some_get _).symm (by decide +kernel)).1 _ (List.mem_cons_self ..)⟩

/-! ## The index -/

/-- Where the search for an event begins. -/
def home (events : List Event) (i : Nat) : Nat := events[i]?.elim 0 fun e => e.hash.toNat

/-- What the index and the array keep. -/
structure Indexed (b : Buffer) : Prop where
  room : b.events.length ≤ b.capEvents
  hashes : ∀ e ∈ b.events, e.hash = pathHash e.path e.kind
  index : b.capEvents = 0 ∧ b.index = none ∨ ∃ k ≤ 16, b.capEvents = 2 ^ k ∧ ∃ t, b.index = some t ∧
    t.cap = b.capEvents * 2 ∧ Probe.Holds t (home b.events) (· < b.events.length)

theorem indexed_initial : Indexed .initial where
  room := Nat.le_refl 0
  hashes _ h := by cases h
  index := .inl ⟨rfl, rfl⟩

theorem home_append {events rest : List Event} {i : Nat} (hi : i < events.length) : home (events ++ rest) i = home events i := by
  rw [home, List.getElem?_append_left hi, home]

theorem exists_empty {t : Probe.Table Nat} {home : Nat → Nat} {n : Nat} (h : Probe.Holds t home (· < n)) (hroom : n < t.cap) :
    ∃ j < t.cap, t.slot j = none :=
  h.exists_empty (fun _ hi => Finset.mem_range.2 hi) (by rwa [Finset.card_range])

theorem indexEvent_eq {t : Probe.Table Nat} {events : List Event} {e : Event}
    (h : Probe.Holds t (home events) (· < events.length)) (hroom : events.length < t.cap) :
    ∃ t', indexEvent t e.hash events.length = some t' ∧ t'.cap = t.cap ∧
      Probe.Holds t' (home (events ++ [e])) (· < (events ++ [e]).length) := by
  have hhome : home (events ++ [e]) events.length = e.hash.toNat := by simp [home]
  have hnew : Probe.Holds t (home (events ++ [e])) (· < events.length) :=
    h.congr (fun _ => .rfl) fun i hi => home_append hi
  rcases h.ends (exists_empty h hroom) (fun _ => false) e.hash.toNat with ⟨_, _, _, _, hstop⟩ | ⟨n, hseek, hat, hpath⟩
  · cases hstop
  · rw [indexEvent, hseek]
    refine ⟨_, rfl, rfl, ?_⟩
    rw [← hhome] at hat hpath ⊢
    refine (hnew.set (Nat.lt_irrefl _) hat hpath).congr (fun i => ?_) fun _ _ => rfl
    rw [List.length_append, List.length_singleton]
    exact Nat.lt_succ_iff_lt_or_eq

theorem indexEvents_eq {t : Probe.Table Nat} {events rest : List Event}
    (h : Probe.Holds t (home events) (· < events.length)) (hroom : (events ++ rest).length ≤ t.cap) :
    ∃ t', indexEvents t events.length rest = some t' ∧ t'.cap = t.cap ∧
      Probe.Holds t' (home (events ++ rest)) (· < (events ++ rest).length) := by
  induction rest generalizing t events with
  | nil =>
      rw [List.append_nil]
      exact ⟨t, rfl, rfl, h⟩
  | cons e rest ih =>
      have hlt : events.length < t.cap := by
        rw [List.length_append, List.length_cons] at hroom
        omega
      obtain ⟨t₁, ht₁, hcap₁, h₁⟩ := indexEvent_eq (e := e) h hlt
      rw [List.append_cons] at hroom ⊢
      obtain ⟨t₂, ht₂, hcap₂, h₂⟩ := ih h₁ (by rwa [hcap₁])
      refine ⟨t₂, ?_, by rw [hcap₂, hcap₁], h₂⟩
      rw [indexEvents, ht₁, Option.bind_some, ← ht₂, List.length_append, List.length_singleton]

/-- The index is built again for the events. -/
theorem indexRebuild_indexed {k : Nat} {t : Probe.Table Nat} (hroom : b.events.length ≤ b.capEvents)
    (hhashes : ∀ e ∈ b.events, e.hash = pathHash e.path e.kind) (hk : k ≤ 16) (hcap : b.capEvents = 2 ^ k)
    (hindex : b.index = some t) (ht : t.cap = b.capEvents * 2) : ∃ b', b.indexRebuild = some b' ∧ Indexed b' := by
  have hpower : t.cap = 2 ^ (k + 1) := by rw [ht, hcap, Nat.pow_succ]
  have hnone : Probe.Holds (.empty t.cap) (home []) fun _ => False := Probe.holds_empty ⟨k + 1, hpower⟩
  have hempty : Probe.Holds (.empty t.cap) (home []) (· < ([] : List Event).length) :=
    hnone.congr (fun i => iff_of_false (Nat.not_lt_zero i) id) fun _ _ => rfl
  have hfits : ([] ++ b.events).length ≤ t.cap := by
    rw [List.nil_append, ht]
    exact Nat.le_trans hroom (Nat.le_mul_of_pos_right _ Nat.two_pos)
  obtain ⟨t', ht', hcap', h'⟩ := indexEvents_eq hempty hfits
  rw [Buffer.indexRebuild, hindex]
  dsimp only
  rw [show indexEvents (.empty t.cap) 0 b.events = some t' from ht']
  exact ⟨_, rfl, hroom, hhashes, .inr ⟨k, hk, hcap, t', rfl, hcap'.trans ht, h'⟩⟩

theorem Indexed.rebuild (h : Indexed b) {events : List Event} {windows : List Nat} {newestStart : Nat} {armed : Bool}
    (hsub : events.Sublist b.events) :
    ∃ b', Buffer.indexRebuild { b with events, windows, newestStart, armed } = some b' ∧ Indexed b' := by
  have hroom : events.length ≤ b.capEvents := Nat.le_trans hsub.length_le h.room
  have hhashes (e : Event) (he : e ∈ events) := h.hashes e (hsub.subset he)
  rcases h.index with ⟨hcap, hindex⟩ | ⟨k, hk, hcap, t, hindex, ht, -⟩
  · rw [Buffer.indexRebuild]
    dsimp only
    rw [hindex]
    exact ⟨_, rfl, hroom, hhashes, .inl ⟨hcap, rfl⟩⟩
  · exact indexRebuild_indexed hroom hhashes hk hcap hindex ht

/-- The events are given twice the room, and the index four times the places. -/
theorem Indexed.grow (h : Indexed b) (hfull : b.events.length = b.capEvents) (hmax : b.events.length < maxEvents) :
    let cap := min (if b.capEvents = 0 then 256 else b.capEvents * 2) maxEvents
    ∃ b', Buffer.indexRebuild { b with capEvents := cap, index := some (.empty (cap * 2)) } = some b' ∧ Indexed b' ∧
      b'.events.length < b'.capEvents := by
  intro cap
  obtain ⟨k, hk, hcap, hlt⟩ : ∃ k ≤ 16, cap = 2 ^ k ∧ b.events.length < 2 ^ k := by
    rcases h.index with ⟨hnone, -⟩ | ⟨k, hk, hpower, -⟩
    · refine ⟨8, by decide, ?_, by omega⟩
      simp only [cap, hnone, maxEvents]
      rfl
    · have hless : k < 16 := (Nat.pow_lt_pow_iff_right (by decide)).1 (hpower ▸ hfull ▸ hmax)
      have hle : 2 ^ (k + 1) ≤ maxEvents := Nat.pow_le_pow_right Nat.two_pos hless
      have hpos := Nat.two_pow_pos k
      refine ⟨k + 1, hless, ?_, by rw [hfull, hpower, Nat.pow_succ]; omega⟩
      simp only [cap]
      rw [if_neg (by omega), hpower, ← Nat.pow_succ, Nat.min_eq_left hle]
  obtain ⟨b', hb', h'⟩ := indexRebuild_indexed (b := { b with capEvents := cap, index := some (.empty (cap * 2)) })
    (Nat.le_of_lt (hcap ▸ hlt)) h.hashes hk hcap rfl rfl
  obtain ⟨index, rfl⟩ := indexRebuild_eq hb'
  exact ⟨_, hb', h', hcap ▸ hlt⟩

theorem Indexed.append (h : Indexed b) (hroom : b.events.length < b.capEvents) (kind : Kind) (path : Path) :
    ∃ b', b.append (pathHash path kind) kind path = some b' ∧ Indexed b' := by
  rcases h.index with ⟨hcap, -⟩ | ⟨k, hk, hcap, t, hindex, ht, hholds⟩
  · rw [hcap] at hroom
    cases hroom
  · obtain ⟨t', ht', hcap', h'⟩ := indexEvent_eq (e := ⟨b.nextSeq, kind, pathHash path kind, path⟩) hholds (by omega)
    rw [Buffer.append, hindex, Option.bind_some, ht', Option.map_some]
    refine ⟨_, rfl, ?_, fun e he => ?_, .inr ⟨k, hk, hcap, t', rfl, hcap'.trans ht, h'⟩⟩
    · rw [List.length_append, List.length_singleton]
      exact hroom
    · rcases List.mem_append.1 he with he | he
      · exact h.hashes e he
      · rw [List.mem_singleton.1 he]

/-- Looking for an event ends, and finds it if every open window has it. -/
theorem Indexed.seen (h : Indexed b) (kind : Kind) (path : Path) : ∃ seen, b.seen (pathHash path kind) kind path = some seen ∧
    (seen = true ↔ ∃ e ∈ b.events, e.kind = kind ∧ e.path = path ∧ b.newestStart ≤ e.seq) := by
  rcases h.index with ⟨hcap, hindex⟩ | ⟨k, -, hcap, t, hindex, ht, hholds⟩
  · have hnone : b.events = [] := List.length_eq_zero_iff.1 (Nat.le_zero.1 (hcap ▸ h.room))
    rw [Buffer.seen, hindex]
    exact ⟨false, rfl, by simp [hnone]⟩
  · have hroom : b.events.length < t.cap := by
      have := h.room
      have := Nat.two_pow_pos k
      omega
    by_cases hthere : ∃ e ∈ b.events, e.kind = kind ∧ e.path = path ∧ b.newestStart ≤ e.seq
    · obtain ⟨e, he, rfl, rfl, hnew⟩ := hthere
      obtain ⟨i, hi, rfl⟩ := List.mem_iff_getElem.1 he
      have hat : b.events[i]? = some b.events[i] := List.getElem?_eq_getElem hi
      have hhash := h.hashes _ he
      have hsame : b.same (pathHash b.events[i].path b.events[i].kind) b.events[i].kind b.events[i].path i = true := by
        rw [Buffer.same, hat]
        simp [hhash, hnew]
      obtain ⟨j, hseek⟩ := hholds.found hi hsame
      rw [home, hat, Option.elim_some, hhash] at hseek
      rw [Buffer.seen, hindex]
      dsimp only
      rw [hseek]
      exact ⟨true, rfl, fun _ => ⟨_, he, rfl, rfl, hnew⟩, fun _ => rfl⟩
    · rcases hholds.ends (exists_empty hholds hroom) (b.same (pathHash path kind) kind path) (pathHash path kind).toNat with ⟨j, i, hseek, _, _⟩ | ⟨n, hseek, _⟩
      · have hseen : b.seen (pathHash path kind) kind path = some true := by
          rw [Buffer.seen, hindex]
          dsimp only
          rw [hseek]
          rfl
        exact absurd (event_of_seen hseen) hthere
      · rw [Buffer.seen, hindex]
        dsimp only
        rw [hseek]
        exact ⟨false, rfl, iff_of_false Bool.false_ne_true hthere⟩

theorem Indexed.record (h : Indexed b) (kind : Kind) (path : Path) (hgiven : (memory.events && !memory.index) = false) :
    ∃ b', b.record kind path memory = some b' ∧ Indexed b' := by
  obtain ⟨seen, hseen, -⟩ := h.seen kind path
  rw [Buffer.record, hseen, Option.bind_some]
  split
  · exact ⟨b, rfl, h⟩
  · cases seen with
    | true => exact ⟨b, rfl, h⟩
    | false =>
        rw [if_neg Bool.false_ne_true]
        split
        · exact ⟨_, rfl, h.room, h.hashes, h.index⟩
        · rename_i hfull
          split
          · rename_i hcap
            cases hevents : memory.events with
            | false => exact ⟨_, rfl, h.room, h.hashes, h.index⟩
            | true =>
                have hindex : memory.index = true := by simpa [hevents] using hgiven
                rw [hindex]
                obtain ⟨b₁, hb₁, h₁, hlt⟩ := h.grow hcap (Nat.lt_of_not_le hfull)
                obtain ⟨b₂, hb₂, h₂⟩ := h₁.append hlt kind path
                exact ⟨b₂, (congrArg (Option.bind · _) hb₁).trans hb₂, h₂⟩
          · rename_i hcap
            exact h.append (Nat.lt_of_le_of_ne h.room hcap) kind path

/-- What is recorded takes a number, unless it is left out. -/
theorem Recorded.kept (h : Recorded b kind path lost b') (hseq : b'.nextSeq = b.nextSeq) :
    b.armed = false ∨ ∃ e ∈ b.events, e.kind = kind ∧ e.path = path ∧ b.newestStart ≤ e.seq := by
  cases h with
  | unarmed hnot => exact .inl hnot
  | seen _ he hkind hpath hnew => exact .inr ⟨_, he, hkind, hpath, hnew⟩
  | lost _ => exact absurd hseq (Nat.succ_ne_self _)
  | added _ => exact absurd hseq (Nat.succ_ne_self _)

theorem Indexed.step (h : Indexed b) (hgiven : op.halfGrown = false) : ∃ b', Opens.step b op = some b' ∧ Indexed b' := by
  cases op with
  | record kind path memory => exact h.record kind path hgiven
  | openWindow memory =>
      cases memory with
      | false => exact ⟨b, rfl, h⟩
      | true => exact ⟨_, rfl, h.room, h.hashes, h.index⟩
  | closeWindow start =>
      change ∃ b', Buffer.closeWindow b start = some b' ∧ _
      rw [Buffer.closeWindow]
      dsimp only
      split
      · exact h.rebuild (List.dropWhile_sublist _)
      · rename_i hall
        have hsub := List.dropWhile_sublist (l := b.events) fun e => decide (e.seq < (b.windows.erase start).foldl min (2 ^ 64 - 1))
        have hkept := hsub.eq_of_length_le (Nat.le_of_not_lt hall)
        rw [hkept]
        exact ⟨_, rfl, h.room, h.hashes, h.index⟩
  | reset => exact h.rebuild (List.nil_sublist _)

/-- While the index is given its memory whenever the events are, every step of every run ends, and what is recorded then is left
out only where no window is open, or an event that is the same is there since the newest was opened. -/
theorem record_ends (ops : List Op) (hgiven : ∀ op ∈ ops, op.halfGrown = false) :
    ∃ b, run step .initial ops = some b ∧ ∀ kind path memory, b.record kind path memory = some b ↔
      b.windows = [] ∨ ∃ e ∈ b.events, e.kind = kind ∧ e.path = path ∧ b.newestStart ≤ e.seq := by
  have hruns : ∀ b, Indexed b → Numbered b → ∃ b', run step b ops = some b' ∧ Indexed b' ∧ Numbered b' := by
    induction ops with
    | nil => exact fun b hi hn => ⟨b, rfl, hi, hn⟩
    | cons op ops ih =>
        intro b hi hn
        obtain ⟨b₁, hstep, hi₁⟩ := hi.step (hgiven op (List.mem_cons_self ..))
        obtain ⟨b₂, hrun, hi₂⟩ := ih (fun op' hop' => hgiven op' (List.mem_cons_of_mem _ hop')) b₁ hi₁ (hn.step hstep)
        exact ⟨b₂, run_cons.2 ⟨b₁, hstep, hrun⟩, hi₂⟩
  obtain ⟨b, hrun, hi, hn⟩ := hruns .initial indexed_initial numbered_initial
  have harmed : b.armed = false ↔ b.windows = [] := by
    rw [Bool.eq_false_iff, ne_eq, hn.armed, not_not]
  refine ⟨b, hrun, fun kind path memory => ⟨fun hsame => ?_, fun hleft => ?_⟩⟩
  · exact ((record_eq hsame).kept rfl).imp harmed.1 id
  · rcases hleft with hnone | hthere
    · simp [Buffer.record, harmed.2 hnone]
    · obtain ⟨seen, hseen, hiff⟩ := hi.seen kind path
      rw [hiff.2 hthere] at hseen
      simp [Buffer.record, hseen]

theorem record_ends_twice : ∃ b,
    run step .initial [.openWindow true, .record .read [47] ⟨true, true⟩] = some b ∧
    b.record .read [47] ⟨true, true⟩ = some b := by
  obtain ⟨b, hrun, hkept⟩ := record_ends [.openWindow true, .record .read [47] ⟨true, true⟩] (by decide)
  refine ⟨b, hrun, (hkept _ _ _).2 (.inr ?_)⟩
  cases hrun
  exact ⟨_, List.mem_cons_self .., rfl, rfl, Nat.le_refl 1⟩

end Cash.Opens
