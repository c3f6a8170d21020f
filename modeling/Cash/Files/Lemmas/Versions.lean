import Cash.Files.Versions

/-!
# What a call does to the answers and to the log
-/

namespace Cash.Files

open Dict

variable {D : Type} {startedNs : Int} {bytes : Version → D} {p p' : Process D}
  {s s' : World D} {v w own root recorded : Version} {log : List (Line D)}

/-! ## The log -/

/-- The root the first line of a version gives it. -/
def firstLine (log : List (Line D)) (v : Version) : Option Version :=
  log.findSome? fun
    | .version own root => if own = v then some root else none
    | .content _ _ => none

theorem firstLine_append (l l' : List (Line D)) (v : Version) :
    firstLine (l ++ l') v = (firstLine l v).or (firstLine l' v) := by
  unfold firstLine
  rw [List.findSome?_append]

@[simp] theorem firstLine_version (own root v : Version) :
    firstLine [(.version own root : Line D)] v = if own = v then some root else none := by
  simp [firstLine]

@[simp] theorem firstLine_content (digest : D) (version v : Version) :
    firstLine [.content digest version] v = none := by
  simp [firstLine]

theorem lookup_foldl_loadLine [DecidableEq D] (log : List (Line D)) (p : Process D) (v : Version) :
    (log.foldl Process.loadLine p).earlier.lookup v = (p.earlier.lookup v).or (firstLine log v) := by
  induction log generalizing p with
  | nil => simp [firstLine]
  | cons line log ih =>
    rw [List.foldl_cons, ih, show line :: log = [line] ++ log from rfl, firstLine_append]
    cases line with
    | version own root =>
      simp only [Process.loadLine, firstLine_version]
      by_cases hv : own = v
      · subst hv
        cases hown : p.earlier.lookup own with
        | none => simp
        | some r => simp [hown]
      · cases hown : p.earlier.lookup own with
        | none => simp [hv, Ne.symm hv]
        | some r => simp [hv]
    | content digest version => simp [Process.loadLine]

/-- What a process that loads the log answers. -/
theorem answer_load [DecidableEq D] (log : List (Line D)) (v : Version) :
    (Process.load log).answer v = (firstLine log v).getD v := by
  unfold Process.answer Process.load
  rw [lookup_foldl_loadLine]
  simp [Process.start]

theorem firstLine_compact (h : p.earlier.entries.length ≤ keep) :
    firstLine p.compact.log v = some root ↔ p.earlier.lookup v = some root ∧ v ≠ root := by
  have hnone : firstLine ((p.byContent.newest keep).map fun c => (.content c.1 c.2 : Line D)) v = none := by
    simp only [firstLine, List.findSome?_eq_none_iff, List.mem_map]
    rintro line ⟨c, -, rfl⟩
    rfl
  have hsome : firstLine p.compact.log v =
      firstLine (((p.earlier.newest keep).filter fun e => e.1 ≠ e.2).map fun e => (.version e.1 e.2 : Line D)) v := by
    rw [Process.compact, firstLine_append, hnone, Option.none_or]
  rw [hsome]
  constructor
  · intro hfirst
    obtain ⟨line, hline, heq⟩ := List.exists_of_findSome?_eq_some hfirst
    obtain ⟨e, he, rfl⟩ := List.mem_map.mp hline
    simp only [Option.ite_none_right_eq_some, Option.some.injEq] at heq
    obtain ⟨rfl, rfl⟩ := heq
    obtain ⟨hmem, hne⟩ := List.mem_filter.mp he
    exact ⟨(mem_newest h).mp hmem, by simpa using hne⟩
  · rintro ⟨hlook, hne⟩
    have hmem : (v, root) ∈ (p.earlier.newest keep).filter fun e => e.1 ≠ e.2 :=
      List.mem_filter.mpr ⟨(mem_newest h).mpr hlook, by simpa using hne⟩
    cases hfirst : firstLine
        (((p.earlier.newest keep).filter fun e => e.1 ≠ e.2).map fun e => (.version e.1 e.2 : Line D)) v with
    | none =>
      have hall := List.findSome?_eq_none_iff.mp hfirst _ (List.mem_map.mpr ⟨_, hmem, rfl⟩)
      simp at hall
    | some root' =>
      obtain ⟨line, hline, heq⟩ := List.exists_of_findSome?_eq_some hfirst
      obtain ⟨e, he, rfl⟩ := List.mem_map.mp hline
      simp only [Option.ite_none_right_eq_some, Option.some.injEq] at heq
      obtain ⟨rfl, rfl⟩ := heq
      have hlook' := (mem_newest h).mp (List.mem_filter.mp he).1
      rw [hlook] at hlook'
      exact hlook'.symm

/-! ## The answers -/

@[simp] theorem write_earlier (p : Process D) (line : Line D) : (p.write line).earlier = p.earlier := by
  unfold Process.write
  dsimp only
  split <;> rfl

@[simp] theorem write_byContent (p : Process D) (line : Line D) : (p.write line).byContent = p.byContent := by
  unfold Process.write
  dsimp only
  split <;> rfl

theorem answer_eq (h : p'.earlier.lookup v = p.earlier.lookup v) : p'.answer v = p.answer v := by
  unfold Process.answer
  rw [h]

theorem answer_insert (p : Process D) (own root v : Version) :
    { p with earlier := p.earlier.insert own root }.answer v = if v = own then root else p.answer v := by
  unfold Process.answer
  rw [lookup_insert']
  split
  · rfl
  · rfl

theorem answer_of_none (h : p.earlier.lookup v = none) : p.answer v = v := by
  simp [Process.answer, h]

theorem answer_of_some (h : p.earlier.lookup v = some root) : p.answer v = root := by
  simp [Process.answer, h]

/-- Where nothing but the version itself is answered with it, giving it another answer keeps what is answered
alike alike. -/
theorem answer_alike (halone : p.Alone own) (h : p.answer v = p.answer w) :
    (if v = own then root else p.answer v) = if w = own then root else p.answer w := by
  by_cases hv : v = own
  · subst hv
    have hw : w = v := halone.2 w (h.symm.trans halone.1)
    rw [hw]
  · by_cases hw : w = own
    · subst hw
      exact absurd (halone.2 v (h.trans halone.1)) hv
    · rw [if_neg hv, if_neg hw, h]

theorem alone_of_entries (hown : p.earlier.lookup own = none) (h : ∀ e ∈ p.earlier.entries, e.2 ≠ own) :
    p.Alone own := by
  refine ⟨answer_of_none hown, ?_⟩
  intro v hv
  cases hlook : p.earlier.lookup v with
  | none => exact (answer_of_none hlook).symm.trans hv
  | some r => exact absurd ((answer_of_some hlook).symm.trans hv) (h _ (mem_entries_of_lookup hlook))

/-! ## The log and the answers -/

/-- The log gives back every answer: a version with a line is answered what its first line says, one without is
answered itself, and one whose line names itself is another's answer. -/
structure Logged (p : Process D) : Prop where
  line : ∀ v root, firstLine p.log v = some root → p.earlier.lookup v = some root
  noLine : ∀ v, firstLine p.log v = none → p.answer v = v
  self : ∀ v, firstLine p.log v = some v → ∃ w, w ≠ v ∧ p.answer w = v

theorem Logged.answer_load [DecidableEq D] (h : Logged p) (v : Version) :
    (Process.load p.log).answer v = p.answer v := by
  rw [Cash.Files.answer_load]
  cases hfirst : firstLine p.log v with
  | none => exact (h.noLine v hfirst).symm
  | some root => exact (answer_of_some (h.line v root hfirst)).symm

theorem Logged.congr (h : Logged p) (hlog : p'.log = p.log) (hearlier : ∀ v, p'.earlier.lookup v = p.earlier.lookup v) :
    Logged p' := by
  refine ⟨?_, ?_, ?_⟩
  · intro v root hfirst
    rw [hearlier]
    exact h.line v root (hlog ▸ hfirst)
  · intro v hfirst
    rw [answer_eq (hearlier v)]
    exact h.noLine v (hlog ▸ hfirst)
  · intro v hfirst
    obtain ⟨w, hne, hw⟩ := h.self v (hlog ▸ hfirst)
    exact ⟨w, hne, (answer_eq (hearlier w)).trans hw⟩

theorem logged_compact (h : p.earlier.entries.length ≤ keep) : Logged p.compact := by
  refine ⟨?_, ?_, ?_⟩
  · intro v root hfirst
    exact ((firstLine_compact h).mp hfirst).1
  · intro v hfirst
    cases hlook : p.earlier.lookup v with
    | none => exact answer_of_none (p := p.compact) hlook
    | some root =>
      by_cases hv : v = root
      · subst hv
        exact answer_of_some (p := p.compact) hlook
      · rw [(firstLine_compact h).mpr ⟨hlook, hv⟩] at hfirst
        cases hfirst
  · intro v hfirst
    exact absurd rfl ((firstLine_compact h).mp hfirst).2

/-- A line is written once the answers are what the log with the line gives. -/
theorem Logged.write {line : Line D} (h : Logged { p with log := p.log ++ [line] })
    (hroom : p.lines < compactAt ∨ p.earlier.entries.length ≤ keep) : Logged (p.write line) := by
  unfold Process.write
  dsimp only
  split
  · rename_i hlines
    exact logged_compact (p := { p with log := p.log ++ [line], lines := p.lines + 1 }) (by dsimp only; omega)
  · exact h.congr rfl fun _ => rfl

/-- A version that is its own answer has no line, unless it is another's answer. -/
theorem Logged.noLine_of_alone (h : Logged p) (halone : p.Alone own) : firstLine p.log own = none := by
  cases hfirst : firstLine p.log own with
  | none => rfl
  | some root =>
    have hroot : root = own := (answer_of_some (h.line own root hfirst)).symm.trans halone.1
    subst hroot
    obtain ⟨w, hne, hw⟩ := h.self root hfirst
    exact absurd (halone.2 w hw) hne

/-- The line of a version that had no link. -/
theorem Logged.link (h : Logged p) (halone : p.Alone own) (hroot : root ≠ own) :
    Logged { p with earlier := p.earlier.insert own root, log := p.log ++ [.version own root] } := by
  have hnone := h.noLine_of_alone halone
  have hanswer := fun v => answer_insert { p with log := p.log ++ [Line.version own root] } own root v
  refine ⟨?_, ?_, ?_⟩
  · intro v r hfirst
    dsimp only at hfirst ⊢
    rw [firstLine_append, firstLine_version] at hfirst
    rw [lookup_insert']
    by_cases hv : v = own
    · subst hv
      simpa [hnone] using hfirst
    · rw [if_neg hv]
      exact h.line v r (by simpa [Ne.symm hv] using hfirst)
  · intro v hfirst
    dsimp only at hfirst
    rw [firstLine_append, firstLine_version, Option.or_eq_none_iff] at hfirst
    obtain ⟨hfirst, hne⟩ := hfirst
    have hv : v ≠ own := by
      rintro rfl
      simp at hne
    rw [hanswer, if_neg hv]
    exact h.noLine v hfirst
  · intro v hfirst
    dsimp only at hfirst
    rw [firstLine_append, firstLine_version] at hfirst
    have hv : v ≠ own := by
      rintro rfl
      rw [hnone] at hfirst
      simp only [↓reduceIte, Option.none_or, Option.some.injEq] at hfirst
      exact hroot hfirst
    obtain ⟨w, hne, hw⟩ := h.self v (by simpa [Ne.symm hv] using hfirst)
    have hwown : w ≠ own := by
      rintro rfl
      exact hv (hw.symm.trans halone.1)
    refine ⟨w, hne, ?_⟩
    rw [hanswer, if_neg hwown]
    exact hw

/-- A version that is its own answer is recorded as such. -/
theorem Logged.insertSelf (h : Logged p) (hown : p.earlier.lookup own = none) :
    Logged { p with earlier := p.earlier.insert own own } := by
  have hanswer : ∀ v, { p with earlier := p.earlier.insert own own }.answer v = p.answer v := by
    intro v
    rw [answer_insert]
    split
    · rename_i hv
      rw [hv, answer_of_none hown]
    · rfl
  refine ⟨?_, ?_, ?_⟩
  · intro v root hfirst
    have hlook := h.line v root hfirst
    have hv : v ≠ own := by
      rintro rfl
      rw [hown] at hlook
      cases hlook
    dsimp only
    rw [lookup_insert', if_neg hv]
    exact hlook
  · intro v hfirst
    rw [hanswer]
    exact h.noLine v hfirst
  · intro v hfirst
    obtain ⟨w, hne, hw⟩ := h.self v hfirst
    exact ⟨w, hne, (hanswer w).trans hw⟩

/-- The line that names itself, of a version that is another's answer. -/
theorem Logged.selfLine (h : Logged p) (hown : p.earlier.lookup own = some own) (hw : w ≠ own) (hanswer : p.answer w = own) :
    Logged { p with log := p.log ++ [.version own own] } := by
  refine ⟨?_, ?_, ?_⟩
  · intro v root hfirst
    dsimp only at hfirst ⊢
    rw [firstLine_append, firstLine_version] at hfirst
    by_cases hv : own = v
    · subst hv
      cases hbefore : firstLine p.log own with
      | none => simpa [hbefore, hown] using hfirst
      | some r =>
        rw [hbefore] at hfirst
        exact h.line own root (hbefore.trans hfirst)
    · exact h.line v root (by simpa [hv] using hfirst)
  · intro v hfirst
    dsimp only at hfirst
    rw [firstLine_append, Option.or_eq_none_iff] at hfirst
    exact h.noLine v hfirst.1
  · intro v hfirst
    by_cases hv : own = v
    · subst hv
      exact ⟨w, hw, hanswer⟩
    · dsimp only at hfirst
      rw [firstLine_append, firstLine_version] at hfirst
      exact h.self v (by simpa [hv] using hfirst)

theorem Logged.contentLine (h : Logged p) (digest : D) (version : Version) :
    Logged { p with log := p.log ++ [.content digest version] } := by
  have hfirst : ∀ v, firstLine (p.log ++ [.content digest version]) v = firstLine p.log v := by
    intro v
    rw [firstLine_append, firstLine_content, Option.or_none]
  refine ⟨?_, ?_, ?_⟩
  · intro v root hv
    exact h.line v root ((hfirst v).symm.trans hv)
  · intro v hv
    exact h.noLine v ((hfirst v).symm.trans hv)
  · intro v hv
    exact h.self v ((hfirst v).symm.trans hv)

theorem write_of_lt (h : p.lines < compactAt) (line : Line D) :
    p.write line = { p with log := p.log ++ [line], lines := p.lines + 1 } := by
  rw [Process.write]
  exact if_neg (by dsimp only; omega)

end Cash.Files
