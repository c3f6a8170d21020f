import Cash.Writes.Lemmas.Tracked

/-!
# Background writes
-/

namespace Cash.Writes

open Py

/-! ## What a read finds after a wait -/

section

variable {s s' : State} {l : Label}

/-- When a `wait` returns or an entry is removed, no write of the key is left to run. -/
theorem Tracked.none_todo (h : Tracked s) {key : Str} (hleaves : s.leaves key) :
    ∀ i ∈ s.todo, .raised i ∉ s.log → i.key ≠ key := by
  intro i hi hraised hkey
  have hi := mem_unfinished_of_todo hi
  have hpend := h.pend i hi hraised
  have hnot := h.notDone i hi
  rw [hkey] at hpend
  rcases hleaves with ⟨hc, hpending⟩ | ⟨f, hc, hdone⟩ | hc
  · simp [hc, hpending, Caller.enters] at hpend
  · have hf : s.pending.lookup key = some i.fut := by simpa [hc, Caller.enters] using hpend
    rw [← h.waiting key f i.fut hc hf] at hdone
    simp [State.isDone, hnot] at hdone
  · simp [hc, h.popped key 0 (.inr hc), Caller.enters] at hpend

/-! ### Writes that never run -/

/-- A write of a submit that raised does not run, nor one submitted before a removal of its key. -/
structure Gone (s : State) : Prop where
  raisedGone : RaisedGone s.log
  deleteFinal : DeleteFinal s.log
  before : ∀ key n, .removed key n ∈ s.log → n ≤ s.next
  removed : ∀ key n, .removed key n ∈ s.log → ∀ i ∈ s.todo, .raised i ∉ s.log → i.key = key → n ≤ i.fut

theorem Gone.start : Gone .start := by
  constructor <;> simp [State.start, State.todo, RaisedGone, DeleteFinal]

theorem raisedGone_cons {e : Event} {log : List Event} (h : RaisedGone log) (he : ∀ i o, e = .ran i o → .raised i ∉ log) :
    RaisedGone (e :: log) :=
  List.pairwise_cons.mpr ⟨fun _ hearlier i o hi hraised => he i o hi (hraised ▸ hearlier), h⟩

theorem deleteFinal_cons {e : Event} {log : List Event} (h : DeleteFinal log)
    (he : ∀ i o n, e = .ran i o → .removed i.key n ∈ log → n ≤ i.fut) : DeleteFinal (e :: log) :=
  List.pairwise_cons.mpr ⟨fun _ hearlier i o n hi hremoved => he i o n hi (hremoved ▸ hearlier), h⟩

theorem Gone.step (h : Gone s) (hk : Tracked s) (hs : Step s l s') : Gone s' := by
  obtain ⟨hgone, hfinal, hbefore, hremoved⟩ := h
  cases hs.effect with
  | none htodo hnext hlog hsubmits => constructor <;> grind
  | put key htodo hnext hlog hbef hsubmits => constructor <;> grind
  | run i o hw htodo hnext hlog hsubmits =>
    have hun := hk.present (by simp [hw]) i (by simp [State.unfinished, hw])
    constructor
    · rw [hlog]
      exact raisedGone_cons hgone (by grind)
    · rw [hlog]
      exact deleteFinal_cons hfinal (by grind)
    · grind
    · grind
  | returned i htodo hnext hlog hbef hsubmits =>
    constructor
    · rw [hlog]
      exact raisedGone_cons hgone (by simp)
    · rw [hlog]
      exact deleteFinal_cons hfinal (by simp)
    · grind
    · grind
  | raised r f hc hw htodo hnext hlog hsubmits =>
    constructor
    · rw [hlog]
      exact raisedGone_cons hgone (by simp)
    · rw [hlog]
      exact deleteFinal_cons hfinal (by simp)
    · grind
    · grind
  | left key e he hleaves htodo hnext hlog hbef hsubmits =>
    have hnone := hk.none_todo hleaves
    constructor
    · rw [hlog]
      exact raisedGone_cons hgone (by rcases he with rfl | rfl <;> simp)
    · rw [hlog]
      exact deleteFinal_cons hfinal (by rcases he with rfl | rfl <;> simp)
    · grind
    · grind

/-! ### What is stored -/

structure Reads (s : State) : Prop where
  quiet : ∀ i ∈ s.todo, .raised i ∉ s.log → waitedSince s.log i.key → s.caller.submits = some i
  returned : ∀ key f, lastReturned s.log key = some f → .returned ⟨key, f⟩ ∈ s.log
  last : ∀ key f, lastReturned s.log key = some f → ∀ i, .returned i ∈ s.log → i.key = key → i.fut ≤ f
  submitted : ∀ i, s.caller.submits = some i → .ran i .ok ∈ s.log → contents s.log i.key = some i.fut
  stored : ∀ key f, lastReturned s.log key = some f → .ran ⟨key, f⟩ .ok ∈ s.log →
    contents s.log key = some f ∨ ∃ i, s.caller.submits = some i ∧ i.key = key ∧ .ran i .ok ∈ s.log

theorem Reads.start : Reads .start := by
  constructor <;> simp [State.start, State.todo, lastReturned, Caller.submits]

theorem Reads.put {key : Str} (h : Reads s) (ho : Order s) (htodo : s'.todo = s.todo ++ [⟨key, s.next⟩])
    (hlog : s'.log = s.log) (hidle : s.caller.submits = none) (hsubmits : s'.caller.submits = some ⟨key, s.next⟩) :
    Reads s' := by
  have hran := ho.ran
  obtain ⟨hquiet, hreturned, hlast, hsubmitted, hstored⟩ := h
  constructor <;> grind

/-- A write that runs belongs to the last submit of its key that returned, or to the one under way. -/
theorem Reads.run {i : Item} {o : Outcome} (h : Reads s) (ho : Order s) (ht : Settled s)
    (hun : .raised i ∉ s.log) (htodo : s.todo = i :: s'.todo) (hlog : s'.log = .ran i o :: s.log)
    (hsubmits : s'.caller.submits = s.caller.submits) : Reads s' := by
  obtain ⟨hquiet, hreturned, hlast, hsubmitted, hstored⟩ := h
  have hi : i ∈ s.todo := by simp [htodo]
  constructor
  · grind [waitedSince]
  · grind [lastReturned]
  · grind [lastReturned]
  · intro j hj hran
    rw [hsubmits] at hj
    rw [hlog] at hran ⊢
    rcases List.mem_cons.mp hran with hnow | hran
    · cases hnow
      simp [contents]
    · -- one later than the latest would be the next
      have hlater := (ho.ran j .ok hran).2 i hi
      have hlatest := ht.latest j hj
      have hbelow := ho.below i hi
      omega
  · intro key f hf hran
    rw [hsubmits]
    rw [hlog] at hf hran ⊢
    rcases List.mem_cons.mp hran with hnow | hearlier
    · cases hnow
      exact .inl (by simp [contents])
    · by_cases hkey : o = .ok ∧ i.key = key
      · obtain ⟨rfl, rfl⟩ := hkey
        have hlater := (ho.ran _ _ hearlier).2 i hi
        rcases ht.known i hi with hraised | hret | hsub
        · exact absurd hraised hun
        · exact absurd hlater (Nat.not_lt.mpr (hlast i.key f hf i hret rfl))
        · exact .inr ⟨i, hsub, rfl, by simp⟩
      · have hsame : contents (.ran i o :: s.log) key = contents s.log key := by
          cases o <;> simp_all [contents]
        rw [hsame]
        rcases hstored key f hf hearlier with hstored | ⟨j, hj, hjkey, hjran⟩
        · exact .inl hstored
        · exact .inr ⟨j, hj, hjkey, List.mem_cons_of_mem _ hjran⟩

theorem Reads.returns {i : Item} (h : Reads s) (ht : Settled s) (htodo : s'.todo = s.todo)
    (hlog : s'.log = .returned i :: s.log) (hi : s.caller.submits = some i) (hsubmits : s'.caller.submits = none) :
    Reads s' := by
  obtain ⟨hquiet, hreturned, hlast, hsubmitted, hstored⟩ := h
  have hlatest := ht.latest i hi
  have hended := ht.ended
  constructor
  · grind [waitedSince]
  · intro key f hf
    rw [hlog] at hf ⊢
    by_cases hkey : i.key = key
    · subst hkey
      simp only [lastReturned, if_true, Option.some.injEq] at hf
      simp [← hf]
    · simp only [lastReturned, hkey, if_false] at hf
      exact List.mem_cons_of_mem _ (hreturned key f hf)
  · grind [lastReturned]
  · simp [hsubmits]
  · intro key f hf hran
    rw [hlog] at hf hran ⊢
    have hran : .ran ⟨key, f⟩ .ok ∈ s.log := by simpa using hran
    by_cases hkey : i.key = key
    · subst hkey
      simp only [lastReturned, if_true, Option.some.injEq] at hf
      subst hf
      exact .inl (hsubmitted i hi hran)
    · simp only [lastReturned, hkey, if_false] at hf
      rcases hstored key f hf hran with hstored | ⟨j, hj, hjkey, -⟩
      · exact .inl hstored
      · rw [hi] at hj
        cases hj
        exact absurd hjkey hkey

theorem Reads.raises {i : Item} (h : Reads s) (ho : Order s) (hwaits : i ∈ s.todo) (htodo : s'.todo = s.todo)
    (hlog : s'.log = .raised i :: s.log) (hi : s.caller.submits = some i) (hsubmits : s'.caller.submits = none) :
    Reads s' := by
  obtain ⟨hquiet, hreturned, hlast, hsubmitted, hstored⟩ := h
  constructor
  · grind [waitedSince]
  · grind [lastReturned]
  · grind [lastReturned]
  · simp [hsubmits]
  · intro key f hf hran
    rw [hlog] at hf hran ⊢
    have hran : .ran ⟨key, f⟩ .ok ∈ s.log := by simpa using hran
    rcases hstored key f hf hran with hstored | ⟨j, hj, -, hjran⟩
    · exact .inl hstored
    · -- the write of the submit that raises has not run
      rw [hi] at hj
      cases hj
      exact absurd ((ho.ran i .ok hjran).2 i hwaits) (Nat.lt_irrefl _)

theorem Reads.step (h : Reads s) (ho : Order s) (ht : Settled s) (hk : Tracked s) (hs : Step s l s') : Reads s' := by
  cases hs.effect with
  | none htodo hnext hlog hsubmits =>
    obtain ⟨hquiet, hreturned, hlast, hsubmitted, hstored⟩ := h
    constructor <;> grind
  | put key htodo hnext hlog hidle hsubmits => exact h.put ho htodo hlog hidle hsubmits
  | run i o hw htodo hnext hlog hsubmits =>
    have hun := hk.present (by simp [hw]) i (by simp [State.unfinished, hw])
    exact h.run ho ht hun htodo hlog hsubmits
  | returned i htodo hnext hlog hi hsubmits => exact h.returns ht htodo hlog hi hsubmits
  | raised r f hc hw htodo hnext hlog hsubmits =>
    have hwaits : ⟨r.key, f⟩ ∈ s.todo := by
      rw [todo_of_not_running (by simp [hw])]
      exact hk.queued r f hc hw
    exact h.raises ho hwaits htodo hlog (by simp [hc, Caller.submits]) hsubmits
  | left key e he hleaves htodo hnext hlog hidle hsubmits =>
    have hnone := hk.none_todo hleaves
    obtain ⟨hquiet, hreturned, hlast, hsubmitted, hstored⟩ := h
    constructor <;> grind [contents, lastReturned, waitedSince]

/-- Between two calls, a read after a wait finds the last submit that returned. -/
theorem Reads.readsLast (h : Reads s) (ht : Settled s) (hidle : s.caller = .idle) : ReadsLast s.log := by
  intro key f hwaited hlast
  have hret := h.returned key f hlast
  have hsubmits : s.caller.submits = none := by simp [hidle, Caller.submits]
  have hnot : (⟨key, f⟩ : Item) ∉ s.todo := by
    intro htodo
    have := h.quiet _ htodo (ht.apart _ hret) hwaited
    simp [hsubmits] at this
  obtain ⟨o, hran⟩ := (ht.kept ⟨key, f⟩ (.inl hret)).resolve_left hnot
  refine ⟨o, hran, ?_⟩
  rintro rfl
  rcases h.stored key f hlast hran with hstored | ⟨i, hi, -⟩
  · exact hstored
  · simp [hsubmits] at hi

end

/-! ## Background writes keep their order and a delete is final -/

section

variable {s : State}

theorem reaches_inv (h : Reaches carefulStep s) : Order s ∧ Settled s ∧ Tracked s ∧ Gone s ∧ Reads s := by
  induction h with
  | refl => exact ⟨.start, .start, .start, .start, .start⟩
  | tail _ hstep ih =>
    obtain ⟨l, hs⟩ := hstep
    obtain ⟨ho, ht, hk, hg, hr⟩ := ih
    exact ⟨ho.step hs.1, ht.step hs.1, hk.step ho ht hs, hg.step hk hs.1, hr.step ho ht hk hs.1⟩

/-- Where no worker starts while the item of a submit that raised is in the queue: the writes of a key take
effect in the order of their submits, a read after `wait` sees the last submit that returned, no write
submitted before a removal runs after it, and none whose submit raised. -/
theorem writes_ordered (h : Reaches carefulStep s) : InOrder s.log ∧ (s.caller = .idle → ReadsLast s.log) ∧
    DeleteFinal s.log ∧ RaisedGone s.log := by
  obtain ⟨ho, ht, -, hg, hr⟩ := reaches_inv h
  exact ⟨ho.inOrder, hr.readsLast ht, hg.deleteFinal, hg.raisedGone⟩

/-- A write submitted, run and waited for. -/
theorem writes_ordered_of_one : ∃ s, Reaches carefulStep s ∧
    s.log = [.waited [107], .returned ⟨[107], 0⟩, .ran ⟨[107], 0⟩ .ok] ∧ ReadsLast s.log ∧
    contents s.log [107] = some 0 := by
  have hrun : ∃ s, Reaches carefulStep s ∧ s.caller = .idle ∧
      s.log = [.waited [107], .returned ⟨[107], 0⟩, .ran ⟨[107], 0⟩ .ok] := by
    have h : Reaches carefulStep .start := .refl
    replace h := h.tail ⟨_, .submit ⟨[107], none⟩ rfl, nofun⟩
    replace h := h.tail ⟨_, .put rfl nofun, nofun⟩
    replace h := h.tail ⟨_, .start rfl rfl, fun _ i _ => List.not_mem_nil⟩
    replace h := h.tail ⟨_, .take rfl rfl, nofun⟩
    replace h := h.tail ⟨_, .register rfl, nofun⟩
    replace h := h.tail ⟨_, .run .ok rfl, nofun⟩
    replace h := h.tail ⟨_, .setResult rfl, nofun⟩
    replace h := h.tail ⟨_, .watchDone rfl rfl, nofun⟩
    replace h := h.tail ⟨_, .size rfl, nofun⟩
    replace h := h.tail ⟨_, .waitNone [107] rfl rfl, nofun⟩
    exact ⟨_, h, rfl, rfl⟩
  obtain ⟨s, hs, hidle, hlog⟩ := hrun
  exact ⟨s, hs, hlog, (writes_ordered hs).2.1 hidle, by simp [hlog, contents]⟩

/-- The worker of a submit fails to start and the entry is deleted; the worker of another submit then runs the
write that was left in the queue. -/
theorem raised_write_runs : ∃ s, Reaches Step s ∧ ¬ DeleteFinal s.log ∧ ¬ RaisedGone s.log := by
  have hrun : ∃ s, Reaches Step s ∧
      s.log = [.ran ⟨[107], 0⟩ .ok, .removed [107] 1, .raised ⟨[107], 0⟩] := by
    have h : Reaches Step .start := .refl
    replace h := h.tail ⟨_, .submit ⟨[107], none⟩ rfl⟩
    replace h := h.tail ⟨_, .put rfl nofun⟩
    replace h := h.tail ⟨_, .startFails rfl rfl⟩
    replace h := h.tail ⟨_, .drainNone [107] rfl rfl⟩
    replace h := h.tail ⟨_, .remove rfl⟩
    replace h := h.tail ⟨_, .submit ⟨[108], none⟩ rfl⟩
    replace h := h.tail ⟨_, .put rfl nofun⟩
    replace h := h.tail ⟨_, .start rfl rfl⟩
    replace h := h.tail ⟨_, .take rfl rfl⟩
    replace h := h.tail ⟨_, .run .ok rfl⟩
    exact ⟨_, h, rfl⟩
  obtain ⟨s, hs, hlog⟩ := hrun
  refine ⟨s, hs, ?_, ?_⟩
  · simp [hlog, DeleteFinal]
  · simp [hlog, RaisedGone]

end

end Cash.Writes
