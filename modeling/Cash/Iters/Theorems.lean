import Cash.Iters.Lemmas.Reads

/-!
# Iterators among the arguments of a call
-/

namespace Cash.Iters.Call

open Tee

variable {σ α ε : Type} [DecidableEq σ]

/-! ## When the body is given the same -/

section

variable {c : Call σ α ε} {i j : σ} {o : Nat} {copies : KeyCopies σ} {st read : World σ α}
  {args : σ → Option (Copy σ)}

/-- A source that every slot of it is handed. -/
theorem level_original (hheld : c.Held o) (hargs : ∀ i, c.owner i = some o → args i = some (.original o)) :
    Level c.given c.owner args read o 0 ↔ c.Resumes o (read.calls o) := by
  have hahead : ∀ i h, c.owner i = some o → args i = some h → ∀ n, ahead c.given h read n = c.given o (read.calls o + n) := by
    intro i h hi hh n
    rw [hargs i hi] at hh
    cases hh
    exact ahead_source rfl rfl n
  constructor
  · intro hlevel n
    obtain ⟨i, hi⟩ := hheld
    have hgiven := hlevel.ahead i _ hi (hargs i hi) n
    rw [hahead i _ hi (hargs i hi), Nat.zero_add] at hgiven
    exact hgiven
  · intro hresumes
    refine ⟨fun i h hi hh n => ?_, fun _ => .inr fun i h hi hh => ?_⟩
    · rw [hahead i h hi hh, Nat.zero_add]
      exact hresumes n
    · rw [hargs i hi] at hh
      cases hh
      exact ⟨rfl, rfl⟩

/-! ### A key function -/

omit [DecidableEq σ] in
theorem ahead_tee (i : σ) (o n : Nat) (read : World σ α) : ahead c.given (.tee o (i, .body) (i, .key)) read n =
    match (read.queued (i, .body))[n]? with
    | some x => .item x
    | none => c.given o (read.calls o + (n - (read.queued (i, .body)).length)) := rfl

/-- A source that one slot holds a copy of. -/
theorem level_tee (hheld : c.Held o) (hargs : ∀ i, c.owner i = some o → args i = some (.tee o (i, .body) (i, .key)))
    (hread : KeyRead c read) (hshared : ¬Shared c.owner o) :
    Level c.given c.owner args read o 0 ↔ c.Taken o (read.calls o) := by
  rw [Taken, ← items_ahead_iff]
  constructor
  · intro hlevel n
    obtain ⟨i, hi⟩ := hheld
    have hgiven := hlevel.ahead i _ hi (hargs i hi) n
    rw [ahead_tee, hread.single i o hi hshared, Nat.zero_add] at hgiven
    exact hgiven
  · intro hall
    refine ⟨fun i h hi hh n => ?_, fun h => absurd h hshared⟩
    rw [hargs i hi] at hh
    cases hh
    rw [ahead_tee, hread.single i o hi hshared, Nat.zero_add]
    exact hall n

/-- A source that several slots hold copies of. -/
theorem level_tees (hargs : ∀ i, c.owner i = some o → args i = some (.tee o (i, .body) (i, .key)))
    (hread : KeyRead c read) (hshared : Shared c.owner o) : Level c.given c.owner args read o 0 ↔
      (∀ k, c.given o k = c.given o 0) ∨ c.NoItem o (read.calls o) ∧ c.Resumes o (read.calls o) := by
  constructor
  · intro hlevel
    rcases hlevel.shared hshared with hconst | hnone
    · refine .inl fun k => ?_
      rw [← hconst k, Nat.zero_add]
    · refine .inr ⟨fun k hk x hx => ?_, fun k => ?_⟩
      · obtain ⟨i, hi, hqueued⟩ := hread.queued o k x hk hx
        have hempty : read.queued (i, .body) = [] := (hnone i _ hi (hargs i hi)).1
        rw [hempty] at hqueued
        cases hqueued
      · obtain ⟨i, _, _, hi, _⟩ := hshared
        have hgiven := hlevel.ahead i _ hi (hargs i hi) k
        rw [ahead_source (hnone i _ hi (hargs i hi)).1 rfl, Nat.zero_add] at hgiven
        exact hgiven
  · rintro (hconst | ⟨hnone, hresumes⟩)
    · refine ⟨fun i h hi hh n => ?_, fun _ => .inl fun n => ?_⟩
      · rw [hargs i hi] at hh
        cases hh
        rw [ahead_tee, Nat.zero_add, hconst n]
        cases hx : (read.queued (i, .body))[n]? with
        | some x =>
            obtain ⟨k, _, hk⟩ := hread.given i o x hi (List.mem_of_getElem? hx)
            rw [← hconst k, hk]
        | none => exact hconst _
      · rw [hconst]
    · have hempty : ∀ i, c.owner i = some o → read.queued (i, .body) = [] := by
        intro i hi
        rw [List.eq_nil_iff_forall_not_mem]
        intro x hx
        obtain ⟨k, hk, hgiven⟩ := hread.given i o x hi hx
        exact hnone k hk x hgiven
      refine ⟨fun i h hi hh n => ?_, fun _ => .inr fun i h hi hh => ?_⟩
      · rw [hargs i hi] at hh
        cases hh
        have hpending : read.pending (.tee o (i, .body) (i, .key)) = [] := hempty i hi
        rw [ahead_source hpending rfl, Nat.zero_add]
        exact hresumes n
      · rw [hargs i hi] at hh
        cases hh
        exact ⟨hempty i hi, rfl⟩

/-- What comes of an iterator under a key function. -/
theorem Loop.level_keyFn (h : Loop c c.args copies .start) (hkey : c.keyFn = true) (hheld : c.Held o) :
    Level c.given c.owner (c.bodyArguments copies.splits (after c.given copies.args c.reads .start) c.own)
      (after c.given copies.args c.reads .start) o 0 ↔ c.Unchanged o := by
  obtain ⟨hread, hcalls⟩ := h.keyRead hkey c.reads KeyRead.start
  have hcalls : (after c.given copies.args c.reads .start).calls o = c.drawn o := by
    rw [hcalls]
    exact Nat.zero_add _
  have hargs : ∀ i, c.owner i = some o →
      c.bodyArguments copies.splits (after c.given copies.args c.reads .start) c.own i =
        some (if c.Stays o then .original o else .tee o (i, .body) (i, .key)) := by
    intro i hi
    obtain ⟨s, hs, -, horiginal, hbody⟩ := h.body_split (after c.given copies.args c.reads .start) hi (by rw [isSplit, hkey]; rfl)
    have hkept : c.kept (after c.given copies.args c.reads .start) s = true ↔ c.Stays o := by
      rw [kept, (h.keyed hkey).2 s hs, horiginal, hcalls, Stays, Bool.and_eq_true, decide_eq_true_eq, decide_eq_true_eq]
    rw [hbody, bodyCopy, hkey]
    simp only [hkept, if_true]
  rw [Unchanged, if_pos hkey]
  by_cases hstays : c.Stays o
  · simp only [hstays, if_true] at hargs
    rw [level_original hheld hargs, hcalls]
    simp only [hstays, not_true_eq_false, true_implies, false_implies, and_true]
  · simp only [hstays, if_false] at hargs
    by_cases hshared : Shared c.owner o
    · rw [level_tees hargs hread hshared, hcalls]
      simp only [hstays, hshared, not_true_eq_false, not_false_eq_true, true_implies, false_implies, true_and]
    · rw [level_tee hheld hargs hread hshared, hcalls]
      simp only [hstays, hshared, not_false_eq_true, true_implies, false_implies, and_true, true_and]

/-! ### Registered hashers -/

omit [DecidableEq σ] in
/-- A closed generator gives nothing more. -/
theorem ahead_closed (ho : c.hashed o = true) (hclosed : (c.heap o).Closed (read.calls o)) (n : Nat) :
    ahead c.given (.original o : Copy σ) read n = .stop :=
  (ahead_source rfl rfl n).trans (OneShot.stop_add (hashed_generator ho) hclosed.stop n)

/-- The body's argument where the generator was taken out first. -/
theorem Loop.ahead_first (h : Loop c c.args copies st) (hkey : c.keyFn = false) {s : Split σ} (hs : s ∈ copies.splits)
    (ho : c.hashed s.original = true) (hclosed : (c.heap s.original).Closed (read.calls s.original))
    (hqueued : read.queued (s.slot, .body) = st.queued (s.slot, .body))
    (hbefore : s.before = iteratorPosition (c.heap s.original) 0)
    (hgiven : ∀ n, ahead c.given (.listed (s.slot, .body)) st n = c.given s.original n) {h' : Copy σ}
    (hbody : c.bodyArguments copies.splits read c.own s.slot = some h') (n : Nat) :
    ahead c.given h' read n = c.given s.original n := by
  rw [bodyArguments_of_mem h.nodup hs, (h.sound s hs).2.2, bodyCopy, hkey] at hbody
  cases hbody
  split
  · rename_i hkept
    rw [kept, Bool.and_eq_true, decide_eq_true_eq, decide_eq_true_eq, hbefore] at hkept
    have hzero : (c.heap s.original).Closed 0 := hkept.2.symm.trans hclosed
    have hstop := OneShot.stop_add (hashed_generator ho) hzero.stop n
    rw [Nat.zero_add] at hstop
    rw [ahead_closed ho hclosed]
    exact hstop.symm
  · have hpending : read.pending (.listed (s.slot, .body)) = st.pending (.listed (s.slot, .body)) := hqueued
    rw [← hgiven n]
    exact ahead_congr hpending (fun _ h => by cases h) n

/-- And where it had been. -/
theorem Loop.ahead_late (h : Loop c c.args copies st) {s : Split σ} (hs : s ∈ copies.splits)
    (ho : c.hashed s.original = true) (hclosed : (c.heap s.original).Closed (read.calls s.original)) (hlate : Late st s)
    {h' : Copy σ} (hbody : c.bodyArguments copies.splits read c.own s.slot = some h') (n : Nat) :
    ahead c.given h' read n = .stop := by
  have hkept : c.kept read s = true := by
    rw [kept, Bool.and_eq_true, decide_eq_true_eq, decide_eq_true_eq, hlate.1]
    exact ⟨nofun, hclosed⟩
  rw [bodyArguments_of_mem h.nodup hs, hkept] at hbody
  cases hbody
  exact ahead_closed ho hclosed n

/-- What comes of a generator that was taken out. -/
theorem Loop.level_hashed (h : Loop c c.args copies st) (hkey : c.keyFn = false) (ho : c.hashed o = true) (hheld : c.Held o) :
    Level c.given c.owner (c.bodyArguments copies.splits (after c.given copies.args c.reads st) c.own)
      (after c.given copies.args c.reads st) o 0 ↔ c.Unchanged o := by
  obtain ⟨hqueued, hcalls, -⟩ := h.hashedRead hkey c.reads st
  have hdrained := h.drained hkey
  have hsplit : c.isSplit o = true := by rw [isSplit, ho, Bool.or_true]
  have hclosed : (c.heap o).Closed ((after c.given copies.args c.reads st).calls o) := by
    obtain ⟨i, hi⟩ := hheld
    rw [hcalls o ho]
    exact hdrained.closed i o (owner_eq.mp hi) ho
  rw [Unchanged, if_neg (by simp [hkey]), if_pos ho]
  constructor
  · rintro hlevel ⟨i, j, hij, hi, hj⟩
    have hstop : ∀ s ∈ copies.splits, s.original = o → c.owner s.slot = some o → Late st s → c.given o 0 = .stop := by
      rintro s hs rfl hi hlate
      obtain ⟨h', hbody⟩ : ∃ h', c.bodyArguments copies.splits (after c.given copies.args c.reads st) c.own s.slot = some h' :=
        ⟨_, bodyArguments_of_mem h.nodup hs⟩
      rw [← h.ahead_late hs ho hclosed hlate hbody 0, hlevel.ahead _ _ hi hbody]
    obtain ⟨s, hs, rfl, hso, -⟩ := h.body_split st hi hsplit
    obtain ⟨t, ht, rfl, hto, -⟩ := h.body_split st hj hsplit
    rcases hdrained.late s hs t ht hij (hso.trans hto.symm) with hlate | hlate
    · exact hstop s hs hso hi hlate
    · exact hstop t ht hto hj hlate
  · intro hstop
    by_cases hshared : Shared c.owner o
    · have hall : ∀ n, c.given o n = .stop := fun n => by
        have hn := OneShot.stop_add (hashed_generator ho) (hstop hshared) n
        rwa [Nat.zero_add] at hn
      refine ⟨fun i h' hi hbody n => ?_, fun _ => .inl fun n => by rw [hall, hall]⟩
      obtain ⟨s, hs, rfl, rfl, -⟩ := h.body_split st hi hsplit
      rw [Nat.zero_add]
      rcases hdrained.split s hs with ⟨hbefore, hgiven⟩ | hlate
      · exact h.ahead_first hkey hs ho hclosed (hqueued _) hbefore hgiven hbody n
      · rw [h.ahead_late hs ho hclosed hlate hbody, hall]
    · refine ⟨fun i h' hi hbody n => ?_, fun h => absurd h hshared⟩
      obtain ⟨s, hs, rfl, hbefore, hgiven⟩ := hdrained.first i o (owner_eq.mp hi) ho
      have hslot : s.slot = i := by
        by_contra hne
        exact hshared ⟨s.slot, i, hne, owner_eq.mpr (h.sound s hs).1, hi⟩
      subst hslot
      rw [Nat.zero_add]
      exact h.ahead_first hkey hs ho hclosed (hqueued _) hbefore hgiven hbody n

/-- What comes of an iterator that is not split. -/
theorem Loop.level_unsplit (h : Loop c c.args copies st) (hkey : c.keyFn = false) (ho : c.hashed o = false) (hheld : c.Held o) :
    Level c.given c.owner (c.bodyArguments copies.splits (after c.given copies.args c.reads st) c.own)
      (after c.given copies.args c.reads st) o 0 ∧ c.NoItem o (c.drawn o) ↔ c.Unchanged o := by
  obtain ⟨-, -, hcalls⟩ := h.hashedRead hkey c.reads st
  have hcalls : (after c.given copies.args c.reads st).calls o = c.drawn o := by
    rw [hcalls o ho, (h.drained hkey).plain o ho]
    exact Nat.zero_add _
  rw [level_original hheld fun i hi => h.body_unsplit hi (by rw [isSplit, hkey, ho]; rfl), hcalls, Unchanged, if_neg (by simp [hkey]),
    if_neg (by simp [ho])]
  exact And.comm

end

/-! ## Calls with a key -/

section

variable {c : Call σ α ε} {i : σ} {o : Nat} {copies copies' : KeyCopies σ} {st st' : World σ α}

/-- Where a generator is come to, something is split. -/
theorem splits_ne_nil {rest : List (σ × Option Nat)} (hkey : c.keyFn = false) (h : c.splitLoop rest copies st = .ok (copies', st'))
    (hsome : copies.splits ≠ [] ∨ ∃ i o, (i, some o) ∈ rest ∧ c.hashed o = true) : copies'.splits ≠ [] := by
  induction rest generalizing copies st with
  | nil =>
      cases h
      rcases hsome with hsome | ⟨_, _, hmem, _⟩
      · exact hsome
      · cases hmem
  | cons arg rest ih =>
      obtain ⟨i, value⟩ := arg
      cases value with
      | none =>
          refine ih h (hsome.imp id ?_)
          rintro ⟨j, o, hj, ho⟩
          exact ⟨j, o, (List.mem_cons.mp hj).resolve_left (by simp), ho⟩
      | some o =>
          rw [Call.splitLoop] at h
          split at h
          · cases h
          · rename_i st₁ hsplit
            refine ih h (hsome.imp id ?_)
            rintro ⟨j, o', hj, ho'⟩
            rcases splitIterator_cases hkey hsplit with ⟨ho, -, -⟩ | ⟨_, _, _, _, _, _, hr, _⟩
            · refine ⟨j, o', (List.mem_cons.mp hj).resolve_left ?_, ho'⟩
              rintro heq
              cases heq
              rw [ho] at ho'
              cases ho'
            · cases hr
          · exact ih h (.inl (by simp))

/-! ### Whether there is a key -/

omit [DecidableEq σ] in
theorem mem_handles {args : σ → Option (Copy σ)} {h : Copy σ} :
    h ∈ c.handles args ↔ ∃ i ∈ c.args.map Prod.fst, args i = some h := by
  rw [handles, List.mem_filterMap]
  simp only [List.mem_map, exists_exists_and_eq_and]

theorem mem_handles_own {h : Copy σ} : h ∈ c.handles c.own ↔ ∃ o, c.Held o ∧ h = .original o := by
  rw [mem_handles]
  constructor
  · rintro ⟨i, _, hi⟩
    cases ho : c.owner i with
    | none =>
        rw [own_none ho] at hi
        cases hi
    | some o =>
        rw [own_eq ho] at hi
        cases hi
        exact ⟨o, ⟨i, ho⟩, rfl⟩
  · rintro ⟨o, ⟨i, hi⟩, rfl⟩
    exact ⟨i, List.mem_map_of_mem (owner_eq.mp hi), own_eq hi⟩

/-- Nothing is looked at where anything was split. -/
theorem check_split (args : σ → Option (Copy σ)) (st read : World σ α) :
    c.checkIteratorsUnread ((c.handles args).map fun h => (h, c.place st h)) (c.handles args) read = false := by
  rw [checkIteratorsUnread, List.any_map, List.any_eq_false]
  intro h hh
  rw [Function.comp_apply, mayBeRead, if_pos hh]
  exact Bool.false_ne_true

theorem mayBeRead_original {read : World σ α} (hkey : c.keyFn = false) (hst : st.calls o = 0) (hread : read.calls o = c.drawn o) :
    c.mayBeRead [] read (.original o) (c.place st (.original o)) = true ↔ c.Moved o := by
  have hplace : ∀ st : World σ α, c.place st (.original o) = iteratorPosition (c.heap o) (st.calls o) := fun _ => rfl
  rw [mayBeRead, hplace, hplace, hst, hread, hkey, Moved]
  cases hposition : iteratorPosition (c.heap o) 0 with
  | none => cases c.registered <;> simp
  | some before => simp

/-- Else an iterator that moved is seen. -/
theorem check_own {read : World σ α} (hkey : c.keyFn = false) (hst : ∀ o, c.Held o → st.calls o = 0)
    (hread : ∀ o, c.Held o → read.calls o = c.drawn o) :
    c.checkIteratorsUnread ((c.handles c.own).map fun h => (h, c.place st h)) [] read = true ↔ ∃ o, c.Held o ∧ c.Moved o := by
  rw [checkIteratorsUnread, List.any_map, List.any_eq_true]
  constructor
  · rintro ⟨h, hh, hmoved⟩
    obtain ⟨o, ho, rfl⟩ := mem_handles_own.mp hh
    exact ⟨o, ho, (mayBeRead_original hkey (hst o ho) (hread o ho)).mp hmoved⟩
  · rintro ⟨o, ho, hmoved⟩
    exact ⟨_, mem_handles_own.mpr ⟨o, ho, rfl⟩, (mayBeRead_original hkey (hst o ho) (hread o ho)).mpr hmoved⟩

/-! ### The call -/

theorem Loop.unsplit_of_nil (h : Loop c c.args copies st) (hnil : copies.splits = []) (ho : c.Held o) : c.isSplit o = false := by
  obtain ⟨i, hi⟩ := ho
  by_contra hsome
  rw [Bool.not_eq_false] at hsome
  obtain ⟨s, hs, -⟩ := h.body_split st hi hsome
  rw [hnil] at hs
  cases hs

theorem Loop.nil_of_unsplit (h : Loop c c.args copies st) (hnone : ∀ o, c.Held o → c.isSplit o = false) : copies.splits = [] := by
  rw [List.eq_nil_iff_forall_not_mem]
  intro s hs
  obtain ⟨hmem, hsplit, -⟩ := h.sound s hs
  rw [hnone _ ⟨s.slot, owner_eq.mpr hmem⟩] at hsplit
  cases hsplit

theorem Loop.ofCall : Loop c [] ⟨c.own, [], false⟩ .start where
  toInv := Inv.start
  accepted := rfl
  keyed _ := ⟨rfl, fun _ hs => absurd hs List.not_mem_nil⟩
  drained _ := Drained.start

/-- Where the generators end, the loop comes through. -/
theorem splitForKey_of_ends (hends : c.keyFn = false → ∀ i o, (i, some o) ∈ c.args → c.hashed o = true → c.Ends o) :
    ∃ copies st, c.splitForKey = .ok (copies, st) ∧ Loop c c.args copies st :=
  Loop.ofCall.splitLoop c.nodup hends

/-- Where the loop comes through, the call goes on with the body's arguments after what the key build read. -/
theorem Loop.run (h : Loop c c.args copies st) (hsplit : c.splitForKey = .ok (copies, st)) :
    ∃ hasKey, c.run = .ok ⟨hasKey, c.bodyArguments copies.splits (after c.given copies.args c.reads st) c.own,
      after c.given copies.args c.reads st⟩ ∧
      (hasKey = true ↔ c.fails = false ∧ ¬(copies.splits = [] ∧ ∃ o, c.Held o ∧ c.Moved o)) := by
  by_cases hnil : copies.splits = []
  · have hnone : ∀ o, c.Held o → c.isSplit o = false := fun o => h.unsplit_of_nil hnil
    have hargs : copies.args = c.own := by
      funext i
      refine h.unsplit i fun o ho => hnone o ⟨i, owner_eq.mpr ho⟩
    refine ⟨_, by rw [Call.run, hsplit]; simp only [hnil, List.isEmpty_nil, if_true, build, hargs]; rfl, ?_⟩
    rw [Bool.and_eq_true, Bool.not_eq_true', Bool.not_eq_true', hnil]
    simp only [true_and]
    refine and_congr_right fun _ => ?_
    by_cases hheld : ∃ o, c.Held o
    · have hboth : ∀ o, c.Held o → c.keyFn = false ∧ c.hashed o = false := fun o ho => Bool.or_eq_false_iff.mp (hnone o ho)
      obtain ⟨o, ho⟩ := hheld
      have hkey := (hboth o ho).1
      obtain ⟨-, -, hcalls⟩ := h.hashedRead hkey c.reads st
      rw [hargs] at hcalls
      have hst : ∀ o, c.Held o → st.calls o = 0 := fun o ho => (h.drained hkey).plain o (hboth o ho).2
      have hread : ∀ o, c.Held o → (after c.given c.own c.reads st).calls o = c.drawn o := by
        intro o ho
        rw [hcalls o (hboth o ho).2, hst o ho]
        exact Nat.zero_add _
      rw [Bool.eq_false_iff, Ne, check_own hkey hst hread]
    · have hempty : c.handles c.own = [] := by
        rw [List.eq_nil_iff_forall_not_mem]
        intro h hh
        obtain ⟨o, ho, -⟩ := mem_handles_own.mp hh
        exact hheld ⟨o, ho⟩
      rw [hempty]
      refine iff_of_true rfl ?_
      rintro ⟨o, ho, -⟩
      exact hheld ⟨o, ho⟩
  · have hsome : copies.splits.isEmpty = false := by simpa using hnil
    refine ⟨_, by rw [Call.run, hsplit]; simp only [hsome, h.accepted, Bool.false_eq_true, if_false, build, check_split]; rfl, ?_⟩
    simp [hnil]

/-- Without a refusal there is a key. -/
theorem run_of_not_refused (h : ¬c.Refused) : ∃ copies st, Loop c c.args copies st ∧
    c.run = .ok ⟨true, c.bodyArguments copies.splits (after c.given copies.args c.reads st) c.own,
      after c.given copies.args c.reads st⟩ := by
  rw [Refused, not_or, not_and] at h
  obtain ⟨hfails, hrest⟩ := h
  have hends : c.keyFn = false → ∀ i o, (i, some o) ∈ c.args → c.hashed o = true → c.Ends o := by
    intro hkey i o hi ho
    by_contra hlong
    exact hrest hkey (.inl ⟨o, ⟨i, owner_eq.mpr hi⟩, ho, hlong⟩)
  obtain ⟨copies, st, hsplit, hloop⟩ := splitForKey_of_ends hends
  obtain ⟨hasKey, hrun, hiff⟩ := hloop.run hsplit
  have hkeyed : hasKey = true := by
    rw [hiff]
    refine ⟨Bool.eq_false_iff.mpr hfails, ?_⟩
    rintro ⟨hnil, o, ho, hmoved⟩
    have hboth : ∀ o, c.Held o → c.keyFn = false ∧ c.hashed o = false := fun o ho =>
      Bool.or_eq_false_iff.mp (hloop.unsplit_of_nil hnil ho)
    exact hrest (hboth o ho).1 (.inr ⟨fun o ho => (hboth o ho).2, o, ho, hmoved⟩)
  subst hkeyed
  exact ⟨copies, st, hloop, hrun⟩

/-- With a key, every generator that was taken out ended. -/
theorem ends_of_run {keyed : Keyed σ α} (hrun : c.run = .ok keyed) (hhas : keyed.hasKey = true) (hkey : c.keyFn = false)
    (ho : c.Held o) (hhashed : c.hashed o = true) : c.Ends o := by
  obtain ⟨i, hi⟩ := ho
  cases hsplit : c.splitForKey with
  | error e =>
      rw [Call.run, hsplit] at hrun
      cases hrun
  | ok result =>
      obtain ⟨copies, st⟩ := result
      have hsome : copies.splits.isEmpty = false := by
        simpa using splits_ne_nil hkey hsplit (.inr ⟨i, o, owner_eq.mp hi, hhashed⟩)
      have haccepted : copies.refused = false := by
        by_contra hrefused
        rw [Bool.not_eq_false] at hrefused
        rw [Call.run, hsplit] at hrun
        simp only [hsome, hrefused, Bool.false_eq_true, if_false, if_true] at hrun
        cases hrun
        cases hhas
      exact (ends_of_splitLoop hkey hsplit haccepted).2 i o (owner_eq.mp hi) hhashed rfl

/-- With a key there was no refusal. -/
theorem not_refused_of_run {keyed : Keyed σ α} (hrun : c.run = .ok keyed) (hhas : keyed.hasKey = true) : ¬c.Refused := by
  have hends : c.keyFn = false → ∀ i o, (i, some o) ∈ c.args → c.hashed o = true → c.Ends o :=
    fun hkey i o hi ho => ends_of_run hrun hhas hkey ⟨i, owner_eq.mpr hi⟩ ho
  obtain ⟨copies, st, hsplit, hloop⟩ := splitForKey_of_ends hends
  obtain ⟨hasKey, hrun', hiff⟩ := hloop.run hsplit
  rw [hrun] at hrun'
  cases hrun'
  obtain ⟨hfails, hmoved⟩ := hiff.mp hhas
  rintro (hfails' | ⟨hkey, ⟨o, ho, hhashed, hlong⟩ | ⟨hnone, hsome⟩⟩)
  · rw [hfails] at hfails'
    cases hfails'
  · exact hlong (ends_of_run hrun hhas hkey ho hhashed)
  · refine hmoved ⟨hloop.nil_of_unsplit fun o ho => ?_, hsome⟩
    rw [isSplit, hkey, hnone o ho]
    rfl

end

/-! ## Keying an iterator argument -/

/-- The body is given what it would be without a key, and what was read beside the copies leaves the call without one, if
and only if there is no key or every iterator is handed on as it was. -/
theorem handsOn_iff (c : Call σ α ε) : c.HandsOn ∧ c.Noticed ↔ c.Refused ∨ ∀ o, c.Held o → c.Unchanged o := by
  by_cases hrefused : c.Refused
  · refine iff_of_true ⟨fun keyed hrun hhas => absurd hrefused (not_refused_of_run hrun hhas), ?_⟩ (.inl hrefused)
    intro o _ _ _ keyed hrun
    by_contra hhas
    exact not_refused_of_run hrun ((Bool.not_eq_false _).mp hhas) hrefused
  obtain ⟨copies, st, h, hrun⟩ := run_of_not_refused hrefused
  have hhands : c.HandsOn ↔ ∀ o, Level c.given c.owner
      (c.bodyArguments copies.splits (after c.given copies.args c.reads st) c.own)
      (after c.given copies.args c.reads st) o 0 := by
    have hpulls : (∀ is, pulls c.given (c.bodyArguments copies.splits (after c.given copies.args c.reads st) c.own) is
        (after c.given copies.args c.reads st) = pulls c.given (plain c.owner) is .start) ↔ ∀ o, Level c.given c.owner
          (c.bodyArguments copies.splits (after c.given copies.args c.reads st) c.own)
          (after c.given copies.args c.reads st) o 0 := pulls_eq_iff (h.slots _)
    rw [← hpulls]
    constructor
    · exact fun hall => hall _ hrun rfl
    · intro hall keyed hkeyed _
      rw [hrun] at hkeyed
      cases hkeyed
      exact hall
  have hnoticed : c.Noticed ↔ ∀ o, c.Held o → c.Unsplit o → c.NoItem o (c.drawn o) := by
    constructor
    · intro hall o ho hunsplit k hk x hx
      have hhas := hall o ho hunsplit ⟨k, hk, x, hx⟩ _ hrun
      cases hhas
    · rintro hall o ho hunsplit ⟨k, hk, x, hx⟩
      exact absurd hx (hall o ho hunsplit k hk x)
  have hone : ∀ o, c.Held o → (Level c.given c.owner
      (c.bodyArguments copies.splits (after c.given copies.args c.reads st) c.own)
      (after c.given copies.args c.reads st) o 0 ∧ (c.Unsplit o → c.NoItem o (c.drawn o)) ↔ c.Unchanged o) := by
    intro o ho
    by_cases hkey : c.keyFn = true
    · obtain ⟨rfl, -⟩ := h.keyed hkey
      rw [h.level_keyFn hkey ho, and_iff_left]
      intro hunsplit
      rw [hunsplit.1] at hkey
      cases hkey
    have hkey := Bool.eq_false_iff.mpr hkey
    by_cases hhashed : c.hashed o = true
    · rw [h.level_hashed hkey hhashed ho, and_iff_left]
      intro hunsplit
      rw [hunsplit.2] at hhashed
      cases hhashed
    · have hhashed := Bool.eq_false_iff.mpr hhashed
      rw [← h.level_unsplit hkey hhashed ho]
      exact and_congr_right fun _ => ⟨fun hnone => hnone ⟨hkey, hhashed⟩, fun hnone _ => hnone⟩
  rw [hhands, hnoticed, or_iff_right hrefused]
  constructor
  · rintro ⟨hlevel, hnone⟩ o ho
    exact (hone o ho).mp ⟨hlevel o, hnone o ho⟩
  · intro hall
    refine ⟨fun o => ?_, fun o ho => ((hone o ho).mpr (hall o ho)).2⟩
    by_cases ho : c.Held o
    · exact ((hone o ho).mpr (hall o ho)).1
    · exact ⟨fun i h hi => absurd ⟨i, hi⟩ ho, fun _ => .inr fun i h hi => absurd ⟨i, hi⟩ ho⟩

/-! ### Calls whose body is given something else -/

/-- `def g(): yield from [1, 2, 3]` after one `next`: at its one `yield` until it is closed. -/
def suspended : OneShot Nat Unit where
  given n := if n = 0 then .item 2 else if n = 1 then .item 3 else .stop
  kind := .generator (fun n => if n ≤ 2 then .suspended else .closed) (fun n => if n ≤ 2 then some 10 else none)
  closes := by
    rintro state lasti ⟨⟩ n hn
    have hlate : ¬n + 1 ≤ 2 := by
      intro hearly
      obtain rfl | rfl : n = 0 ∨ n = 1 := by omega
      · cases hn
      · cases hn
    exact ⟨if_neg hlate, if_neg hlate⟩
  stays := by
    rintro state lasti ⟨⟩ n hn
    by_cases hearly : n ≤ 2
    · simp only [hearly, if_true] at hn
      cases hn
    · rw [if_neg (by omega), if_neg (by omega)]

/-- `map(int, "7")`, which tells no length. -/
def mapped : OneShot Nat Unit where
  given n := if n = 0 then .item 7 else .stop
  kind := .other fun _ => some (-1)
  closes := by
    rintro state lasti ⟨⟩
  stays := by
    rintro state lasti ⟨⟩

/-- `key=lambda rows: next(rows)`. -/
def readOne : Call Nat Nat Unit where
  heap _ := suspended
  args := [(0, some 0)]
  nodup := by decide
  keyFn := true
  registered := none
  reads := [0]
  fails := false

/-- A hasher is registered for generators, which keys the first argument, and one for `map`, which reads the second. -/
def beside : Call Nat Nat Unit where
  heap o := if o = 0 then suspended else mapped
  args := [(0, some 0), (1, some 1)]
  nodup := by decide
  keyFn := false
  registered := some fun _ => true
  reads := [1]
  fails := false

/-- The generator stands at the same `yield` after the key read of it, and the `map` beside a generator is not looked at. -/
theorem readOne_skips : ¬readOne.HandsOn ∧ ¬beside.Noticed := by
  constructor
  · intro h
    have hread := h _ rfl rfl [0]
    revert hread
    decide
  · intro h
    have hkey := h 1 ⟨1, rfl⟩ ⟨rfl, rfl⟩ ⟨0, by decide, 7, rfl⟩ _ rfl
    revert hkey
    decide

end Cash.Iters.Call
