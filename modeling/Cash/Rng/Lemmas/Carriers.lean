import Cash.Rng.State

/-!
# Random generators over a hit
-/

namespace Cash.Rng

/-! ## What a hit does to the global streams -/

section

variable {S : Type} [DecidableEq S] {pre post live : States S} {g : Globals S} {m : Stream}

theorem mem_all (m : Stream) : m ∈ Stream.all := by
  cases m <;> decide

theorem mem_changed : m ∈ rngModulesChanged pre post ↔ pre m ≠ post m := by
  simp [rngModulesChanged, mem_all]

omit [DecidableEq S] in
theorem pick_eq_some {modules : List Stream} {state : States S} (h : pick post modules = some state) :
    (∀ m ∈ modules, (post m).isSome) ∧ state = fun m => if m ∈ modules then post m else none := by
  unfold pick at h
  split at h
  · rename_i hall
    exact ⟨hall, (Option.some.inj h).symm⟩
  · cases h

/-- Either nothing is replayed, or every stream that changed was there before and after, stands where it was found,
and is restored. -/
theorem replayGlobals_cases (pre post : States S) (g : Globals S) :
    replayGlobals pre post g = g ∨
      (∀ m, pre m ≠ post m → (pre m).isSome ∧ (post m).isSome ∧ captureRngState g m = pre m) ∧
        replayGlobals pre post g = restoreRngState (fun m => if pre m ≠ post m then post m else none) g := by
  unfold replayGlobals
  split
  · exact .inl rfl
  dsimp only
  split
  · exact .inl rfl
  split
  · exact .inl rfl
  split
  · rename_i hpre hlive hpost
    split
    · exact .inl rfl
    · rename_i hsame
      refine .inr ⟨?_, ?_⟩
      · intro m hm
        obtain ⟨hpreall, rfl⟩ := pick_eq_some hpre
        obtain ⟨-, rfl⟩ := pick_eq_some hlive
        obtain ⟨hpostall, -⟩ := pick_eq_some hpost
        have hmem := mem_changed.mpr hm
        refine ⟨hpreall m hmem, hpostall m hmem, ?_⟩
        rw [not_not] at hsame
        have hnot : m ∉ rngModulesChanged _ _ := hsame ▸ List.not_mem_nil
        rw [mem_changed, not_not] at hnot
        simpa [hmem] using hnot.symm
      · obtain ⟨-, rfl⟩ := pick_eq_some hpost
        simp only [mem_changed]
  · exact .inl rfl

/-- The streams that changed are replayed where each was there before and after and stands where it was found. -/
theorem replayGlobals_eq (hall : ∀ m, pre m ≠ post m → (pre m).isSome ∧ (post m).isSome ∧ captureRngState g m = pre m)
    (hchanged : ∃ m, pre m ≠ post m) :
    replayGlobals pre post g = restoreRngState (fun m => if pre m ≠ post m then post m else none) g := by
  obtain ⟨m, hm⟩ := hchanged
  have hpick : ∀ state : States S, (∀ m, pre m ≠ post m → (state m).isSome) →
      pick state (rngModulesChanged pre post) = some fun m => if pre m ≠ post m then state m else none := by
    intro state hsome
    unfold pick
    rw [if_pos fun m hmem => hsome m (mem_changed.mp hmem)]
    simp only [mem_changed]
  have hlive : ∀ m, pre m ≠ post m → (captureRngState g m).isSome := by
    intro m hm
    rw [(hall m hm).2.2]
    exact (hall m hm).1
  unfold replayGlobals
  rw [if_neg]
  · dsimp only
    rw [if_neg, if_neg, hpick pre fun m hm => (hall m hm).1, hpick _ hlive, hpick post fun m hm => (hall m hm).2.1]
    · dsimp only
      rw [if_neg]
      rw [not_not, List.eq_nil_iff_forall_not_mem]
      intro k hk
      rw [mem_changed] at hk
      refine hk ?_
      split
      · rename_i hkne
        exact (hall k hkne).2.2.symm
      · rfl
    · simp only [List.any_eq_true, not_exists, not_and]
      intro k hk hnone
      have hksome := hlive k (mem_changed.mp hk)
      rw [Option.isNone_iff_eq_none] at hnone
      rw [hnone] at hksome
      cases hksome
    · exact List.ne_nil_of_mem (mem_changed.mpr hm)
  · simp only [Bool.or_eq_true, List.all_eq_true, not_or]
    obtain ⟨hpre, hpost, -⟩ := hall m hm
    refine ⟨fun hnone => ?_, fun hnone => ?_⟩
    · have hm' := hnone m (mem_all m)
      rw [Option.isNone_iff_eq_none] at hm'
      rw [hm'] at hpost
      cases hpost
    · have hm' := hnone m (mem_all m)
      rw [Option.isNone_iff_eq_none] at hm'
      rw [hm'] at hpre
      cases hpre

omit [DecidableEq S] in
/-- A stream that is not given keeps its state. -/
theorem capture_restore_of_none {state : States S} (h : state m = none) :
    captureRngState (restoreRngState state g) m = captureRngState g m := by
  obtain ⟨random, numpyRandom, torch⟩ := g
  cases m with
  | random => cases random <;> simp [captureRngState, restoreRngState, h]
  | numpyRandom => cases numpyRandom <;> simp [captureRngState, restoreRngState, h]
  | torch =>
    simp only [captureRngState, restoreRngState, h]
  | torchCuda =>
    cases torch with
    | none => rfl
    | some t =>
      obtain ⟨s, cuda⟩ := t
      simp only [captureRngState, restoreRngState]
      cases state .torch with
      | none => rfl
      | some s' => cases cuda <;> simp [h]

omit [DecidableEq S] in
/-- A stream that is given and is there takes the state, those of the CUDA devices only together with torch's. -/
theorem capture_restore_of_some {state : States S} {s : S} (h : state m = some s) (hlive : (captureRngState g m).isSome)
    (htorch : m = .torchCuda → (state .torch).isSome) : captureRngState (restoreRngState state g) m = some s := by
  obtain ⟨random, numpyRandom, torch⟩ := g
  cases m with
  | random => simp_all [captureRngState, restoreRngState]
  | numpyRandom => simp_all [captureRngState, restoreRngState]
  | torch =>
    cases torch with
    | none => cases hlive
    | some t => simp [captureRngState, restoreRngState, h]
  | torchCuda =>
    obtain ⟨s', hs'⟩ := Option.isSome_iff_exists.mp (htorch rfl)
    cases torch with
    | none => cases hlive
    | some t =>
      obtain ⟨s₀, cuda⟩ := t
      cases cuda with
      | none => cases hlive
      | some _ => simp [captureRngState, restoreRngState, h, hs']

omit [DecidableEq S] in
/-- Without torch's stream those of the CUDA devices keep their state. -/
theorem capture_restore_cuda {state : States S} (h : state .torch = none) :
    captureRngState (restoreRngState state g) .torchCuda = captureRngState g .torchCuda := by
  obtain ⟨random, numpyRandom, torch⟩ := g
  simp only [captureRngState, restoreRngState, h]

end

/-! ## What is recorded of the generators, and what a hit does to them -/

section

variable {S ρ W : Type} [DecidableEq S] [DecidableEq ρ] {gens gens' : Gens ρ S} {resolve : W → Option ρ}
  {moved : List (Moved S W)} {named : List (ρ × Option W)} {o : ρ} {pre post : S}

/-! ### What is recorded -/

/-- The carriers found are generators among the values met, with their states. -/
structure Found (gens : Gens ρ S) (named : List (ρ × Option W)) (acc : List (Carrier ρ S W)) : Prop where
  state : ∀ c ∈ acc, (gens c.obj).isSome ∧ c.state = carrierState gens c.obj
  met : ∀ c ∈ acc, (c.obj, c.place) ∈ named
  all : ∀ v ∈ named, (gens v.1).isSome → ∃ c ∈ acc, c.obj = v.1

omit [DecidableEq S] in
theorem Found.step {acc : List (Carrier ρ S W)} (h : Found gens named acc) (v : ρ × Option W) :
    Found gens (named ++ [v]) (found gens acc v) := by
  unfold found
  split
  · rename_i hnone
    refine ⟨h.state, fun c hc => List.mem_append_left _ (h.met c hc), ?_⟩
    intro u hu hsome
    rcases List.mem_append.mp hu with hu | hu
    · exact h.all u hu hsome
    · rw [List.mem_singleton.mp hu] at hsome
      simp [Option.isNone_iff_eq_none.mp hnone] at hsome
  · rename_i hsome
    have hv : (gens v.1).isSome := by simpa [Option.isSome_iff_ne_none] using hsome
    split
    · rename_i hany
      obtain ⟨c₀, hc₀, heq₀⟩ := List.any_eq_true.mp hany
      refine ⟨?_, ?_, ?_⟩
      · intro c hc
        obtain ⟨c', hc', rfl⟩ := List.mem_map.mp hc
        split
        · exact ⟨hv, rfl⟩
        · exact h.state c' hc'
      · intro c hc
        obtain ⟨c', hc', rfl⟩ := List.mem_map.mp hc
        split
        · exact List.mem_append_right _ (by simp)
        · exact List.mem_append_left _ (h.met c' hc')
      · have hkeep : ∀ c ∈ acc, ∃ c' ∈ acc.map fun c =>
            if c.obj = v.1 ∧ c.place.isNone then ⟨v.1, carrierState gens v.1, v.2⟩ else c, c'.obj = c.obj := by
          intro c hc
          refine ⟨_, List.mem_map_of_mem hc, ?_⟩
          split
          · rename_i hcond
            exact hcond.1.symm
          · rfl
        intro u hu husome
        rcases List.mem_append.mp hu with hu | hu
        · obtain ⟨c, hc, heq⟩ := h.all u hu husome
          obtain ⟨c', hc', heq'⟩ := hkeep c hc
          exact ⟨c', hc', heq'.trans heq⟩
        · obtain ⟨c', hc', heq'⟩ := hkeep c₀ hc₀
          refine ⟨c', hc', heq'.trans ?_⟩
          rw [List.mem_singleton.mp hu]
          simpa using heq₀
    · refine ⟨?_, ?_, ?_⟩
      · intro c hc
        rcases List.mem_append.mp hc with hc | hc
        · exact h.state c hc
        · rw [List.mem_singleton.mp hc]
          exact ⟨hv, rfl⟩
      · intro c hc
        rcases List.mem_append.mp hc with hc | hc
        · exact List.mem_append_left _ (h.met c hc)
        · rw [List.mem_singleton.mp hc]
          exact List.mem_append_right _ (by simp)
      · intro u hu husome
        rcases List.mem_append.mp hu with hu | hu
        · obtain ⟨c, hc, heq⟩ := h.all u hu husome
          exact ⟨c, List.mem_append_left _ hc, heq⟩
        · refine ⟨_, List.mem_append_right _ (List.mem_singleton_self _), ?_⟩
          rw [List.mem_singleton.mp hu]

omit [DecidableEq S] in
theorem found_capture (gens : Gens ρ S) (named : List (ρ × Option W)) :
    Found gens named (captureReachableCarrierStates gens named) := by
  have hfold : ∀ (rest done : List (ρ × Option W)) (acc : List (Carrier ρ S W)), Found gens done acc →
      Found gens (done ++ rest) (rest.foldl (found gens) acc) := by
    intro rest
    induction rest with
    | nil =>
      intro done acc h
      rw [List.append_nil]
      exact h
    | cons v rest ih =>
      intro done acc h
      have hstep := ih (done ++ [v]) (found gens acc v) (h.step v)
      rw [List.append_assoc] at hstep
      exact hstep
  exact hfold named [] [] ⟨nofun, nofun, nofun⟩

/-- A record is of a generator met, with its states before and after the body. -/
theorem mem_moved {m : Moved S W} (h : m ∈ movedCarriers gens' (captureReachableCarrierStates gens named)) :
    ∃ obj, (obj, m.place) ∈ named ∧ m.pre = carrierState gens obj ∧ m.post = carrierState gens' obj ∧
      (m.pre = none ∨ m.pre ≠ m.post) := by
  have hfound := found_capture gens named
  obtain ⟨c, hc, heq⟩ := List.mem_filterMap.mp h
  split at heq
  · rename_i hcond
    cases heq
    refine ⟨c.obj, hfound.met c hc, (hfound.state c hc).2, rfl, ?_⟩
    exact hcond.imp_left Option.isNone_iff_eq_none.mp
  · cases heq

/-- A generator met that the body moved is recorded. -/
theorem exists_moved {v : ρ × Option W} (hv : v ∈ named) (hpre : gens v.1 = some (.at pre))
    (hpost : gens' v.1 = some (.at post)) (hne : pre ≠ post) :
    ∃ m ∈ movedCarriers gens' (captureReachableCarrierStates gens named),
      (v.1, m.place) ∈ named ∧ m.pre = some pre ∧ m.post = some post := by
  have hfound := found_capture gens named
  obtain ⟨c, hc, hobj⟩ := hfound.all v hv (by rw [hpre]; rfl)
  have hstate : c.state = some pre := by
    rw [(hfound.state c hc).2, hobj, carrierState, hpre]
  have hafter : carrierState gens' c.obj = some post := by
    rw [hobj, carrierState, hpost]
  refine ⟨⟨c.place, c.state, carrierState gens' c.obj⟩, ?_, ?_, hstate, hafter⟩
  · refine List.mem_filterMap.mpr ⟨c, hc, ?_⟩
    rw [if_pos]
    rw [hstate, hafter]
    exact .inr (by simpa using hne)
  · rw [← hobj]
    exact hfound.met c hc

/-! ### What a hit does -/

/-- The record moves the generator from `pre` to `post`. -/
def Moved.For (resolve : W → Option ρ) (m : Moved S W) (o : ρ) (pre post : S) : Prop :=
  m.place.bind resolve = some o ∧ m.pre = some pre ∧ m.post = some post

theorem replayOne_of_for {m : Moved S W} (h : m.For resolve o pre post) (hat : gens o = some (.at pre)) :
    replayOne resolve gens m o = some (.at post) := by
  obtain ⟨hplace, hpre, hpost⟩ := h
  simp [replayOne, hplace, hpre, hpost, hat]

theorem replayOne_of_not_for {m : Moved S W} (h : ∀ pre post, m.For resolve o pre post → gens o ≠ some (.at pre)) :
    replayOne resolve gens m o = gens o := by
  cases hplace : m.place.bind resolve with
  | none => simp [replayOne, hplace]
  | some obj =>
    cases hpre : m.pre with
    | none => simp [replayOne, hplace, hpre]
    | some pre =>
      cases hpost : m.post with
      | none => simp [replayOne, hplace, hpre, hpost]
      | some post =>
        simp only [replayOne, hplace, hpre, hpost]
        split
        · rename_i hat
          have hne : o ≠ obj := by
            rintro rfl
            exact h pre post ⟨hplace, hpre, hpost⟩ hat
          rw [Function.update_of_ne hne]
        · rfl

/-- No record moves the generator from where it stands. -/
theorem replayCarriers_of_not (h : ∀ m ∈ moved, ∀ pre post, m.For resolve o pre post → gens o ≠ some (.at pre)) :
    replayCarriers resolve moved gens o = gens o := by
  induction moved generalizing gens with
  | nil => rfl
  | cons m moved ih =>
    have hone : replayOne resolve gens m o = gens o := replayOne_of_not_for (h m (by simp))
    rw [replayCarriers, List.foldl_cons, ← hone]
    refine ih ?_
    intro m' hm' pre post hfor
    rw [hone]
    exact h m' (List.mem_cons_of_mem _ hm') pre post hfor

/-- A record moves the generator from where it stands, and no other record moves it elsewhere. -/
theorem replayCarriers_of_for (hne : pre ≠ post) (hsame : ∀ m ∈ moved, ∀ pre' post', m.For resolve o pre' post' →
      pre' = pre ∧ post' = post) (hex : ∃ m ∈ moved, m.For resolve o pre post) (hat : gens o = some (.at pre)) :
    replayCarriers resolve moved gens o = some (.at post) := by
  induction moved generalizing gens with
  | nil =>
    obtain ⟨m, hm, -⟩ := hex
    cases hm
  | cons m moved ih =>
    by_cases hfor : m.For resolve o pre post
    · have hone := replayOne_of_for hfor hat
      rw [replayCarriers, List.foldl_cons, ← hone]
      refine replayCarriers_of_not ?_
      intro m' hm' pre' post' hfor'
      obtain ⟨rfl, -⟩ := hsame m' (List.mem_cons_of_mem _ hm') pre' post' hfor'
      rw [hone]
      simpa using hne.symm
    · have hone : replayOne resolve gens m o = gens o := by
        refine replayOne_of_not_for ?_
        intro pre' post' hfor'
        obtain ⟨rfl, rfl⟩ := hsame m (by simp) pre' post' hfor'
        exact absurd hfor' hfor
      refine ih (fun m' hm' => hsame m' (List.mem_cons_of_mem _ hm')) ?_ (hone.trans hat)
      obtain ⟨m', hm', hfor'⟩ := hex
      rcases List.mem_cons.mp hm' with rfl | hm'
      · exact absurd hfor' hfor
      · exact ⟨m', hm', hfor'⟩

end

end Cash.Rng
