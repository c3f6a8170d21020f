import Cash.Args.Lemmas.Bind
import Cash.Rng.State
import Mathlib.Data.List.Nodup
import Cash.Rng.Lemmas.Carriers

/-!
# Random generators and the arguments of a call
-/

namespace Cash.Rng

open Py Args

/-! ## The names of a call's arguments -/

section

variable {ρ : Type} {sig : Signature ρ} {call : Call ρ} {b : Bound ρ} {p : Place} {name : Str} {v : ρ}

/-- The name of an argument in `_named_args`. -/
def Place.argName (sig : Signature ρ) : Place → Option Str
  | .module _ => none
  | .named name => if name ∈ sig.names then some name else none
  | .star i => some (starArgs i)
  | .keyword k => sig.varKeyword.map fun name => varKey name k

theorem starArgs_injective : Function.Injective starArgs := by
  intro i j h
  unfold starArgs at h
  rw [List.append_assoc, List.append_assoc] at h
  exact decimal_injective (List.append_cancel_right (List.append_cancel_left h))

theorem starArgs_eq_cons (i : Nat) : ∃ rest, starArgs i = star :: rest :=
  ⟨str "args[" ++ decimal i ++ str "]", rfl⟩

theorem starArgs_not_mem_names (sig : Signature ρ) (i : Nat) : starArgs i ∉ sig.names := by
  intro hmem
  obtain ⟨rest, hrest⟩ := starArgs_eq_cons i
  refine (sig.identifiers _ (mem_parameters_of_names hmem)).2 ?_
  rw [hrest]
  exact List.mem_cons_self

theorem starArgs_ne_varKey {kw : Str} (h : sig.varKeyword = some kw) (i : Nat) (k : Str) : starArgs i ≠ varKey kw k := by
  intro heq
  obtain ⟨rest, hrest⟩ := starArgs_eq_cons i
  have hstar : star ∉ kw := (sig.identifiers kw (by simp [h])).2
  rw [hrest] at heq
  cases kw with
  | nil => exact absurd (List.cons.inj heq).1 (by decide)
  | cons c kw =>
    rw [varKey, List.cons_append] at heq
    exact hstar ((List.cons.inj heq).1 ▸ List.mem_cons_self)

theorem varKey_not_mem_names (sig : Signature ρ) (kw k : Str) : varKey kw k ∉ sig.names :=
  fun hmem => varKey_not_mem_parameters sig kw k (mem_parameters_of_names hmem)

/-! ### The items -/

theorem namedArgs_of_bind (hb : bind sig call = some b) :
    namedArgs sig call = b.varArgs.zipIdx.map (fun e => (starArgs e.2, e.1)) ++ (b.named ++ varEntries sig b.varKwargs) := by
  rw [namedArgs, normalizeCallArgs_of_bind hb]
  rfl

theorem mem_star {i : Nat} {vs : List ρ} :
    (starArgs i, v) ∈ vs.zipIdx.map (fun e => (starArgs e.2, e.1)) ↔ vs[i]? = some v := by
  rw [List.mem_map, ← List.mk_mem_zipIdx_iff_getElem?]
  constructor
  · rintro ⟨e, he, heq⟩
    simp only [Prod.mk.injEq] at heq
    rw [← heq.2, ← starArgs_injective heq.1]
    exact he
  · intro h
    exact ⟨_, h, rfl⟩

theorem eq_star_of_mem {vs : List ρ} (h : (name, v) ∈ vs.zipIdx.map fun e => (starArgs e.2, e.1)) :
    ∃ i, name = starArgs i ∧ vs[i]? = some v := by
  obtain ⟨e, he, heq⟩ := List.mem_map.mp h
  cases heq
  exact ⟨e.2, rfl, List.mk_mem_zipIdx_iff_getElem?.mp he⟩

theorem eq_varKey_of_mem {varKwargs : List (Str × ρ)} (h : (name, v) ∈ varEntries sig varKwargs) :
    ∃ kw k, sig.varKeyword = some kw ∧ name = varKey kw k ∧ (k, v) ∈ varKwargs := by
  cases hkw : sig.varKeyword with
  | none => simp [varEntries, hkw] at h
  | some kw =>
    simp only [varEntries, hkw, List.mem_map] at h
    obtain ⟨e, he, heq⟩ := h
    cases heq
    exact ⟨kw, e.1, rfl, rfl, he⟩

theorem lookup_eq_some_iff {l : List (Str × ρ)} (hnodup : (l.map (·.1)).Nodup) :
    l.lookup name = some v ↔ (name, v) ∈ l := by
  constructor
  · intro h
    obtain ⟨l₁, l₂, rfl, -⟩ := List.lookup_eq_some_iff.mp h
    simp
  · exact lookup_of_mem hnodup

theorem named_nodup (hb : bind sig call = some b) : (b.named.map (·.1)).Nodup := by
  rw [bind_names hb]
  exact names_nodup sig

theorem varKwargs_nodup (hb : bind sig call = some b) : (b.varKwargs.map (·.1)).Nodup := by
  obtain ⟨_, _, _, -, -, -, -, -, rfl⟩ := bind_eq_some hb
  exact call.nodup.sublist (List.filter_sublist.map _)

/-- An item of `_named_args` is an argument under its name. -/
theorem mem_namedArgs (hb : bind sig call = some b) :
    (name, v) ∈ namedArgs sig call ↔ ∃ p, p.argName sig = some name ∧ argumentAt b p = some v := by
  rw [namedArgs_of_bind hb, List.mem_append, List.mem_append]
  constructor
  · rintro (h | h | h)
    · obtain ⟨i, rfl, hi⟩ := eq_star_of_mem h
      exact ⟨.star i, rfl, hi⟩
    · refine ⟨.named name, ?_, (lookup_eq_some_iff (named_nodup hb)).mpr h⟩
      rw [Place.argName, if_pos]
      rw [← bind_names hb]
      exact List.mem_map.mpr ⟨_, h, rfl⟩
    · obtain ⟨kw, k, hkw, rfl, hk⟩ := eq_varKey_of_mem h
      refine ⟨.keyword k, by rw [Place.argName, hkw]; rfl, ?_⟩
      exact (lookup_eq_some_iff (varKwargs_nodup hb)).mpr hk
  · rintro ⟨p, hname, hv⟩
    cases p with
    | module w => cases hv
    | named n =>
      simp only [Place.argName, Option.ite_none_right_eq_some, Option.some.injEq] at hname
      obtain ⟨-, rfl⟩ := hname
      exact .inr (.inl ((lookup_eq_some_iff (named_nodup hb)).mp hv))
    | star i =>
      cases hname
      exact .inl (mem_star.mpr hv)
    | keyword k =>
      obtain ⟨kw, hkw, rfl⟩ := Option.map_eq_some_iff.mp hname
      refine .inr (.inr ?_)
      simp only [varEntries, hkw, List.mem_map]
      exact ⟨(k, v), (lookup_eq_some_iff (varKwargs_nodup hb)).mp hv, rfl⟩

/-- A name is of one argument. -/
theorem argName_injective {q : Place} (hp : p.argName sig = some name) (hq : q.argName sig = some name) : p = q := by
  cases p with
  | module w => cases hp
  | named n =>
    simp only [Place.argName, Option.ite_none_right_eq_some, Option.some.injEq] at hp
    obtain ⟨hn, rfl⟩ := hp
    cases q with
    | module w => cases hq
    | named n' =>
      simp only [Place.argName, Option.ite_none_right_eq_some, Option.some.injEq] at hq
      rw [hq.2]
    | star i =>
      cases hq
      exact absurd hn (starArgs_not_mem_names sig i)
    | keyword k =>
      obtain ⟨kw, hkw, rfl⟩ := Option.map_eq_some_iff.mp hq
      exact absurd hn (varKey_not_mem_names sig kw k)
  | star i =>
    cases hp
    cases q with
    | module w => cases hq
    | named n' =>
      simp only [Place.argName, Option.ite_none_right_eq_some, Option.some.injEq] at hq
      obtain ⟨hn, rfl⟩ := hq
      exact absurd hn (starArgs_not_mem_names sig i)
    | star j => rw [starArgs_injective (Option.some.inj hq)]
    | keyword k =>
      obtain ⟨kw, hkw, heq⟩ := Option.map_eq_some_iff.mp hq
      exact absurd heq.symm (starArgs_ne_varKey hkw i k)
  | keyword k =>
    obtain ⟨kw, hkw, rfl⟩ := Option.map_eq_some_iff.mp hp
    cases q with
    | module w => cases hq
    | named n' =>
      simp only [Place.argName, Option.ite_none_right_eq_some, Option.some.injEq] at hq
      obtain ⟨hn, rfl⟩ := hq
      exact absurd hn (varKey_not_mem_names sig kw k)
    | star i =>
      exact absurd (Option.some.inj hq) (starArgs_ne_varKey hkw i k)
    | keyword k' =>
      obtain ⟨kw', hkw', heq⟩ := Option.map_eq_some_iff.mp hq
      rw [hkw] at hkw'
      cases hkw'
      rw [varKey_injective kw heq]

theorem namedArgs_nodup (hb : bind sig call = some b) : ((namedArgs sig call).map (·.1)).Nodup := by
  rw [namedArgs_of_bind hb, List.map_append, List.map_append, List.nodup_append', List.nodup_append']
  refine ⟨?_, ⟨named_nodup hb, ?_, ?_⟩, ?_⟩
  · have hkeys : (b.varArgs.zipIdx.map fun e => (starArgs e.2, e.1)).map (·.1) =
        (b.varArgs.zipIdx.map (·.2)).map starArgs := by
      rw [List.map_map, List.map_map]
      rfl
    rw [hkeys, List.zipIdx_map_snd]
    exact (List.nodup_range' _).map starArgs_injective
  · cases hkw : sig.varKeyword with
    | none => simp [varEntries, hkw]
    | some kw =>
      have hkeys : (varEntries sig b.varKwargs).map (·.1) = (b.varKwargs.map (·.1)).map (varKey kw) := by
        simp [varEntries, hkw, Function.comp_def]
      rw [hkeys]
      exact (varKwargs_nodup hb).map (varKey_injective kw)
  · intro n hn hvar
    obtain ⟨e, he, rfl⟩ := List.mem_map.mp hvar
    obtain ⟨kw, k, -, heq, -⟩ := eq_varKey_of_mem he
    rw [bind_names hb, heq] at hn
    exact varKey_not_mem_names sig kw k hn
  · intro n hn hrest
    obtain ⟨e, he, rfl⟩ := List.mem_map.mp hn
    obtain ⟨i, heq, -⟩ := eq_star_of_mem he
    rw [heq] at hrest
    rcases List.mem_append.mp hrest with hrest | hrest
    · rw [bind_names hb] at hrest
      exact starArgs_not_mem_names sig i hrest
    · obtain ⟨e', he', heq'⟩ := List.mem_map.mp hrest
      obtain ⟨kw, k, hkw, hvar, -⟩ := eq_varKey_of_mem he'
      exact starArgs_ne_varKey hkw i k (heq'.symm.trans hvar)

/-- The argument a name stands for. -/
theorem argument_namedArgs (hb : bind sig call = some b) (hp : p.argName sig = some name) :
    argument (namedArgs sig call) name = argumentAt b p := by
  have hnodup : ((namedArgs sig call).reverse.map (·.1)).Nodup := by
    rw [List.map_reverse, List.nodup_reverse]
    exact namedArgs_nodup hb
  refine Option.ext ?_
  intro v
  rw [argument, lookup_eq_some_iff hnodup, List.mem_reverse, mem_namedArgs hb]
  constructor
  · rintro ⟨q, hq, hv⟩
    rw [argName_injective hp hq]
    exact hv
  · intro hv
    exact ⟨p, hp, hv⟩

end

/-! ## A hit leaves the random generators where the computed call left them -/

section

variable {S ρ : Type} [DecidableEq S] [DecidableEq ρ] {c : Computed ρ S} {h : Hit c.sig S} {p q : Place} {o : ρ}
  {pre post : S} {m : Stream}

/-! ### The global streams -/

omit [DecidableEq S] [DecidableEq ρ] in
theorem Computed.Advanced.ne (ha : c.Advanced m) : c.pre m ≠ c.post m := by
  obtain ⟨b, a, hb, ha, hne⟩ := ha
  rw [hb, ha]
  simpa using hne

omit [DecidableEq S] [DecidableEq ρ] in
theorem advanced_of_ne (hne : c.pre m ≠ c.post m) (hpre : (c.pre m).isSome) (hpost : (c.post m).isSome) :
    c.Advanced m := by
  obtain ⟨b, hb⟩ := Option.isSome_iff_exists.mp hpre
  obtain ⟨a, ha⟩ := Option.isSome_iff_exists.mp hpost
  refine ⟨b, a, hb, ha, ?_⟩
  rintro rfl
  exact hne (hb.trans ha.symm)

/-- What the hit leaves of the streams, where the body drew from one or was known to. -/
theorem replay_globals (hdrew : ∃ m, c.Advanced m) :
    (h.replay c.replayParts).globals = replayGlobals c.pre c.post h.live.globals := by
  obtain ⟨m, hm⟩ := hdrew
  have hdrawn : m ∈ drawnStreams (captureRngState c.before.globals) (captureRngState c.after.globals) := by
    obtain ⟨b, a, hb, -⟩ := id hm
    refine List.mem_filter.mpr ⟨mem_changed.mpr hm.ne, ?_⟩
    rw [show captureRngState c.before.globals m = some b from hb]
    rfl
  have hne : c.known ++ drawnStreams (captureRngState c.before.globals) (captureRngState c.after.globals) ≠ [] :=
    List.ne_nil_of_mem (List.mem_append_right _ hdrawn)
  simp only [Hit.replay, Computed.replayParts, if_pos hne]
  rfl

theorem replay_globals_cases : (h.replay c.replayParts).globals = h.live.globals ∨
    (h.replay c.replayParts).globals = replayGlobals c.pre c.post h.live.globals := by
  simp only [Hit.replay, Computed.replayParts]
  split
  · rename_i heq
    split at heq
    · cases heq
      exact .inr rfl
    · cases heq
  · exact .inl rfl

/-- A stream the body did not advance is left alone. -/
theorem replay_other (hm : ¬ c.Advanced m) :
    captureRngState (h.replay c.replayParts).globals m = captureRngState h.live.globals m := by
  rcases replay_globals_cases (h := h) with heq | heq
  · rw [heq]
  · rw [heq]
    rcases replayGlobals_cases c.pre c.post h.live.globals with heq' | ⟨hall, heq'⟩
    · rw [heq']
    · rw [heq']
      refine capture_restore_of_none ?_
      rw [if_neg]
      intro hne
      exact hm (advanced_of_ne hne (hall m hne).1 (hall m hne).2.1)

/-- Where a stream the body advanced stands elsewhere, all are left alone. -/
theorem replay_elsewhere (hm : ∃ m, c.Advanced m ∧ captureRngState h.live.globals m ≠ c.pre m) (m : Stream) :
    captureRngState (h.replay c.replayParts).globals m = captureRngState h.live.globals m := by
  obtain ⟨k, hk, hne⟩ := hm
  rw [replay_globals ⟨k, hk⟩]
  rcases replayGlobals_cases c.pre c.post h.live.globals with heq | ⟨hall, -⟩
  · rw [heq]
  · exact absurd (hall k hk.ne).2.2 hne

/-- The streams the body advanced are replayed exactly where it imported no module with a stream and advanced those of
the CUDA devices together with torch's. -/
theorem replay_advanced_iff :
    ((∀ m, c.Advanced m → captureRngState h.live.globals m = c.pre m) →
      ∀ m, c.Advanced m → captureRngState (h.replay c.replayParts).globals m = c.post m) ↔ KeepsStreams c h := by
  constructor
  · intro hreplay hdrew hstand
    have hpost := hreplay hstand
    rw [replay_globals hdrew] at hpost
    rcases replayGlobals_cases c.pre c.post h.live.globals with heq | ⟨hall, heq⟩
    · obtain ⟨m, hm⟩ := hdrew
      rw [heq] at hpost
      exact absurd ((hstand m hm).symm.trans (hpost m hm)) hm.ne
    · refine ⟨?_, ?_⟩
      · intro m
        by_cases hne : c.pre m = c.post m
        · rw [hne]
        · rw [(hall m hne).1, (hall m hne).2.1]
      · intro hcuda
        by_contra htorch
        have hsame : c.pre .torch = c.post .torch := by
          by_contra hne
          exact htorch (advanced_of_ne hne (hall _ hne).1 (hall _ hne).2.1)
        have hunchanged := hpost .torchCuda hcuda
        rw [heq, capture_restore_cuda (by simp [hsame]), hstand .torchCuda hcuda] at hunchanged
        exact hcuda.ne hunchanged
  · intro hkeeps hstand m hm
    obtain ⟨hsome, htorch⟩ := hkeeps ⟨m, hm⟩ hstand
    have hadvanced : ∀ m, c.pre m ≠ c.post m → c.Advanced m := by
      intro m hne
      have hboth := hsome m
      cases hpre : c.pre m with
      | none =>
        rw [hpre, Option.isSome_none, eq_comm, Option.isSome_eq_false_iff, Option.isNone_iff_eq_none] at hboth
        exact absurd (hpre.trans hboth.symm) hne
      | some b =>
        rw [hpre, Option.isSome_some, eq_comm] at hboth
        exact advanced_of_ne hne (by rw [hpre]; rfl) hboth
    have hall : ∀ m, c.pre m ≠ c.post m →
        (c.pre m).isSome ∧ (c.post m).isSome ∧ captureRngState h.live.globals m = c.pre m := by
      intro m hne
      obtain ⟨b, a, hb, ha, -⟩ := id (hadvanced m hne)
      exact ⟨by rw [hb]; rfl, by rw [ha]; rfl, hstand m (hadvanced m hne)⟩
    obtain ⟨b, a, hb, ha, -⟩ := id hm
    rw [replay_globals ⟨m, hm⟩, replayGlobals_eq hall ⟨m, hm.ne⟩, ha]
    refine capture_restore_of_some ?_ ?_ ?_
    · rw [if_pos hm.ne, ha]
    · rw [hstand m hm, hb]
      rfl
    · rintro rfl
      have htorch' := htorch hm
      rw [if_pos htorch'.ne]
      exact (hall _ htorch'.ne).2.1

/-! ### Generators held by objects -/

omit [DecidableEq S] [DecidableEq ρ] in
theorem at_of_carrierState {gens : Gens ρ S} {obj : ρ} (hs : carrierState gens obj = some pre) :
    gens obj = some (.at pre) := by
  unfold carrierState at hs
  split at hs
  · rename_i hat
    cases hs
    exact hat
  · cases hs

omit [DecidableEq S] [DecidableEq ρ] in
/-- An argument is held where its name says. -/
theorem holds_of_mem_namedArgs {name : Str} {obj : ρ} (hmem : (name, obj) ∈ namedArgs c.sig c.call) :
    ∃ p, p.argName c.sig = some name ∧ c.Holds p obj ∧ argument (namedArgs c.sig h.call) name = h.finds p := by
  obtain ⟨p, hname, hobj⟩ := (mem_namedArgs c.binds).mp hmem
  have hfinds := argument_namedArgs h.binds hname
  cases p with
  | module w => cases hname
  | named n => exact ⟨.named n, hname, hobj, hfinds⟩
  | star i => exact ⟨.star i, hname, hobj, hfinds⟩
  | keyword k => exact ⟨.keyword k, hname, hobj, hfinds⟩

/-- A record of the module channel is of a generator the body moved. -/
theorem moves_of_carrier {m : Moved S Where} (hm : m ∈ c.carriersMoved) (hfor : m.For h.modules o pre post) :
    ∃ p, c.Moves p pre post ∧ pre ≠ post ∧ h.finds p = some o := by
  obtain ⟨obj, hmem, hpre, hpost, hne⟩ := mem_moved hm
  obtain ⟨hplace, hpre', hpost'⟩ := hfor
  obtain ⟨w, hw, hresolve⟩ := Option.bind_eq_some_iff.mp hplace
  rw [hw] at hmem
  rw [hpre'] at hpre hne
  rw [hpost'] at hpost hne
  refine ⟨.module w, ⟨obj, hmem, at_of_carrierState hpre.symm, at_of_carrierState hpost.symm⟩, ?_, hresolve⟩
  simpa using hne

/-- And of the argument channel. -/
theorem moves_of_argument {m : Moved S Str} (hm : m ∈ c.argCarriersMoved)
    (hfor : m.For (argument (namedArgs c.sig h.call)) o pre post) :
    ∃ p, c.Moves p pre post ∧ pre ≠ post ∧ h.finds p = some o := by
  obtain ⟨obj, hmem, hpre, hpost, hne⟩ := mem_moved hm
  obtain ⟨hplace, hpre', hpost'⟩ := hfor
  obtain ⟨name, hname, hresolve⟩ := Option.bind_eq_some_iff.mp hplace
  rw [hname] at hmem
  obtain ⟨e, he, heq⟩ := List.mem_map.mp hmem
  cases heq
  obtain ⟨p, -, hholds, hfinds⟩ := holds_of_mem_namedArgs (h := h) he
  rw [hpre'] at hpre hne
  rw [hpost'] at hpost hne
  refine ⟨p, ⟨e.2, hholds, at_of_carrierState hpre.symm, at_of_carrierState hpost.symm⟩, ?_, ?_⟩
  · simpa using hne
  · rw [← hfinds]
    exact hresolve

omit [DecidableEq S] [DecidableEq ρ] in
/-- Places that are one object at the hit were moved alike by the body. -/
theorem SameObjects.moves (hsame : SameObjects c h) {pre' post' : S} (hp : c.Moves p pre post)
    (hq : c.Moves q pre' post') (hpo : h.finds p = some o) (hqo : h.finds q = some o) : pre' = pre ∧ post' = post := by
  obtain ⟨obj, hholds, hpre, hpost⟩ := hp
  obtain ⟨obj', hholds', hpre', hpost'⟩ := hq
  have heq := (hsame p q obj obj' hholds hholds').2 o hpo hqo
  subst heq
  rw [hpre] at hpre'
  rw [hpost] at hpost'
  cases hpre'
  cases hpost'
  exact ⟨rfl, rfl⟩

/-- A generator that no place the body moved it from holds is left alone. -/
theorem replay_untouched (ho : ∀ p pre post, c.Moves p pre post → pre ≠ post → h.finds p = some o →
      h.live.gens o ≠ some (.at pre)) : (h.replay c.replayParts).gens o = h.live.gens o := by
  have hmodules : replayCarriers h.modules c.carriersMoved h.live.gens o = h.live.gens o := by
    refine replayCarriers_of_not ?_
    intro m hm pre post hfor
    obtain ⟨p, hmoves, hne, hfinds⟩ := moves_of_carrier hm hfor
    exact ho p pre post hmoves hne hfinds
  refine (replayCarriers_of_not ?_).trans hmodules
  intro m hm pre post hfor
  obtain ⟨p, hmoves, hne, hfinds⟩ := moves_of_argument hm hfor
  rw [show (replayCarriers h.modules c.replayParts.carriers h.live.gens) o = h.live.gens o from hmodules]
  exact ho p pre post hmoves hne hfinds

omit [DecidableEq S] [DecidableEq ρ] in
theorem place_of_replayable {W : Type} {moved : List (Moved S W)} (hr : replayable moved = true) {m : Moved S W}
    (hm : m ∈ moved) : ∃ w, m.place = some w := by
  have hall := List.all_eq_true.mp hr m hm
  simp only [Bool.and_eq_true] at hall
  exact Option.isSome_iff_exists.mp hall.1.1

/-- A generator the body moved is recorded under a place that holds the same one at the hit. -/
theorem exists_record (hstored : c.stored = true) (hsame : SameObjects c h) (hmoves : c.Moves p pre post)
    (hne : pre ≠ post) (hfinds : h.finds p = some o) :
    (∃ m ∈ c.carriersMoved, m.For h.modules o pre post) ∨
      ∃ m ∈ c.argCarriersMoved, m.For (argument (namedArgs c.sig h.call)) o pre post := by
  obtain ⟨hmodules, -⟩ := Bool.and_eq_true_iff.mp hstored
  obtain ⟨obj, hholds, hpre, hpost⟩ := hmoves
  have harg : (∃ name, (name, obj) ∈ namedArgs c.sig c.call) →
      ∃ m ∈ c.argCarriersMoved, m.For (argument (namedArgs c.sig h.call)) o pre post := by
    rintro ⟨name, hmem⟩
    have hmem' : (obj, some name) ∈ (namedArgs c.sig c.call).map fun e => (e.2, some e.1) :=
      List.mem_map.mpr ⟨_, hmem, rfl⟩
    obtain ⟨m, hm, hplace, hmpre, hmpost⟩ := exists_moved hmem' hpre hpost hne
    obtain ⟨e, he, heq⟩ := List.mem_map.mp hplace
    simp only [Prod.mk.injEq] at heq
    obtain ⟨q, -, hq, hargument⟩ := holds_of_mem_namedArgs (h := h) he
    rw [heq.1] at hq
    refine ⟨m, hm, ?_, hmpre, hmpost⟩
    rw [← heq.2, Option.bind_some, hargument, ← (hsame p q obj obj hholds hq).1 rfl]
    exact hfinds
  have hname : argumentAt c.bound p = some obj → ∃ name, (name, obj) ∈ namedArgs c.sig c.call := by
    intro hat
    have hargName : ∃ name, p.argName c.sig = some name := by
      cases p with
      | module w => cases hat
      | named n =>
        refine ⟨n, if_pos ?_⟩
        rw [← bind_names c.binds]
        exact List.mem_map.mpr ⟨_, (lookup_eq_some_iff (named_nodup c.binds)).mp hat, rfl⟩
      | star i => exact ⟨starArgs i, rfl⟩
      | keyword k =>
        cases hkw : c.sig.varKeyword with
        | none =>
          have hnil : c.bound.varKwargs = [] := varKwargs_of_bind c.binds hkw
          rw [argumentAt, hnil] at hat
          cases hat
        | some kw => exact ⟨varKey kw k, by rw [Place.argName, hkw]; rfl⟩
    obtain ⟨name, hname⟩ := hargName
    exact ⟨name, (mem_namedArgs c.binds).mpr ⟨p, hname, hat⟩⟩
  cases p with
  | module w =>
    have hholds' : (obj, some w) ∈ c.reached := hholds
    obtain ⟨m, hm, hplace, hmpre, hmpost⟩ := exists_moved hholds' hpre hpost hne
    obtain ⟨w', hw'⟩ := place_of_replayable hmodules hm
    rw [hw'] at hplace
    refine .inl ⟨m, hm, ?_, hmpre, hmpost⟩
    rw [hw', Option.bind_some]
    exact ((hsame (.module w) (.module w') obj obj hholds hplace).1 rfl).symm.trans hfinds
  | named n => exact .inr (harg (hname hholds))
  | star i => exact .inr (harg (hname hholds))
  | keyword k => exact .inr (harg (hname hholds))

/-- A generator that stands where the body found it is moved to where the body left it. -/
theorem replay_carrier (hstored : c.stored = true) (hsame : SameObjects c h) (hmoves : c.Moves p pre post)
    (hfinds : h.finds p = some o) (hat : h.live.gens o = some (.at pre)) :
    (h.replay c.replayParts).gens o = some (.at post) := by
  have hrecord : ∀ m ∈ c.carriersMoved, ∀ pre' post', m.For h.modules o pre' post' →
      pre' = pre ∧ post' = post ∧ pre ≠ post := by
    intro m hm pre' post' hfor
    obtain ⟨q, hq, hne, hqo⟩ := moves_of_carrier hm hfor
    obtain ⟨rfl, rfl⟩ := hsame.moves hmoves hq hfinds hqo
    exact ⟨rfl, rfl, hne⟩
  have hargument : ∀ m ∈ c.argCarriersMoved, ∀ pre' post',
      m.For (argument (namedArgs c.sig h.call)) o pre' post' → pre' = pre ∧ post' = post ∧ pre ≠ post := by
    intro m hm pre' post' hfor
    obtain ⟨q, hq, hne, hqo⟩ := moves_of_argument hm hfor
    obtain ⟨rfl, rfl⟩ := hsame.moves hmoves hq hfinds hqo
    exact ⟨rfl, rfl, hne⟩
  by_cases hne : pre = post
  · subst hne
    rw [← hat]
    refine replay_untouched ?_
    intro q pre' post' hq hne' hqo
    obtain ⟨rfl, rfl⟩ := hsame.moves hmoves hq hfinds hqo
    exact absurd rfl hne'
  by_cases hmodule : ∃ m ∈ c.carriersMoved, m.For h.modules o pre post
  · have hstage : replayCarriers h.modules c.carriersMoved h.live.gens o = some (.at post) := by
      refine replayCarriers_of_for hne ?_ hmodule hat
      intro m hm pre' post' hfor
      obtain ⟨hpre, hpost, -⟩ := hrecord m hm pre' post' hfor
      exact ⟨hpre, hpost⟩
    refine (replayCarriers_of_not ?_).trans hstage
    intro m hm pre' post' hfor
    obtain ⟨rfl, -, -⟩ := hargument m hm pre' post' hfor
    rw [show (replayCarriers h.modules c.replayParts.carriers h.live.gens) o = some (.at post) from hstage]
    simpa using Ne.symm hne
  · have hstage : replayCarriers h.modules c.carriersMoved h.live.gens o = h.live.gens o := by
      refine replayCarriers_of_not ?_
      intro m hm pre' post' hfor
      obtain ⟨rfl, rfl, -⟩ := hrecord m hm pre' post' hfor
      exact absurd ⟨m, hm, hfor⟩ hmodule
    have harg := (exists_record hstored hsame hmoves hne hfinds).resolve_left hmodule
    refine replayCarriers_of_for hne ?_ harg (hstage.trans hat)
    intro m hm pre' post' hfor
    obtain ⟨hpre, hpost, -⟩ := hargument m hm pre' post' hfor
    exact ⟨hpre, hpost⟩

/-- A hit leaves the generators where the computed call left them exactly where the body imported no module with a
global stream, and advanced those of the CUDA devices only together with torch's. -/
theorem leavesGenerators_iff (hstored : c.stored = true) (hsame : SameObjects c h) :
    LeavesGenerators c h (h.replay c.replayParts) ↔ KeepsStreams c h := by
  constructor
  · intro hleaves
    exact replay_advanced_iff.mp hleaves.advanced
  · intro hkeeps
    refine ⟨replay_advanced_iff.mpr hkeeps, replay_elsewhere, fun m hm => replay_other hm, ?_, ?_⟩
    · intro p o pre post hmoves hfinds hat
      exact replay_carrier hstored hsame hmoves hfinds hat
    · intro o ho
      exact replay_untouched ho

/-- A function of one parameter, `g`. -/
def drawing : Signature Nat := ⟨[], [⟨[103], none⟩], none, [], none, by decide, by decide⟩

/-- A call that moves `random`, the generator in `g` and one of a module. -/
def drawn : Computed Nat Nat where
  sig := drawing
  call := ⟨[5], [], by decide⟩
  bound := ⟨[([103], 5)], [], []⟩
  binds := rfl
  reached := [(7, some ([109], [114]))]
  before := ⟨⟨some 0, none, none⟩, fun o => if o = 5 then some (.at 0) else if o = 7 then some (.at 10) else none⟩
  after := ⟨⟨some 3, none, none⟩, fun o => if o = 5 then some (.at 1) else if o = 7 then some (.at 12) else none⟩
  known := []

/-- A hit in a later process, with the argument by keyword. -/
def drawnAgain : Hit drawing Nat where
  call := ⟨[], [([103], 6)], by decide⟩
  bound := ⟨[([103], 6)], [], []⟩
  binds := rfl
  modules := fun w => if w = ([109], [114]) then some 8 else none
  live := ⟨⟨some 0, none, none⟩, fun o => if o = 6 then some (.at 0) else if o = 8 then some (.at 10) else none⟩

theorem drawn_holds {p : Place} {obj : Nat} (hp : drawn.Holds p obj) :
    p = .module ([109], [114]) ∧ obj = 7 ∨ p = .named [103] ∧ obj = 5 := by
  cases p with
  | module w =>
    have hmem : (obj, some w) ∈ drawn.reached := hp
    simp [drawn] at hmem
    exact .inl ⟨by rw [hmem.2], hmem.1⟩
  | named name =>
    have hat : drawn.bound.named.lookup name = some obj := hp
    have hmem := (lookup_eq_some_iff (named_nodup drawn.binds)).mp hat
    simp [drawn] at hmem
    exact .inr ⟨by rw [hmem.1], hmem.2⟩
  | star i => cases hp
  | keyword k => cases hp

theorem leavesGenerators_iff_of_draw : LeavesGenerators drawn drawnAgain (drawnAgain.replay drawn.replayParts) ∧
    captureRngState (drawnAgain.replay drawn.replayParts).globals .random = some 3 ∧
    (drawnAgain.replay drawn.replayParts).gens 6 = some (.at 1) ∧
    (drawnAgain.replay drawn.replayParts).gens 8 = some (.at 12) := by
  have hsame : SameObjects drawn drawnAgain := by
    intro p q obj obj' hp hq
    rcases drawn_holds hp with ⟨rfl, rfl⟩ | ⟨rfl, rfl⟩ <;> rcases drawn_holds hq with ⟨rfl, rfl⟩ | ⟨rfl, rfl⟩
    · exact ⟨fun _ => rfl, fun _ _ _ => rfl⟩
    · exact ⟨by decide, by rintro o hp hq; cases hp; cases hq⟩
    · exact ⟨by decide, by rintro o hp hq; cases hp; cases hq⟩
    · exact ⟨fun _ => rfl, fun _ _ _ => rfl⟩
  refine ⟨(leavesGenerators_iff rfl hsame).mpr ?_, rfl, rfl, rfl⟩
  intro _ _
  refine ⟨?_, ?_⟩
  · intro m
    cases m <;> rfl
  · rintro ⟨b, a, hb, -⟩
    cases hb

/-- The body draws from `random` and imports numpy: a hit that finds `random` where the body did leaves it there. -/
theorem import_stops_replay : ∃ (c : Computed Nat Nat) (h : Hit c.sig Nat), c.stored = true ∧ SameObjects c h ∧
    ¬ LeavesGenerators c h (h.replay c.replayParts) := by
  refine ⟨{ drawn with
    reached := []
    before := ⟨⟨some 0, none, none⟩, fun _ => none⟩
    after := ⟨⟨some 1, some 9, none⟩, fun _ => none⟩ },
    { drawnAgain with live := ⟨⟨some 0, some 9, none⟩, fun _ => none⟩ }, rfl, ?_, ?_⟩
  · intro p q obj obj' hp hq
    have hnamed : ∀ {p : Place} {obj : Nat}, drawn.Holds p obj → p ≠ .module ([109], [114]) →
        p = .named [103] ∧ obj = 5 := by
      intro p obj hp hne
      exact (drawn_holds hp).resolve_left fun h => hne h.1
    cases p with
    | module w => cases hp
    | star i => cases hp
    | keyword k => cases hp
    | named n =>
      cases q with
      | module w => cases hq
      | star i => cases hq
      | keyword k => cases hq
      | named n' =>
        obtain ⟨hn, rfl⟩ := hnamed (p := .named n) hp (by simp)
        obtain ⟨hn', rfl⟩ := hnamed (p := .named n') hq (by simp)
        rw [hn, hn']
        exact ⟨fun _ => rfl, fun _ _ _ => rfl⟩
  · intro hleaves
    have hstand := hleaves.advanced ?_ .random ⟨0, 1, rfl, rfl, by decide⟩
    · cases hstand
    · rintro m ⟨b, a, hb, -⟩
      cases m with
      | random => rfl
      | numpyRandom => cases hb
      | torch => cases hb
      | torchCuda => cases hb

end

end Cash.Rng
