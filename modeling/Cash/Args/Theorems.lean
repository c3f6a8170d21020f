import Cash.Args.Lemmas.Bind
import Mathlib.Data.List.Nodup

/-!
# A call's key form is its bound arguments
-/

namespace Cash.Args

open Py

variable {V H : Type} {sig : Signature V} {ignored : List Str} {call call' : Call V} {b b' : Bound V}

/-! ## The normalised form -/

/-- What is kept of the keywords of a normalised form. -/
def kept (ignored : List Str) (k : Str) : Prop := k ∉ ignored ∧ partition k ∉ ignored

instance (ignored : List Str) : DecidablePred (kept ignored) := fun _ => inferInstanceAs (Decidable (_ ∧ _))

theorem kept_of_identifier {k : Str} (h : colon ∉ k) : kept ignored k ↔ k ∉ ignored := by
  rw [kept, partition_of_not_mem h, and_self]

theorem kept_varKey (hignored : ∀ name ∈ ignored, name ∈ sig.parameters) {name : Str} (h : colon ∉ name) (k : Str) :
    kept ignored (varKey name k) ↔ name ∉ ignored := by
  rw [kept, partition_varKey h]
  constructor
  · exact And.right
  · intro hname
    exact ⟨fun hmem => varKey_not_mem_parameters sig name k (hignored _ hmem), hname⟩

/-- The entries of `**kwargs` are kept together. -/
theorem filter_varEntries (hignored : ∀ name ∈ ignored, name ∈ sig.parameters) (varKwargs : List (Str × V)) :
    ((varEntries sig varKwargs).filter fun e => kept ignored e.1) =
      if ∃ name, sig.varKeyword = some name ∧ name ∉ ignored then varEntries sig varKwargs else [] := by
  cases hname : sig.varKeyword with
  | none => simp [varEntries, hname]
  | some name =>
    have hcolon : colon ∉ name := (sig.identifiers name (by simp [hname])).1
    by_cases hmem : name ∈ ignored
    · rw [if_neg (by simp [hmem]), List.filter_eq_nil_iff]
      intro e he
      simp only [varEntries, hname, List.mem_map] at he
      obtain ⟨e', -, rfl⟩ := he
      simp [kept_varKey hignored hcolon, hmem]
    · rw [if_pos ⟨name, rfl, hmem⟩, List.filter_eq_self]
      intro e he
      simp only [varEntries, hname, List.mem_map] at he
      obtain ⟨e', -, rfl⟩ := he
      simp [kept_varKey hignored hcolon, hmem]

@[simp] theorem varEntries_nil (sig : Signature V) : varEntries sig [] = [] := by
  unfold varEntries
  split <;> rfl

theorem varEntries_injective {name : Str} (h : sig.varKeyword = some name) {l l' : List (Str × V)}
    (heq : varEntries sig l = varEntries sig l') : l = l' := by
  simp only [varEntries, h] at heq
  refine List.map_injective_iff.mpr ?_ heq
  rintro ⟨k, v⟩ ⟨k', v'⟩ hkv
  simp only [Prod.mk.injEq] at hkv
  rw [varKey_injective name hkv.1, hkv.2]

/-- The keyed form of a call that binds. -/
theorem keyedArguments_of_bind (hignored : ∀ name ∈ ignored, name ∈ sig.parameters) (h : bind sig call = some b) :
    keyedArguments sig ignored call (normalizeCallArgs sig call) =
      { args := if ∃ name, sig.varPositional = some name ∧ name ∈ ignored then [] else b.varArgs
        kwargs := (b.named.filter fun e => kept ignored e.1) ++
          if ∃ name, sig.varKeyword = some name ∧ name ∉ ignored then varEntries sig b.varKwargs else [] } := by
  rw [← filter_varEntries hignored, ← List.filter_append, keyedArguments, h, normalizeCallArgs_of_bind h]
  rfl

theorem keyedArguments_eq_iff (hignored : ∀ name ∈ ignored, name ∈ sig.parameters) (h : bind sig call = some b)
    (h' : bind sig call' = some b') :
    keyedArguments sig ignored call (normalizeCallArgs sig call) =
      keyedArguments sig ignored call' (normalizeCallArgs sig call') ↔ BindsAlike sig ignored b b' := by
  have hkeys : b.named.map (·.1) = b'.named.map (·.1) := (bind_names h).trans (bind_names h').symm
  have hnodup : (b.named.map (·.1)).Nodup := by
    rw [bind_names h]
    exact names_nodup sig
  have hnamed : (b.named.filter fun e => kept ignored e.1) = (b'.named.filter fun e => kept ignored e.1) ↔
      ∀ name ∈ sig.names, name ∉ ignored → ∀ v, (name, v) ∈ b.named ↔ (name, v) ∈ b'.named := by
    rw [filter_eq_iff hkeys hnodup, bind_names h]
    refine forall₂_congr ?_
    intro name hname
    rw [kept_of_identifier (sig.identifiers name (mem_parameters_of_names hname)).1]
  have hlength : (b.named.filter fun e => kept ignored e.1).length = (b'.named.filter fun e => kept ignored e.1).length := by
    have hfilter : ∀ l : List (Str × V), (l.filter fun e => kept ignored e.1).length =
        ((l.map (·.1)).filter fun k => kept ignored k).length := by
      intro l
      rw [List.filter_map, List.length_map]
      rfl
    rw [hfilter, hfilter, hkeys]
  have hargs : (if ∃ name, sig.varPositional = some name ∧ name ∈ ignored then [] else b.varArgs) =
      (if ∃ name, sig.varPositional = some name ∧ name ∈ ignored then [] else b'.varArgs) ↔
      ∀ name, sig.varPositional = some name → name ∉ ignored → b.varArgs = b'.varArgs := by
    cases hname : sig.varPositional with
    | none => simp [varArgs_of_bind h hname, varArgs_of_bind h' hname]
    | some name =>
      by_cases hmem : name ∈ ignored
      · simp [hmem]
      · simp [hmem]
  have hkwargs : (if ∃ name, sig.varKeyword = some name ∧ name ∉ ignored then varEntries sig b.varKwargs else []) =
      (if ∃ name, sig.varKeyword = some name ∧ name ∉ ignored then varEntries sig b'.varKwargs else []) ↔
      ∀ name, sig.varKeyword = some name → name ∉ ignored → b.varKwargs = b'.varKwargs := by
    constructor
    · intro heq name hname hmem
      rw [if_pos ⟨name, hname, hmem⟩, if_pos ⟨name, hname, hmem⟩] at heq
      exact varEntries_injective hname heq
    · intro heq
      split
      · rename_i hex
        obtain ⟨name, hname, hmem⟩ := hex
        rw [heq name hname hmem]
      · rfl
  rw [keyedArguments_of_bind hignored h, keyedArguments_of_bind hignored h', Form.mk.injEq, BindsAlike, ← hnamed,
    ← hargs, ← hkwargs]
  constructor
  · rintro ⟨ha, hk⟩
    obtain ⟨hn, hv⟩ := List.append_inj hk hlength
    exact ⟨hn, ha, hv⟩
  · rintro ⟨hn, ha, hv⟩
    exact ⟨ha, by rw [hn, hv]⟩

/-! ## The raw form -/

theorem AgreesOnPassed.refl (sig : Signature V) (call : Call V) (b : Bound V) : AgreesOnPassed sig call b b :=
  ⟨fun _ _ _ => id, fun _ => rfl, fun _ => rfl⟩

theorem call_ext (h : call.raw = call'.raw) : call = call' := by
  obtain ⟨args, kwargs, hn⟩ := call
  obtain ⟨args', kwargs', hn'⟩ := call'
  simp only [Call.raw, Form.mk.injEq] at h
  obtain ⟨rfl, rfl⟩ := h
  rfl

/-- A raw form that is the normalised form of some call names the parameters. -/
theorem namesParameters_of_raw_eq (h' : bind sig call' = some b') (heq : call.raw = normalizeCallArgs sig call') :
    NamesParameters sig call := by
  have hnames := bind_names h'
  have hform := heq.trans (normalizeCallArgs_of_bind h')
  obtain ⟨posonly, ordinary, kwonly, -, -, -, hargs, hkwargs, rfl⟩ := bind_eq_some h'
  simp only [Call.raw, Bound.form, Form.mk.injEq] at hform hnames
  obtain ⟨hva, hkw⟩ := hform
  refine ⟨fun hne => hargs (hva ▸ hne), ?_⟩
  cases hname : sig.varKeyword with
  | none =>
    refine ⟨[], by simp, ?_⟩
    rw [hkw]
    simpa [varEntries, hname] using hnames
  | some name =>
    refine ⟨(varKwargsOf sig call').map (·.1), ?_, ?_⟩
    · intro k hk
      obtain ⟨e, he, rfl⟩ := List.mem_map.mp hk
      exact ⟨by simpa using (List.mem_filter.mp he).2, rfl⟩
    · rw [hkw, List.map_append, hnames]
      simp [varEntries, hname, Function.comp_def]

/-- Entries whose keys begin with the name of `**kwargs` are those of some `**kwargs`. -/
theorem exists_varEntries {name : Str} (hname : sig.varKeyword = some name) {entries : List (Str × V)} {keys : List Str}
    (h : entries.map (·.1) = keys.map (varKey name)) :
    ∃ varKwargs : List (Str × V), varKwargs.map (·.1) = keys ∧ varEntries sig varKwargs = entries := by
  simp only [varEntries, hname]
  induction entries generalizing keys with
  | nil =>
    have hnil : keys = [] := by simpa using h.symm
    exact ⟨[], hnil.symm, rfl⟩
  | cons e entries ih =>
    cases keys with
    | nil => cases h
    | cons k keys =>
      simp only [List.map_cons, List.cons.injEq] at h
      obtain ⟨varKwargs, hkeys, hentries⟩ := ih h.2
      refine ⟨(k, e.2) :: varKwargs, by simp [hkeys], ?_⟩
      simp [hentries, ← h.1]

/-- The keywords of a call that names the parameters, by the kinds of the parameters. -/
structure Named (sig : Signature V) (call : Call V) (posonly ordinary kwonly varKwargs : List (Str × V)) : Prop where
  posNames : posonly.map (·.1) = sig.posonly.map (·.name)
  ordNames : ordinary.map (·.1) = sig.ordinary.map (·.name)
  kwNames : kwonly.map (·.1) = sig.kwonly.map (·.name)
  varNames : ∀ k ∈ varKwargs.map (·.1), k ∉ sig.keywords
  varKeyword : varKwargs ≠ [] → sig.varKeyword.isSome
  kwargs : call.kwargs = posonly ++ ordinary ++ kwonly ++ varEntries sig varKwargs

theorem exists_named (h : NamesParameters sig call) :
    ∃ posonly ordinary kwonly varKwargs, Named sig call posonly ordinary kwonly varKwargs := by
  obtain ⟨-, keys, hkeys, hkw⟩ := h
  obtain ⟨named, entries, hsplit, hnamed, hentries⟩ := List.map_eq_append_iff.mp hkw
  obtain ⟨positional, kwonly, hsplit', hpositional, hkwonly⟩ := List.map_eq_append_iff.mp hnamed
  obtain ⟨posonly, ordinary, hsplit'', hposonly, hordinary⟩ := List.map_eq_append_iff.mp hpositional
  subst hsplit''
  subst hsplit'
  cases hname : sig.varKeyword with
  | none =>
    have hnil : keys = [] := by
      cases keys with
      | nil => rfl
      | cons k keys => simpa [hname] using (hkeys k (by simp)).2
    have hentries' : entries = [] := by simpa [hnil] using hentries
    refine ⟨posonly, ordinary, kwonly, [], hposonly, hordinary, hkwonly, by simp, by simp, ?_⟩
    rw [hsplit, hentries']
    simp [varEntries, hname]
  | some name =>
    rw [hname] at hentries
    obtain ⟨varKwargs, hvar, hentries'⟩ := exists_varEntries hname hentries
    refine ⟨posonly, ordinary, kwonly, varKwargs, hposonly, hordinary, hkwonly, ?_, fun _ => by rw [hname]; rfl, ?_⟩
    · intro k hk
      exact (hkeys k (hvar ▸ hk)).1
    · rw [hsplit, hentries']

section Named

variable {posonly ordinary kwonly varKwargs : List (Str × V)}

theorem Named.names_nodup (h : Named sig call posonly ordinary kwonly varKwargs) :
    ((kwonly ++ varKwargs).map (·.1)).Nodup := by
  rw [List.map_append, List.nodup_append']
  refine ⟨?_, ?_, ?_⟩
  · rw [h.kwNames]
    exact (Cash.Args.names_nodup sig).sublist (List.sublist_append_right _ _)
  · cases hname : sig.varKeyword with
    | none =>
      have hnil : varKwargs = [] := by
        by_contra hne
        simpa [hname] using h.varKeyword hne
      simp [hnil]
    | some name =>
      have hnodup := call.nodup
      rw [h.kwargs, List.map_append] at hnodup
      have hentries := (List.nodup_append'.mp hnodup).2.1
      simp only [varEntries, hname, List.map_map] at hentries
      refine List.Nodup.of_map (varKey name) ?_
      rw [List.map_map]
      exact hentries
  · rw [List.disjoint_left]
    intro k hk hvar
    refine h.varNames k hvar ?_
    rw [h.kwNames] at hk
    exact List.mem_append_right _ hk

/-- The call that passes the named arguments at their positions. -/
def Named.spelled (h : Named sig call posonly ordinary kwonly varKwargs) : Call V :=
  ⟨posonly.map (·.2) ++ (ordinary.map (·.2) ++ call.args), kwonly ++ varKwargs, h.names_nodup⟩

theorem Named.bind_spelled (h : Named sig call posonly ordinary kwonly varKwargs)
    (hargs : call.args ≠ [] → sig.varPositional.isSome) :
    bind sig h.spelled = some ⟨posonly ++ ordinary ++ kwonly, call.args, varKwargs⟩ := by
  have hpos : (posonly.map (·.2)).length = sig.posonly.length := by
    simpa using congrArg List.length h.posNames
  have hord : (ordinary.map (·.2)).length = sig.ordinary.length := by
    simpa using congrArg List.length h.ordNames
  have hvarArgs : varArgsOf sig h.spelled = call.args := by
    rw [varArgsOf, Named.spelled, ← List.append_assoc]
    exact List.drop_left' (by rw [List.length_append, hpos, hord])
  have hvarKwargs : varKwargsOf sig h.spelled = varKwargs := by
    rw [varKwargsOf, Named.spelled, List.filter_append, List.filter_eq_nil_iff.mpr, List.nil_append,
      List.filter_eq_self]
    · intro e he
      simpa using h.varNames e.1 (List.mem_map.mpr ⟨e, he, rfl⟩)
    · intro e he
      have hmem : e.1 ∈ sig.kwonly.map (·.name) := h.kwNames ▸ List.mem_map.mpr ⟨e, he, rfl⟩
      have hkeyword : e.1 ∈ sig.keywords := List.mem_append_right _ hmem
      simpa using hkeyword
  rw [← hvarArgs] at hargs
  have hkeyword := h.varKeyword
  nth_rewrite 1 [← hvarKwargs] at hkeyword
  have hbind : bind sig h.spelled =
      some ⟨posonly ++ ordinary ++ kwonly, varArgsOf sig h.spelled, varKwargsOf sig h.spelled⟩ := by
    refine bind_of_parts ?_ ?_ ?_ hargs hkeyword
    · exact bindPosonly_append h.posNames _
    · rw [Named.spelled, List.drop_left' hpos]
      refine bindNamed_append h.ordNames ?_ _
      intro p hp hmem
      rw [List.map_append, List.mem_append, h.kwNames] at hmem
      have hordinary : p.name ∈ sig.ordinary.map (·.name) := List.mem_map.mpr ⟨p, hp, rfl⟩
      rcases hmem with hmem | hmem
      · have hnodup := Cash.Args.names_nodup sig
        rw [Signature.names, List.nodup_append'] at hnodup
        exact hnodup.2.2 (List.mem_append_right _ hordinary) hmem
      · exact h.varNames p.name hmem (List.mem_append_left _ hordinary)
    · refine bindNamed_lookup h.kwNames ?_
      intro e he
      exact lookup_of_mem h.names_nodup (List.mem_append_left _ he)
  rw [hbind, hvarArgs, hvarKwargs]

theorem Named.normalize_spelled (h : Named sig call posonly ordinary kwonly varKwargs)
    (hargs : call.args ≠ [] → sig.varPositional.isSome) : normalizeCallArgs sig h.spelled = call.raw := by
  rw [normalizeCallArgs_of_bind (h.bind_spelled hargs), Bound.form, Call.raw, h.kwargs]

/-- The `**kwargs` of the call are what names a parameter that takes only a position, and the entries. -/
theorem Named.varKwargsOf_eq (h : Named sig call posonly ordinary kwonly varKwargs) :
    varKwargsOf sig call = posonly ++ varEntries sig varKwargs := by
  have hdrop : ∀ l : List (Str × V), (∀ k ∈ l.map (·.1), k ∈ sig.keywords) →
      (l.filter fun e => e.1 ∉ sig.keywords) = [] := by
    intro l hl
    rw [List.filter_eq_nil_iff]
    intro e he
    simpa using hl e.1 (List.mem_map.mpr ⟨e, he, rfl⟩)
  have hkeep : ∀ l : List (Str × V), (∀ k ∈ l.map (·.1), k ∉ sig.keywords) →
      (l.filter fun e => e.1 ∉ sig.keywords) = l := by
    intro l hl
    rw [List.filter_eq_self]
    intro e he
    simpa using hl e.1 (List.mem_map.mpr ⟨e, he, rfl⟩)
  rw [varKwargsOf, h.kwargs, List.filter_append, List.filter_append, List.filter_append, hdrop ordinary, hdrop kwonly,
    hkeep posonly, hkeep (varEntries sig varKwargs), List.append_nil, List.append_nil]
  · intro k hk hmem
    have hparam : k ∈ sig.parameters := mem_parameters_of_names (by
      simp only [Signature.keywords, Signature.names, List.mem_append] at hmem ⊢
      tauto)
    cases hname : sig.varKeyword with
    | none => simp [varEntries, hname] at hk
    | some name =>
      simp only [varEntries, hname, List.map_map, List.mem_map] at hk
      obtain ⟨e, -, rfl⟩ := hk
      exact varKey_not_mem_parameters sig name e.1 hparam
  · intro k hk hmem
    have hnodup := Cash.Args.names_nodup sig
    rw [Signature.names, List.append_assoc, List.nodup_append'] at hnodup
    exact hnodup.2.2 (h.posNames ▸ hk) hmem
  · intro k hk
    exact List.mem_append_right _ (h.kwNames ▸ hk)
  · intro k hk
    exact List.mem_append_left _ (h.ordNames ▸ hk)

theorem Named.length_varEntries (h : Named sig call posonly ordinary kwonly varKwargs) :
    (varEntries sig varKwargs).length = varKwargs.length := by
  cases hname : sig.varKeyword with
  | none =>
    have hnil : varKwargs = [] := by
      by_contra hne
      simpa [hname] using h.varKeyword hne
    simp [varEntries, hname, hnil]
  | some name => simp [varEntries, hname]

/-- A call that names every parameter by its keywords is written as its normalised form, where no parameter takes
only a position and nothing goes to `**kwargs`. -/
theorem Named.normalize_self (h : Named sig call [] ordinary kwonly []) (hb : bind sig call = some b) :
    normalizeCallArgs sig call = call.raw := by
  rw [normalizeCallArgs_of_bind hb]
  have hposonly : sig.posonly = [] := by simpa using h.posNames.symm
  have hvar := h.varKwargsOf_eq
  have hkwargs : call.kwargs = ordinary ++ kwonly := by simpa using h.kwargs
  have hlook : ∀ e ∈ ordinary ++ kwonly, call.kwargs.lookup e.1 = some e.2 := by
    intro e he
    exact lookup_of_mem call.nodup (hkwargs ▸ he)
  obtain ⟨pos, ord, kw, hpos, hord, hkw, -, -, rfl⟩ := bind_eq_some hb
  have hkw' : kw = kwonly := by
    rw [bindNamed_lookup h.kwNames fun e he => hlook e (List.mem_append_right _ he)] at hkw
    exact (Option.some.inj hkw).symm
  have hpos' : pos = [] := by simpa [hposonly, bindPosonly] using hpos.symm
  have hmem : ∀ p ∈ sig.ordinary, p.name ∈ call.kwargs.map (·.1) := by
    intro p hp
    rw [hkwargs, List.map_append, h.ordNames]
    exact List.mem_append_left _ (List.mem_map.mpr ⟨p, hp, rfl⟩)
  rw [hposonly, List.length_nil, List.drop_zero] at hord
  have hord' : ord = ordinary ∧ varArgsOf sig call = call.args := by
    rcases bindNamed_no_args hord hmem with hnil | hnil
    · have hordinary : ordinary = [] := by simpa [hnil] using h.ordNames
      refine ⟨?_, by simp [varArgsOf, hposonly, hnil]⟩
      rw [hnil, bindNamed] at hord
      rw [hordinary]
      exact (Option.some.inj hord).symm
    · refine ⟨?_, by simp [varArgsOf, hnil]⟩
      rw [hnil, bindNamed_lookup h.ordNames fun e he => hlook e (List.mem_append_left _ he)] at hord
      exact (Option.some.inj hord).symm
  rw [hpos', hord'.1, hkw', hord'.2, hvar, Bound.form, Call.raw, hkwargs]
  simp

/-- The call that passes the named arguments at their positions binds otherwise on what was passed. -/
theorem Named.not_agrees (h : Named sig call posonly ordinary kwonly varKwargs) (hb : bind sig call = some b)
    (hne : posonly ≠ [] ∨ varKwargs ≠ []) (b' : Bound V) (hb' : b'.varKwargs = varKwargs) :
    ¬ AgreesOnPassed sig call b b' := by
  rintro ⟨-, -, hvar⟩
  have hlength := h.length_varEntries
  have hkw : b.varKwargs = posonly ++ varEntries sig varKwargs := by
    obtain ⟨pos, ord, kw, -, -, -, -, -, rfl⟩ := bind_eq_some hb
    exact h.varKwargsOf_eq
  have hnil : b.varKwargs ≠ [] := by
    intro hnil
    rw [hkw, List.append_eq_nil_iff] at hnil
    rcases hne with hne | hne
    · exact hne hnil.1
    · rw [hnil.2, List.length_nil] at hlength
      exact hne (List.length_eq_zero_iff.mp hlength.symm)
  have heq : varKwargs = posonly ++ varEntries sig varKwargs := by
    rw [← hkw, ← hvar hnil, hb']
  have hposonly : posonly = [] := by
    have hlen := congrArg List.length heq
    rw [List.length_append, hlength] at hlen
    exact List.length_eq_zero_iff.mp (by omega)
  rw [hposonly, List.nil_append] at heq
  cases varKwargs with
  | nil => exact hne.elim (fun hp => hp hposonly) fun hv => hv rfl
  | cons e varKwargs =>
    obtain ⟨name, hname⟩ := Option.isSome_iff_exists.mp (h.varKeyword (List.cons_ne_nil _ _))
    simp only [varEntries, hname, List.map_cons, List.cons.injEq] at heq
    have hlen := congrArg (fun e : Str × V => e.1.length) heq.1
    simp [varKey] at hlen
    omega

end Named

/-- The raw form of a call that falls back is apart from the others, unless it names the parameters. -/
theorem apart_iff {hash : Form V → Option H} (hb : bind sig call = some b) (hfalls : FallsBack sig hash call) :
    Apart sig call b ↔ ¬ NamesParameters sig call := by
  constructor
  · rintro ⟨hself, hother⟩ hnames
    obtain ⟨posonly, ordinary, kwonly, varKwargs, hnamed⟩ := exists_named hnames
    by_cases hne : posonly ≠ [] ∨ varKwargs ≠ []
    · have hagrees := hnamed.not_agrees hb hne ⟨posonly ++ ordinary ++ kwonly, call.args, varKwargs⟩ rfl
      have happart := hother _ _ (hnamed.bind_spelled hnames.1) hagrees
      exact happart.1 (hnamed.normalize_spelled hnames.1).symm
    · rw [not_or, not_not, not_not] at hne
      obtain ⟨rfl, rfl⟩ := hne
      exact hself (hnamed.normalize_self hb).symm
  · intro hnames
    refine ⟨?_, ?_⟩
    · intro heq
      exact hfalls.2 (heq ▸ hfalls.1)
    · intro call' b' hb' hagrees
      refine ⟨fun heq => hnames (namesParameters_of_raw_eq hb' heq), ?_⟩
      intro heq
      rw [call_ext heq, hb'] at hb
      cases hb
      exact hagrees (.refl sig call b)

theorem serializeArgs_of_fallsBack {hash : Form V → Option H} (hb : bind sig call = some b)
    (h : FallsBack sig hash call) : serializeArgs sig hash call = hash call.raw := by
  rw [serializeArgs, h.1, hb]
  rfl

/-- The keyed forms of calls are the same exactly where they bind alike what is not ignored, and the raw form a
call falls back to is apart from every other form, exactly where a call that falls back does not name the function's
parameters by its keywords. -/
theorem key_form_iff {hash : Form V → Option H} (hignored : ∀ name ∈ ignored, name ∈ sig.parameters)
    (hb : bind sig call = some b) :
    ((∀ call' b', bind sig call' = some b' →
        (keyedArguments sig ignored call (normalizeCallArgs sig call) =
          keyedArguments sig ignored call' (normalizeCallArgs sig call') ↔ BindsAlike sig ignored b b')) ∧
      (FallsBack sig hash call → Apart sig call b)) ↔
    (FallsBack sig hash call → ¬ NamesParameters sig call) := by
  constructor
  · rintro ⟨-, happart⟩ hfalls
    exact (apart_iff hb hfalls).mp (happart hfalls)
  · intro h
    refine ⟨fun call' b' hb' => keyedArguments_eq_iff hignored hb hb', ?_⟩
    intro hfalls
    exact (apart_iff hb hfalls).mpr (h hfalls)

/-- `def f(p=<default>, /, **k)`, where the default cannot be hashed: it is `0`, and nothing else cannot. -/
def defaulted : Signature Nat := ⟨[⟨[112], some 0⟩], [], none, [], some [107], by decide, by decide⟩

/-- Hashes whatever holds no `0`. -/
def hashNonzero (f : Form Nat) : Option (Form Nat) :=
  if 0 ∈ f.args ++ f.kwargs.map (·.2) then none else some f

/-- `f(x=5)` falls back, and its raw form is apart. -/
theorem key_form_iff_of_keyword : ∃ call b, bind defaulted call = some b ∧ FallsBack defaulted hashNonzero call ∧
    Apart defaulted call b := by
  have hb : bind defaulted ⟨[], [([120], 5)], by decide⟩ = some ⟨[([112], 0)], [], [([120], 5)]⟩ := rfl
  have hfalls : FallsBack defaulted hashNonzero ⟨[], [([120], 5)], by decide⟩ := by
    simp [FallsBack, normalizeCallArgs, hb, hashNonzero, Bound.form, varEntries, Call.raw]
  refine ⟨_, _, hb, hfalls, ((@key_form_iff _ _ _ [] _ _ _ (by simp) hb).mpr ?_).2 hfalls⟩
  rintro - ⟨-, keys, -, hkeys⟩
  simp [Signature.names, defaulted] at hkeys

/-- `f(p=5)` binds `{"p": 5}` to `**k`, and `f(5)` binds `5` to the parameter `p`: they have one key. -/
theorem key_form_collides : ∃ (call call' : Call Nat) (b b' : Bound Nat), bind defaulted call = some b ∧
    bind defaulted call' = some b' ∧ FallsBack defaulted hashNonzero call ∧ ¬ AgreesOnPassed defaulted call b b' ∧
    serializeArgs defaulted hashNonzero call = serializeArgs defaulted hashNonzero call' ∧
    ¬ Apart defaulted call b := by
  have hb : bind defaulted ⟨[], [([112], 5)], by decide⟩ = some ⟨[([112], 0)], [], [([112], 5)]⟩ := rfl
  have hb' : bind defaulted ⟨[5], [], by decide⟩ = some ⟨[([112], 5)], [], []⟩ := rfl
  have hfalls : FallsBack defaulted hashNonzero ⟨[], [([112], 5)], by decide⟩ := by
    simp [FallsBack, normalizeCallArgs, hb, hashNonzero, Bound.form, varEntries, Call.raw]
  have hagrees : ¬ AgreesOnPassed defaulted ⟨[], [([112], 5)], by decide⟩ ⟨[([112], 0)], [], [([112], 5)]⟩
      ⟨[([112], 5)], [], []⟩ := by
    rintro ⟨-, -, hvar⟩
    exact absurd (hvar (by simp)) (by simp)
  have hraw : (⟨[], [([112], 5)], by decide⟩ : Call Nat).raw =
      normalizeCallArgs defaulted ⟨[5], [], by decide⟩ := by
    rw [normalizeCallArgs_of_bind hb']
    rfl
  refine ⟨_, _, _, _, hb, hb', hfalls, hagrees, ?_, ?_⟩
  · rw [serializeArgs_of_fallsBack hb hfalls, serializeArgs, ← hraw]
    simp [hashNonzero, Call.raw]
  · intro happart
    exact (happart.2 _ _ hb' hagrees).1 hraw

end Cash.Args
