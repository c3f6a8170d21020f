import Cash.Args.Signature
import Mathlib.Data.List.TakeWhile

/-!
# How the parts of a call bind
-/

namespace Cash.Args

open Py

variable {V : Type} {sig : Signature V} {call call' : Call V} {b b' : Bound V} {kwargs l l' : List (Str × V)}
  {ps : List (Param V)} {ignored : List Str}

/-! ## Lists of items -/

theorem lookup_of_mem (hnodup : (l.map (·.1)).Nodup) {k : Str} {v : V} (h : (k, v) ∈ l) : l.lookup k = some v := by
  induction l with
  | nil => cases h
  | cons e l ih =>
    obtain ⟨k', v'⟩ := e
    rw [List.map_cons, List.nodup_cons] at hnodup
    rcases List.mem_cons.mp h with heq | h
    · cases heq
      simp
    · have hne : k ≠ k' := by
        rintro rfl
        exact hnodup.1 (List.mem_map.mpr ⟨(k, v), by assumption, rfl⟩)
      rw [List.lookup_cons, beq_false_of_ne hne]
      exact ih hnodup.2 h

/-- Items with the same keys are the same, less those whose key is dropped, where every key that is kept has the
same value. -/
theorem filter_eq_iff {keep : Str → Prop} [DecidablePred keep] (hkeys : l.map (·.1) = l'.map (·.1))
    (hnodup : (l.map (·.1)).Nodup) :
    (l.filter fun e => keep e.1) = (l'.filter fun e => keep e.1) ↔
      ∀ k ∈ l.map (·.1), keep k → ∀ v, (k, v) ∈ l ↔ (k, v) ∈ l' := by
  constructor
  · intro heq k _ hk v
    have hmem : ∀ items : List (Str × V), (k, v) ∈ items ↔ (k, v) ∈ items.filter fun e => keep e.1 := by
      intro items
      simp [List.mem_filter, hk]
    rw [hmem l, hmem l', heq]
  · intro h
    induction l generalizing l' with
    | nil =>
      have hnil : l' = [] := by simpa using hkeys.symm
      rw [hnil]
    | cons e l ih =>
      cases l' with
      | nil => cases hkeys
      | cons e' l' =>
        obtain ⟨k, v⟩ := e
        obtain ⟨k', v'⟩ := e'
        simp only [List.map_cons, List.cons.injEq] at hkeys
        obtain ⟨rfl, hkeys⟩ := hkeys
        rw [List.map_cons, List.nodup_cons] at hnodup
        have hrest : (l.filter fun e => keep e.1) = (l'.filter fun e => keep e.1) := by
          refine ih hkeys hnodup.2 ?_
          intro j hj hkeep w
          have hne : j ≠ k := by
            rintro rfl
            exact hnodup.1 hj
          have hjw := h j (List.mem_cons_of_mem _ hj) hkeep w
          simpa [hne] using hjw
        by_cases hk : keep k
        · have hv : (k, v) ∈ (k, v') :: l' := (h k (by simp) hk v).mp (by simp)
          have hnot : (k, v) ∉ l' := by
            intro hmem
            exact hnodup.1 (hkeys ▸ List.mem_map.mpr ⟨_, hmem, rfl⟩)
          have hvv : v = v' := by
            rcases List.mem_cons.mp hv with heq | hmem
            · cases heq
              rfl
            · exact absurd hmem hnot
          simp [hk, hvv, hrest]
        · simp [hk, hrest]

/-! ## Parameters -/

theorem bindPosonly_names {vs : List V} (h : bindPosonly ps vs = some l) : l.map (·.1) = ps.map (·.name) := by
  induction ps generalizing vs l with
  | nil =>
    simp only [bindPosonly, Option.some.injEq] at h
    rw [← h]
    rfl
  | cons p ps ih =>
    cases vs with
    | nil =>
      simp only [bindPosonly, Option.bind_eq_bind, Option.bind_eq_some_iff, Option.pure_def, Option.some.injEq] at h
      obtain ⟨v, -, rest, hrest, rfl⟩ := h
      simp [ih hrest]
    | cons v vs =>
      simp only [bindPosonly, Option.map_eq_some_iff] at h
      obtain ⟨rest, hrest, rfl⟩ := h
      simp [ih hrest]

theorem bindNamed_names {vs : List V} (h : bindNamed kwargs ps vs = some l) : l.map (·.1) = ps.map (·.name) := by
  induction ps generalizing vs l with
  | nil =>
    simp only [bindNamed, Option.some.injEq] at h
    rw [← h]
    rfl
  | cons p ps ih =>
    cases vs with
    | nil =>
      simp only [bindNamed, Option.bind_eq_bind, Option.bind_eq_some_iff, Option.pure_def, Option.some.injEq] at h
      obtain ⟨v, -, rest, hrest, rfl⟩ := h
      simp [ih hrest]
    | cons v vs =>
      simp only [bindNamed, Option.ite_none_left_eq_some, Option.map_eq_some_iff] at h
      obtain ⟨-, rest, hrest, rfl⟩ := h
      simp [ih hrest]

theorem bindPosonly_append (hl : l.map (·.1) = ps.map (·.name)) (vs : List V) :
    bindPosonly ps (l.map (·.2) ++ vs) = some l := by
  induction ps generalizing l with
  | nil =>
    have hnil : l = [] := by simpa using hl
    simp [bindPosonly, hnil]
  | cons p ps ih =>
    cases l with
    | nil => cases hl
    | cons e l =>
      simp only [List.map_cons, List.cons.injEq] at hl
      simp only [List.map_cons, List.cons_append, bindPosonly, ih hl.2, ← hl.1, Option.map_some]

theorem bindNamed_append (hl : l.map (·.1) = ps.map (·.name)) (hkwargs : ∀ p ∈ ps, p.name ∉ kwargs.map (·.1))
    (vs : List V) : bindNamed kwargs ps (l.map (·.2) ++ vs) = some l := by
  induction ps generalizing l with
  | nil =>
    have hnil : l = [] := by simpa using hl
    simp [bindNamed, hnil]
  | cons p ps ih =>
    cases l with
    | nil => cases hl
    | cons e l =>
      simp only [List.map_cons, List.cons.injEq] at hl
      have hp : p.name ∉ kwargs.map (·.1) := hkwargs p (by simp)
      rw [List.map_cons, List.cons_append, bindNamed, if_neg hp,
        ih hl.2 fun q hq => hkwargs q (List.mem_cons_of_mem _ hq), Option.map_some, ← hl.1]

theorem bindNamed_lookup (hl : l.map (·.1) = ps.map (·.name)) (hlook : ∀ e ∈ l, kwargs.lookup e.1 = some e.2) :
    bindNamed kwargs ps [] = some l := by
  induction ps generalizing l with
  | nil =>
    have hnil : l = [] := by simpa using hl
    simp [bindNamed, hnil]
  | cons p ps ih =>
    cases l with
    | nil => cases hl
    | cons e l =>
      simp only [List.map_cons, List.cons.injEq] at hl
      have he : kwargs.lookup p.name = some e.2 := hl.1 ▸ hlook e (by simp)
      simp only [bindNamed, he, Option.some_or, ih hl.2 fun q hq => hlook q (List.mem_cons_of_mem _ hq)]
      simp [← hl.1]

/-- Parameters that are all named by keywords take no argument at their position. -/
theorem bindNamed_no_args {vs : List V} (h : bindNamed kwargs ps vs = some l)
    (hkwargs : ∀ p ∈ ps, p.name ∈ kwargs.map (·.1)) : ps = [] ∨ vs = [] := by
  cases ps with
  | nil => exact .inl rfl
  | cons p ps =>
    cases vs with
    | nil => exact .inr rfl
    | cons v vs =>
      rw [bindNamed, if_pos (hkwargs p (by simp))] at h
      cases h

/-! ## Calls -/

/-- What a call that binds is bound to. -/
theorem bind_eq_some (h : bind sig call = some b) :
    ∃ posonly ordinary kwonly, bindPosonly sig.posonly call.args = some posonly ∧
      bindNamed call.kwargs sig.ordinary (call.args.drop sig.posonly.length) = some ordinary ∧
      bindNamed call.kwargs sig.kwonly [] = some kwonly ∧
      (varArgsOf sig call ≠ [] → sig.varPositional.isSome) ∧ (varKwargsOf sig call ≠ [] → sig.varKeyword.isSome) ∧
      b = ⟨posonly ++ ordinary ++ kwonly, varArgsOf sig call, varKwargsOf sig call⟩ := by
  simp only [bind, Option.bind_eq_bind, Option.bind_eq_some_iff] at h
  obtain ⟨posonly, hpos, ordinary, hord, kwonly, hkw, h⟩ := h
  split at h
  · cases h
  · rename_i hargs
    split at h
    · cases h
    · rename_i hkwargs
      cases h
      refine ⟨posonly, ordinary, kwonly, hpos, hord, hkw, ?_, ?_, rfl⟩
      · intro hne
        rw [Option.isSome_iff_ne_none]
        exact fun hnone => hargs ⟨hne, hnone⟩
      · intro hne
        rw [Option.isSome_iff_ne_none]
        exact fun hnone => hkwargs ⟨hne, hnone⟩

theorem bind_of_parts {posonly ordinary kwonly : List (Str × V)}
    (hpos : bindPosonly sig.posonly call.args = some posonly)
    (hord : bindNamed call.kwargs sig.ordinary (call.args.drop sig.posonly.length) = some ordinary)
    (hkw : bindNamed call.kwargs sig.kwonly [] = some kwonly)
    (hargs : varArgsOf sig call ≠ [] → sig.varPositional.isSome)
    (hkwargs : varKwargsOf sig call ≠ [] → sig.varKeyword.isSome) :
    bind sig call = some ⟨posonly ++ ordinary ++ kwonly, varArgsOf sig call, varKwargsOf sig call⟩ := by
  have hargs' : ¬ (varArgsOf sig call ≠ [] ∧ sig.varPositional = none) := by
    rintro ⟨hne, hnone⟩
    simpa [hnone] using hargs hne
  have hkwargs' : ¬ (varKwargsOf sig call ≠ [] ∧ sig.varKeyword = none) := by
    rintro ⟨hne, hnone⟩
    simpa [hnone] using hkwargs hne
  simp only [bind, hpos, hord, hkw, Option.bind_eq_bind, Option.bind_some, if_neg hargs', if_neg hkwargs']

theorem bind_names (h : bind sig call = some b) : b.named.map (·.1) = sig.names := by
  obtain ⟨posonly, ordinary, kwonly, hpos, hord, hkw, -, -, rfl⟩ := bind_eq_some h
  simp [Signature.names, bindPosonly_names hpos, bindNamed_names hord, bindNamed_names hkw]

theorem varArgs_of_bind (h : bind sig call = some b) (hnone : sig.varPositional = none) : b.varArgs = [] := by
  obtain ⟨posonly, ordinary, kwonly, -, -, -, hargs, -, rfl⟩ := bind_eq_some h
  by_contra hne
  simpa [hnone] using hargs hne

theorem varKwargs_of_bind (h : bind sig call = some b) (hnone : sig.varKeyword = none) : b.varKwargs = [] := by
  obtain ⟨posonly, ordinary, kwonly, -, -, -, -, hkwargs, rfl⟩ := bind_eq_some h
  by_contra hne
  simpa [hnone] using hkwargs hne

theorem normalizeCallArgs_of_bind (h : bind sig call = some b) : normalizeCallArgs sig call = b.form sig := by
  rw [normalizeCallArgs, h]

/-! ## Names -/

theorem names_nodup (sig : Signature V) : sig.names.Nodup := by
  refine sig.nodup.sublist ?_
  rw [Signature.names]
  simp only [List.append_assoc]
  refine (List.Sublist.refl _).append ((List.Sublist.refl _).append ?_)
  refine List.Sublist.trans ?_ (List.sublist_append_right _ _)
  exact List.sublist_append_left _ _

theorem mem_parameters_of_names {name : Str} (h : name ∈ sig.names) : name ∈ sig.parameters := by
  simp only [Signature.names, Signature.parameters, List.mem_append] at h ⊢
  tauto

theorem varKey_injective (name : Str) : Function.Injective (varKey name) := by
  intro k k' h
  simpa [varKey] using h

theorem partition_varKey {name : Str} (h : colon ∉ name) (k : Str) : partition (varKey name k) = name := by
  unfold partition varKey
  rw [List.takeWhile_append_of_pos]
  · simp
  · intro c hc
    have hne : c ≠ colon := by
      rintro rfl
      exact h hc
    simpa using hne

theorem partition_of_not_mem {name : Str} (h : colon ∉ name) : partition name = name := by
  refine List.takeWhile_eq_self_iff.mpr ?_
  intro c hc
  have hne : c ≠ colon := by
    rintro rfl
    exact h hc
  simpa using hne

theorem colon_mem_varKey (name k : Str) : colon ∈ varKey name k := by
  simp [varKey]

theorem varKey_not_mem_parameters (sig : Signature V) (name k : Str) : varKey name k ∉ sig.parameters :=
  fun hmem => (sig.identifiers _ hmem).1 (colon_mem_varKey name k)

end Cash.Args
