import Cash.Lineage.Aliases

/-! Aliases that lead to no alias, and what adds to them. -/

namespace Cash.Lineage

open Py

variable {V : Type} {k : Kernel V} {aliases aliases' : Aliases} {x y : Digest} {p p' : Process}

/-- No alias leads to an alias. -/
def Aliases.Flat (aliases : Aliases) : Prop := ∀ x y, aliases.To x y → aliases y = none

theorem resolve_some (h : aliases x = some y) : resolveLineageAlias aliases x = y := by
  rw [resolveLineageAlias, h, Option.getD_some]

theorem resolve_none (h : aliases x = none) : resolveLineageAlias aliases x = x := by
  rw [resolveLineageAlias, h, Option.getD_none]

theorem Aliases.Flat.resolve_resolve (h : aliases.Flat) (x : Digest) :
    resolveLineageAlias aliases (resolveLineageAlias aliases x) = resolveLineageAlias aliases x := by
  cases hx : aliases x with
  | none => rw [resolve_none hx, resolve_none hx]
  | some y => rw [resolve_some hx, resolve_none (h x y hx)]

theorem Aliases.Flat.acyclic (h : aliases.Flat) (x : Digest) : ¬ Relation.TransGen aliases.To x x := by
  intro hcycle
  obtain ⟨y, hxy, hyx⟩ := Relation.TransGen.head'_iff.mp hcycle
  rcases Relation.ReflTransGen.cases_head hyx with rfl | ⟨z, hyz, _⟩
  · have hnone := h y y hxy
    rw [show aliases y = some y from hxy] at hnone
    cases hnone
  · have hnone := h x y hxy
    rw [show aliases y = some z from hyz] at hnone
    cases hnone

/-- The aliases stay, lineages that were new become aliases, and none leads to an alias. -/
structure Grows (aliases aliases' : Aliases) : Prop where
  kept : ∀ x y, aliases x = some y → aliases' x = some y
  apart : ∀ x y, aliases x = none → aliases' x = some y → aliases.Apart x
  flat : ∀ x y, aliases x = none → aliases' x = some y → aliases' y = none

theorem Grows.refl (aliases : Aliases) : Grows aliases aliases := by
  refine ⟨fun _ _ h => h, ?_, ?_⟩
  · intro x y hnone hsome
    rw [hnone] at hsome
    cases hsome
  · intro x y hnone hsome
    rw [hnone] at hsome
    cases hsome

/-- What an alias leads to is not aliased later. -/
theorem Grows.none_of_to (h : Grows aliases aliases') (hto : aliases.To x y) (hnone : aliases y = none) :
    aliases' y = none := by
  cases hy : aliases' y with
  | none => rfl
  | some z => exact absurd hto ((h.apart y z hnone hy).2 x)

theorem Grows.flat_after (h : Grows aliases aliases') (hflat : aliases.Flat) : aliases'.Flat := by
  intro x y hto
  cases hx : aliases x with
  | none => exact h.flat x y hx hto
  | some z =>
      have hsame : z = y := Option.some.inj ((h.kept x z hx).symm.trans hto)
      subst hsame
      exact h.none_of_to hx (hflat x z hx)

/-- Lineages of one representative keep one. -/
theorem Grows.resolve_eq (h : Grows aliases aliases')
    (heq : resolveLineageAlias aliases x = resolveLineageAlias aliases y) :
    resolveLineageAlias aliases' x = resolveLineageAlias aliases' y := by
  cases hx : aliases x with
  | none =>
      cases hy : aliases y with
      | none =>
          rw [resolve_none hx, resolve_none hy] at heq
          rw [heq]
      | some z =>
          rw [resolve_none hx, resolve_some hy] at heq
          subst heq
          rw [resolve_none (h.none_of_to hy hx), resolve_some (h.kept y x hy)]
  | some z =>
      cases hy : aliases y with
      | none =>
          rw [resolve_some hx, resolve_none hy] at heq
          subst heq
          rw [resolve_some (h.kept x z hx), resolve_none (h.none_of_to hx hy)]
      | some w =>
          rw [resolve_some hx, resolve_some hy] at heq
          rw [resolve_some (h.kept x z hx), resolve_some (h.kept y w hy), heq]

/-! ## A call of `record_lineage_alias` -/

theorem record_of_eq (h : resolveLineageAlias aliases x = resolveLineageAlias aliases y) :
    recordLineageAlias aliases x y = aliases := by
  unfold recordLineageAlias
  dsimp only
  split
  · rename_i hne
    rw [← h] at hne ⊢
    cases hx : aliases x with
    | none => exact absurd (resolve_none hx).symm hne
    | some z =>
        rw [resolve_some hx, ← hx]
        exact Function.update_eq_self x aliases
  · rfl

theorem record_of_apart (hflat : aliases.Flat) (h : aliases.Apart x) :
    Grows aliases (recordLineageAlias aliases x y) ∧
      resolveLineageAlias (recordLineageAlias aliases x y) x =
        resolveLineageAlias (recordLineageAlias aliases x y) y := by
  unfold recordLineageAlias
  dsimp only
  split
  · rename_i hne
    have htarget : aliases (resolveLineageAlias aliases y) = none := by
      cases hy : aliases y with
      | none => rw [resolve_none hy, hy]
      | some z => rw [resolve_some hy, hflat y z hy]
    have hyx : y ≠ x := by
      rintro rfl
      exact hne (resolve_none h.1).symm
    refine ⟨⟨?_, ?_, ?_⟩, ?_⟩
    · intro u v hu
      have hux : u ≠ x := by
        rintro rfl
        rw [h.1] at hu
        cases hu
      rw [Function.update_of_ne hux, hu]
    · intro u v hu hv
      have hux : u = x := by
        by_contra hux
        rw [Function.update_of_ne hux, hu] at hv
        cases hv
      rw [hux]
      exact h
    · intro u v hu hv
      have hux : u = x := by
        by_contra hux
        rw [Function.update_of_ne hux, hu] at hv
        cases hv
      subst hux
      rw [Function.update_self] at hv
      cases hv
      rw [Function.update_of_ne (Ne.symm hne), htarget]
    · rw [resolve_some (Function.update_self _ _ _), resolveLineageAlias, resolveLineageAlias,
        Function.update_of_ne hyx]
  · rename_i heq
    rw [resolve_none h.1]
    exact ⟨Grows.refl aliases, not_not.mp heq⟩

theorem record_joins (hflat : aliases.Flat) (h : aliases.Joins x y) :
    Grows aliases (recordLineageAlias aliases x y) ∧
      resolveLineageAlias (recordLineageAlias aliases x y) x =
        resolveLineageAlias (recordLineageAlias aliases x y) y := by
  rcases h with heq | hapart
  · have hsame : resolveLineageAlias aliases x = resolveLineageAlias aliases y := heq
    rw [record_of_eq hsame]
    exact ⟨Grows.refl aliases, hsame⟩
  · exact record_of_apart hflat hapart

/-! ## A store -/

theorem setDefaults_of_some {items : AliasStore} (h : aliases x = some y) : setDefaults aliases items x = some y := by
  unfold setDefaults
  induction items generalizing aliases with
  | nil => exact h
  | cons q items ih =>
      rw [List.foldl_cons]
      apply ih
      split
      · rename_i hnone
        have hx : x ≠ q.1 := by
          rintro rfl
          rw [h] at hnone
          cases hnone
        rw [Function.update_of_ne hx, h]
      · exact h

theorem mem_of_setDefaults {items : AliasStore} (hnone : aliases x = none) (h : setDefaults aliases items x = some y) :
    (x, y) ∈ items := by
  unfold setDefaults at h
  induction items generalizing aliases with
  | nil =>
      rw [List.foldl_nil, hnone] at h
      cases h
  | cons q items ih =>
      rw [List.foldl_cons] at h
      by_cases hx : x = q.1
      · subst hx
        rw [if_pos hnone] at h
        have hsome : setDefaults (Function.update aliases q.1 (some q.2)) items q.1 = some q.2 :=
          setDefaults_of_some (Function.update_self q.1 (some q.2) aliases)
        cases hsome.symm.trans h
        exact List.mem_cons_self
      · apply List.mem_cons_of_mem
        apply ih ?_ h
        split
        · rw [Function.update_of_ne hx, hnone]
        · exact hnone

theorem setDefaults_none {items : AliasStore} (hnone : aliases x = none) (h : x ∉ items.map (·.1)) :
    setDefaults aliases items x = none := by
  cases hx : setDefaults aliases items x with
  | none => rfl
  | some y => exact absurd (List.mem_map.mpr ⟨_, mem_of_setDefaults hnone hx, rfl⟩) h

theorem setDefaults_merges {items : AliasStore} (h : aliases.Merges items) : Grows aliases (setDefaults aliases items) := by
  refine ⟨fun _ _ => setDefaults_of_some, ?_, ?_⟩
  · intro u v hnone hsome
    exact (h _ (mem_of_setDefaults hnone hsome) hnone).1
  · intro u v hnone hsome
    obtain ⟨_, hv, hkey⟩ := h _ (mem_of_setDefaults hnone hsome) hnone
    exact setDefaults_none hv hkey

/-! ## An event -/

theorem cutOff_aliases {κ : Type} [DecidableEq κ] (table : κ → Option Digest) (key : κ) (lineage : Digest) :
    (cutOff aliases table key lineage).2.1 = if (cutOff aliases table key lineage).1 ≠ lineage then
      recordLineageAlias aliases lineage (cutOff aliases table key lineage).1 else aliases := by
  unfold cutOff
  split
  · simp
  · rfl

theorem lineageFor_aliases (seen : Seen) (value : V) (lineage : Digest) :
    (lineageFor k seen value lineage).2.aliases = if (lineageFor k seen value lineage).1 ≠ lineage then
      recordLineageAlias seen.aliases lineage (lineageFor k seen value lineage).1 else seen.aliases := by
  unfold lineageFor
  split
  · simp
  · exact cutOff_aliases _ _ _

theorem lineageForOutputs_aliases (seen : Seen) (names : List Str) (values : Str → V) (lineage : Digest) :
    (lineageForOutputs k seen names values lineage).2.aliases =
      if (lineageForOutputs k seen names values lineage).1 ≠ lineage then
        recordLineageAlias seen.aliases lineage (lineageForOutputs k seen names values lineage).1 else seen.aliases := by
  unfold lineageForOutputs
  split
  · simp
  · exact cutOff_aliases _ _ _

/-- The aliases after an event: those of its call, or of the store it reads. -/
theorem AliasEvent.seen_aliases (seen : Seen) (e : AliasEvent V) :
    (e.seen k seen).aliases = match e.call k seen with
      | some (x, y) => recordLineageAlias seen.aliases x y
      | none => match e with
        | .useLineageAliasStore (some items) => setDefaults seen.aliases items
        | _ => seen.aliases := by
  cases e with
  | lineageFor value lineage =>
      simp only [AliasEvent.seen, AliasEvent.call, lineageFor_aliases]
      split <;> rfl
  | lineageForOutputs names values lineage =>
      simp only [AliasEvent.seen, AliasEvent.call, lineageForOutputs_aliases]
      split <;> rfl
  | remember digest lineage => rfl
  | clear => rfl
  | keepHeldLineage before cacheKey => rfl
  | useLineageAliasStore store => cases store <;> rfl

/-- An event that joins no two representatives. -/
theorem AliasEvent.grows (hflat : p.seen.aliases.Flat) {e : AliasEvent V} (h : p.Keeps k e) :
    Grows p.seen.aliases (e.seen k p.seen).aliases ∧ ∀ x y, e.call k p.seen = some (x, y) →
      resolveLineageAlias (e.seen k p.seen).aliases x = resolveLineageAlias (e.seen k p.seen).aliases y := by
  rw [AliasEvent.seen_aliases]
  cases hcall : e.call k p.seen with
  | some c =>
      obtain ⟨x, y⟩ := c
      obtain ⟨hgrows, hsame⟩ := record_joins hflat (h.1 x y hcall)
      refine ⟨hgrows, ?_⟩
      intro u v huv
      cases huv
      exact hsame
  | none =>
      refine ⟨?_, nofun⟩
      dsimp only
      split
      · exact setDefaults_merges (h.2 _ rfl)
      · exact Grows.refl _

/-- No alias leads to an alias, and what was recorded has one representative. -/
structure Settles (p : Process) : Prop where
  flat : p.seen.aliases.Flat
  recorded : ∀ x y, (x, y) ∈ p.recorded →
    resolveLineageAlias p.seen.aliases x = resolveLineageAlias p.seen.aliases y

theorem Settles.start : Settles .start := by
  refine ⟨?_, nofun⟩
  intro x y h
  cases h

theorem Settles.step (h : Settles p) {e : AliasEvent V} (hstep : p.keepingStep k e p') : Settles p' := by
  obtain ⟨rfl, hkeeps⟩ := hstep
  obtain ⟨hgrows, hcall⟩ := AliasEvent.grows h.flat hkeeps
  refine ⟨hgrows.flat_after h.flat, ?_⟩
  intro x y hmem
  rcases List.mem_append.mp hmem with hmem | hmem
  · exact hgrows.resolve_eq (h.recorded x y hmem)
  · exact hcall x y (Option.mem_toList.mp hmem)

theorem Settles.oneRepresentative (h : Settles p) : p.OneRepresentative :=
  ⟨h.flat.resolve_resolve, h.flat.acyclic, h.recorded⟩

end Cash.Lineage
