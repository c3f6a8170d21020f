import Cash.Lineage.Formula
import Cash.Lineage.Session
import Mathlib.Data.List.Perm.Basic

/-!
# Lineages as names
-/

namespace Cash.Lineage

open Py

/-! ## The text of a lineage gives back its parts -/

theorem cut_eq {x y r r' : Str} (hx : 58 ∉ x) (hy : 58 ∉ y) (h : x ++ 58 :: r = y ++ 58 :: r') : x = y ∧ r = r' := by
  induction x generalizing y with
  | nil =>
    cases y with
    | nil => exact ⟨rfl, (List.cons.inj h).2⟩
    | cons c y => exact absurd (List.cons.inj h).1.symm fun hc => hy (hc ▸ List.mem_cons_self)
  | cons c x ih =>
    cases y with
    | nil => exact absurd (List.cons.inj h).1 fun hc => hx (hc ▸ List.mem_cons_self)
    | cons c' y =>
      simp only [List.cons_append, List.cons.injEq] at h
      obtain ⟨rfl, hr⟩ := ih (fun hc => hx (List.mem_cons_of_mem _ hc)) (fun hc => hy (List.mem_cons_of_mem _ hc)) h.2
      exact ⟨by rw [h.1], hr⟩

theorem join_inj {xs ys : List Str} (hxs : ∀ x ∈ xs, x ≠ [] ∧ 58 ∉ x) (hys : ∀ y ∈ ys, y ≠ [] ∧ 58 ∉ y)
    (h : join xs = join ys) : xs = ys := by
  induction xs using join.induct generalizing ys with
  | case1 =>
    match ys, h with
    | [], _ => rfl
    | [y], h => exact absurd h.symm (hys y (by simp)).1
    | y :: y' :: ys, h => simp [join] at h
  | case2 x =>
    match ys, h with
    | [], h => exact absurd h (hxs x (by simp)).1
    | [y], h => exact congrArg (fun s => [s]) h
    | y :: y' :: ys, h =>
      have hcolon : 58 ∉ join [x] := (hxs x (by simp)).2
      rw [h] at hcolon
      simp [join] at hcolon
  | case3 x xs hne ih =>
    obtain ⟨x', xs, rfl⟩ : ∃ x' rest, xs = x' :: rest := List.exists_cons_of_ne_nil fun hnil => hne (by rw [hnil])
    match ys, h with
    | [], h => simp [join] at h
    | [y], h =>
      have hcolon : 58 ∉ join [y] := (hys y (by simp)).2
      rw [← h] at hcolon
      simp [join] at hcolon
    | y :: y' :: ys, h =>
      obtain ⟨rfl, hrest⟩ := cut_eq (hxs x (by simp)).2 (hys y (by simp)).2 h
      rw [ih (fun z hz => hxs z (List.mem_cons_of_mem _ hz)) (fun z hz => hys z (List.mem_cons_of_mem _ hz)) hrest]

theorem sorted_perm (lineages : List Digest) : (sorted lineages).Perm (lineages.map (·.1)) := List.perm_insertionSort _ _

theorem mem_sorted {lineages : List Digest} {s : Str} (h : s ∈ sorted lineages) : s ≠ [] ∧ 58 ∉ s := by
  obtain ⟨d, -, rfl⟩ := List.mem_map.mp ((sorted_perm lineages).mem_iff.mp h)
  exact d.2

/-- The text tells the source and the lineages, but not which input has which. -/
theorem lineageStr_inj {a b : Digest} {xs ys : List Digest} (h : lineageStr a xs = lineageStr b ys) :
    a = b ∧ xs.Perm ys := by
  obtain ⟨hsource, hjoin⟩ := cut_eq a.2.2 b.2.2 h
  have hsorted : sorted xs = sorted ys := join_inj (fun _ hs => mem_sorted hs) (fun _ hs => mem_sorted hs) hjoin
  have hperm : (xs.map (·.1)).Perm (ys.map (·.1)) := calc
    (xs.map (·.1)).Perm (sorted xs) := (sorted_perm xs).symm
    _ = sorted ys := hsorted
    List.Perm _ (ys.map (·.1)) := sorted_perm ys
  exact ⟨Subtype.ext hsource, (List.map_perm_map_iff Subtype.val_injective).mp hperm⟩

/-!
## What a lineage names

A lineage is what the formula gave some executed statement, and names what that one made.
-/

section

variable {V : Type} {k : Kernel V} {log log' : List (Execution V)} {e o : Execution V} {seen : Seen}
  {lineage : Digest}

theorem formula_inj {code code' : Str} {xs ys : List Digest} (h : formula k code xs = formula k code' ys) :
    code = code' ∧ xs.Perm ys := by
  obtain ⟨hsource, hperm⟩ := lineageStr_inj (k.sha256_injective h)
  exact ⟨k.sha256_injective hsource, hperm⟩

/-! ### What an execution made -/

/-- The value of a single output, whatever its name, or the values of several by name. -/
def Execution.made (k : Kernel V) (e : Execution V) : Option V × (Str → Option V) :=
  match k.outputs e.code with
  | [name] => (some (e.values name), fun _ => none)
  | names => (none, fun name => if name ∈ names then some (e.values name) else none)

theorem made_single {n : Str} (hn : k.outputs e.code = [n]) : e.made k = (some (e.values n), fun _ => none) := by
  simp [Execution.made, hn]

theorem made_multi (h : ∀ n, k.outputs e.code ≠ [n]) :
    e.made k = (none, fun name => if name ∈ k.outputs e.code then some (e.values name) else none) := by
  unfold Execution.made
  split
  · rename_i n hn
    exact absurd hn (h n)
  · rfl

theorem values_of_made {n : Str} (hmade : e.made k = o.made k) (he : n ∈ k.outputs e.code) (ho : n ∈ k.outputs o.code) :
    e.values n = o.values n := by
  by_cases hsingle : ∃ m, k.outputs e.code = [m]
  · obtain ⟨m, hm⟩ := hsingle
    obtain rfl : n = m := by simpa [hm] using he
    by_cases hsingle' : ∃ m', k.outputs o.code = [m']
    · obtain ⟨m', hm'⟩ := hsingle'
      obtain rfl : n = m' := by simpa [hm'] using ho
      rw [made_single hm, made_single hm'] at hmade
      simpa using hmade
    · rw [made_single hm, made_multi (not_exists.mp hsingle')] at hmade
      cases (Prod.mk.inj hmade).1
  · by_cases hsingle' : ∃ m', k.outputs o.code = [m']
    · obtain ⟨m', hm'⟩ := hsingle'
      rw [made_multi (not_exists.mp hsingle), made_single hm'] at hmade
      cases (Prod.mk.inj hmade).1
    · rw [made_multi (not_exists.mp hsingle), made_multi (not_exists.mp hsingle')] at hmade
      have hvalue := congrFun (Prod.mk.inj hmade).2 n
      simpa [he, ho] using hvalue

/-- The lineage names what `e` made. -/
def Stands (k : Kernel V) (log : List (Execution V)) (lineage : Digest) (e : Execution V) : Prop :=
  ∃ o ∈ log, o.formula k = lineage ∧ o.made k = e.made k

theorem Stands.mono (h : Stands k log lineage e) (hlog : log ⊆ log') : Stands k log' lineage e := by
  obtain ⟨o, ho, hformula, hmade⟩ := h
  exact ⟨o, hlog ho, hformula, hmade⟩

/-- The formula gives a lineage to one text with one outcome. -/
def Functional (k : Kernel V) (log : List (Execution V)) : Prop :=
  ∀ e ∈ log, ∀ o ∈ log, e.formula k = o.formula k → e.code = o.code ∧ e.values = o.values

theorem Functional.made_eq (h : Functional k log) (he : e ∈ log) (ho : o ∈ log) (hformula : e.formula k = o.formula k) :
    e.made k = o.made k := by
  obtain ⟨hcode, hvalues⟩ := h e he o ho hformula
  unfold Execution.made
  rw [hcode, hvalues]

/-! ### The cutoff -/

/-- The value or values with a digest that an execution made. -/
def MadeWith (k : Kernel V) (d : Digest) (e : Execution V) : Prop :=
  ∃ n, k.outputs e.code = [n] ∧ k.digest false (e.values n) = some d

def MadeTogether (k : Kernel V) (outputs : Finset (Str × Digest)) (e : Execution V) : Prop :=
  k.outputs e.code ≠ [] ∧ (∀ n, k.outputs e.code ≠ [n]) ∧ outputDigests k (k.outputs e.code) e.values = some outputs

/-- A key an execution has tells what it made. -/
def Tells {κ : Type} (k : Kernel V) (has : κ → Execution V → Prop) : Prop :=
  ∀ ⦃key e o⦄, has key e → (has key o ↔ o.made k = e.made k)

theorem madeWith_tells : Tells k (MadeWith k) := by
  rintro d e o ⟨n, hn, hd⟩
  constructor
  · rintro ⟨m, hm, hd'⟩
    rw [made_single hm, made_single hn, k.digest_injective hd' hd]
  · intro hmade
    by_cases hsingle : ∃ m, k.outputs o.code = [m]
    · obtain ⟨m, hm⟩ := hsingle
      rw [made_single hm, made_single hn] at hmade
      simp only [Prod.mk.injEq, Option.some.injEq, and_true] at hmade
      exact ⟨m, hm, hmade ▸ hd⟩
    · rw [made_multi (not_exists.mp hsingle), made_single hn] at hmade
      cases (Prod.mk.inj hmade).1

theorem outputDigests_eq_some {names : List Str} {values : Str → V} {outputs : Finset (Str × Digest)} :
    outputDigests k names values = some outputs ↔ (∀ n ∈ names, (k.digest true (values n)).isSome) ∧
      ∀ n d, (n, d) ∈ outputs ↔ n ∈ names ∧ k.digest true (values n) = some d := by
  unfold outputDigests
  constructor
  · intro h
    split at h
    · rename_i hall
      cases h
      refine ⟨by simpa using hall, fun n d => ?_⟩
      simp
    · cases h
  · rintro ⟨hall, hmem⟩
    rw [if_pos (by simpa using hall)]
    congr 1
    ext ⟨n, d⟩
    simp [hmem]

/-- The digests tell the names and the values. -/
theorem outputDigests_inj {names names' : List Str} {values values' : Str → V} {outputs : Finset (Str × Digest)}
    (h : outputDigests k names values = some outputs) (h' : outputDigests k names' values' = some outputs) (n : Str) :
    (n ∈ names ↔ n ∈ names') ∧ (n ∈ names → values n = values' n) := by
  obtain ⟨hall, hmem⟩ := outputDigests_eq_some.mp h
  obtain ⟨hall', hmem'⟩ := outputDigests_eq_some.mp h'
  refine ⟨⟨fun hn => ?_, fun hn => ?_⟩, fun hn => ?_⟩
  · obtain ⟨d, hd⟩ := Option.isSome_iff_exists.mp (hall n hn)
    exact ((hmem' n d).mp ((hmem n d).mpr ⟨hn, hd⟩)).1
  · obtain ⟨d, hd⟩ := Option.isSome_iff_exists.mp (hall' n hn)
    exact ((hmem n d).mp ((hmem' n d).mpr ⟨hn, hd⟩)).1
  · obtain ⟨d, hd⟩ := Option.isSome_iff_exists.mp (hall n hn)
    exact k.digest_injective hd ((hmem' n d).mp ((hmem n d).mpr ⟨hn, hd⟩)).2

theorem made_multi_iff (he : ∀ n, k.outputs e.code ≠ [n]) (ho : ∀ n, k.outputs o.code ≠ [n]) :
    o.made k = e.made k ↔ ∀ n, (n ∈ k.outputs o.code ↔ n ∈ k.outputs e.code) ∧
      (n ∈ k.outputs o.code → o.values n = e.values n) := by
  rw [made_multi ho, made_multi he]
  constructor
  · intro hmade n
    have hvalue := congrFun (Prod.mk.inj hmade).2 n
    by_cases hn : n ∈ k.outputs o.code <;> by_cases hn' : n ∈ k.outputs e.code <;> simp_all
  · intro hnames
    congr 1
    funext n
    obtain ⟨hiff, hvalue⟩ := hnames n
    by_cases hn : n ∈ k.outputs o.code
    · simp [hn, hiff.mp hn, hvalue hn]
    · simp [hn, hiff.not.mp hn]

theorem madeTogether_tells : Tells k (MadeTogether k) := by
  rintro outputs e o ⟨hsome, he, hdigests⟩
  constructor
  · rintro ⟨-, ho, hdigests'⟩
    exact (made_multi_iff he ho).mpr fun n => outputDigests_inj hdigests' hdigests n
  · intro hmade
    have ho : ∀ n, k.outputs o.code ≠ [n] := by
      intro n hn
      rw [made_single hn, made_multi he] at hmade
      cases (Prod.mk.inj hmade).1
    have hnames := (made_multi_iff he ho).mp hmade
    obtain ⟨n, hn⟩ := List.exists_mem_of_ne_nil _ hsome
    refine ⟨List.ne_nil_of_mem ((hnames n).1.mpr hn), ho, ?_⟩
    rw [outputDigests_eq_some] at hdigests ⊢
    grind

/-- What the aliases name was executed. -/
def AliasesSound (k : Kernel V) (aliases : Aliases) (log : List (Execution V)) : Prop :=
  ∀ ⦃l earlier⦄, aliases l = some earlier → ∃ e ∈ log, e.formula k = l ∧ Stands k log earlier e

/-- What a table of the cutoff has was executed. -/
def TableSound {κ : Type} (k : Kernel V) (has : κ → Execution V → Prop) (table : κ → Option Digest)
    (log : List (Execution V)) : Prop :=
  ∀ ⦃key l⦄, table key = some l → ∃ e ∈ log, e.formula k = l ∧ has key e

theorem stands_resolve {aliases : Aliases} (hseen : AliasesSound k aliases log) (hfun : Functional k log)
    (h : Stands k log lineage e) : Stands k log (resolveLineageAlias aliases lineage) e := by
  unfold resolveLineageAlias
  cases halias : aliases lineage with
  | none => exact h
  | some earlier =>
    obtain ⟨o, ho, hformula, hmade⟩ := h
    obtain ⟨o₁, ho₁, hformula₁, o₂, ho₂, hformula₂, hmade₂⟩ := hseen halias
    have hsame := hfun.made_eq ho₁ ho (hformula₁.trans hformula.symm)
    exact ⟨o₂, ho₂, hformula₂, hmade₂.trans (hsame.trans hmade)⟩

/-- An alias between lineages that name one outcome. -/
theorem aliases_record {aliases : Aliases} (hseen : AliasesSound k aliases log) (hfun : Functional k log)
    {earlier : Digest} (hlineage : Stands k log lineage e) (hearlier : Stands k log earlier e) :
    AliasesSound k (recordLineageAlias aliases lineage earlier) log := by
  intro l l' h
  unfold recordLineageAlias at h
  split at h
  · by_cases hl : l = lineage
    · subst hl
      rw [Function.update_self] at h
      obtain ⟨o, ho, hformula, hmade⟩ := hlineage
      obtain ⟨o', ho', hformula', hmade'⟩ := stands_resolve hseen hfun hearlier
      exact ⟨o, ho, hformula, o', ho', hformula'.trans (Option.some.inj h), hmade'.trans hmade.symm⟩
    · rw [Function.update_of_ne hl] at h
      exact hseen h
  · exact hseen h

theorem cutOff_sound {κ : Type} [DecidableEq κ] {has : κ → Execution V → Prop} (htells : Tells k has)
    {aliases : Aliases} {table : κ → Option Digest} (haliases : AliasesSound k aliases log)
    (htable : TableSound k has table log) (hfun : Functional k log) {key : κ} (hkey : has key e)
    (hlineage : Stands k log lineage e) :
    Stands k log (cutOff aliases table key lineage).1 e ∧
      AliasesSound k (cutOff aliases table key lineage).2.1 log ∧
      TableSound k has (cutOff aliases table key lineage).2.2 log := by
  unfold cutOff
  cases hearlier : table key with
  | none =>
    refine ⟨hlineage, haliases, fun key' l h => ?_⟩
    by_cases hkey' : key' = key
    · subst hkey'
      simp only [Function.update_self, Option.some.injEq] at h
      obtain ⟨o, ho, hformula, hmade⟩ := stands_resolve haliases hfun hlineage
      exact ⟨o, ho, hformula.trans h, (htells hkey).mpr hmade⟩
    · simp only [Function.update_of_ne hkey'] at h
      exact htable h
  | some earlier =>
    obtain ⟨o, ho, hformula, hkey'⟩ := htable hearlier
    have hresolved := stands_resolve haliases hfun ⟨o, ho, hformula, (htells hkey).mp hkey'⟩
    refine ⟨hresolved, ?_, htable⟩
    simp only
    split
    · exact aliases_record haliases hfun hlineage hresolved
    · exact haliases

structure SeenSound (k : Kernel V) (seen : Seen) (log : List (Execution V)) : Prop where
  aliases : AliasesSound k seen.aliases log
  byDigest : TableSound k (MadeWith k) seen.byDigest log
  byOutputs : TableSound k (MadeTogether k) seen.byOutputs log

theorem SeenSound.mono (h : SeenSound k seen log) (hlog : log ⊆ log') : SeenSound k seen log' where
  aliases _ _ ha := by
    obtain ⟨e, he, hl, hstands⟩ := h.aliases ha
    exact ⟨e, hlog he, hl, hstands.mono hlog⟩
  byDigest _ _ hd := by
    obtain ⟨e, he, hrest⟩ := h.byDigest hd
    exact ⟨e, hlog he, hrest⟩
  byOutputs _ _ ho := by
    obtain ⟨e, he, hrest⟩ := h.byOutputs ho
    exact ⟨e, hlog he, hrest⟩

theorem lineageFor_sound (hseen : SeenSound k seen log) (hfun : Functional k log) {n : Str} (hn : k.outputs e.code = [n])
    (hlineage : Stands k log lineage e) :
    Stands k log (lineageFor k seen (e.values n) lineage).1 e ∧
      SeenSound k (lineageFor k seen (e.values n) lineage).2 log := by
  unfold lineageFor
  cases hdigest : k.digest false (e.values n) with
  | none => exact ⟨hlineage, hseen⟩
  | some d =>
    obtain ⟨hstands, haliases, htable⟩ :=
      cutOff_sound madeWith_tells hseen.aliases hseen.byDigest hfun ⟨n, hn, hdigest⟩ hlineage
    exact ⟨hstands, haliases, htable, hseen.byOutputs⟩

theorem lineageForOutputs_sound (hseen : SeenSound k seen log) (hfun : Functional k log)
    (hsome : k.outputs e.code ≠ []) (hn : ∀ n, k.outputs e.code ≠ [n]) (hlineage : Stands k log lineage e) :
    Stands k log (lineageForOutputs k seen (k.outputs e.code) e.values lineage).1 e ∧
      SeenSound k (lineageForOutputs k seen (k.outputs e.code) e.values lineage).2 log := by
  unfold lineageForOutputs
  cases hdigest : outputDigests k (k.outputs e.code) e.values with
  | none => exact ⟨hlineage, hseen⟩
  | some outputs =>
    obtain ⟨hstands, haliases, htable⟩ :=
      cutOff_sound madeTogether_tells hseen.aliases hseen.byOutputs hfun ⟨hsome, hn, hdigest⟩ hlineage
    exact ⟨hstands, haliases, hseen.byDigest, htable⟩

theorem captured_sound (hseen : SeenSound k e.before.seen log) (hfun : Functional k log) (he : e ∈ log) :
    Stands k log (e.lineage k) e ∧ SeenSound k (e.after k).seen log := by
  have hstands : Stands k log (outputLineage k e.before.seen.aliases e.code (e.reads k).reduceOption) e :=
    stands_resolve hseen.aliases hfun ⟨e, he, rfl, rfl⟩
  simp only [Execution.lineage, Execution.after, captureAndTrackVariables, capturedLineage]
  split
  · split
    · exact ⟨hstands, hseen⟩
    · rename_i n hn
      exact lineageFor_sound hseen hfun hn hstands
    · rename_i hempty hsingle
      exact lineageForOutputs_sound hseen hfun hempty hsingle hstands
  · exact ⟨hstands, hseen⟩

/-! ### Sessions -/

/-- A name's lineage and value are those an execution recorded, or it has neither. -/
def Known (k : Kernel V) (log : List (Execution V)) (n : Str) (l : Option Digest) (v : Option V) : Prop :=
  (l = none ∧ v = none) ∨ ∃ e ∈ log, n ∈ k.outputs e.code ∧ l = some (e.lineage k) ∧ v = some (e.values n)

theorem Known.mono {n : Str} {l : Option Digest} {v : Option V} (h : Known k log n l v) (hlog : log ⊆ log') :
    Known k log' n l v := by
  rcases h with h | ⟨e, he, hrest⟩
  · exact .inl h
  · exact .inr ⟨e, hlog he, hrest⟩

/-- No statement was executed twice with the same lineages under other names. -/
def KeptApart (k : Kernel V) (log : List (Execution V)) : Prop :=
  ∀ e ∈ log, ∀ o ∈ log, e.code = o.code → (e.reads k).reduceOption.Perm (o.reads k).reduceOption → e.reads k = o.reads k

structure Sound (k : Kernel V) (st : Tracking V) (log : List (Execution V)) : Prop where
  now : ∀ n, Known k log n (st.variableLineage n) (st.userNs n)
  before : ∀ e ∈ log, ∀ n, Known k log n (e.before.variableLineage n) (e.before.userNs n)
  ran : ∀ e ∈ log, k.run e.code ((k.inputs e.code).map e.before.userNs) = some e.values
  functional : Functional k log
  named : ∀ e ∈ log, Stands k log (e.lineage k) e
  seen : SeenSound k st.seen log

variable {st : Tracking V}

/-- A lineage of a name names one value. -/
theorem Sound.values_eq (h : Sound k st log) {n : Str} (he : e ∈ log) (ho : o ∈ log) (hen : n ∈ k.outputs e.code)
    (hon : n ∈ k.outputs o.code) (hlineage : e.lineage k = o.lineage k) : e.values n = o.values n := by
  obtain ⟨e₁, he₁, hformula, hmade⟩ := h.named e he
  obtain ⟨o₁, ho₁, hformula', hmade'⟩ := h.named o ho
  have hsame := h.functional.made_eq he₁ ho₁ (by rw [hformula, hformula', hlineage])
  exact values_of_made (hmade.symm.trans (hsame.trans hmade')) hen hon

theorem Sound.known_eq (h : Sound k st log) {n : Str} {l : Option Digest} {v w : Option V} (hv : Known k log n l v)
    (hw : Known k log n l w) : v = w := by
  rcases hv with ⟨rfl, rfl⟩ | ⟨e, he, hen, rfl, rfl⟩
  · rcases hw with ⟨-, rfl⟩ | ⟨o, -, -, hl, -⟩
    · rfl
    · cases hl
  · rcases hw with ⟨hl, -⟩ | ⟨o, ho, hon, hl, rfl⟩
    · cases hl
    · rw [h.values_eq he ho hen hon (Option.some.inj hl)]

/-- Two executions that read known names by the same formula have one outcome. -/
theorem Sound.same_outcome (h : Sound k st log) (he : ∀ n, Known k log n (e.before.variableLineage n) (e.before.userNs n))
    (ho : ∀ n, Known k log n (o.before.variableLineage n) (o.before.userNs n))
    (hrane : k.run e.code ((k.inputs e.code).map e.before.userNs) = some e.values)
    (hrano : k.run o.code ((k.inputs o.code).map o.before.userNs) = some o.values)
    (hapart : e.code = o.code → (e.reads k).reduceOption.Perm (o.reads k).reduceOption → e.reads k = o.reads k)
    (hformula : e.formula k = o.formula k) : e.code = o.code ∧ e.values = o.values := by
  obtain ⟨hcode, hperm⟩ := formula_inj hformula
  refine ⟨hcode, ?_⟩
  have hreads := hapart hcode hperm
  have hvalues : (k.inputs e.code).map e.before.userNs = (k.inputs o.code).map o.before.userNs := by
    rw [← hcode]
    apply List.map_congr_left
    intro n hn
    have hlineage : e.before.variableLineage n = o.before.variableLineage n := by
      unfold Execution.reads reads at hreads
      rw [← hcode] at hreads
      exact List.map_inj_left.mp hreads n hn
    exact h.known_eq (he n) (hlineage ▸ ho n)
  rw [hvalues, hcode, hrano] at hrane
  exact (Option.some.inj hrane).symm

theorem sound_start : Sound k .initial [] where
  now _ := .inl ⟨rfl, rfl⟩
  before _ he := by cases he
  ran _ he := by cases he
  functional _ he := by cases he
  named _ he := by cases he
  seen :=
    { aliases := fun _ _ h => by cases h
      byDigest := fun _ _ h => by cases h
      byOutputs := fun _ _ h => by cases h }

theorem sound_execute (h : Sound k st log) (e : Execution V) (hbefore : e.before = st)
    (hran : k.run e.code ((k.inputs e.code).map e.before.userNs) = some e.values)
    (hapart : KeptApart k (log ++ [e])) : Sound k (e.after k) (log ++ [e]) := by
  have hlog : log ⊆ log ++ [e] := List.subset_append_left _ _
  have hmem : e ∈ log ++ [e] := by simp
  have hknown : ∀ n, Known k log n (e.before.variableLineage n) (e.before.userNs n) := hbefore ▸ h.now
  have hknowns : ∀ o ∈ log ++ [e], ∀ n, Known k log n (o.before.variableLineage n) (o.before.userNs n) := by
    intro o ho
    rcases List.mem_append.mp ho with ho | ho
    · exact h.before o ho
    · rw [List.mem_singleton.mp ho]
      exact hknown
  have hrans : ∀ o ∈ log ++ [e], k.run o.code ((k.inputs o.code).map o.before.userNs) = some o.values := by
    intro o ho
    rcases List.mem_append.mp ho with ho | ho
    · exact h.ran o ho
    · rw [List.mem_singleton.mp ho]
      exact hran
  have hfun : Functional k (log ++ [e]) := fun o ho o' ho' => h.same_outcome (hknowns o ho) (hknowns o' ho')
    (hrans o ho) (hrans o' ho') (hapart o ho o' ho')
  obtain ⟨hnamed, hseen⟩ := captured_sound (hbefore ▸ h.seen.mono hlog) hfun hmem
  refine ⟨fun n => ?_, fun o ho n => (hknowns o ho n).mono hlog, hrans, hfun, fun o ho => ?_, hseen⟩
  · by_cases hn : n ∈ k.outputs e.code
    · refine .inr ⟨e, hmem, hn, ?_, ?_⟩ <;> simp [Execution.after, Execution.lineage, captureAndTrackVariables, hn]
    · have hrest := (hknown n).mono hlog
      simpa [Execution.after, captureAndTrackVariables, hn] using hrest
  · rcases List.mem_append.mp ho with ho | ho
    · exact (h.named o ho).mono hlog
    · rw [List.mem_singleton.mp ho]
      exact hnamed

theorem KeptApart.of_append {more : List (Execution V)} (h : KeptApart k (log ++ more)) : KeptApart k log :=
  fun e he o ho => h e (List.mem_append_left _ he) o (List.mem_append_left _ ho)

theorem sound_of_session (h : Session k st log) (hapart : KeptApart k log) : Sound k st log := by
  induction h with
  | start => exact sound_start
  | @execute st log code values rebuilt _ hran ih =>
    exact sound_execute (ih hapart.of_append) ⟨st, code, rebuilt, values⟩ rfl hran hapart

end

end Cash.Lineage
