import Cash.Lineage.Lemmas.Names
import Cash.Lineage.Lemmas.Aliases

/-!
# Sessions and their lineages
-/

namespace Cash.Lineage

open Py

variable {V : Type} {k : Kernel V} {st : Tracking V} {log : List (Execution V)}

/-!
## Lineages that stay what they were recorded as

Where no output is an input's object, every lineage recorded is what the formula and the aliases still give.
-/

section

variable {e : Execution V}

/-- The formulas of the executions resolve to the lineages recorded for them. -/
def Agree (k : Kernel V) (aliases : Aliases) (log : List (Execution V)) : Prop :=
  ∀ o ∈ log, resolveLineageAlias aliases (o.formula k) = o.lineage k

/-- A table has the lineages of the executions by their keys, and none of them has an alias. -/
structure SettledTable {κ : Type} (k : Kernel V) (has : κ → Execution V → Prop) (aliases : Aliases)
    (table : κ → Option Digest) (log : List (Execution V)) : Prop where
  has : ∀ o ∈ log, ∀ key, has key o → table key = some (o.lineage k)
  root : ∀ key l, table key = some l → aliases l = none

theorem resolve_of_none {aliases : Aliases} {l : Digest} (h : aliases l = none) : resolveLineageAlias aliases l = l := by
  rw [resolveLineageAlias, h, Option.getD_none]

/-- The formula of an execution is new. -/
theorem fresh_alias {aliases : Aliases} (haliases : AliasesSound k aliases log) (hnew : ∀ o ∈ log, o.formula k ≠ e.formula k) :
    aliases (e.formula k) = none := by
  cases h : aliases (e.formula k) with
  | none => rfl
  | some earlier =>
    obtain ⟨o, ho, hformula, -⟩ := haliases h
    exact absurd hformula (hnew o ho)

/-- What the cutoff leaves after an execution with a key. -/
structure CutsOff {κ : Type} [DecidableEq κ] (k : Kernel V) (aliases : Aliases) (table : κ → Option Digest) (key : κ)
    (log : List (Execution V)) (e : Execution V) (r : Digest × Aliases × (κ → Option Digest)) : Prop where
  agree : Agree k r.2.1 log
  taken : resolveLineageAlias r.2.1 (e.formula k) = r.1
  key : r.2.2 key = some r.1
  others : ∀ key' l, table key' = some l → r.2.2 key' = some l
  root : ∀ key' l, r.2.2 key' = some l → r.2.1 l = none
  aliases : ∀ o ∈ log, aliases (o.formula k) = none → r.2.1 (o.formula k) = none

theorem cutOff_settled {κ : Type} [DecidableEq κ] {has : κ → Execution V → Prop} {aliases : Aliases}
    {table : κ → Option Digest} (haliases : AliasesSound k aliases log) (htable : TableSound k has table log)
    (hagree : Agree k aliases log) (hsettled : SettledTable k has aliases table log) {key : κ}
    (hsame : ∀ o ∈ log, o.formula k = e.formula k → has key o) :
    CutsOff k aliases table key log e
      (cutOff aliases table key (resolveLineageAlias aliases (e.formula k))) := by
  by_cases hold : ∃ o ∈ log, o.formula k = e.formula k
  · -- executed before: its key is in the table, with the lineage the formula resolves to
    obtain ⟨o, ho, hformula⟩ := hold
    have hkey : table key = some (o.lineage k) := hsettled.has o ho key (hsame o ho hformula)
    have hlineage : resolveLineageAlias aliases (e.formula k) = o.lineage k := hformula ▸ hagree o ho
    have hroot := resolve_of_none (hsettled.root key _ hkey)
    simp only [cutOff, hkey, hlineage, hroot, ne_eq, not_true_eq_false, if_false]
    exact ⟨hagree, hlineage, hkey, fun _ _ h => h, hsettled.root, fun _ _ h => h⟩
  · have hnew : ∀ o ∈ log, o.formula k ≠ e.formula k := fun o ho h => hold ⟨o, ho, h⟩
    have hnone := fresh_alias haliases hnew
    rw [resolve_of_none hnone]
    cases hkey : table key with
    | none =>
      simp only [cutOff, hkey, resolve_of_none hnone]
      refine ⟨hagree, resolve_of_none hnone, Function.update_self .., fun key' l h => ?_, fun key' l h => ?_, fun _ _ h => h⟩
      · have hne : key' ≠ key := by
          rintro rfl
          rw [hkey] at h
          cases h
        simpa [Function.update_of_ne hne] using h
      · by_cases hne : key' = key
        · subst hne
          simp only [Function.update_self, Option.some.injEq] at h
          exact h ▸ hnone
        · simp only [Function.update_of_ne hne] at h
          exact hsettled.root key' l h
    | some earlier =>
      obtain ⟨o, ho, rfl, -⟩ := htable hkey
      have hroot := resolve_of_none (hsettled.root key _ hkey)
      have hne := hnew o ho
      have hrecord : recordLineageAlias aliases (e.formula k) (o.formula k) =
          Function.update aliases (e.formula k) (some (o.formula k)) := by
        simp [recordLineageAlias, hroot, hne.symm]
      simp only [cutOff, hkey, hroot, ne_eq, hne, not_false_eq_true, if_true, hrecord]
      refine ⟨fun o' ho' => ?_, ?_, hkey, fun _ _ h => h, fun key' l h => ?_, fun o' ho' h => ?_⟩
      · have hold' := hagree o' ho'
        simpa [resolveLineageAlias, Function.update_of_ne (hnew o' ho')] using hold'
      · simp [resolveLineageAlias]
      · obtain ⟨o', ho', rfl, -⟩ := htable h
        simpa [Function.update_of_ne (hnew o' ho')] using hsettled.root key' _ h
      · simpa [Function.update_of_ne (hnew o' ho')] using h

structure Settled (k : Kernel V) (seen : Seen) (log : List (Execution V)) : Prop where
  agree : Agree k seen.aliases log
  byDigest : SettledTable k (MadeWith k) seen.aliases seen.byDigest log
  byOutputs : SettledTable k (MadeTogether k) seen.aliases seen.byOutputs log

theorem Agree.append {aliases : Aliases} (h : Agree k aliases log)
    (he : resolveLineageAlias aliases (e.formula k) = e.lineage k) : Agree k aliases (log ++ [e]) := by
  intro o ho
  rcases List.mem_append.mp ho with ho | ho
  · exact h o ho
  · rw [List.mem_singleton.mp ho]
    exact he

/-- The table the cutoff wrote, after the execution. -/
theorem CutsOff.table {κ : Type} [DecidableEq κ] {has : κ → Execution V → Prop} {aliases : Aliases}
    {table : κ → Option Digest} {key : κ} {r : Digest × Aliases × (κ → Option Digest)}
    (h : CutsOff k aliases table key log e r) (hsettled : SettledTable k has aliases table log)
    (hkey : ∀ key', has key' e → key' = key) (hlineage : e.lineage k = r.1) :
    SettledTable k has r.2.1 r.2.2 (log ++ [e]) := by
  refine ⟨fun o ho key' ho' => ?_, h.root⟩
  rcases List.mem_append.mp ho with ho | ho
  · exact h.others key' _ (hsettled.has o ho key' ho')
  · obtain rfl := List.mem_singleton.mp ho
    rw [hkey key' ho', h.key, hlineage]

/-- The other table, which it left. -/
theorem SettledTable.append {κ : Type} {has : κ → Execution V → Prop} {aliases aliases' : Aliases}
    {table : κ → Option Digest} (h : SettledTable k has aliases table log) (hsound : TableSound k has table log)
    (haliases : ∀ o ∈ log, aliases (o.formula k) = none → aliases' (o.formula k) = none) (he : ∀ key, ¬ has key e) :
    SettledTable k has aliases' table (log ++ [e]) := by
  refine ⟨fun o ho key ho' => ?_, fun key l hl => ?_⟩
  · rcases List.mem_append.mp ho with ho | ho
    · exact h.has o ho key ho'
    · obtain rfl := List.mem_singleton.mp ho
      exact absurd ho' (he key)
  · obtain ⟨o, ho, rfl, -⟩ := hsound hl
    exact haliases o ho (h.root key _ hl)

/-- Nothing is compared: the formula's lineage is taken. -/
theorem Settled.append (h : Settled k e.before.seen log) (hseen : SeenSound k e.before.seen log)
    (hcaptured : capturedLineage k e.before e.code e.rebuilt e.values =
      (resolveLineageAlias e.before.seen.aliases (e.formula k), e.before.seen))
    (hdigest : ∀ d, ¬ MadeWith k d e) (houtputs : ∀ outputs, ¬ MadeTogether k outputs e) :
    Settled k (e.after k).seen (log ++ [e]) := by
  have hafter : (e.after k).seen = e.before.seen := congrArg Prod.snd hcaptured
  rw [hafter]
  exact ⟨h.agree.append (congrArg Prod.fst hcaptured).symm,
    h.byDigest.append hseen.byDigest (fun _ _ h => h) hdigest,
    h.byOutputs.append hseen.byOutputs (fun _ _ h => h) houtputs⟩

/-- What an execution takes before the cutoff. -/
def Execution.found (k : Kernel V) (e : Execution V) : Digest := resolveLineageAlias e.before.seen.aliases (e.formula k)

theorem captured_cases (k : Kernel V) (hrebuilt : e.rebuilt = true) :
    (k.outputs e.code = [] ∧ capturedLineage k e.before e.code e.rebuilt e.values = (e.found k, e.before.seen)) ∨
    (∃ n, k.outputs e.code = [n] ∧ capturedLineage k e.before e.code e.rebuilt e.values =
      lineageFor k e.before.seen (e.values n) (e.found k)) ∨
    (k.outputs e.code ≠ [] ∧ (∀ n, k.outputs e.code ≠ [n]) ∧ capturedLineage k e.before e.code e.rebuilt e.values =
      lineageForOutputs k e.before.seen (k.outputs e.code) e.values (e.found k)) := by
  unfold capturedLineage
  rw [if_pos hrebuilt]
  split
  · rename_i hnames
    exact .inl ⟨hnames, rfl⟩
  · rename_i n hnames
    exact .inr (.inl ⟨n, hnames, rfl⟩)
  · rename_i hempty hsingle
    exact .inr (.inr ⟨hempty, hsingle, rfl⟩)

theorem captured_settled (h : Settled k e.before.seen log) (hseen : SeenSound k e.before.seen log)
    (hfun : Functional k (log ++ [e])) (hrebuilt : e.rebuilt = true) : Settled k (e.after k).seen (log ++ [e]) := by
  have hmade : ∀ o ∈ log, o.formula k = e.formula k → o.made k = e.made k := fun o ho =>
    hfun.made_eq (List.mem_append_left _ ho) (by simp)
  have hafter : (e.after k).seen = (capturedLineage k e.before e.code e.rebuilt e.values).2 := rfl
  have hlineage : e.lineage k = (capturedLineage k e.before e.code e.rebuilt e.values).1 := rfl
  rcases captured_cases k hrebuilt with ⟨hnames, hcaptured⟩ | ⟨n, hnames, hcaptured⟩ | ⟨hsome, hmulti, hcaptured⟩
  · refine h.append hseen hcaptured (fun d hd => ?_) (fun outputs ho => ho.1 hnames)
    obtain ⟨n, hn, -⟩ := hd
    cases hnames.symm.trans hn
  · have htogether : ∀ outputs, ¬ MadeTogether k outputs e := fun outputs ho => ho.2.1 n hnames
    unfold lineageFor at hcaptured
    cases hdigest : k.digest false (e.values n) with
    | none =>
      rw [hdigest] at hcaptured
      refine h.append hseen hcaptured (fun d hd => ?_) htogether
      obtain ⟨m, hm, hd⟩ := hd
      cases hnames.symm.trans hm
      cases hdigest.symm.trans hd
    | some d =>
      rw [hdigest] at hcaptured
      have hcut := cutOff_settled hseen.aliases hseen.byDigest h.agree h.byDigest
        fun o ho hformula => (madeWith_tells ⟨n, hnames, hdigest⟩).mpr (hmade o ho hformula)
      rw [hafter, hcaptured]
      rw [hcaptured] at hlineage
      refine ⟨hcut.agree.append (hcut.taken.trans hlineage.symm), hcut.table h.byDigest (fun d' hd' => ?_) hlineage,
        h.byOutputs.append hseen.byOutputs hcut.aliases htogether⟩
      obtain ⟨m, hm, hd'⟩ := hd'
      cases hnames.symm.trans hm
      exact Option.some.inj (hd'.symm.trans hdigest)
  · have hwith : ∀ d, ¬ MadeWith k d e := fun d hd => hmulti hd.choose hd.choose_spec.1
    unfold lineageForOutputs at hcaptured
    cases hdigest : outputDigests k (k.outputs e.code) e.values with
    | none =>
      rw [hdigest] at hcaptured
      refine h.append hseen hcaptured hwith fun outputs ho => ?_
      cases hdigest.symm.trans ho.2.2
    | some outputs =>
      rw [hdigest] at hcaptured
      have hcut := cutOff_settled hseen.aliases hseen.byOutputs h.agree h.byOutputs
        fun o ho hformula => (madeTogether_tells ⟨hsome, hmulti, hdigest⟩).mpr (hmade o ho hformula)
      rw [hafter, hcaptured]
      rw [hcaptured] at hlineage
      exact ⟨hcut.agree.append (hcut.taken.trans hlineage.symm), h.byDigest.append hseen.byDigest hcut.aliases hwith,
        hcut.table h.byOutputs (fun outputs' ho' => Option.some.inj (ho'.2.2.symm.trans hdigest)) hlineage⟩

theorem settled_of_session (h : Session k st log) (hapart : KeptApart k log) (hrebuilt : ∀ e ∈ log, e.rebuilt = true) :
    Settled k st.seen log := by
  induction h with
  | start =>
    refine ⟨fun _ he => ?_, ⟨fun _ he => ?_, fun _ _ h => ?_⟩, fun _ he => ?_, fun _ _ h => ?_⟩
    · cases he
    · cases he
    · cases h
    · cases he
    · cases h
  | @execute st log code values rebuilt hsession hran ih =>
    have hbefore := sound_of_session hsession hapart.of_append
    have hafter := sound_of_session (.execute rebuilt hsession hran) hapart
    exact captured_settled (e := ⟨st, code, rebuilt, values⟩)
      (ih hapart.of_append fun e he => hrebuilt e (List.mem_append_left _ he)) hbefore.seen hafter.functional
      (hrebuilt _ (by simp))

end

/-! ## Lineages and values -/

/-- In a session in which no statement was executed twice with the same lineages under other names, a name that was
recorded twice with one lineage held one value. -/
theorem lineage_names_value (h : Session k st log) (hapart : KeptApart k log) :
    ∀ e ∈ log, ∀ o ∈ log, ∀ n, n ∈ k.outputs e.code → n ∈ k.outputs o.code →
      e.lineage k = o.lineage k → e.values n = o.values n :=
  fun _ he _ ho _ hen hon => (sound_of_session h hapart).values_eq he ho hen hon

/-! ### Arrays of one number -/

/-- A stand-in for a digest: the code points, moved past the colon. -/
def sha256 (s : Str) : Digest := ⟨59 :: s.map (· + 59), by simp, by simp⟩

theorem sha256_injective : Function.Injective sha256 := by
  intro s t h
  have hmap : s.map (· + 59) = t.map (· + 59) := (List.cons.inj (congrArg Subtype.val h)).2
  exact List.map_injective_iff.mpr (fun _ _ => Nat.add_right_cancel) hmap

def intDigest (n : Int) : Digest := sha256 [n.toNat, (-n).toNat]

theorem intDigest_injective : Function.Injective intDigest := by
  intro n m h
  have hlist := sha256_injective h
  simp only [List.cons.injEq, and_true] at hlist
  omega

/-- The array a text makes. -/
def literal (code : Str) : Int := if code.drop 1 = str " = np.array([5])" then 5 else 3

/-- `c = a - b`, and arrays of one number, which are all compared. -/
def arrays : Kernel Int where
  inputs code := if code = str "c = a - b" then [str "a", str "b"] else []
  outputs code := [code.take 1]
  outputs_nodup _ := List.nodup_singleton _
  run code values :=
    match values with
    | [some a, some b] => some fun _ => a - b
    | _ => some fun _ => literal code
  sha256 := sha256
  sha256_injective := sha256_injective
  digest _ n := some (intDigest n)
  digest_injective h h' := intDigest_injective ((Option.some.inj h).trans (Option.some.inj h').symm)

/-- The statement is executed after the others, and makes the array. -/
def thenMakes (st : Tracking Int) (code : String) (n : Int) : Execution Int := ⟨st, str code, true, fun _ => n⟩

def five : Execution Int := thenMakes .initial "a = np.array([5])" 5

def three : Execution Int := thenMakes (five.after arrays) "b = np.array([3])" 3

def difference : Execution Int := thenMakes (three.after arrays) "c = a - b" 2

theorem difference_session : Session arrays (difference.after arrays) [five, three, difference] := by
  have hfive : Session arrays (five.after arrays) [five] := .execute true .start rfl
  have hthree : Session arrays (three.after arrays) [five, three] := .execute true hfive rfl
  exact .execute true hthree rfl

/-- The difference, run again. -/
def again : Execution Int := thenMakes (difference.after arrays) "c = a - b" 2

theorem again_session : Session arrays (again.after arrays) [five, three, difference, again] :=
  .execute true difference_session rfl

theorem again_reads : ∀ e ∈ [five, three, difference, again],
    e.reads arrays = if e.code = str "c = a - b" then difference.reads arrays else [] := by
  simp only [List.forall_mem_cons]
  exact ⟨by decide +kernel, by decide +kernel, by decide +kernel, by decide +kernel, List.forall_mem_nil _⟩

theorem again_keptApart : KeptApart arrays [five, three, difference, again] := by
  intro e he o ho hcode _
  rw [again_reads e he, again_reads o ho, hcode]

theorem lineage_names_value_again : difference.values (str "c") = again.values (str "c") :=
  lineage_names_value again_session again_keptApart difference (by simp) again (by simp) (str "c") (by decide)
    (by decide) (by decide +kernel)

/-! ### The numbers of two arrays, exchanged -/

def three' : Execution Int := thenMakes (difference.after arrays) "a = np.array([3])" 3

def five' : Execution Int := thenMakes (three'.after arrays) "b = np.array([5])" 5

def difference' : Execution Int := thenMakes (five'.after arrays) "c = a - b" (-2)

theorem exchanged_session :
    Session arrays (difference'.after arrays) [five, three, difference, three', five', difference'] := by
  have hthree : Session arrays (three'.after arrays) [five, three, difference, three'] := .execute true difference_session rfl
  have hfive : Session arrays (five'.after arrays) [five, three, difference, three', five'] := .execute true hthree rfl
  exact .execute true hfive rfl

/-- `a` and `b` take each other's lineage, and `c = a - b` gives its other difference the lineage of the first. -/
theorem lineage_names_two_values : ¬ ∀ st log, Session arrays st log → ∀ e ∈ log, ∀ o ∈ log, ∀ n,
    n ∈ arrays.outputs e.code → n ∈ arrays.outputs o.code → e.lineage arrays = o.lineage arrays →
      e.values n = o.values n := by
  intro h
  have hvalues := h _ _ exchanged_session difference (by simp) difference' (by simp) (str "c") (by decide) (by decide)
    (by decide +kernel)
  revert hvalues
  decide

/-! ### The simulation of a run -/

variable {st₀ st' : Tracking V} {codes : List Str} {run : List (Execution V)}

theorem session_runAll (h : Session k st log) (hrun : RunAll k st codes st' run) : Session k st' (log ++ run) := by
  induction hrun generalizing log with
  | nil => simpa using h
  | cons hran _ ih => simpa using ih (.execute true h hran)

theorem runAll_rebuilt (hrun : RunAll k st codes st' run) : ∀ e ∈ run, e.rebuilt = true := by
  induction hrun with
  | nil => simp
  | cons _ _ ih => simpa using ih

/-- A run leaves the lineages of the names it does not bind. -/
theorem runAll_frame (hrun : RunAll k st codes st' run) {n : Str} (hn : ∀ c ∈ codes, n ∉ k.outputs c) :
    st'.variableLineage n = st.variableLineage n := by
  induction hrun with
  | nil => rfl
  | @cons _ _ code codes values run _ _ ih =>
    rw [ih fun c hc => hn c (List.mem_cons_of_mem _ hc)]
    simp [captureAndTrackVariables, hn code List.mem_cons_self]

/-- No statement reads a name that only it or statements below it bind. -/
def NoneReadAhead (k : Kernel V) (codes : List Str) : Prop :=
  ∀ above code below, codes = above ++ code :: below → ∀ n ∈ k.inputs code,
    (∃ c ∈ above, n ∈ k.outputs c) ∨ ∀ c ∈ code :: below, n ∉ k.outputs c

/-- The simulation has the lineages of the names that were bound, and of no others. -/
structure Mirrors (bound : Str → Prop) (virtualLineage : Str → Option Digest) (st : Tracking V) : Prop where
  some : ∀ n, bound n → ∃ l, virtualLineage n = some l ∧ st.variableLineage n = some l
  none : ∀ n, ¬ bound n → virtualLineage n = none

/-- One statement of the run, simulated after it. -/
theorem Mirrors.statement {bound : Str → Prop} {virtualLineage : Str → Option Digest} {e : Execution V}
    (h : Mirrors bound virtualLineage e.before) (hagree : resolveLineageAlias st'.seen.aliases (e.formula k) = e.lineage k)
    (hreads : reads k (fun n => (virtualLineage n).or (st'.variableLineage n)) e.code = e.reads k) :
    Mirrors (fun n => bound n ∨ n ∈ k.outputs e.code) (simulateStatement k st' virtualLineage e.code) (e.after k) := by
  have hlineage : outputLineage k st'.seen.aliases e.code (e.reads k).reduceOption = e.lineage k := hagree
  refine ⟨fun n hn => ?_, fun n hn => ?_⟩
  · by_cases hout : n ∈ k.outputs e.code
    · refine ⟨e.lineage k, ?_, ?_⟩
      · simp [simulateStatement, hout, hreads, hlineage]
      · simp [Execution.after, captureAndTrackVariables, hout, Execution.lineage]
    · obtain ⟨l, hvirtual, hst⟩ := h.some n (hn.resolve_right hout)
      exact ⟨l, by simp [simulateStatement, hout, hvirtual], by simp [Execution.after, captureAndTrackVariables, hout, hst]⟩
  · obtain ⟨hbound, hout⟩ := not_or.mp hn
    simp [simulateStatement, hout, h.none n hbound]

theorem simulate_run (hrun : RunAll k st codes st' run) (hagree : Agree k st'.seen.aliases run) {bound : Str → Prop}
    {virtualLineage : Str → Option Digest} (hmirrors : Mirrors bound virtualLineage st)
    (hread : ∀ above code below, codes = above ++ code :: below → ∀ n ∈ k.inputs code,
      bound n ∨ (∃ c ∈ above, n ∈ k.outputs c) ∨ ∀ c ∈ code :: below, n ∉ k.outputs c) :
    Mirrors (fun n => bound n ∨ ∃ c ∈ codes, n ∈ k.outputs c) (codes.foldl (simulateStatement k st') virtualLineage) st' := by
  induction hrun generalizing bound virtualLineage with
  | nil => simpa using hmirrors
  | @cons st st' code codes values run hran hrest ih =>
    have hreads : reads k (fun n => (virtualLineage n).or (st'.variableLineage n)) code =
        reads k st.variableLineage code := by
      apply List.map_congr_left
      intro n hn
      by_cases hbound : bound n
      · obtain ⟨l, hvirtual, hlineage⟩ := hmirrors.some n hbound
        rw [hvirtual, hlineage, Option.some_or]
      · rcases hread [] code codes rfl n hn with h | ⟨c, hc, -⟩ | hnone
        · exact absurd h hbound
        · cases hc
        · rw [hmirrors.none n hbound, Option.none_or, runAll_frame hrest fun c hc => hnone c (List.mem_cons_of_mem _ hc)]
          simp [captureAndTrackVariables, hnone code List.mem_cons_self]
    have hstep := hmirrors.statement (e := ⟨st, code, true, values⟩) (hagree _ List.mem_cons_self) hreads
    have hnext := ih (fun e he => hagree e (List.mem_cons_of_mem _ he)) hstep fun above c below heq n hn => by
      rcases hread (code :: above) c below (by rw [heq]; rfl) n hn with h | ⟨c', hc', hout⟩ | h
      · exact .inl (.inl h)
      · rcases List.mem_cons.mp hc' with rfl | hc'
        · exact .inl (.inr hout)
        · exact .inr (.inl ⟨c', hc', hout⟩)
      · exact .inr (.inr h)
    simpa [or_assoc] using hnext

/-- After a run in which no statement reads a name that only it or statements below it bind, the simulation of its
statements gives every name they bind the lineage recorded for it. -/
theorem simulated_recorded (h : Session k st₀ log) (hrebuilt : ∀ e ∈ log, e.rebuilt = true)
    (hrun : RunAll k st₀ codes st run) (hapart : KeptApart k (log ++ run)) (hread : NoneReadAhead k codes) :
    ∀ n, (∃ c ∈ codes, n ∈ k.outputs c) → simulateStatements k st codes n = st.variableLineage n := by
  have hsettled : Settled k st.seen (log ++ run) := by
    refine settled_of_session (session_runAll h hrun) hapart fun e he => ?_
    exact (List.mem_append.mp he).elim (hrebuilt e) (runAll_rebuilt hrun e)
  have hstart : Mirrors (fun _ => False) (fun _ => none) st₀ := ⟨fun _ hn => hn.elim, fun _ _ => rfl⟩
  have hmirrors := simulate_run hrun (fun e he => hsettled.agree e (List.mem_append_right _ he)) hstart
    fun above code below heq n hn => .inr (hread above code below heq n hn)
  intro n hn
  obtain ⟨l, hvirtual, hlineage⟩ := hmirrors.some n (.inr hn)
  exact hvirtual.trans hlineage.symm

/-! ### Numbers -/

/-- `y = x + 1`, and numbers, which a single output is not compared by. -/
def numbers : Kernel Int where
  inputs code := if code = str "y = x + 1" then [str "x"] else []
  outputs code := [code.take 1]
  outputs_nodup _ := List.nodup_singleton _
  run code values :=
    match values with
    | [some x] => some fun _ => x + 1
    | [none] => none
    | _ => some fun _ => if code = str "x = 2" then 2 else 1
  sha256 := sha256
  sha256_injective := sha256_injective
  digest plain n := if plain then some (intDigest n) else none
  digest_injective {p q _ _ _} h h' := by
    cases p <;> cases q <;> simp at h h'
    exact intDigest_injective (h.trans h'.symm)

def one : Execution Int := thenMakes .initial "x = 1" 1

theorem one_session : Session numbers (one.after numbers) [one] := .execute true .start rfl

/-- `x = 2` and `y = x + 1`, after `x = 1`. -/
def two : Execution Int := thenMakes (one.after numbers) "x = 2" 2

def sum : Execution Int := thenMakes (two.after numbers) "y = x + 1" 3

theorem sum_run : RunAll numbers (one.after numbers) [str "x = 2", str "y = x + 1"] (sum.after numbers) [two, sum] := by
  have hrest : RunAll numbers (two.after numbers) [str "y = x + 1"] (sum.after numbers) [sum] := .cons rfl (.nil _)
  exact .cons rfl hrest

theorem sum_keptApart : KeptApart numbers ([one] ++ [two, sum]) := by
  have hreads : ∀ e ∈ [one, two, sum],
      e.reads numbers = if e.code = str "y = x + 1" then sum.reads numbers else [] := by
    simp only [List.forall_mem_cons]
    exact ⟨by decide +kernel, by decide +kernel, by decide +kernel, List.forall_mem_nil _⟩
  intro e he o ho hcode _
  rw [hreads e he, hreads o ho, hcode]

theorem sum_noneReadAhead : NoneReadAhead numbers [str "x = 2", str "y = x + 1"] := by
  intro above code below heq n hn
  match above, heq with
  | [], heq =>
    obtain ⟨rfl, -⟩ := List.cons.inj heq
    simp [numbers, str] at hn
  | [c], heq =>
    obtain ⟨rfl, hrest⟩ := List.cons.inj heq
    obtain ⟨rfl, -⟩ := List.cons.inj hrest
    obtain rfl : n = str "x" := by simpa [numbers] using hn
    exact .inl ⟨_, List.mem_cons_self, by decide⟩
  | _ :: _ :: _, heq => simp at heq

theorem simulated_recorded_sum : simulateStatements numbers (sum.after numbers) [str "x = 2", str "y = x + 1"] (str "y") =
    (sum.after numbers).variableLineage (str "y") :=
  simulated_recorded one_session (by simp [one, thenMakes]) sum_run sum_keptApart sum_noneReadAhead (str "y")
    ⟨str "y = x + 1", by simp, by decide⟩

/-- `y = x + 1` above `x = 2`, run after `x = 1` alone. -/
def sum' : Execution Int := thenMakes (one.after numbers) "y = x + 1" 2

def two' : Execution Int := thenMakes (sum'.after numbers) "x = 2" 2

/-- A name read above where it is bound is simulated with the lineage bound below. -/
theorem simulated_reads_ahead :
    Session numbers (one.after numbers) [one] ∧ KeptApart numbers ([one] ++ [sum', two']) ∧
      RunAll numbers (one.after numbers) [str "y = x + 1", str "x = 2"] (two'.after numbers) [sum', two'] ∧
      simulateStatements numbers (two'.after numbers) [str "y = x + 1", str "x = 2"] (str "y") ≠
        (two'.after numbers).variableLineage (str "y") := by
  refine ⟨one_session, ?_, .cons rfl (.cons rfl (.nil _)), by decide +kernel⟩
  have hreads : ∀ e ∈ [one, sum', two'],
      e.reads numbers = if e.code = str "y = x + 1" then sum'.reads numbers else [] := by
    simp only [List.forall_mem_cons]
    exact ⟨by decide +kernel, by decide +kernel, by decide +kernel, List.forall_mem_nil _⟩
  intro e he o ho hcode _
  rw [hreads e he, hreads o ho, hcode]

/-! ### Aliases -/

section Aliases

variable {events : List (AliasEvent V)} {p : Process}

theorem settles_of_run (h : Run (Process.keepingStep k) .start events p) : Settles p := by
  induction h with
  | nil => exact .start
  | snoc _ hstep ih => exact ih.step hstep

/-- Where no event makes an alias of a lineage that has aliases, or another of one that is an alias, aliases lead to one
representative. -/
theorem one_representative (h : Run (Process.keepingStep k) .start events p) : p.OneRepresentative :=
  (settles_of_run h).oneRepresentative

def first : Digest := sha256 (str "first")

def second : Digest := sha256 (str "second")

/-- Two equal arrays are seen. -/
def seenTwice : Process := (Process.start.step arrays (.lineageFor 5 first)).step arrays (.lineageFor 5 second)

theorem one_representative_seenTwice :
    resolveLineageAlias seenTwice.seen.aliases second = resolveLineageAlias seenTwice.seen.aliases first := by
  have h : Run (Process.keepingStep arrays) .start [] .start := .nil
  have hfirst := h.snoc (l := .lineageFor 5 first) ⟨rfl, nofun, nofun⟩
  have hsecond := hfirst.snoc (l := .lineageFor 5 second) ⟨rfl, by
    intro x y hcall
    cases hcall
    exact .inr ⟨rfl, nofun⟩, nofun⟩
  exact (one_representative hsecond).recorded second first (by decide +kernel)

def third : Digest := sha256 (str "third")

/-- What was seen is cleared, and the array is seen with another lineage before it is with the first again. -/
def seenAgain : Process :=
  ((seenTwice.step arrays .clear).step arrays (.lineageFor 5 third)).step arrays (.lineageFor 5 first)

/-- `second` was recorded as an alias of `first`, which is now one of `third`. -/
theorem aliases_lead_apart : ¬ seenAgain.OneRepresentative := by
  intro h
  have hsame := h.recorded second first (by decide +kernel)
  revert hsame
  decide +kernel

end Aliases

end Cash.Lineage
