import Cash.Upstream.Bindings

/-!
# Re-bindings
-/

namespace Cash.Upstream.Bindings

open Py

variable {bs : Bindings}

/-! ## Re-bindings under any order -/

section

open Relation (ReflTransGen)

variable {o o' : Order} {name a b : Str}

/-! ### Sets and the orders they come out in -/

theorem mem_outputs : name ∈ bs.outputs ↔ ∃ entry ∈ bs.trace, name ∈ entry.outputs := by
  unfold outputs
  induction bs.trace with
  | nil => simp
  | cons entry trace ih => rw [List.foldr_cons, Finset.mem_union, ih, List.exists_mem_cons_iff]

theorem mem_inputs (ho : o.Of bs) : b ∈ (o.inputs a).flatten ↔ bs.Reads a b := by
  rw [← Search.mem_flatten_perm (ho.inputs a), List.mem_flatten, Reads]
  simp only [List.mem_map, exists_exists_and_eq_and, Finset.mem_toList]

theorem mem_outputs_of_reads (h : bs.Reads a b) : a ∈ bs.outputs := by
  obtain ⟨inputs, hinputs, _⟩ := h
  obtain ⟨entry, hentry, _⟩ := List.mem_map.mp hinputs
  obtain ⟨hentry, ha⟩ := List.mem_filter.mp hentry
  exact mem_outputs.mpr ⟨entry, hentry, of_decide_eq_true ha⟩

theorem mem_outputs_of_inputs (ho : o.Of bs) (h : (o.inputs a).flatten ≠ []) : a ∈ bs.outputs.toList := by
  obtain ⟨b, hb⟩ := List.exists_mem_of_ne_nil _ h
  exact Finset.mem_toList.mpr (mem_outputs_of_reads ((mem_inputs ho).mp hb))

theorem someOrder_of (bs : Bindings) : bs.someOrder.Of bs where
  required := .refl _
  inputs _ := List.forall₂_same.mpr fun _ _ => .refl _

theorem mem_seen (ho : o.Of bs) : name ∈ bs.seen o ↔ bs.Reached name := by
  have hfuel : o.required.length + (bs.outputs.toList.map fun name => (o.inputs name).flatten.length).sum ≤
      o.required.length + bs.outputs.sum fun name => (o.inputs name).flatten.length :=
    Nat.le_of_eq (by rw [Finset.sum_map_toList])
  rw [seen, OrderedSet.mem_sweep bs.outputs.nodup_toList (fun a => mem_outputs_of_inputs ho) hfuel, Reached]
  simp only [← ho.required.mem_iff, Finset.mem_toList, mem_inputs ho]

theorem isRepaired_iff (ho : o.Of bs) : bs.isRepaired o name = true ↔ bs.Reached name ∧ bs.repairs name = true := by
  rw [isRepaired, Bool.and_eq_true, decide_eq_true_eq, mem_seen ho]

theorem isRepaired_eq (ho : o.Of bs) (ho' : o'.Of bs) : bs.isRepaired o = bs.isRepaired o' := by
  funext name
  rw [Bool.eq_iff_iff, isRepaired_iff ho, isRepaired_iff ho']

theorem leads_iff (ho : o.Of bs) : Search.Leads o.inputs (bs.isRepaired o) [] name ↔ bs.Built name := by
  constructor
  · intro h
    induction h with
    | here _ hgoal =>
        obtain ⟨hreached, hrepairs⟩ := (isRepaired_iff ho).mp hgoal
        exact ⟨_, hreached, hrepairs, .refl⟩
    | step _ hb _ ih =>
        obtain ⟨repaired, hreached, hrepairs, hway⟩ := ih
        exact ⟨repaired, hreached, hrepairs, .head ((mem_inputs ho).mp hb) hway⟩
  · rintro ⟨repaired, hreached, hrepairs, hway⟩
    induction hway using ReflTransGen.head_induction_on with
    | refl => exact .here List.not_mem_nil ((isRepaired_iff ho).mpr ⟨hreached, hrepairs⟩)
    | head hab _ ih => exact .step List.not_mem_nil ((mem_inputs ho).mpr hab) ih

/-- What is cut off in some order is cut off. -/
theorem CutOff.of_order (ho : o.Of bs)
    (h : Search.CutOff o.inputs (bs.isRepaired o) (fun top => bs.Reached top ∧ bs.live top = true) name) : bs.CutOff name := by
  obtain ⟨path, hcalled, hmem, hleads, hcut⟩ := h
  rw [isRepaired_eq ho (someOrder_of bs)] at hcalled hleads hcut
  have hperm : ∀ name, List.Forall₂ List.Perm (bs.someOrder.inputs name) (o.inputs name) := ho.inputs
  exact ⟨path, Search.called_perm hperm hcalled, hmem, (Search.leads_perm hperm).mp hleads,
    fun h => hcut ((Search.leads_perm hperm).mpr h)⟩

/-! ### The loop over what was seen -/

/-- Where nothing is cut off, the live names that are built of a repaired one are added. -/
theorem mem_addedFrom (ho : o.Of bs) (hclear : ∀ v, ¬bs.CutOff v) {names : List Str} (hnames : ∀ name ∈ names, bs.Reached name)
    {memo : Search.Memo Str} (hmemo : Search.Right o.inputs (bs.isRepaired o) memo) :
    name ∈ bs.addedFrom o names memo ↔ name ∈ names ∧ bs.live name = true ∧ bs.Built name := by
  induction names generalizing memo with
  | nil => simp [addedFrom]
  | cons first names ih =>
      obtain ⟨hfirst, hnames⟩ := List.forall_mem_cons.mp hnames
      rw [addedFrom]
      split
      · rename_i hlive
        have hanswer : Search.Answered o.inputs (bs.isRepaired o) [] first (bs.builtFromRepaired o first memo) := by
          have hcalled : Search.Called o.inputs (bs.isRepaired o) (fun top => bs.Reached top ∧ bs.live top = true) [] first :=
            .top ⟨hfirst, hlive⟩
          have hall : ∀ a, (o.inputs a).flatten ≠ [] → a ∈ bs.outputs.toList := fun a => mem_outputs_of_inputs ho
          refine Search.found_right hall (fun v hv => hclear v (CutOff.of_order ho hv)) hcalled ?_ hmemo
          rw [Finset.length_toList]
          exact Nat.le_refl _
        split
        · rename_i memo' hr
          rw [hr] at hanswer
          have hbuilt := (leads_iff ho).mp (hanswer.yes rfl)
          rw [List.mem_cons, List.mem_cons, ih hnames hanswer.right]
          constructor
          · rintro (rfl | ⟨hname, h⟩)
            · exact ⟨.inl rfl, hlive, hbuilt⟩
            · exact ⟨.inr hname, h⟩
          · rintro ⟨rfl | hname, h⟩
            · exact .inl rfl
            · exact .inr ⟨hname, h⟩
        · rename_i memo' hr
          rw [hr] at hanswer
          have hnot : ¬bs.Built first := fun h =>
            ((hanswer.no rfl).resolve_left List.not_mem_nil) ((leads_iff ho).mpr h)
          rw [List.mem_cons, ih hnames hanswer.right]
          constructor
          · rintro ⟨hname, h⟩
            exact ⟨.inr hname, h⟩
          · rintro ⟨rfl | hname, h⟩
            · exact absurd h.2 hnot
            · exact ⟨hname, h⟩
      · rename_i hlive
        rw [List.mem_cons, ih hnames hmemo]
        constructor
        · rintro ⟨hname, h⟩
          exact ⟨.inr hname, h⟩
        · rintro ⟨rfl | hname, h⟩
          · exact absurd h.1 hlive
          · exact ⟨hname, h⟩

theorem not_mem_addedFrom_cons {first : Str} {names : List Str} {memo : Search.Memo Str} (hlive : bs.live first = true)
    (hrest : ∀ memo, memo name = some false → name ∉ bs.addedFrom o names memo)
    (hfound : (bs.builtFromRepaired o first memo).2 name = some false) : name ∉ bs.addedFrom o (first :: names) memo := by
  have hself : (bs.builtFromRepaired o first memo).2 first = some (bs.builtFromRepaired o first memo).1 :=
    Search.found_top _ _ _
  rw [addedFrom, if_pos hlive]
  split
  · rename_i memo' hr
    rw [hr] at hself hfound
    rw [List.mem_cons, not_or]
    refine ⟨?_, hrest memo' hfound⟩
    rintro rfl
    rw [hfound] at hself
    cases hself
  · rename_i memo' hr
    rw [hr] at hfound
    exact hrest memo' hfound

/-- A name of which no is remembered is not added. -/
theorem not_mem_addedFrom (names : List Str) {memo : Search.Memo Str} (hmemo : memo name = some false) :
    name ∉ bs.addedFrom o names memo := by
  induction names generalizing memo with
  | nil => simp [addedFrom]
  | cons first names ih =>
      by_cases hlive : bs.live first = true
      · exact not_mem_addedFrom_cons hlive (fun memo => ih) (Search.found_keeps _ _ _ _ hmemo)
      · rw [addedFrom, if_neg hlive]
        exact ih hmemo

/-- What the search comes to was reached from the required inputs. -/
theorem reached_of_called {path : List Str} (ho : o.Of bs)
    (h : Search.Called o.inputs (bs.isRepaired o) (fun top => bs.Reached top ∧ bs.live top = true) path name) :
    bs.Reached name := by
  induction h with
  | top htop => exact htop.1
  | step _ _ _ hinputs hx _ ih =>
      obtain ⟨root, hroot, hway⟩ := ih
      refine ⟨root, hroot, hway.tail ((mem_inputs ho).mp ?_)⟩
      rw [hinputs]
      exact List.mem_flatten.mpr ⟨_, List.mem_append_right _ List.mem_cons_self, hx⟩

theorem Built.not_empty (hreached : bs.Reached name) (hbuilt : bs.Built name) : ¬(bs.pending = ∅ ∨ bs.required = ∅) := by
  obtain ⟨root, hroot, -⟩ := hreached
  obtain ⟨repaired, -, hrepairs, -⟩ := hbuilt
  simp only [repairs, Bool.and_eq_true, decide_eq_true_eq] at hrepairs
  rw [not_or]
  exact ⟨Finset.ne_empty_of_mem hrepairs.1.1, Finset.ne_empty_of_mem hroot⟩

/-- What is added is what the loop adds. -/
theorem mem_repair {names : List Str} {broken : Finset Str} (h : name ∈ bs.repairUpstreamRerunBindings o names broken) :
    name ∈ broken ∨ name ∈ bs.addedFrom o names fun _ => none := by
  rw [repairUpstreamRerunBindings] at h
  split at h
  · exact .inl h
  split at h
  · exact .inl h
  · exact (Finset.mem_union.mp h).imp id List.mem_toFinset.mp

/-- Where a live name is cut off, some order leaves it out. -/
theorem not_exact_of_cutOff (h : bs.CutOff name) (hlive : bs.live name = true) : ¬bs.Exact := by
  intro hexact
  have hsome := someOrder_of bs
  obtain ⟨inputs, hperm, first, ⟨hreached, hfirst⟩, hfalse⟩ :=
    Search.exists_found_false (fun a => mem_outputs_of_inputs hsome) h
  obtain ⟨path, hcalled, -, hleads, -⟩ := h
  let o : Order := ⟨bs.required.toList, inputs⟩
  have ho : o.Of bs := ⟨.refl _, hperm⟩
  rw [isRepaired_eq hsome ho, Finset.length_toList] at hfalse
  have hremembered : (bs.builtFromRepaired o first fun _ => none).2 name = some false := hfalse
  have hseen : first ∈ (bs.seen o).items := (mem_seen ho).mpr hreached
  have hadded : name ∈ bs.repairUpstreamRerunBindings o (first :: (bs.seen o).items.erase first) ∅ :=
    (hexact o _ ho (List.perm_cons_erase hseen).symm ∅ name).mpr
      (.inr ⟨hlive, reached_of_called hsome hcalled, (leads_iff hsome).mp hleads⟩)
  have hloop := (mem_repair hadded).resolve_left (Finset.notMem_empty name)
  exact not_mem_addedFrom_cons hfirst (fun _ => not_mem_addedFrom _) hremembered hloop

/-- Where nothing is cut off, every order adds the same. -/
theorem exact_of_clear (hclear : ∀ v, ¬bs.CutOff v) : bs.Exact := by
  intro o names ho hnames broken name
  have hmem : ∀ name, name ∈ names ↔ bs.Reached name := fun name => hnames.mem_iff.trans (mem_seen ho)
  have hright : Search.Right o.inputs (bs.isRepaired o) fun _ => none := fun _ _ h => by cases h
  have hloop : name ∈ bs.addedFrom o names (fun _ => none) ↔ name ∈ names ∧ bs.live name = true ∧ bs.Built name :=
    mem_addedFrom ho hclear (fun name => (hmem name).mp) hright
  constructor
  · intro h
    refine (mem_repair h).imp id fun h => ?_
    obtain ⟨hname, hlive, hbuilt⟩ := hloop.mp h
    exact ⟨hlive, (hmem name).mp hname, hbuilt⟩
  · intro h
    rw [repairUpstreamRerunBindings]
    rcases h with h | ⟨hlive, hreached, hbuilt⟩
    · split
      · exact h
      split
      · exact h
      · exact Finset.mem_union_left _ h
    · rw [if_neg (hbuilt.not_empty hreached), if_neg]
      · exact Finset.mem_union_right _ (List.mem_toFinset.mpr (hloop.mpr ⟨(hmem name).mpr hreached, hlive, hbuilt⟩))
      · obtain ⟨repaired, hrepaired, hrepairs, -⟩ := hbuilt
        intro hnone
        have hgoal := (isRepaired_iff ho).mpr ⟨hrepaired, hrepairs⟩
        rw [hnone repaired ((hmem repaired).mpr hrepaired)] at hgoal
        cases hgoal

end

/-! ## Re-bindings of what the inputs were built from -/

section

open Relation (TransGen)

/-- Where no name is read to make itself, none is cut off. -/
theorem not_cutOff_of_acyclic (h : ∀ a, ¬TransGen bs.Reads a a) (name : Str) : ¬bs.CutOff name := by
  refine Search.not_cutOff_of_acyclic fun a hcycle => h a ?_
  exact TransGen.mono (fun a b hb => (mem_inputs (someOrder_of bs)).mp hb) a a hcycle

/-- Exactly the live names between the required inputs and a repaired one are added, in every order of the sets, where no
name is cut off; and then no live name is. -/
theorem repair_exact (bs : Bindings) :
    ((∀ name, ¬bs.CutOff name) → bs.Exact) ∧ (bs.Exact → ∀ name, bs.live name = true → ¬bs.CutOff name) :=
  ⟨exact_of_clear, fun hexact _ hlive h => not_exact_of_cutOff h hlive hexact⟩

/-! ### Traces -/

/-- A statement of a trace. -/
def binding (output : String) (inputs : List String) : TraceEntry where
  stmtCode := []
  outputs := {str output}
  inputs := (inputs.map str).toFinset
  inputHashes _ := none
  producedLineages _ := none
  filesStale := false
  cell := none

/-- `c` is pending and everything is live. -/
def reloaded (trace : List TraceEntry) (required : String) : Bindings where
  trace := trace
  required := {str required}
  pending := {str "c"}
  variableLineage _ := none
  live _ := true
  exempt _ := false

/-- `c = load()`, `b = 0`, `a = g(b, c)`. -/
def straight : List TraceEntry := [binding "c" [], binding "b" [], binding "a" ["b", "c"]]

theorem repair_exact_straight : (reloaded straight "a").Exact := by
  refine (repair_exact _).1 (not_cutOff_of_acyclic fun name hcycle => ?_)
  have hreads : ∀ a b, (reloaded straight "a").Reads a b → a = str "a" ∧ b ≠ str "a" := by
    rintro a b ⟨inputs, hinputs, hb⟩
    simp only [producers, reloaded, straight, binding, List.mem_map, List.mem_filter] at hinputs
    obtain ⟨entry, ⟨hentry, ha⟩, rfl⟩ := hinputs
    rcases List.mem_cons.mp hentry with rfl | hentry
    · simp at hb
    rcases List.mem_cons.mp hentry with rfl | hentry
    · simp at hb
    · obtain rfl := List.mem_singleton.mp hentry
      refine ⟨by simpa using ha, ?_⟩
      rintro rfl
      revert hb
      decide
  obtain ⟨_, hfirst, -⟩ := TransGen.head'_iff.mp hcycle
  obtain ⟨_, -, hlast⟩ := TransGen.tail'_iff.mp hcycle
  exact (hreads _ _ hlast).2 (hreads _ _ hfirst).1

/-- `b = h(a)` comes after. -/
def rebound : List TraceEntry := straight ++ [binding "b" ["a"]]

/-- The set `{b, c}` gives `b` first. -/
def reboundOrder : Order where
  required := [str "b"]
  inputs name := if name = str "a" then [[str "b", str "c"]] else if name = str "b" then [[], [str "a"]]
    else if name = str "c" then [[]] else []

theorem reboundOrder_of : reboundOrder.Of (reloaded rebound "b") where
  required := by rw [reloaded, reboundOrder, Finset.toList_singleton]
  inputs name := by
    by_cases ha : name = str "a"
    · subst ha
      have hproducers : (reloaded rebound "b").producers (str "a") = [[str "b", str "c"].toFinset] := by decide
      rw [hproducers]
      exact .cons (List.toFinset_toList (by decide)) .nil
    by_cases hb : name = str "b"
    · subst hb
      have hproducers : (reloaded rebound "b").producers (str "b") = [∅, {str "a"}] := by decide
      rw [hproducers, List.map_cons, List.map_cons, Finset.toList_empty, Finset.toList_singleton]
      exact .cons (.refl _) (.cons (.refl _) .nil)
    by_cases hc : name = str "c"
    · subst hc
      have hproducers : (reloaded rebound "b").producers (str "c") = [∅] := by decide
      rw [hproducers, List.map_cons, Finset.toList_empty]
      exact .cons (.refl _) .nil
    · simp [producers, reloaded, rebound, straight, binding, reboundOrder, ha, hb, hc]

/-- `b`, which is built from `c` and is the input itself, is left out. -/
theorem rebound_left_out : ¬(reloaded rebound "b").Exact ∧
    (reloaded rebound "b").repairUpstreamRerunBindings reboundOrder [str "a", str "b", str "c"] ∅ = {str "a", str "c"} := by
  have hrun : (reloaded rebound "b").repairUpstreamRerunBindings reboundOrder [str "a", str "b", str "c"] ∅ =
      {str "a", str "c"} := by decide
  have hreads : (reloaded rebound "b").Reads (str "b") (str "a") ∧ (reloaded rebound "b").Reads (str "a") (str "c") := by
    constructor
    · exact ⟨{str "a"}, by decide, by decide⟩
    · exact ⟨{str "b", str "c"}, by decide, by decide⟩
  refine ⟨fun hexact => ?_, hrun⟩
  have hb : (reloaded rebound "b").Reached (str "b") := ⟨str "b", Finset.mem_singleton_self _, .refl⟩
  have hc : (reloaded rebound "b").Reached (str "c") := ⟨str "b", Finset.mem_singleton_self _, .tail (.single hreads.1) hreads.2⟩
  have hadded := (hexact reboundOrder [str "a", str "b", str "c"] reboundOrder_of (by decide) ∅ (str "b")).mpr
    (.inr ⟨rfl, hb, str "c", hc, by decide, .tail (.single hreads.1) hreads.2⟩)
  rw [hrun] at hadded
  revert hadded
  decide

end

end Cash.Upstream.Bindings
