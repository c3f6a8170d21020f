import Cash.Edges.Bump
import Cash.Lib.Stack
import Mathlib.Algebra.BigOperators.Group.List.Basic
import Mathlib.Algebra.Order.BigOperators.Group.List

/-!
# The walk of a change in place

A turn of the loop takes from its size, so it comes to an end. What it keeps: the names it opens are outputs changed in
place or were moved on, and what a name it visited points to is moved on too.
-/

namespace Cash.Edges

open Py

variable {sha256 : Str → Str} {edges : EdgeMap} {c : Change} {lineages : Dict Str Str} {w : Walk}

/-! ## Targets -/

theorem mem_sorted {names : List Str} {name : Str} : name ∈ sorted names ↔ name ∈ names := List.mem_insertionSort _

theorem mem_targets {src target : Str} : target ∈ edges.targets src ↔ edges.Edge src target := by
  rw [EdgeMap.targets, mem_sorted, EdgeMap.Edge, Dict.getD]
  cases edges.lookup src with
  | none => simp [OrderedSet.empty]
  | some targets => simp [OrderedSet.mem_iff]

theorem mem_of_edge {src target : Str} (h : edges.Edge src target) : src ∈ edges := by
  obtain ⟨targets, hlookup, _⟩ := h
  exact Dict.mem_of_lookup hlookup

theorem targets_eq_nil {src : Str} (h : src ∉ edges) : edges.targets src = [] := by
  refine List.eq_nil_iff_forall_not_mem.mpr ?_
  intro target ht
  exact h (mem_of_edge (mem_targets.mp ht))

theorem mem_seeds {o : Str} : o ∈ c.seeds edges ↔ c.ChangedInPlace o ∧ o ∈ edges := by
  unfold Change.seeds Change.ChangedInPlace
  rw [List.mem_append, mem_sorted, List.mem_filter]
  cases hcode : c.code.bind textBoundNames with
  | none =>
      simp only [OrderedSet.mem_iff, decide_eq_true_eq, List.not_mem_nil, or_false, reduceCtorEq, false_and, exists_false]
      tauto
  | some bound =>
      simp only [OrderedSet.mem_iff, decide_eq_true_eq, List.mem_filter, mem_sorted, Option.some.injEq, exists_eq_left']
      tauto

/-! ## One target -/

/-- A hash that leads on is not what it is made of. -/
theorem LeadsOn.ne (hsha : LeadsOn sha256) (old srcLineage : Str) : newHash sha256 old srcLineage ≠ old := by
  obtain ⟨rank, hrank⟩ := hsha
  intro heq
  have hlt := hrank old srcLineage
  rw [heq] at hlt
  exact Nat.lt_irrefl _ hlt

theorem Walk.visited_bump (src srcLineage : Str) (w : Walk) (target : Str) :
    (w.bump sha256 edges c src srcLineage target).visited = w.visited := by
  unfold Walk.bump
  simp only []
  split
  · rfl
  split <;> rfl

theorem Walk.length_bump (src srcLineage : Str) (w : Walk) (target : Str) :
    (w.bump sha256 edges c src srcLineage target).frontier.length ≤ w.frontier.length + 1 := by
  unfold Walk.bump
  simp only []
  split
  · omega
  split
  · omega
  simp only []
  split
  · rw [List.length_cons]
  · omega

/-! ## The end -/

theorem Walk.visited_foldl (src srcLineage : Str) (targets : List Str) (w : Walk) :
    (targets.foldl (Walk.bump sha256 edges c src srcLineage) w).visited = w.visited := by
  induction targets generalizing w with
  | nil => rfl
  | cons target targets ih => rw [List.foldl_cons, ih, Walk.visited_bump]

theorem Walk.length_foldl (src srcLineage : Str) (targets : List Str) (w : Walk) :
    (targets.foldl (Walk.bump sha256 edges c src srcLineage) w).frontier.length ≤ w.frontier.length + targets.length := by
  induction targets generalizing w with
  | nil => exact Nat.le_refl _
  | cons target targets ih =>
      rw [List.foldl_cons, List.length_cons]
      have := ih (w.bump sha256 edges c src srcLineage target)
      have hone : (w.bump sha256 edges c src srcLineage target).frontier.length ≤ w.frontier.length + 1 := w.length_bump ..
      omega

/-- The edges of the names that are not visited, without those of one more. -/
theorem sum_unvisited {visited : List Str} {src : Str} (hsrc : src ∉ visited) (f : Str → Nat) (hf : src ∉ edges → f src = 0) :
    ((edges.keys.filter (· ∉ src :: visited)).map f).sum + f src = ((edges.keys.filter (· ∉ visited)).map f).sum := by
  have hkeys : edges.keys.Nodup := edges.nodupKeys
  rw [← OrderedSet.sum_filter_ne hkeys (p := fun name => name ∉ visited) (by simpa using hsrc) f hf]
  congr 3
  refine List.filter_congr ?_
  intro name _
  simp only [List.mem_cons, not_or, decide_eq_true_eq]

theorem Walk.size_step (hw : w.frontier ≠ []) : (w.step sha256 edges c).size edges < w.size edges := by
  cases hf : w.frontier with
  | nil => exact absurd hf hw
  | cons src frontier =>
      simp only [Walk.step, hf]
      split
      · simp [Walk.size, hf]
      · rename_i hsrc
        have hsum := sum_unvisited hsrc (fun src => (edges.targets src).length) fun h => by rw [targets_eq_nil h, List.length_nil]
        split
        · simp only [Walk.size, hf, List.length_cons]
          omega
        · rename_i srcLineage _
          have hlen : ((edges.targets src).foldl (Walk.bump sha256 edges c src srcLineage)
              { w with frontier := frontier, visited := src :: w.visited }).frontier.length ≤
              frontier.length + (edges.targets src).length := Walk.length_foldl ..
          simp only [Walk.size, hf, List.length_cons, Walk.visited_foldl]
          omega

theorem Walk.step_end (hw : w.frontier = []) : w.step sha256 edges c = w := by rw [Walk.step, hw]

/-- After as many turns as its size, the loop is at its end. -/
theorem frontier_iterate {n : Nat} (hn : w.size edges ≤ n) : ((Walk.step sha256 edges c)^[n] w).frontier = [] := by
  induction n generalizing w with
  | zero =>
      rw [Nat.le_zero, Walk.size, Nat.add_eq_zero_iff, List.length_eq_zero_iff] at hn
      exact hn.1
  | succ n ih =>
      rw [Function.iterate_succ_apply]
      by_cases hw : w.frontier = []
      · rw [Walk.step_end hw, Function.iterate_fixed (Walk.step_end hw), hw]
      · exact ih (Nat.le_of_lt_succ (Nat.lt_of_lt_of_le (Walk.size_step hw) hn))

/-! ## What the loop keeps -/

theorem Moved.not_output {t : Str} (h : Moved c lineages (Bumps edges c) t) : t ∉ c.outputs := by
  have hbumps : ∃ src, Bumps edges c src t := by
    cases h with
    | first _ _ hedge => exact ⟨_, hedge⟩
    | next _ _ hedge => exact ⟨_, hedge⟩
  obtain ⟨src, _, hpass⟩ := hbumps
  intro hout
  simp [Change.bumps, hout] at hpass

/-- The walk in the middle of the targets of a name: those still to do are the last. -/
structure Walk.Inv (edges : EdgeMap) (c : Change) (lineages : Dict Str Str) (src : Str) (todo : List Str) (w : Walk) :
    Prop where
  seeds : ∀ o ∈ c.seeds edges, o ∈ w.visited ∨ o ∈ w.frontier
  opened : ∀ x, x ∈ w.visited ∨ x ∈ w.frontier → c.ChangedInPlace x ∨ x ∈ w.bumped ∧ x ∉ c.skip
  moved : ∀ t ∈ w.bumped, Moved c lineages (Bumps edges c) t
  cascaded : ∀ t ∈ w.bumped, t ∉ c.skip → t ∈ edges → t ∈ w.visited ∨ t ∈ w.frontier
  hasLineage : ∀ t ∈ w.bumped, w.lineages.lookup t ≠ none
  kept : ∀ x, x ∉ w.bumped → w.lineages.lookup x = lineages.lookup x
  closed : ∀ s ∈ w.visited, s ∉ c.outputs ∨ lineages.lookup s ≠ none →
    ∀ t, Bumps edges c s t → s = src ∧ t ∈ todo ∨ t ∈ w.bumped

theorem Walk.Inv.start (edges : EdgeMap) (c : Change) (lineages : Dict Str Str) (src : Str) :
    (c.start edges lineages).Inv edges c lineages src [] where
  seeds o ho := .inr (List.mem_reverse.mpr ho)
  opened x hx := by
    rcases hx with hx | hx
    · cases hx
    · exact .inl (mem_seeds.mp (List.mem_reverse.mp hx)).1
  moved t ht := absurd ht (OrderedSet.not_mem_empty t)
  cascaded t ht := absurd ht (OrderedSet.not_mem_empty t)
  hasLineage t ht := absurd ht (OrderedSet.not_mem_empty t)
  kept _ _ := rfl
  closed s hs := by cases hs

/-- One target more. -/
theorem Walk.Inv.bump (hsha : LeadsOn sha256) {src srcLineage target : Str} {todo : List Str}
    (hi : w.Inv edges c lineages src (target :: todo))
    (hmoved : Bumps edges c src target → Moved c lineages (Bumps edges c) target) (hedge : edges.Edge src target) :
    (w.bump sha256 edges c src srcLineage target).Inv edges c lineages src todo := by
  unfold Walk.bump
  simp only [hsha.ne, if_false]
  split
  · rename_i hpass
    refine { hi with closed := ?_ }
    intro s hs hsource t ht
    rcases hi.closed s hs hsource t ht with ⟨rfl, htodo⟩ | hbumped
    · rcases List.mem_cons.mp htodo with rfl | htodo
      · rw [Bumps, hpass] at ht
        exact absurd ht.2 Bool.false_ne_true
      · exact .inl ⟨rfl, htodo⟩
    · exact .inr hbumped
  · rename_i hpass
    have htarget := hmoved ⟨hedge, Bool.eq_true_of_not_eq_false hpass⟩
    -- Nothing leaves the frontier.
    have hgrows : ∀ x, x ∈ w.frontier → x ∈ (if target ∉ c.skip ∧ target ∉ w.visited ∧ target ∈ edges then
        target :: w.frontier else w.frontier) := by
      intro x hx
      split
      · exact List.mem_cons_of_mem _ hx
      · exact hx
    constructor
    · intro o ho
      exact (hi.seeds o ho).imp id (hgrows o)
    · intro x hx
      by_cases hopen : x ∈ w.visited ∨ x ∈ w.frontier
      · exact (hi.opened x hopen).imp id fun h => ⟨OrderedSet.mem_add.mpr (.inr h.1), h.2⟩
      · have hx := hx.resolve_left fun h => hopen (.inl h)
        simp only at hx
        split at hx
        · rename_i hpush
          rcases List.mem_cons.mp hx with rfl | hx
          · exact .inr ⟨OrderedSet.mem_add.mpr (.inl rfl), hpush.1⟩
          · exact absurd (.inr hx) hopen
        · exact absurd (.inr hx) hopen
    · intro t ht
      rcases OrderedSet.mem_add.mp ht with rfl | ht
      · exact htarget
      · exact hi.moved t ht
    · intro t ht hskip hmem
      rcases OrderedSet.mem_add.mp ht with rfl | ht
      · by_cases hvisited : t ∈ w.visited
        · exact .inl hvisited
        · refine .inr ?_
          rw [if_pos ⟨hskip, hvisited, hmem⟩]
          exact List.mem_cons_self
      · exact (hi.cascaded t ht hskip hmem).imp id (hgrows t)
    · intro t ht
      simp only [Dict.lookup_insert']
      split
      · exact Option.some_ne_none _
      · rename_i hne
        rcases OrderedSet.mem_add.mp ht with rfl | ht
        · exact absurd rfl hne
        · exact hi.hasLineage t ht
    · intro x hx
      rw [OrderedSet.mem_add, not_or] at hx
      simp only [Dict.lookup_insert']
      rw [if_neg hx.1]
      exact hi.kept x hx.2
    · intro s hs hsource t ht
      rcases hi.closed s hs hsource t ht with ⟨rfl, htodo⟩ | hbumped
      · rcases List.mem_cons.mp htodo with rfl | htodo
        · exact .inr (OrderedSet.mem_add.mpr (.inl rfl))
        · exact .inl ⟨rfl, htodo⟩
      · exact .inr (OrderedSet.mem_add.mpr (.inr hbumped))

theorem Walk.Inv.foldl (hsha : LeadsOn sha256) {src srcLineage : Str} {targets : List Str}
    (hi : w.Inv edges c lineages src targets)
    (hmoved : ∀ t, Bumps edges c src t → Moved c lineages (Bumps edges c) t) (hedges : ∀ t ∈ targets, edges.Edge src t) :
    (targets.foldl (Walk.bump sha256 edges c src srcLineage) w).Inv edges c lineages src [] := by
  induction targets generalizing w with
  | nil => exact hi
  | cons target targets ih =>
      rw [List.foldl_cons]
      refine ih (hi.bump hsha (hmoved target) (hedges target List.mem_cons_self)) ?_
      intro t ht
      exact hedges t (List.mem_cons_of_mem _ ht)

/-- A name's turn: it is among the visited ones, and its targets are to do. -/
theorem Walk.Inv.visit {src src' : Str} {frontier : List Str} (hi : w.Inv edges c lineages src' [])
    (hf : w.frontier = src :: frontier) :
    ({ w with frontier := frontier, visited := src :: w.visited } : Walk).Inv edges c lineages src (edges.targets src) := by
  have hsame : ∀ x, x ∈ src :: w.visited ∨ x ∈ frontier ↔ x ∈ w.visited ∨ x ∈ w.frontier := by
    intro x
    rw [hf, List.mem_cons, List.mem_cons]
    tauto
  refine { hi with seeds := ?_, opened := ?_, cascaded := ?_, closed := ?_ }
  · intro o ho
    exact (hsame o).mpr (hi.seeds o ho)
  · intro x hx
    exact hi.opened x ((hsame x).mp hx)
  · intro t ht hskip hmem
    exact (hsame t).mpr (hi.cascaded t ht hskip hmem)
  · intro s hs hsource t ht
    rcases List.mem_cons.mp hs with rfl | hs
    · exact .inl ⟨rfl, mem_targets.mpr ht.1⟩
    · rcases hi.closed s hs hsource t ht with ⟨_, htodo⟩ | hbumped
      · cases htodo
      · exact .inr hbumped

theorem Walk.Inv.step (hsha : LeadsOn sha256) {src : Str} (hi : w.Inv edges c lineages src []) :
    ∃ src', (w.step sha256 edges c).Inv edges c lineages src' [] := by
  cases hf : w.frontier with
  | nil =>
      rw [Walk.step_end hf]
      exact ⟨src, hi⟩
  | cons next frontier =>
      refine ⟨next, ?_⟩
      have hvisit := hi.visit hf
      have hopened := hi.opened next (.inr (hf ▸ List.mem_cons_self))
      simp only [Walk.step, hf]
      split
      · rename_i hvisited
        have hsame : ∀ x, x ∈ w.visited ∨ x ∈ frontier ↔ x ∈ w.visited ∨ x ∈ w.frontier := by
          intro x
          rw [hf, List.mem_cons]
          constructor
          · rintro (hx | hx)
            · exact .inl hx
            · exact .inr (.inr hx)
          · rintro (hx | rfl | hx)
            · exact .inl hx
            · exact .inl hvisited
            · exact .inr hx
        refine { hi with seeds := ?_, opened := ?_, cascaded := ?_, closed := ?_ }
        · intro o ho
          exact (hsame o).mpr (hi.seeds o ho)
        · intro x hx
          exact hi.opened x ((hsame x).mp hx)
        · intro t ht hskip hmem
          exact (hsame t).mpr (hi.cascaded t ht hskip hmem)
        · intro s hs hsource t ht
          exact .inr ((hi.closed s hs hsource t ht).resolve_left fun h => by cases h.2)
      · split
        · rename_i hnone
          -- Only an output changed in place may have no lineage.
          have hsource : ¬(next ∉ c.outputs ∨ lineages.lookup next ≠ none) := by
            rcases hopened with hplace | ⟨hbumped, _⟩
            · have hnot : next ∉ w.bumped := fun h => (hi.moved next h).not_output hplace.1
              rintro (hout | hlineage)
              · exact hout hplace.1
              · exact hlineage (hi.kept next hnot ▸ hnone)
            · exact absurd hnone (hi.hasLineage next hbumped)
          refine { hvisit with closed := ?_ }
          intro s hs hs' t ht
          rcases hvisit.closed s hs hs' t ht with ⟨rfl, _⟩ | hbumped
          · exact absurd hs' hsource
          · exact .inr hbumped
        · rename_i srcLineage hsome
          refine hvisit.foldl hsha ?_ fun t ht => mem_targets.mp ht
          intro t ht
          rcases hopened with hplace | ⟨hbumped, hskip⟩
          · have hnot : next ∉ w.bumped := fun h => (hi.moved next h).not_output hplace.1
            refine .first hplace ?_ ht
            rw [← hi.kept next hnot, hsome]
            exact Option.some_ne_none _
          · exact .next (hi.moved next hbumped) hskip ht

theorem Walk.Inv.iterate (hsha : LeadsOn sha256) (n : Nat) {src : Str} (hi : w.Inv edges c lineages src []) :
    ∃ src', ((Walk.step sha256 edges c)^[n] w).Inv edges c lineages src' [] := by
  induction n generalizing w src with
  | zero => exact ⟨src, hi⟩
  | succ n ih =>
      obtain ⟨src', hstep⟩ := hi.step hsha
      exact ih hstep

/-- At the end, what is bumped is what is moved on. -/
theorem Walk.Inv.bumped_iff {src : Str} (hi : w.Inv edges c lineages src []) (hend : w.frontier = []) (t : Str) :
    t ∈ w.bumped ↔ Moved c lineages (Bumps edges c) t := by
  have hclosed : ∀ s ∈ w.visited, s ∉ c.outputs ∨ lineages.lookup s ≠ none → ∀ t, Bumps edges c s t → t ∈ w.bumped := by
    intro s hs hsource t ht
    exact (hi.closed s hs hsource t ht).resolve_left fun h => by cases h.2
  have hvisited : ∀ x, x ∈ w.visited ∨ x ∈ w.frontier → x ∈ w.visited := by
    intro x hx
    rw [hend] at hx
    exact hx.resolve_right List.not_mem_nil
  constructor
  · exact hi.moved t
  · intro h
    induction h with
    | first hplace hlineage ht =>
        have hseed := mem_seeds.mpr ⟨hplace, mem_of_edge ht.1⟩
        exact hclosed _ (hvisited _ (hi.seeds _ hseed)) (.inr hlineage) _ ht
    | next hmoved hskip ht ih =>
        exact hclosed _ (hvisited _ (hi.cascaded _ ih hskip (mem_of_edge ht.1))) (.inl hmoved.not_output) _ ht

/-! ## The lineages a name has had -/

/-- Each lineage of a name ranks above those before it, and the last is the one it has. -/
structure Walk.Ranked (lineages : Dict Str Str) (rank : Str → Nat) (w : Walk) : Prop where
  rising : ∀ t, (w.held lineages t).Pairwise fun a b => rank a < rank b
  last : ∀ t, w.lineages.lookup t = (w.held lineages t).getLast?
  below : ∀ t, ∀ a ∈ w.held lineages t, rank a ≤ rank (w.lineages.getD t [])
  recorded : ∀ t ∈ w.bumped, ∃ a, (t, a) ∈ w.records

theorem Walk.Ranked.start (edges : EdgeMap) (c : Change) (lineages : Dict Str Str) (rank : Str → Nat) :
    (c.start edges lineages).Ranked lineages rank where
  rising t := by
    cases h : lineages.lookup t <;> simp [Walk.held, Change.start, h]
  last t := by
    cases h : lineages.lookup t <;> simp [Walk.held, Change.start, h]
  below t a ha := by
    cases h : lineages.lookup t with
    | none => simp [Walk.held, Change.start, h] at ha
    | some l =>
        simp only [Walk.held, Change.start, h, Option.toList_some, List.filter_nil, List.map_nil, List.append_nil,
          List.mem_singleton] at ha
        rw [ha, Change.start, Dict.getD, h, Option.getD_some]
  recorded t ht := absurd ht (OrderedSet.not_mem_empty t)

theorem Walk.Ranked.bump {rank : Str → Nat} (hrank : ∀ old srcLineage, rank old < rank (newHash sha256 old srcLineage))
    (src srcLineage target : Str) (hr : w.Ranked lineages rank) :
    (w.bump sha256 edges c src srcLineage target).Ranked lineages rank := by
  unfold Walk.bump
  simp only []
  split
  · exact hr
  split
  · exact hr
  have hlt := hrank (w.lineages.getD target []) srcLineage
  generalize newHash sha256 (w.lineages.getD target []) srcLineage = new at hlt ⊢
  -- The target's lineages are one more; the others' are as they were.
  have hheld : ∀ t, Walk.held lineages { w with records := w.records ++ [(target, new)] } t =
      if t = target then w.held lineages t ++ [new] else w.held lineages t := by
    intro t
    simp only [Walk.held, List.filter_append, List.map_append]
    by_cases ht : t = target
    · rw [if_pos ht, List.filter_cons_of_pos (by simpa using ht.symm), List.append_assoc]
      rfl
    · rw [if_neg ht, List.filter_cons_of_neg (by simpa using Ne.symm ht), List.filter_nil, List.map_nil, List.append_nil]
  constructor
  · intro t
    refine (hheld t).symm ▸ ?_
    split
    · rename_i ht
      subst ht
      rw [List.pairwise_append]
      refine ⟨hr.rising t, List.pairwise_singleton _ _, ?_⟩
      intro a ha b hb
      rw [List.mem_singleton.mp hb]
      exact Nat.lt_of_le_of_lt (hr.below t a ha) hlt
    · exact hr.rising t
  · intro t
    refine Eq.trans ?_ (congrArg List.getLast? (hheld t)).symm
    rw [Dict.lookup_insert']
    split
    · rw [List.getLast?_concat]
    · exact hr.last t
  · intro t a ha
    have ha : a ∈ Walk.held lineages { w with records := w.records ++ [(target, new)] } t := ha
    rw [hheld] at ha
    rw [Dict.getD_insert]
    split at ha
    · rename_i ht
      rw [if_pos ht]
      rcases List.mem_append.mp ha with hold | hnew
      · subst ht
        exact Nat.le_of_lt (Nat.lt_of_le_of_lt (hr.below t a hold) hlt)
      · rw [List.mem_singleton.mp hnew]
    · rename_i ht
      rw [if_neg ht]
      exact hr.below t a ha
  · intro t ht
    rcases OrderedSet.mem_add.mp ht with rfl | ht
    · exact ⟨new, List.mem_append_right _ List.mem_cons_self⟩
    · obtain ⟨a, ha⟩ := hr.recorded t ht
      exact ⟨a, List.mem_append_left _ ha⟩

theorem Walk.Ranked.step {rank : Str → Nat} (hrank : ∀ old srcLineage, rank old < rank (newHash sha256 old srcLineage))
    (hr : w.Ranked lineages rank) : (w.step sha256 edges c).Ranked lineages rank := by
  have hfoldl : ∀ (src srcLineage : Str) (targets : List Str) (w : Walk), w.Ranked lineages rank →
      (targets.foldl (Walk.bump sha256 edges c src srcLineage) w).Ranked lineages rank := by
    intro src srcLineage targets
    induction targets with
    | nil => exact fun _ hr => hr
    | cons target targets ih => exact fun w hr => ih _ (hr.bump hrank src srcLineage target)
  unfold Walk.step
  split
  · exact hr
  split
  · exact ⟨hr.rising, hr.last, hr.below, hr.recorded⟩
  simp only []
  split
  · exact ⟨hr.rising, hr.last, hr.below, hr.recorded⟩
  · exact hfoldl _ _ _ _ ⟨hr.rising, hr.last, hr.below, hr.recorded⟩

theorem Walk.Ranked.iterate {rank : Str → Nat} (hrank : ∀ old srcLineage, rank old < rank (newHash sha256 old srcLineage))
    (n : Nat) (hr : w.Ranked lineages rank) : ((Walk.step sha256 edges c)^[n] w).Ranked lineages rank := by
  induction n generalizing w with
  | zero => exact hr
  | succ n ih => exact ih (hr.step hrank)

/-- A bumped name has a lineage it has not had before. -/
theorem Walk.Ranked.new {rank : Str → Nat} (hr : w.Ranked lineages rank) {t : Str} (ht : t ∈ w.bumped) :
    ∃ earlier new, w.held lineages t = earlier ++ [new] ∧ w.lineages.lookup t = some new ∧ new ∉ earlier ∧
      ∀ l, lineages.lookup t = some l → l ∈ earlier := by
  obtain ⟨a, ha⟩ := hr.recorded t ht
  have hmem : a ∈ (w.records.filter (·.1 = t)).map (·.2) :=
    List.mem_map.mpr ⟨(t, a), List.mem_filter.mpr ⟨ha, by simp⟩, rfl⟩
  obtain ⟨recorded, new, hrecords⟩ := List.eq_nil_or_concat _ |>.resolve_left (List.ne_nil_of_mem hmem)
  have hheld : w.held lineages t = ((lineages.lookup t).toList ++ recorded) ++ [new] := by
    rw [Walk.held, hrecords, List.concat_eq_append, List.append_assoc]
  refine ⟨_, new, hheld, ?_, ?_, ?_⟩
  · rw [hr.last, hheld, List.getLast?_concat]
  · intro hmem
    have hrising := hr.rising t
    rw [hheld, List.pairwise_append] at hrising
    exact Nat.lt_irrefl _ (hrising.2.2 new hmem new (List.mem_singleton.mpr rfl))
  · intro l hl
    rw [hl]
    exact List.mem_append_left _ List.mem_cons_self

end Cash.Edges
