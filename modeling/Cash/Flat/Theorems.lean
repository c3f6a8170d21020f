import Cash.Flat.Lemmas

/-!
# A flat value is the value

The steps of `flatten` make of each object that is reached one of its own, with what it holds in its place
(`flatten_loads`). The walk ends on every finite heap, and fails only for an object that is rebuilt from itself, a reducer
that raises, or a value deeper than it may be (`flatten_ends`).
-/

namespace Cash.Flat

variable {ρ σ ε α β : Type} {h : Heap ρ σ ε} {w w' : Walk ρ σ} {u v : Nat} {vs ids : List Nat} {ps : List Part}
  {deepest : Option Nat} {fuel frames : Nat}

/-! ## Loading -/

/-- Whatever `flatten` returns is loaded as the value: each object that is reached, less those pickled as they are, is made
once, and it holds what was made of what it held, in order. -/
theorem flatten_loads {value : Nat} {flat : FlatValue ρ σ} (hflat : flatten h deepest fuel value = .ok flat) :
    ∃ slots : List Nat, slots.Nodup ∧
      (∀ u, u ∈ slots ↔ Relation.ReflTransGen (Holds h) value u ∧ ¬ Standing h u) ∧
      flat.root = partOf slots value ∧
      loadFlat flat.steps [] = some (slots.map fun u => describe slots (h u)) := by
  rw [flatten, Result.bind_eq_ok] at hflat
  obtain ⟨⟨root, w⟩, hvisit, heq⟩ := hflat
  cases heq
  obtain ⟨ids, added, hvis⟩ := visit_sound deepest fuel 0 value .init root w hvisit fun _ hu => absurd hu List.not_mem_nil
  have hslots : w.slots = ids := hvis.slots
  have hsteps : w.steps = added := hvis.steps
  have hroot : root = partOf w.slots value := by simpa using hvis.parts
  have hkept : ∀ u, Relation.ReflTransGen (Holds h) value u → Settled h w.slots u := by
    intro u hway
    induction hway with
    | refl => exact hvis.settled value (List.mem_singleton_self value)
    | tail _ hholds ih =>
        rcases ih with hmem | hstands
        · exact hvis.kids _ (hslots ▸ hmem) _ hholds
        · exact .inr (standing_kids hstands hholds)
  refine ⟨w.slots, hvis.nodup List.nodup_nil, fun u => ⟨fun hu => ?_, fun ⟨hway, hn⟩ => (hkept u hway).resolve_right hn⟩,
    hroot, ?_⟩
  · obtain ⟨v, hv, hway⟩ := hvis.reached u (hslots ▸ hu)
    exact ⟨List.mem_singleton.mp hv ▸ hway, hvis.stands u (hslots ▸ hu)⟩
  · rw [hsteps, hvis.loads [] rfl, List.nil_append, hslots]

/-- A list that holds itself, a tuple that holds the list, and an object whose state holds the object. -/
def knot : Heap Unit Unit Unit
  | 0 => .list [1, 2, 0]
  | 1 => .tuple [0, 3]
  | 2 => .reduced ⟨(), 4, some [0], none, some 5, none⟩
  | 3 => .whole
  | 4 => .tuple [3]
  | _ => .dict [(3, 2)]

def knotFlat : FlatValue Unit Unit :=
  ⟨[.list 0, .tuple 1 [.slot 0, .itself 3], .new 2 () (.itself 4), .extend 2 [.slot 0], .dict 3,
    .setitems 3 [.itself 3, .slot 2], .build 2 (.slot 3) none, .extend 0 [.slot 1, .slot 2, .slot 0]], .slot 0, 3⟩

theorem flatten_loads_knot : ∃ slots : List Nat, slots.Nodup ∧
    (∀ u, u ∈ slots ↔ Relation.ReflTransGen (Holds knot) 0 u ∧ ¬ Standing knot u) ∧
    knotFlat.root = partOf slots 0 ∧ loadFlat knotFlat.steps [] = some (slots.map fun u => describe slots (knot u)) :=
  flatten_loads (rfl : flatten knot none 5 0 = .ok knotFlat)

/-! ## The end of the walk -/

/-- What a walk from an object may fail of. -/
inductive Fault (h : Heap ρ σ ε) (deepest : Option Nat) (v : Nat) : Error ε → Prop
  | holdsItself {u : Nat} {r : Reduce ρ σ} (hway : Relation.ReflTransGen (Holds h) v u) (hu : h u = .reduced r)
      (hself : Relation.ReflTransGen (Holds h) r.args u) : Fault h deepest v (.holdsItself u)
  | tooDeep {limit : Nat} (hlimit : deepest = some limit) : Fault h deepest v .tooDeep
  | raised {u : Nat} {e : ε} (hway : Relation.ReflTransGen (Holds h) v u) (hu : h u = .unreduced e) :
      Fault h deepest v (.raised e)

theorem Fault.mono {e : Error ε} (hfault : Fault h deepest u e) (hholds : Holds h v u) : Fault h deepest v e := by
  cases hfault with
  | holdsItself hway hu hself => exact .holdsItself (.head hholds hway) hu hself
  | tooDeep hlimit => exact .tooDeep hlimit
  | raised hway hu => exact .raised (.head hholds hway) hu

/-- It returns, or fails of one of these. -/
def Ends (h : Heap ρ σ ε) (deepest : Option Nat) (v : Nat) : Result ε α → Prop
  | .ok _ => True
  | .error e => Fault h deepest v e
  | .stuck => False

theorem Ends.bind {r : Result ε α} {f : α → Result ε β} (hr : Ends h deepest v r)
    (hf : ∀ a, r = .ok a → Ends h deepest v (f a)) : Ends h deepest v (r.bind f) := by
  cases r with
  | ok a => exact hf a rfl
  | error e => exact hr
  | stuck => exact hr

theorem Ends.mono {r : Result ε α} (hr : Ends h deepest u r) (hholds : Holds h v u) : Ends h deepest v r := by
  cases r with
  | ok a => exact trivial
  | error e => exact Fault.mono hr hholds
  | stuck => exact hr

theorem enter_ends : Ends h deepest v (w.enter deepest frames : Result ε (Walk ρ σ)) := by
  unfold Walk.enter
  split
  · split
    · split
      · exact .tooDeep rfl
      · exact trivial
    · exact trivial
  · exact trivial

/-- The objects that are neither made nor being rebuilt. -/
def ahead (ids : List Nat) (w : Walk ρ σ) : Nat := (ids.filter fun u => decide (u ∉ w.slots ∧ u ∉ w.making)).length

theorem ahead_le (hslots : w.slots ⊆ w'.slots) (hmaking : w.making ⊆ w'.making ++ w'.slots) : ahead ids w' ≤ ahead ids w := by
  refine List.Sublist.length_le (List.monotone_filter_right ids ?_)
  intro u hu
  have hu := of_decide_eq_true hu
  refine decide_eq_true ⟨fun hmem => hu.1 (hslots hmem), fun hmem => ?_⟩
  exact (List.mem_append.mp (hmaking hmem)).elim hu.2 hu.1

theorem ahead_lt (hu : u ∈ ids) (hslot : u ∉ w.slots) (hmem : u ∉ w.making) (hslots : w.slots ⊆ w'.slots)
    (hmaking : w.making ⊆ w'.making ++ w'.slots) (hnow : u ∈ w'.slots ∨ u ∈ w'.making) : ahead ids w' < ahead ids w := by
  refine Nat.lt_of_le_of_ne (ahead_le hslots hmaking) fun heq => ?_
  have hsub : (ids.filter fun u => decide (u ∉ w'.slots ∧ u ∉ w'.making)).Sublist
      (ids.filter fun u => decide (u ∉ w.slots ∧ u ∉ w.making)) := by
    refine List.monotone_filter_right ids ?_
    intro u hu
    have hu := of_decide_eq_true hu
    exact decide_eq_true ⟨fun hmem => hu.1 (hslots hmem), fun hmem => (List.mem_append.mp (hmaking hmem)).elim hu.2 hu.1⟩
  have hold : u ∈ ids.filter fun u => decide (u ∉ w.slots ∧ u ∉ w.making) :=
    List.mem_filter.mpr ⟨hu, decide_eq_true ⟨hslot, hmem⟩⟩
  rw [← hsub.eq_of_length heq, List.mem_filter] at hold
  have hnot := of_decide_eq_true hold.2
  exact hnow.elim hnot.1 hnot.2

/-- What a walk has come to after some visits. -/
structure Follows (w w' : Walk ρ σ) : Prop where
  making : w'.making = w.making
  slots : w.slots ⊆ w'.slots

theorem Follows.refl : Follows w w := ⟨rfl, List.Subset.refl _⟩

theorem Follows.trans {w'' : Walk ρ σ} (hfirst : Follows w w') (hlast : Follows w' w'') : Follows w w'' :=
  ⟨hlast.making.trans hfirst.making, fun _ hu => hlast.slots (hfirst.slots hu)⟩

theorem Follows.ahead (hw : Follows w w') : ahead ids w' ≤ ahead ids w :=
  ahead_le hw.slots (hw.making ▸ List.subset_append_left _ _)

theorem Visited.follows {added : List (Step ρ σ)} (hvis : Visited h w w' vs ps ids added) : Follows w w' :=
  ⟨hvis.making, hvis.slots ▸ List.subset_append_left _ _⟩

section

variable {visit' : Nat → Walk ρ σ → Result ε (Part × Walk ρ σ)}

/-- Every visit of what an object holds ends, from a walk and whatever it comes to. -/
def KidsEnd (h : Heap ρ σ ε) (deepest : Option Nat) (visit' : Nat → Walk ρ σ → Result ε (Part × Walk ρ σ)) (v : Nat)
    (w : Walk ρ σ) : Prop :=
  ∀ c, Holds h v c → ∀ w', Follows w w' → Ends h deepest c (visit' c w')

theorem KidsEnd.follows (hkids : KidsEnd h deepest visit' v w) (hw : Follows w w') : KidsEnd h deepest visit' v w' :=
  fun c hc w'' hw' => hkids c hc w'' (hw.trans hw')

theorem KidsEnd.all (hkids : KidsEnd h deepest visit' v w) (hsound : Sound h visit') (hmaking : Making h w.making)
    (hvs : ∀ c ∈ vs, Holds h v c) : Ends h deepest v (visitAll visit' vs w) := by
  induction vs generalizing w with
  | nil => exact trivial
  | cons c vs ih =>
      have hc := hvs c List.mem_cons_self
      refine ((hkids c hc w .refl).mono hc).bind fun ⟨p, w₁⟩ hvisit => ?_
      obtain ⟨_, _, hvis⟩ := hsound c w p w₁ hvisit hmaking
      refine (ih (hkids.follows hvis.follows) (hvis.making ▸ hmaking) fun d hd => hvs d (List.mem_cons_of_mem _ hd)).bind ?_
      exact fun _ _ => trivial

theorem KidsEnd.some {step : List Part → Step ρ σ} {items : Option (List Nat)} (hkids : KidsEnd h deepest visit' v w)
    (hsound : Sound h visit') (hmaking : Making h w.making) (hvs : ∀ c ∈ items.getD [], Holds h v c) :
    Ends h deepest v (visitSome visit' step items w) := by
  cases items with
  | none => exact trivial
  | some vs => exact (hkids.all hsound hmaking hvs).bind fun _ _ => trivial

theorem visitSome_follows {step : List Part → Step ρ σ} {items : Option (List Nat)} (hsound : Sound h visit')
    (hmaking : Making h w.making) (hsome : visitSome visit' step items w = .ok w') : Follows w w' := by
  cases items with
  | none =>
      cases hsome
      exact .refl
  | some vs =>
      rw [visitSome, Result.bind_eq_ok] at hsome
      obtain ⟨⟨ps, w₁⟩, hall, heq⟩ := hsome
      cases heq
      obtain ⟨_, _, hvis⟩ := hsound.all hall hmaking
      exact ⟨hvis.making, hvis.follows.slots⟩

theorem KidsEnd.state {slot : Nat} {setter : Option σ} {state : Option Nat} (hkids : KidsEnd h deepest visit' v w)
    (hvs : ∀ c ∈ state, Holds h v c) : Ends h deepest v (visitState visit' slot setter state w) := by
  cases state with
  | none => exact trivial
  | some s => exact ((hkids s (hvs s rfl) w .refl).mono (hvs s rfl)).bind fun _ _ => trivial

end

/-- What is being rebuilt has the object in what it is rebuilt from. -/
def Under (h : Heap ρ σ ε) (making : List Nat) (v : Nat) : Prop :=
  ∀ u ∈ making, ∃ r, h u = .reduced r ∧ Relation.ReflTransGen (Holds h) r.args v

theorem Under.making {making : List Nat} (hunder : Under h making v) : Making h making :=
  fun u hu => (hunder u hu).imp fun _ hr => hr.1

theorem Under.kid {making : List Nat} {c : Nat} (hunder : Under h making v) (hc : Holds h v c) : Under h making c :=
  fun u hu => (hunder u hu).imp fun _ hr => ⟨hr.1, hr.2.tail hc⟩

/-- The walk of a finite heap ends: an object that is made or is being rebuilt is not walked again, and tuples do not hold
each other without end. -/
theorem visit_ends {rank : Nat → Nat} {most : Nat} (hclosed : ∀ v ∈ ids, ∀ c, Holds h v c → c ∈ ids)
    (hrank : ∀ v ∈ ids, ∀ items, h v = .tuple items → ∀ c ∈ items, rank c < rank v) (hmost : ∀ v ∈ ids, rank v ≤ most)
    (hv : v ∈ ids) (hunder : Under h w.making v) (hfuel : ahead ids w * (most + 1) + rank v < fuel) :
    Ends h deepest v (visit h deepest fuel frames v w) := by
  induction fuel generalizing v w frames with
  | zero => exact absurd hfuel (Nat.not_lt_zero _)
  | succ fuel ih =>
      have hsound := visit_sound (h := h) deepest fuel (frames + 1)
      -- Once the object is made or being rebuilt, there is fuel for whatever it holds.
      have hkid (c : Nat) (w' : Walk ρ σ) (hc : Holds h v c) (hunder' : Under h w'.making c) (hless : ahead ids w' < ahead ids w) :
          Ends h deepest c (visit h deepest fuel (frames + 1) c w') := by
        have hmul := Nat.mul_le_mul_right (most + 1) hless
        have hc' := hclosed v hv c hc
        have hrankc := hmost c hc'
        rw [Nat.succ_mul] at hmul
        exact ih hc' hunder' (by omega)
      have hdone (w' : Walk ρ σ) (hunder' : Under h w'.making v) (hless : ahead ids w' < ahead ids w) :
          KidsEnd h deepest (visit h deepest fuel (frames + 1)) v w' := fun c hc w'' hw =>
        hkid c w'' hc (hw.making ▸ hunder'.kid hc) (Nat.lt_of_le_of_lt hw.ahead hless)
      rw [visit]
      split
      · exact trivial
      · rename_i hk
        have hslot : v ∉ w.slots := List.idxOf?_eq_none_iff.mp hk
        split
        · exact trivial
        · exact trivial
        · rename_i items hnode
          refine enter_ends.bind fun w₁ henter => ?_
          obtain ⟨hsteps, hslots, hmake⟩ := Walk.enter_ok henter
          have hmem : v ∉ w.making := notMem_making hunder.making (by simp [hnode])
          have hless : ahead ids (w₁.made v .list) < ahead ids w :=
            ahead_lt hv hslot hmem (by simp [Walk.made, hslots]) (by simp [Walk.made, hmake]) (by simp [Walk.made])
          have hkids := hdone (w₁.made v .list) (hmake ▸ hunder) hless
          exact (hkids.all hsound (hmake ▸ hunder.making) fun c hc => by rw [Holds, hnode]; exact hc).bind fun _ _ => trivial
        · rename_i pairs hnode
          refine enter_ends.bind fun w₁ henter => ?_
          obtain ⟨hsteps, hslots, hmake⟩ := Walk.enter_ok henter
          have hmem : v ∉ w.making := notMem_making hunder.making (by simp [hnode])
          have hless : ahead ids (w₁.made v .dict) < ahead ids w :=
            ahead_lt hv hslot hmem (by simp [Walk.made, hslots]) (by simp [Walk.made, hmake]) (by simp [Walk.made])
          have hkids := hdone (w₁.made v .dict) (hmake ▸ hunder) hless
          exact (hkids.all hsound (hmake ▸ hunder.making) fun c hc => by rw [Holds, hnode]; exact hc).bind fun _ _ => trivial
        · rename_i items hnode
          split
          · exact trivial
          · refine enter_ends.bind fun w₁ henter => ?_
            obtain ⟨hsteps, hslots, hmake⟩ := Walk.enter_ok henter
            have hkids : KidsEnd h deepest (visit h deepest fuel (frames + 1)) v w₁ := by
              intro c hc w' hw
              have hheld : c ∈ items := by rw [Holds, hnode] at hc; exact hc
              have hless := hrank v hv items hnode c hheld
              have hahead : ahead ids w' ≤ ahead ids w := by
                have hfollows : Follows w w₁ := ⟨hmake, hslots ▸ List.Subset.refl _⟩
                exact (hfollows.trans hw).ahead
              have hmul := Nat.mul_le_mul_right (most + 1) hahead
              exact ih (hclosed v hv c hc) (hw.making ▸ hmake ▸ hunder.kid hc) (by omega)
            refine (hkids.all hsound (hmake ▸ hunder.making) fun c hc => by rw [Holds, hnode]; exact hc).bind fun out _ => ?_
            obtain ⟨ps, w₂⟩ := out
            dsimp only
            split
            · exact trivial
            · exact trivial
        · rename_i r hnode
          have hholds : ∀ c ∈ (Node.reduced r : Node ρ σ ε).kids, Holds h v c := fun c hc => by rw [Holds, hnode]; exact hc
          split
          · rename_i hmem
            obtain ⟨r', hnode', hself⟩ := hunder v hmem
            exact .holdsItself .refl hnode' hself
          · rename_i hmem
            refine enter_ends.bind fun w₁ henter => ?_
            obtain ⟨hsteps, hslots, hmake⟩ := Walk.enter_ok henter
            have hargs : Holds h v r.args := hholds _ List.mem_cons_self
            have hunder₁ : Under h (v :: w₁.making) r.args := by
              intro u hu
              rcases List.mem_cons.mp hu with rfl | hu
              · exact ⟨r, hnode, .refl⟩
              · exact (hmake ▸ hunder).kid hargs u hu
            have hless₁ : ahead ids { w₁ with making := v :: w₁.making } < ahead ids w :=
              ahead_lt hv hslot hmem (by simp [hslots]) (by simp [hmake]) (.inr List.mem_cons_self)
            refine ((hkid r.args _ hargs hunder₁ hless₁).mono hargs).bind fun out hvisit => ?_
            obtain ⟨p, w₂⟩ := out
            obtain ⟨_, _, hvis⟩ := hsound _ _ _ _ hvisit hunder₁.making
            have hfilter : w₂.making.filter (· ≠ v) = w.making := by
              rw [hvis.making, ← hmake]
              exact filter_making (hmake ▸ hmem)
            dsimp only
            rw [hfilter]
            generalize hw₃ : ({ w₂ with making := w.making } : Walk ρ σ).made v (.new · r.rebuild p) = w₃
            have hmake₃ : w₃.making = w.making := by rw [← hw₃]; rfl
            have hslots₃ : w₃.slots = w₂.slots ++ [v] := by rw [← hw₃]; rfl
            have hless₃ : ahead ids w₃ < ahead ids w := by
              refine ahead_lt hv hslot hmem ?_ (hmake₃ ▸ List.subset_append_left _ _) (.inl (by simp [hslots₃]))
              intro u hu
              exact hslots₃ ▸ List.mem_append_left _ (hvis.follows.slots (hslots ▸ hu))
            have hkids₃ := hdone w₃ (hmake₃ ▸ hunder) hless₃
            have hmaking₃ : Making h w₃.making := hmake₃ ▸ hunder.making
            refine (hkids₃.some hsound hmaking₃ fun c hc => hholds c (by simp [Node.kids, hc])).bind fun w₄ hitems => ?_
            have hw₄ := visitSome_follows hsound hmaking₃ hitems
            have hmaking₄ : Making h w₄.making := hw₄.making ▸ hmaking₃
            refine ((hkids₃.follows hw₄).some hsound hmaking₄ fun c hc => hholds c ?_).bind fun w₅ hpairs => ?_
            · have hgetD : (r.pairs.map inTurn).getD [] = inTurn (r.pairs.getD []) := by cases r.pairs <;> rfl
              rw [hgetD] at hc
              simp [Node.kids, hc]
            · have hw₅ := visitSome_follows hsound hmaking₄ hpairs
              refine ((hkids₃.follows (hw₄.trans hw₅)).state fun c hc => hholds c ?_).bind fun _ _ => trivial
              simp [Node.kids, Option.mem_def.mp hc]
        · rename_i e hnode
          exact .raised .refl hnode

/-- With enough fuel `flatten` of a value with finitely many objects, whose tuples do not hold each other without end, returns,
or fails of an object that is rebuilt from itself, of a reducer that raises, or of a depth that is not allowed. -/
theorem flatten_ends {rank : Nat → Nat} {most value : Nat} (hclosed : ∀ v ∈ ids, ∀ c, Holds h v c → c ∈ ids)
    (hrank : ∀ v ∈ ids, ∀ items, h v = .tuple items → ∀ c ∈ items, rank c < rank v) (hmost : ∀ v ∈ ids, rank v ≤ most)
    (hvalue : value ∈ ids) (hfuel : (ids.length + 1) * (most + 1) ≤ fuel) : Ends h deepest value (flatten h deepest fuel value) := by
  have hahead : ahead ids (.init : Walk ρ σ) ≤ ids.length := List.length_filter_le _ _
  have hmul := Nat.mul_le_mul_right (most + 1) hahead
  have hrankv := hmost value hvalue
  rw [Nat.succ_mul] at hfuel
  exact (visit_ends hclosed hrank hmost hvalue (fun _ hu => absurd hu List.not_mem_nil) (by omega)).bind fun _ _ => trivial

theorem flatten_ends_knot : Ends knot none 0 (flatten knot none 14 0) := by
  have hclosed : ∀ v ∈ [0, 1, 2, 3, 4, 5], ∀ c, Holds knot v c → c ∈ [0, 1, 2, 3, 4, 5] :=
    (by decide : ∀ v ∈ [0, 1, 2, 3, 4, 5], ∀ c ∈ (knot v).kids, c ∈ [0, 1, 2, 3, 4, 5])
  have hrank : ∀ v ∈ [0, 1, 2, 3, 4, 5], ∀ items, knot v = .tuple items →
      ∀ c ∈ items, (if c = 1 ∨ c = 4 then 1 else 0) < if v = 1 ∨ v = 4 then 1 else 0 := by
    intro v hv items hnode c hc
    simp only [List.mem_cons, List.not_mem_nil, or_false] at hv
    rcases hv with rfl | rfl | rfl | rfl | rfl | rfl <;> cases hnode <;> revert c <;> decide
  have hmost : ∀ v ∈ [0, 1, 2, 3, 4, 5], (if v = 1 ∨ v = 4 then 1 else 0) ≤ 1 := by decide
  exact flatten_ends hclosed hrank hmost (by decide) (by decide)

/-! ## The depth -/

/-- What was come to, unless it is deeper than it may be. -/
def capped (limit : Nat) (w : Walk ρ σ) (a : α) : Result ε α := if w.depth ≤ limit then .ok a else .error .tooDeep

/-- What comes without a limit, and what comes with it, from a walk that is not deeper. -/
def Limits (limit : Nat) (w : Walk ρ σ) (after : α → Walk ρ σ) (r r' : Result ε α) : Prop :=
  ∀ a, r = .ok a → w.depth ≤ (after a).depth ∧ (w.depth ≤ limit → r' = capped limit (after a) a)

section

variable {limit : Nat} {after : α → Walk ρ σ} {after' : β → Walk ρ σ}

theorem Limits.ok {a : α} (hsame : (after a).depth = w.depth) : Limits (ε := ε) limit w after (.ok a) (.ok a) := by
  intro b hb
  cases hb
  exact ⟨Nat.le_of_eq hsame.symm, fun hle => (if_pos (hsame ▸ hle)).symm⟩

theorem Limits.bind {r r' : Result ε α} {f f' : α → Result ε β} (hr : Limits limit w after r r')
    (hf : ∀ a, Limits limit (after a) after' (f a) (f' a)) : Limits limit w after' (r.bind f) (r'.bind f') := by
  intro b hb
  rw [Result.bind_eq_ok] at hb
  obtain ⟨a, ha, hb⟩ := hb
  obtain ⟨hle, hcap⟩ := hr a ha
  obtain ⟨hle', hcap'⟩ := hf a b hb
  refine ⟨Nat.le_trans hle hle', fun hw => ?_⟩
  rw [hcap hw]
  by_cases hlimit : (after a).depth ≤ limit
  · rw [capped, if_pos hlimit]
    exact hcap' hlimit
  · rw [capped, if_neg hlimit, capped, if_neg fun hb => hlimit (Nat.le_trans hle' hb)]
    rfl

theorem Limits.congr {r r' : Result ε α} {w' : Walk ρ σ} (hr : Limits limit w after r r') (hsame : w'.depth = w.depth) :
    Limits limit w' after r r' := fun a ha => by
  rw [hsame]
  exact hr a ha

theorem enter_limits : Limits limit w id (w.enter none frames : Result ε _) (w.enter (some limit) frames) := by
  intro w₁ hw₁
  unfold Walk.enter at hw₁ ⊢
  split at hw₁
  · rename_i hdeep
    cases hw₁
    refine ⟨Nat.le_of_lt hdeep, fun _ => ?_⟩
    rw [if_pos hdeep, capped]
    by_cases hlimit : limit < frames + 1
    · rw [if_neg (by simpa using hlimit)]
      exact if_pos hlimit
    · rw [if_pos (by simpa using hlimit)]
      exact if_neg hlimit
  · rename_i hdeep
    cases hw₁
    exact ⟨Nat.le_refl _, fun hle => by rw [if_neg hdeep, capped]; exact (if_pos hle).symm⟩

variable {visit₁ visit₂ : Nat → Walk ρ σ → Result ε (Part × Walk ρ σ)}

theorem limits_all (hvisit : ∀ v w, Limits limit w Prod.snd (visit₁ v w) (visit₂ v w)) (vs : List Nat) (w : Walk ρ σ) :
    Limits limit w Prod.snd (visitAll visit₁ vs w) (visitAll visit₂ vs w) := by
  induction vs generalizing w with
  | nil => exact .ok rfl
  | cons v vs ih => exact (hvisit v w).bind fun a => (ih a.2).bind fun b => .ok rfl

theorem limits_some (hvisit : ∀ v w, Limits limit w Prod.snd (visit₁ v w) (visit₂ v w)) (step : List Part → Step ρ σ)
    (items : Option (List Nat)) (w : Walk ρ σ) :
    Limits limit w id (visitSome visit₁ step items w) (visitSome visit₂ step items w) := by
  cases items with
  | none => exact .ok rfl
  | some vs => exact (limits_all hvisit vs w).bind fun a => .ok rfl

theorem limits_state (hvisit : ∀ v w, Limits limit w Prod.snd (visit₁ v w) (visit₂ v w)) (slot : Nat) (setter : Option σ)
    (state : Option Nat) (w : Walk ρ σ) :
    Limits limit w id (visitState visit₁ slot setter state w) (visitState visit₂ slot setter state w) := by
  cases state with
  | none => exact .ok rfl
  | some s => exact (hvisit s w).bind fun a => .ok rfl

/-- A walk is as deep as it would be without the limit, up to where the limit stops it. -/
theorem visit_limits (fuel frames v : Nat) (w : Walk ρ σ) :
    Limits limit w Prod.snd (visit h none fuel frames v w) (visit h (some limit) fuel frames v w) := by
  induction fuel generalizing frames v w with
  | zero =>
      intro a ha
      cases ha
  | succ fuel ih =>
      rw [visit, visit]
      split
      · exact .ok rfl
      · split
        · exact .ok rfl
        · exact .ok rfl
        · exact enter_limits.bind fun w₁ => ((limits_all (ih (frames + 1)) _ _).congr rfl).bind fun a => .ok rfl
        · exact enter_limits.bind fun w₁ => ((limits_all (ih (frames + 1)) _ _).congr rfl).bind fun a => .ok rfl
        · split
          · exact .ok rfl
          · refine enter_limits.bind fun w₁ => (limits_all (ih (frames + 1)) _ _).bind fun out => ?_
            obtain ⟨ps, w₂⟩ := out
            dsimp only
            split
            · exact .ok rfl
            · exact .ok rfl
        · split
          · intro a ha
            cases ha
          · refine enter_limits.bind fun w₁ => ((ih (frames + 1) _ _).congr rfl).bind fun out => ?_
            obtain ⟨p, w₂⟩ := out
            refine ((limits_some (ih (frames + 1)) _ _ _).congr rfl).bind fun w₃ => ?_
            refine (limits_some (ih (frames + 1)) _ _ _).bind fun w₄ => ?_
            exact (limits_state (ih (frames + 1)) _ _ _ _).bind fun w₅ => .ok rfl
        · intro a ha
          cases ha

end

/-- The limit changes nothing of what is kept of a value: it is kept as without one, or refused for its depth. -/
theorem flatten_deepest {value : Nat} {flat : FlatValue ρ σ} (limit : Nat) (hflat : flatten h none fuel value = .ok flat) :
    flatten h (some limit) fuel value = if flat.depth ≤ limit then .ok flat else .error .tooDeep := by
  rw [flatten, Result.bind_eq_ok] at hflat
  obtain ⟨⟨root, w⟩, hvisit, heq⟩ := hflat
  cases heq
  have hwalks : Limits limit (.init : Walk ρ σ) Prod.snd (visit h none fuel 0 value .init)
      (visit h (some limit) fuel 0 value .init) := visit_limits fuel 0 value .init
  obtain ⟨-, hcap⟩ := hwalks (root, w) hvisit
  rw [flatten, hcap (Nat.zero_le _), capped]
  by_cases hw : w.depth ≤ limit
  · rw [if_pos hw, if_pos hw]
    rfl
  · rw [if_neg hw, if_neg hw]
    rfl

theorem flatten_deepest_knot : flatten knot (some 2) 5 0 = .error .tooDeep :=
  flatten_deepest 2 (rfl : flatten knot none 5 0 = .ok knotFlat)

end Cash.Flat
