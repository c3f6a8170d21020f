import Cash.Flat.Flatten

/-!
# What a walk of `flatten` leaves

A visit that returns has made its objects after the ones there were, each as it is described (`Visited`). While an object is
filled, it is the only one that is not (`Filling`).
-/

namespace Cash.Flat

variable {ρ σ ε α β : Type} {h : Heap ρ σ ε} {w w' w'' : Walk ρ σ} {slots more : List Nat} {v : Nat} {vs us : List Nat}
  {ps qs : List Part}

/-! ## Results -/

theorem Result.bind_eq_ok {r : Result ε α} {f : α → Result ε β} {b : β} : r.bind f = .ok b ↔ ∃ a, r = .ok a ∧ f a = .ok b := by
  cases r with
  | ok a => simp [bind]
  | error e => simp [bind]
  | stuck => simp [bind]

/-- Entering a generator changes the depth only. -/
theorem Walk.enter_ok {deepest : Option Nat} {frames : Nat} (he : (w.enter deepest frames : Result ε _) = .ok w') :
    w'.steps = w.steps ∧ w'.slots = w.slots ∧ w'.making = w.making := by
  unfold Walk.enter at he
  split at he
  · split at he
    · split at he
      · cases he
      · cases he
        exact ⟨rfl, rfl, rfl⟩
    · cases he
      exact ⟨rfl, rfl, rfl⟩
  · cases he
    exact ⟨rfl, rfl, rfl⟩

/-! ## What is made of an object -/

/-- The objects that an object holds, in the order they are visited. -/
def Node.kids : Node ρ σ ε → List Nat
  | .list items | .tuple items => items
  | .dict pairs => inTurn pairs
  | .reduced r => r.args :: (r.items.getD [] ++ (inTurn (r.pairs.getD []) ++ r.state.toList))
  | _ => []

/-- One object holds the other. -/
def Holds (h : Heap ρ σ ε) (u v : Nat) : Prop := v ∈ (h u).kids

/-- What is pickled as it is. -/
def Standing (h : Heap ρ σ ε) (v : Nat) : Prop :=
  match h v with
  | .whole | .apart => True
  | .tuple items => items.all (isWhole h) = true
  | _ => False

/-- The part that stands for an object. -/
def partOf (slots : List Nat) (v : Nat) : Part := if v ∈ slots then .slot (slots.idxOf v) else .itself v

/-- The object that is made of one, in the end. -/
def describe (slots : List Nat) : Node ρ σ ε → Made ρ σ
  | .list items => .list (items.map (partOf slots))
  | .dict pairs => .dict ((inTurn pairs).map (partOf slots))
  | .tuple items => .tuple (items.map (partOf slots))
  | .reduced r => .new r.rebuild (partOf slots r.args) ((r.items.getD []).map (partOf slots))
      ((inTurn (r.pairs.getD [])).map (partOf slots)) (r.state.map fun s => (partOf slots s, r.setter))
  | _ => .list []

/-- The object has a slot, or needs none. -/
def Settled (h : Heap ρ σ ε) (slots : List Nat) (v : Nat) : Prop := v ∈ slots ∨ Standing h v

/-- What stands holds no object that is made. -/
theorem standing_kids (hv : Standing h v) {c : Nat} (hc : Holds h v c) : Standing h c := by
  unfold Standing at hv
  unfold Holds at hc
  split at hv
  · rename_i hnode
    rw [hnode] at hc
    exact absurd hc List.not_mem_nil
  · rename_i hnode
    rw [hnode] at hc
    exact absurd hc List.not_mem_nil
  · rename_i items hnode
    rw [hnode] at hc
    have hwhole := List.all_eq_true.mp hv c hc
    unfold isWhole at hwhole
    unfold Standing
    split at hwhole
    · rename_i hkid
      rw [hkid]
      exact trivial
    · cases hwhole
  · exact hv.elim

theorem Settled.mono (hv : Settled h slots v) : Settled h (slots ++ more) v := hv.imp_left (List.mem_append_left _)

theorem partOf_of_mem (hv : v ∈ slots) : partOf slots v = .slot (slots.idxOf v) := if_pos hv

theorem partOf_of_notMem (hv : v ∉ slots) : partOf slots v = .itself v := if_neg hv

theorem partOf_new (hv : v ∉ slots) : partOf (slots ++ v :: more) v = .slot slots.length := by
  rw [partOf_of_mem (by simp), List.idxOf_append_of_notMem hv, List.idxOf_cons_self, Nat.add_zero]

/-- What has a slot keeps it, and what needs none gets none. -/
theorem partOf_append (hv : Settled h slots v) (hmore : ∀ u ∈ more, ¬ Standing h u) :
    partOf (slots ++ more) v = partOf slots v := by
  by_cases hmem : v ∈ slots
  · rw [partOf_of_mem hmem, partOf_of_mem (List.mem_append_left _ hmem), List.idxOf_append_of_mem hmem]
  · rw [partOf_of_notMem hmem, partOf_of_notMem]
    intro happ
    rcases List.mem_append.mp happ with h' | h'
    · exact hmem h'
    · exact hmore v h' (hv.resolve_left hmem)

theorem partOf_ready (slots : List Nat) (v : Nat) : (partOf slots v).ready slots.length = true := by
  by_cases hv : v ∈ slots
  · rw [partOf_of_mem hv]
    exact decide_eq_true (List.idxOf_lt_length_of_mem hv)
  · rw [partOf_of_notMem hv]
    rfl

theorem parts_ready (slots vs : List Nat) : (vs.map (partOf slots)).all (Part.ready slots.length) = true := by
  rw [List.all_map, List.all_eq_true]
  exact fun v _ => partOf_ready slots v

theorem describe_congr {slots' : List Nat} (n : Node ρ σ ε) (hkids : ∀ c ∈ n.kids, partOf slots' c = partOf slots c) :
    describe slots' n = describe slots n := by
  cases n with
  | list items => exact congrArg _ (List.map_congr_left hkids)
  | tuple items => exact congrArg _ (List.map_congr_left hkids)
  | dict pairs => exact congrArg _ (List.map_congr_left hkids)
  | reduced r =>
      have hargs := hkids r.args List.mem_cons_self
      have hitems : (r.items.getD []).map (partOf slots') = (r.items.getD []).map (partOf slots) :=
        List.map_congr_left fun c hc => hkids c (List.mem_cons_of_mem _ (List.mem_append_left _ hc))
      have hpairs : (inTurn (r.pairs.getD [])).map (partOf slots') = (inTurn (r.pairs.getD [])).map (partOf slots) :=
        List.map_congr_left fun c hc =>
          hkids c (List.mem_cons_of_mem _ (List.mem_append_right _ (List.mem_append_left _ hc)))
      have hstate : r.state.map (fun s => (partOf slots' s, r.setter)) = r.state.map (fun s => (partOf slots s, r.setter)) :=
        Option.map_congr fun s hs =>
          congrArg (·, r.setter) (hkids s (List.mem_cons_of_mem _ (List.mem_append_right _ (List.mem_append_right _
            (Option.mem_toList.mpr hs)))))
      rw [describe, describe, hargs, hitems, hpairs, hstate]
  | whole => rfl
  | apart => rfl
  | unreduced e => rfl

theorem describe_append {n : Node ρ σ ε} (hkids : ∀ c ∈ n.kids, Settled h slots c) (hmore : ∀ u ∈ more, ¬ Standing h u) :
    describe (slots ++ more) n = describe slots n :=
  describe_congr n fun c hc => partOf_append (hkids c hc) hmore

/-! ## What a visit leaves -/

/-- The objects that are being rebuilt are of those that a reducer gives. -/
def Making (h : Heap ρ σ ε) (making : List Nat) : Prop := ∀ u ∈ making, ∃ r, h u = .reduced r

/-- The objects and parts some visits have come to. Whatever was made before, the new steps make the new objects after it. -/
structure Visited (h : Heap ρ σ ε) (w w' : Walk ρ σ) (vs : List Nat) (ps : List Part) (ids : List Nat)
    (added : List (Step ρ σ)) : Prop where
  slots : w'.slots = w.slots ++ ids
  steps : w'.steps = w.steps ++ added
  making : w'.making = w.making
  nodup : w.slots.Nodup → w'.slots.Nodup
  loads : ∀ made : List (Made ρ σ), made.length = w.slots.length →
    loadFlat added made = some (made ++ ids.map fun u => describe w'.slots (h u))
  settled : ∀ v ∈ vs, Settled h w'.slots v
  parts : ps = vs.map (partOf w'.slots)
  kids : ∀ u ∈ ids, ∀ c ∈ (h u).kids, Settled h w'.slots c
  stands : ∀ u ∈ ids, ¬ Standing h u
  unmade : ∀ u ∈ ids, u ∉ w.making
  reached : ∀ u ∈ ids, ∃ v ∈ vs, Relation.ReflTransGen (Holds h) v u

theorem loadFlat_append {steps steps' : List (Step ρ σ)} {made made' : List (Made ρ σ)} (hl : loadFlat steps made = some made') :
    loadFlat (steps ++ steps') made = loadFlat steps' made' := by
  rw [loadFlat, List.foldlM_append]
  change loadFlat steps made >>= _ = _
  rw [hl]
  rfl

namespace Visited

variable {ids ids' : List Nat} {added added' : List (Step ρ σ)}

theorem nil : Visited h w w [] [] [] [] where
  slots := (List.append_nil _).symm
  steps := (List.append_nil _).symm
  making := rfl
  nodup := id
  loads := fun _ _ => congrArg some (List.append_nil _).symm
  settled := fun _ hv => absurd hv List.not_mem_nil
  parts := rfl
  kids := fun _ hv => absurd hv List.not_mem_nil
  stands := fun _ hv => absurd hv List.not_mem_nil
  unmade := fun _ hv => absurd hv List.not_mem_nil
  reached := fun _ hv => absurd hv List.not_mem_nil

/-- What is settled comes to its part, and nothing is made. -/
theorem here (hv : Settled h w.slots v) : Visited h w w [v] [partOf w.slots v] [] [] :=
  { nil with settled := fun _ hu => List.mem_singleton.mp hu ▸ hv, parts := rfl,
             reached := fun _ hv => absurd hv List.not_mem_nil }

theorem trans (hfirst : Visited h w w' vs ps ids added) (hlast : Visited h w' w'' us qs ids' added') :
    Visited h w w'' (vs ++ us) (ps ++ qs) (ids ++ ids') (added ++ added') := by
  have hmap : ps ++ qs = (vs ++ us).map (partOf w''.slots) := by
    rw [List.map_append, hfirst.parts, hlast.parts, hlast.slots]
    exact congrArg (· ++ _) (List.map_congr_left fun v hv => (partOf_append (hfirst.settled v hv) hlast.stands).symm)
  refine ⟨?_, ?_, hlast.making.trans hfirst.making, hlast.nodup ∘ hfirst.nodup, ?_, ?_, hmap, ?_, ?_, ?_, ?_⟩
  · rw [hlast.slots, hfirst.slots, List.append_assoc]
  · rw [hlast.steps, hfirst.steps, List.append_assoc]
  · intro made hmade
    rw [loadFlat_append (hfirst.loads made hmade), hlast.loads _ (by simp [hmade, hfirst.slots]), List.append_assoc,
      List.map_append]
    have hsame : ids.map (fun u => describe w'.slots (h u)) = ids.map (fun u => describe w''.slots (h u)) :=
      List.map_congr_left fun u hu => by rw [hlast.slots, describe_append (hfirst.kids u hu) hlast.stands]
    rw [hsame]
  · intro v hv
    rcases List.mem_append.mp hv with hv | hv
    · exact hlast.slots ▸ (hfirst.settled v hv).mono
    · exact hlast.settled v hv
  · intro u hu c hc
    rcases List.mem_append.mp hu with hu | hu
    · exact hlast.slots ▸ (hfirst.kids u hu c hc).mono
    · exact hlast.kids u hu c hc
  · intro u hu
    exact (List.mem_append.mp hu).elim (hfirst.stands u) (hlast.stands u)
  · intro u hu
    rcases List.mem_append.mp hu with hu | hu
    · exact hfirst.unmade u hu
    · exact hfirst.making ▸ hlast.unmade u hu
  · intro u hu
    rcases List.mem_append.mp hu with hu | hu
    · obtain ⟨v, hv, hway⟩ := hfirst.reached u hu
      exact ⟨v, List.mem_append_left _ hv, hway⟩
    · obtain ⟨v, hv, hway⟩ := hlast.reached u hu
      exact ⟨v, List.mem_append_right _ hv, hway⟩

/-- The same walk told of the object that holds those it went to. -/
theorem holder (hvis : Visited h w w' vs ps ids added) (hvs : ∀ c ∈ vs, Holds h v c) (hv : Settled h w'.slots v) :
    Visited h w w' [v] [partOf w'.slots v] ids added :=
  { hvis with
    settled := fun _ hu => List.mem_singleton.mp hu ▸ hv
    parts := rfl
    reached := fun u hu => by
      obtain ⟨c, hc, hway⟩ := hvis.reached u hu
      exact ⟨v, List.mem_singleton_self v, .head (hvs c hc) hway⟩ }

/-- The objects that one holds, and then the one. -/
theorem last {p : Part} (hvis : Visited h w w' (vs ++ [v]) (ps ++ [p]) ids added) (hvs : ∀ c ∈ vs, Holds h v c) :
    Visited h w w' [v] [p] ids added :=
  { hvis with
    settled := fun u hu => hvis.settled u (List.mem_append_right _ hu)
    parts := by
      have hparts := hvis.parts
      rw [List.map_append] at hparts
      exact (List.append_inj' hparts rfl).2
    reached := fun u hu => by
      obtain ⟨c, hc, hway⟩ := hvis.reached u hu
      refine ⟨v, List.mem_singleton_self v, ?_⟩
      rcases List.mem_append.mp hc with hc | hc
      · exact .head (hvs c hc) hway
      · exact List.mem_singleton.mp hc ▸ hway }

/-- Only what walk it started from matters, up to its depth. -/
theorem congr {w₀ : Walk ρ σ} (hvis : Visited h w w' vs ps ids added) (hsteps : w₀.steps = w.steps)
    (hslots : w₀.slots = w.slots) (hmaking : w₀.making = w.making) : Visited h w₀ w' vs ps ids added where
  slots := hslots ▸ hvis.slots
  steps := hsteps ▸ hvis.steps
  making := hmaking ▸ hvis.making
  nodup := hslots ▸ hvis.nodup
  loads := hslots ▸ hvis.loads
  settled := hvis.settled
  parts := hvis.parts
  kids := hvis.kids
  stands := hvis.stands
  unmade := hmaking ▸ hvis.unmade
  reached := hvis.reached

end Visited

/-! ## An object that is filled -/

/-- The walk from where an object has its slot, while what is made of it is a part of it only. -/
structure Filling (h : Heap ρ σ ε) (w : Walk ρ σ) (v : Nat) (n : Node ρ σ ε) (w' : Walk ρ σ) (ids : List Nat)
    (added : List (Step ρ σ)) : Prop where
  slots : w'.slots = w.slots ++ v :: ids
  steps : w'.steps = w.steps ++ added
  making : w'.making = w.making
  nodup : w.slots.Nodup → w'.slots.Nodup
  loads : ∀ made : List (Made ρ σ), made.length = w.slots.length →
    loadFlat added made = some (made ++ describe w'.slots n :: ids.map fun u => describe w'.slots (h u))
  holds : ∀ c ∈ n.kids, Settled h w'.slots c
  kids : ∀ u ∈ ids, ∀ c ∈ (h u).kids, Settled h w'.slots c
  stands : ∀ u ∈ v :: ids, ¬ Standing h u
  unmade : ∀ u ∈ v :: ids, u ∉ w.making
  reached : ∀ u ∈ ids, Relation.ReflTransGen (Holds h) v u

namespace Filling

variable {n n' : Node ρ σ ε} {ids ids' : List Nat} {added added' : List (Step ρ σ)}

theorem start {step : Nat → Step ρ σ} (hv : v ∉ w.slots) (hstands : ¬ Standing h v) (hmaking : v ∉ w.making)
    (hload : ∀ made : List (Made ρ σ), made.length = w.slots.length →
      load made (step w.slots.length) = some (made ++ [describe (w.slots ++ [v]) n]))
    (hholds : ∀ c ∈ n.kids, Settled h (w.slots ++ [v]) c) :
    Filling h w v n (w.made v step) [] [step w.slots.length] where
  slots := rfl
  steps := rfl
  making := rfl
  nodup := fun hnodup => by
    change (w.slots ++ [v]).Nodup
    rw [List.nodup_append]
    exact ⟨hnodup, List.nodup_singleton v, fun u hu c hc huc => hv (List.mem_singleton.mp hc ▸ huc ▸ hu)⟩
  loads := fun made hmade => by
    rw [loadFlat, List.foldlM_cons, hload made hmade]
    rfl
  holds := hholds
  kids := fun _ hu => absurd hu List.not_mem_nil
  stands := fun u hu => List.mem_singleton.mp hu ▸ hstands
  unmade := fun u hu => List.mem_singleton.mp hu ▸ hmaking
  reached := fun _ hu => absurd hu List.not_mem_nil

/-- More of it is visited, and a step puts it in. -/
theorem fill {step : Step ρ σ} (hfill : Filling h w v n w' ids added) (hvis : Visited h w' w'' vs ps ids' added')
    (hvs : ∀ c ∈ vs, Holds h v c) (hkids : ∀ c ∈ n'.kids, c ∈ n.kids ∨ c ∈ vs)
    (hput : ∀ made : List (Made ρ σ), made.length = w''.slots.length → made[w.slots.length]? = some (describe w''.slots n) →
      load made step = some (made.set w.slots.length (describe w''.slots n'))) :
    Filling h w v n' (w''.add step) (ids ++ ids') (added ++ (added' ++ [step])) where
  slots := by
    change w''.slots = _
    rw [hvis.slots, hfill.slots, List.append_assoc, List.cons_append]
  steps := by
    change w''.steps ++ [step] = _
    rw [hvis.steps, hfill.steps, List.append_assoc, List.append_assoc]
  making := hvis.making.trans hfill.making
  nodup := hvis.nodup ∘ hfill.nodup
  loads := fun made hmade => by
    change _ = some (made ++ describe w''.slots n' :: (ids ++ ids').map fun u => describe w''.slots (h u))
    have hlength : w'.slots.length = w.slots.length + (ids.length + 1) := by simp [hfill.slots]
    have hobj : describe w'.slots n = describe w''.slots n := by
      rw [hvis.slots, describe_append hfill.holds hvis.stands]
    have hsame : ids.map (fun u => describe w'.slots (h u)) = ids.map (fun u => describe w''.slots (h u)) :=
      List.map_congr_left fun u hu => by rw [hvis.slots, describe_append (hfill.kids u hu) hvis.stands]
    have hbefore := hvis.loads (made ++ describe w'.slots n :: ids.map fun u => describe w'.slots (h u))
      (by simp [hmade, hlength])
    have hall : (made ++ describe w''.slots n :: ids.map (fun u => describe w''.slots (h u)) ++
        ids'.map fun u => describe w''.slots (h u)).length = w''.slots.length := by
      simp only [List.length_append, List.length_cons, List.length_map, hmade, hvis.slots, hlength]
    rw [loadFlat_append (hfill.loads made hmade), loadFlat_append hbefore, hobj, hsame, loadFlat, List.foldlM_cons,
      hput _ hall (by simp [← hmade]), ← hmade]
    simp
  holds := fun c hc => by
    rcases hkids c hc with hold | hnew
    · have hset : Settled h (w'.slots ++ ids') c := (hfill.holds c hold).mono
      exact hvis.slots ▸ hset
    · exact hvis.settled c hnew
  kids := fun u hu c hc => by
    rcases List.mem_append.mp hu with hu | hu
    · exact hvis.slots ▸ (hfill.kids u hu c hc).mono
    · exact hvis.kids u hu c hc
  stands := fun u hu => by
    rcases List.mem_append.mp (List.cons_append ▸ hu : u ∈ (v :: ids) ++ ids') with hu | hu
    · exact hfill.stands u hu
    · exact hvis.stands u hu
  unmade := fun u hu => by
    rcases List.mem_append.mp (List.cons_append ▸ hu : u ∈ (v :: ids) ++ ids') with hu | hu
    · exact hfill.unmade u hu
    · exact hfill.making ▸ hvis.unmade u hu
  reached := fun u hu => by
    rcases List.mem_append.mp hu with hu | hu
    · exact hfill.reached u hu
    · obtain ⟨c, hc, hway⟩ := hvis.reached u hu
      exact .head (hvs c hc) hway

/-- All of it is put in. -/
theorem done (hfill : Filling h w v (h v) w' ids added) (hv : v ∉ w.slots) :
    Visited h w w' [v] [.slot w.slots.length] (v :: ids) added where
  slots := hfill.slots
  steps := hfill.steps
  making := hfill.making
  nodup := hfill.nodup
  loads := hfill.loads
  settled := fun u hu => List.mem_singleton.mp hu ▸ hfill.slots ▸ .inl (by simp)
  parts := by rw [List.map_singleton, hfill.slots, partOf_new hv]
  kids := fun u hu => by
    rcases List.mem_cons.mp hu with rfl | hu
    · exact hfill.holds
    · exact hfill.kids u hu
  stands := hfill.stands
  unmade := hfill.unmade
  reached := fun u hu => by
    rcases List.mem_cons.mp hu with rfl | hu
    · exact ⟨u, List.mem_singleton_self u, .refl⟩
    · exact ⟨v, List.mem_singleton_self v, hfill.reached u hu⟩

end Filling

/-- A step that changes an object that was made, from parts that were. -/
theorem change_eq {made : List (Made ρ σ)} {slot : Nat} {obj obj' : Made ρ σ} {f : Made ρ σ → Option (Made ρ σ)}
    (hobj : made[slot]? = some obj) (hf : f obj = some obj') : change made slot f = some (made.set slot obj') := by
  rw [change, hobj]
  change (f obj).bind _ = _
  rw [hf]
  rfl

theorem load_extend {made : List (Made ρ σ)} {slot : Nat} {obj obj' : Made ρ σ} (hready : ps.all (Part.ready made.length) = true)
    (hobj : made[slot]? = some obj) (hput : obj.extend ps = some obj') :
    load made (.extend slot ps) = some (made.set slot obj') := by
  rw [load, if_pos hready, change_eq hobj hput]

theorem load_setitems {made : List (Made ρ σ)} {slot : Nat} {obj obj' : Made ρ σ}
    (hready : ps.all (Part.ready made.length) = true) (hobj : made[slot]? = some obj) (hput : obj.setitems ps = some obj') :
    load made (.setitems slot ps) = some (made.set slot obj') := by
  rw [load, if_pos hready, change_eq hobj hput]

/-! ## The walk -/

/-- What a way of visiting one object leaves. -/
def Sound (h : Heap ρ σ ε) (visit : Nat → Walk ρ σ → Result ε (Part × Walk ρ σ)) : Prop :=
  ∀ v w p w', visit v w = .ok (p, w') → Making h w.making → ∃ ids added, Visited h w w' [v] [p] ids added

variable {visit' : Nat → Walk ρ σ → Result ε (Part × Walk ρ σ)}

theorem Sound.all (hsound : Sound h visit') (hall : visitAll visit' vs w = .ok (ps, w')) (hmaking : Making h w.making) :
    ∃ ids added, Visited h w w' vs ps ids added := by
  induction vs generalizing w ps with
  | nil =>
      cases hall
      exact ⟨[], [], Visited.nil⟩
  | cons v vs ih =>
      rw [visitAll, Result.bind_eq_ok] at hall
      obtain ⟨⟨p, mid⟩, hv, hall⟩ := hall
      rw [Result.bind_eq_ok] at hall
      obtain ⟨⟨qs, last⟩, hvs, heq⟩ := hall
      cases heq
      obtain ⟨ids, added, hfirst⟩ := hsound v w p mid hv hmaking
      obtain ⟨ids', added', hlast⟩ := ih hvs (hfirst.making ▸ hmaking)
      exact ⟨_, _, hfirst.trans hlast⟩

variable {n n' : Node ρ σ ε} {ids : List Nat} {added : List (Step ρ σ)}

/-- What there is of an optional part is put in. -/
theorem Filling.some {step : List Part → Step ρ σ} {items : Option (List Nat)} (hfill : Filling h w v n w' ids added)
    (hsound : Sound h visit') (hsome : visitSome visit' step items w' = .ok w'') (hmaking : Making h w.making)
    (hvs : ∀ c ∈ items.getD [], Holds h v c) (hnone : items = none → n' = n)
    (hkids : ∀ c ∈ n'.kids, c ∈ n.kids ∨ c ∈ items.getD [])
    (hput : ∀ (made : List (Made ρ σ)) (slots : List Nat), made.length = slots.length →
      made[w.slots.length]? = some (describe slots n) →
      load made (step ((items.getD []).map (partOf slots))) = some (made.set w.slots.length (describe slots n'))) :
    ∃ ids added, Filling h w v n' w'' ids added := by
  cases items with
  | none =>
      cases hsome
      rw [hnone rfl]
      exact ⟨ids, added, hfill⟩
  | some vs =>
      rw [visitSome, Result.bind_eq_ok] at hsome
      obtain ⟨⟨ps, last⟩, hall, heq⟩ := hsome
      cases heq
      obtain ⟨ids', added', hvis⟩ := hsound.all hall (hfill.making ▸ hmaking)
      refine ⟨_, _, hfill.fill hvis hvs hkids fun made hmade hobj => ?_⟩
      rw [hvis.parts]
      exact hput made _ hmade hobj

theorem idxOf_of_idxOf? {k : Nat} (hk : slots.idxOf? v = some k) : v ∈ slots ∧ k = slots.idxOf v := by
  have hmem : v ∈ slots := by
    by_contra hn
    rw [List.idxOf?_eq_none_iff.mpr hn] at hk
    cases hk
  exact ⟨hmem, by rw [List.idxOf_eq_getD_idxOf?, hk]; rfl⟩

theorem notMem_making {making : List Nat} (hmaking : Making h making) (hv : ∀ r, h v ≠ .reduced r) : v ∉ making :=
  fun hmem => (hmaking v hmem).elim hv

theorem visited_list {items : List Nat} {w₁ : Walk ρ σ} (hsound : Sound h visit') (hv : h v = .list items) (hslot : v ∉ w.slots)
    (hmaking : Making h w.making) (hall : visitAll visit' items (w.made v .list) = .ok (ps, w₁)) :
    ∃ ids added, Visited h w (w₁.add (.extend w.slots.length ps)) [v] [.slot w.slots.length] ids added := by
  have hstart : Filling h w v (.list []) (w.made v .list) [] [.list w.slots.length] :=
    Filling.start hslot (by simp [Standing, hv]) (notMem_making hmaking (by simp [hv])) (fun _ _ => rfl)
      fun _ hc => absurd hc List.not_mem_nil
  obtain ⟨ids, added, hvis⟩ := hsound.all hall hmaking
  have hholds : ∀ c ∈ items, Holds h v c := fun c hc => by rw [Holds, hv]; exact hc
  have hfill : Filling h w v (h v) (w₁.add (.extend w.slots.length ps)) _ _ :=
    hstart.fill hvis hholds (fun c hc => .inr (by rw [hv] at hc; exact hc)) fun made hmade hobj => by
      rw [hv, hvis.parts]
      exact load_extend (hmade ▸ parts_ready _ _) hobj rfl
  exact ⟨_, _, hfill.done hslot⟩

theorem visited_dict {pairs : List (Nat × Nat)} {w₁ : Walk ρ σ} (hsound : Sound h visit') (hv : h v = .dict pairs)
    (hslot : v ∉ w.slots) (hmaking : Making h w.making) (hall : visitAll visit' (inTurn pairs) (w.made v .dict) = .ok (ps, w₁)) :
    ∃ ids added, Visited h w (w₁.add (.setitems w.slots.length ps)) [v] [.slot w.slots.length] ids added := by
  have hstart : Filling h w v (.dict []) (w.made v .dict) [] [.dict w.slots.length] :=
    Filling.start hslot (by simp [Standing, hv]) (notMem_making hmaking (by simp [hv])) (fun _ _ => rfl)
      fun _ hc => absurd hc List.not_mem_nil
  obtain ⟨ids, added, hvis⟩ := hsound.all hall hmaking
  have hholds : ∀ c ∈ inTurn pairs, Holds h v c := fun c hc => by rw [Holds, hv]; exact hc
  have hfill : Filling h w v (h v) (w₁.add (.setitems w.slots.length ps)) _ _ :=
    hstart.fill hvis hholds (fun c hc => .inr (by rw [hv] at hc; exact hc)) fun made hmade hobj => by
      rw [hv, hvis.parts]
      exact load_setitems (hmade ▸ parts_ready _ _) hobj rfl
  exact ⟨_, _, hfill.done hslot⟩

theorem visited_tuple {items : List Nat} (hvis : Visited h w w' items ps ids added) (hv : h v = .tuple items)
    (hwhole : items.all (isWhole h) = false) (hslot : v ∉ w'.slots) (hmaking : Making h w.making) :
    Visited h w (w'.made v (.tuple · ps)) [v] [.slot w'.slots.length] (ids ++ [v]) (added ++ [.tuple w'.slots.length ps]) := by
  have hholds : ∀ c ∈ items, Holds h v c := fun c hc => by rw [Holds, hv]; exact hc
  have hstands : ¬ Standing h v := by simp [Standing, hv, hwhole]
  have hlast : Visited h w' (w'.made v (.tuple · ps)) [v] [.slot w'.slots.length] [v] [.tuple w'.slots.length ps] := by
    refine (Filling.start hslot hstands (notMem_making (hvis.making ▸ hmaking) (by simp [hv])) ?_ ?_).done hslot
    · intro made hmade
      have hsame : items.map (partOf (w'.slots ++ [v])) = items.map (partOf w'.slots) :=
        List.map_congr_left fun c hc =>
          partOf_append (hvis.settled c hc) fun u hu => List.mem_singleton.mp hu ▸ hstands
      rw [load, hvis.parts, if_pos (hmade ▸ parts_ready _ _), hv, describe, hsame]
    · intro c hc
      rw [hv] at hc
      exact (hvis.settled c hc).mono
  exact (hvis.trans hlast).last hholds

theorem filter_making {making : List Nat} (hv : v ∉ making) : (v :: making).filter (· ≠ v) = making := by
  rw [List.filter_cons_of_neg (by simp), List.filter_eq_self]
  intro u hu
  exact decide_eq_true fun huv => hv (huv ▸ hu)

/-- What was held on to while its arguments were visited is let go of. -/
theorem Visited.unmaking (hvis : Visited h { w with making := v :: w.making } w' vs ps ids added) :
    Visited h w { w' with making := w.making } vs ps ids added :=
  { hvis with
    making := rfl
    unmade := fun u hu hmem => hvis.unmade u hu (List.mem_cons_of_mem _ hmem) }

/-- The items, the pairs and the state of an object that was made from its arguments. -/
theorem filling_reduced {r : Reduce ρ σ} {w₁ w₂ w₃ : Walk ρ σ} {slot : Nat} (hsound : Sound h visit') (hv : h v = .reduced r)
    (hslot : slot = w.slots.length)
    (hfill : Filling h w v (.reduced { r with items := none, pairs := none, state := none }) w₁ ids added)
    (hmaking : Making h w.making) (hitems : visitSome visit' (.extend slot) r.items w₁ = .ok w₂)
    (hpairs : visitSome visit' (.setitems slot) (r.pairs.map inTurn) w₂ = .ok w₃)
    (hstate : visitState visit' slot r.setter r.state w₃ = .ok w') : ∃ ids added, Filling h w v (h v) w' ids added := by
  subst hslot
  have hholds : ∀ c ∈ (Node.reduced r : Node ρ σ ε).kids, Holds h v c := fun c hc => by rw [Holds, hv]; exact hc
  have hgetD : (r.pairs.map inTurn).getD [] = inTurn (r.pairs.getD []) := by cases r.pairs <;> rfl
  obtain ⟨ids₂, added₂, hfill₂⟩ : ∃ ids added,
      Filling h w v (.reduced { r with pairs := none, state := none }) w₂ ids added := by
    refine hfill.some hsound hitems hmaking ?_ ?_ ?_ ?_
    · exact fun c hc => hholds c (List.mem_cons_of_mem _ (List.mem_append_left _ hc))
    · intro hnone
      rw [← hnone]
    · intro c hc
      simpa [Node.kids, inTurn, or_comm] using hc
    · intro made slots hmade hobj
      exact load_extend (hmade ▸ parts_ready _ _) hobj rfl
  obtain ⟨ids₃, added₃, hfill₃⟩ : ∃ ids added, Filling h w v (.reduced { r with state := none }) w₃ ids added := by
    refine hfill₂.some hsound hpairs hmaking ?_ ?_ ?_ ?_
    · intro c hc
      rw [hgetD] at hc
      exact hholds c (List.mem_cons_of_mem _ (List.mem_append_right _ (List.mem_append_left _ hc)))
    · intro hnone
      rw [Option.map_eq_none_iff] at hnone
      rw [← hnone]
    · intro c hc
      rw [hgetD]
      simpa [Node.kids, inTurn, or_assoc] using hc
    · intro made slots hmade hobj
      rw [hgetD]
      exact load_setitems (hmade ▸ parts_ready _ _) hobj rfl
  cases hs : r.state with
  | none =>
      rw [hs] at hstate
      cases hstate
      refine ⟨ids₃, added₃, ?_⟩
      have hr : ({ r with state := none } : Reduce ρ σ) = r := by rw [← hs]
      rwa [hv, ← hr]
  | some state =>
      rw [hs, visitState, Result.bind_eq_ok] at hstate
      obtain ⟨⟨q, w₄⟩, hvisit, heq⟩ := hstate
      cases heq
      obtain ⟨ids₄, added₄, hvis⟩ := hsound state w₃ q w₄ hvisit (hfill₃.making ▸ hmaking)
      refine ⟨_, _, hfill₃.fill hvis ?_ ?_ ?_⟩
      · intro c hc
        exact hholds c (by simp [Node.kids, hs, List.mem_singleton.mp hc])
      · intro c hc
        rw [hv] at hc
        simpa [Node.kids, hs, or_assoc] using hc
      · intro made hmade hobj
        have hq : q = partOf w₄.slots state := by simpa using hvis.parts
        have hput : (describe w₄.slots (.reduced { r with state := none } : Node ρ σ ε)).build q r.setter =
            some (describe w₄.slots (h v)) := by
          rw [hv, describe, describe, hs, hq]
          rfl
        rw [load, if_pos (hq ▸ hmade ▸ partOf_ready _ _), change_eq hobj hput]

/-- An object that its reducer gives: its arguments first, then what is put into it. -/
theorem visited_reduced {r : Reduce ρ σ} {p : Part} {w₁ w₂ w₃ w₄ : Walk ρ σ} (hsound : Sound h visit') (hv : h v = .reduced r)
    (hargs : Visited h w w₁ [r.args] [p] ids added) (hslot : v ∉ w₁.slots) (hmem : v ∉ w.making) (hmaking : Making h w.making)
    (hitems : visitSome visit' (.extend w₁.slots.length) r.items (w₁.made v (.new · r.rebuild p)) = .ok w₂)
    (hpairs : visitSome visit' (.setitems w₁.slots.length) (r.pairs.map inTurn) w₂ = .ok w₃)
    (hstate : visitState visit' w₁.slots.length r.setter r.state w₃ = .ok w₄) :
    ∃ ids added, Visited h w w₄ [v] [.slot w₁.slots.length] ids added := by
  have hpart : p = partOf w₁.slots r.args := by simpa using hargs.parts
  have hstands : ¬ Standing h v := by simp [Standing, hv]
  have hmake : w₁.making = w.making := hargs.making
  have hstart : Filling h w₁ v (.reduced { r with items := none, pairs := none, state := none })
      (w₁.made v (.new · r.rebuild p)) [] [.new w₁.slots.length r.rebuild p] := by
    refine Filling.start hslot hstands (hmake ▸ hmem) ?_ ?_
    · intro made hmade
      have hsame : partOf (w₁.slots ++ [v]) r.args = p :=
        (partOf_append (hargs.settled _ (List.mem_singleton_self _)) fun u hu => List.mem_singleton.mp hu ▸ hstands).trans
          hpart.symm
      rw [load, if_pos (hpart ▸ hmade ▸ partOf_ready _ _), describe, hsame]
      rfl
    · intro c hc
      have hc : c = r.args := by simpa [Node.kids, inTurn] using hc
      exact hc ▸ (hargs.settled _ (List.mem_singleton_self _)).mono
  obtain ⟨ids', added', hfill⟩ := filling_reduced hsound hv rfl hstart (hmake ▸ hmaking) hitems hpairs hstate
  have hheld : ∀ c ∈ [r.args], Holds h v c := by
    intro c hc
    rw [List.mem_singleton.mp hc, Holds, hv]
    exact List.mem_cons_self
  exact ⟨_, _, (hargs.trans (hfill.done hslot)).last hheld⟩

theorem visit_sound (deepest : Option Nat) (fuel frames : Nat) : Sound h (visit h deepest fuel frames) := by
  induction fuel generalizing frames with
  | zero =>
      intro v w p w' hvisit
      cases hvisit
  | succ fuel ih =>
      intro v w p w' hvisit hmaking
      rw [visit] at hvisit
      split at hvisit
      · rename_i k hk
        cases hvisit
        obtain ⟨hmem, rfl⟩ := idxOf_of_idxOf? hk
        exact ⟨[], [], partOf_of_mem hmem ▸ Visited.here (.inl hmem)⟩
      · rename_i hk
        have hslot : v ∉ w.slots := List.idxOf?_eq_none_iff.mp hk
        have hstay (hs : Standing h v) : ∃ ids added, Visited h w w [v] [.itself v] ids added :=
          ⟨[], [], partOf_of_notMem hslot ▸ Visited.here (.inr hs)⟩
        split at hvisit
        · rename_i hv
          cases hvisit
          exact hstay (by simp [Standing, hv])
        · rename_i hv
          cases hvisit
          exact hstay (by simp [Standing, hv])
        · rename_i items hv
          rw [Result.bind_eq_ok] at hvisit
          obtain ⟨w₁, henter, hvisit⟩ := hvisit
          rw [Result.bind_eq_ok] at hvisit
          obtain ⟨⟨ps, w₂⟩, hall, heq⟩ := hvisit
          cases heq
          obtain ⟨hsteps, hslots, hmake⟩ := Walk.enter_ok henter
          obtain ⟨ids, added, hvis⟩ := visited_list (ih (frames + 1)) hv (hslots ▸ hslot) (hmake ▸ hmaking) hall
          exact ⟨ids, added, hvis.congr hsteps.symm hslots.symm hmake.symm⟩
        · rename_i pairs hv
          rw [Result.bind_eq_ok] at hvisit
          obtain ⟨w₁, henter, hvisit⟩ := hvisit
          rw [Result.bind_eq_ok] at hvisit
          obtain ⟨⟨ps, w₂⟩, hall, heq⟩ := hvisit
          cases heq
          obtain ⟨hsteps, hslots, hmake⟩ := Walk.enter_ok henter
          obtain ⟨ids, added, hvis⟩ := visited_dict (ih (frames + 1)) hv (hslots ▸ hslot) (hmake ▸ hmaking) hall
          exact ⟨ids, added, hvis.congr hsteps.symm hslots.symm hmake.symm⟩
        · rename_i items hv
          split at hvisit
          · rename_i hwhole
            cases hvisit
            exact hstay (by simpa [Standing, hv] using hwhole)
          · rename_i hwhole
            rw [Result.bind_eq_ok] at hvisit
            obtain ⟨w₁, henter, hvisit⟩ := hvisit
            rw [Result.bind_eq_ok] at hvisit
            obtain ⟨⟨ps, w₂⟩, hall, hvisit⟩ := hvisit
            obtain ⟨hsteps, hslots, hmake⟩ := Walk.enter_ok henter
            obtain ⟨ids, added, hvis⟩ := (ih (frames + 1)).all hall (hmake ▸ hmaking)
            dsimp only at hvisit
            split at hvisit
            · rename_i k hk'
              cases hvisit
              obtain ⟨hmem, rfl⟩ := idxOf_of_idxOf? hk'
              have hheld := hvis.holder (fun c hc => by rw [Holds, hv]; exact hc) (v := v) (.inl hmem)
              exact ⟨ids, added, partOf_of_mem hmem ▸ hheld.congr hsteps.symm hslots.symm hmake.symm⟩
            · rename_i hk'
              cases hvisit
              have hlast := visited_tuple hvis hv (Bool.eq_false_iff.mpr hwhole) (List.idxOf?_eq_none_iff.mp hk')
                (hmake ▸ hmaking)
              exact ⟨_, _, hlast.congr hsteps.symm hslots.symm hmake.symm⟩
        · rename_i r hv
          split at hvisit
          · cases hvisit
          · rename_i hmem
            rw [Result.bind_eq_ok] at hvisit
            obtain ⟨w₁, henter, hvisit⟩ := hvisit
            rw [Result.bind_eq_ok] at hvisit
            obtain ⟨⟨args, w₂⟩, hargs, hvisit⟩ := hvisit
            rw [Result.bind_eq_ok] at hvisit
            obtain ⟨w₃, hitems, hvisit⟩ := hvisit
            rw [Result.bind_eq_ok] at hvisit
            obtain ⟨w₄, hpairs, hvisit⟩ := hvisit
            rw [Result.bind_eq_ok] at hvisit
            obtain ⟨w₅, hstate, heq⟩ := hvisit
            cases heq
            obtain ⟨hsteps, hslots, hmake⟩ := Walk.enter_ok henter
            have hrebuilt : Making h (v :: w₁.making) := by
              intro u hu
              rcases List.mem_cons.mp hu with rfl | hu
              · exact ⟨r, hv⟩
              · exact hmaking u (hmake ▸ hu)
            obtain ⟨ids, added, hvis⟩ := ih (frames + 1) r.args _ args w₂ hargs hrebuilt
            have hfilter : w₂.making.filter (· ≠ v) = w₁.making := by
              rw [hvis.making]
              exact filter_making (hmake ▸ hmem)
            have hnew : v ∉ w₂.slots := by
              rw [hvis.slots, List.mem_append, not_or]
              exact ⟨hslots ▸ hslot, fun hids => hvis.unmade v hids List.mem_cons_self⟩
            rw [hfilter] at hitems
            obtain ⟨ids', added', hvis'⟩ := visited_reduced (ih (frames + 1)) hv hvis.unmaking hnew (hmake ▸ hmem)
              (hmake ▸ hmaking) hitems hpairs hstate
            exact ⟨ids', added', hvis'.congr hsteps.symm hslots.symm hmake.symm⟩
        · cases hvisit

end Cash.Flat
