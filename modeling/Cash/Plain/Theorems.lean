import Cash.Plain.Data

/-!
# Plain data before and after writes in place
-/

namespace Cash.Plain

variable {ρ : Type} {h h' : Heap ρ} {fakes : List String}

/-! ## The levels of plain data before and after writes in place -/

section

variable {value x : ρ} {level flat : List ρ}

/-! ### What writes keep -/

/-- The objects are of the types they were, and all but the lists hold what they held. -/
structure Kept (h h' : Heap ρ) : Prop where
  isSeq : ∀ x, h'.isSeq x = h.isSeq x
  isList : ∀ x, h'.isList x = h.isList x
  items : ∀ x, h.isList x = false → h'.items x = h.items x

theorem Write.kept [DecidableEq ρ] (hw : Write h h') : Kept h h' := by
  cases hw with
  | @list l before after hl =>
    have hat : ∀ x, Function.update h l (.list after) x = h x ∨
        h x = .list before ∧ Function.update h l (.list after) x = .list after := by
      intro x
      by_cases hx : x = l
      · subst hx
        exact .inr ⟨hl, by simp⟩
      · exact .inl (by simp [hx])
    refine ⟨fun x => ?_, fun x => ?_, fun x hx => ?_⟩
    · rcases hat x with heq | ⟨hb, ha⟩ <;> simp [Heap.isSeq, *]
    · rcases hat x with heq | ⟨hb, ha⟩ <;> simp [Heap.isList, *]
    · rcases hat x with heq | ⟨hb, ha⟩
      · simp [Heap.items, heq]
      · simp [Heap.isList, hb] at hx

theorem Kept.trans {h'' : Heap ρ} (h₁ : Kept h h') (h₂ : Kept h' h'') : Kept h h'' := by
  refine ⟨fun x => (h₂.isSeq x).trans (h₁.isSeq x), fun x => (h₂.isList x).trans (h₁.isList x), fun x hx => ?_⟩
  rw [h₂.items x (by rw [h₁.isList, hx]), h₁.items x hx]

theorem Writes.kept [DecidableEq ρ] (hw : Writes h h') : Kept h h' := by
  induction hw with
  | refl => exact ⟨fun _ => rfl, fun _ => rfl, fun _ _ => rfl⟩
  | tail _ hstep ih => exact ih.trans hstep.kept

/-! ### Levels -/

theorem items_eq_nil (hx : h.isSeq x = false) : h.items x = [] := by
  unfold Heap.isSeq at hx
  unfold Heap.items
  split <;> simp_all

theorem isSeq_of_isLeaf (hx : h.isLeaf fakes x = true) : h.isSeq x = false := by
  unfold Heap.isLeaf at hx
  unfold Heap.isSeq
  split <;> simp_all

theorem flatMap_items_filter : (flat.filter h.isSeq).flatMap h.items = flat.flatMap h.items := by
  induction flat with
  | nil => rfl
  | cons x flat ih =>
    by_cases hx : h.isSeq x = true
    · simp [hx, ih]
    · simp [hx, ih, items_eq_nil (Bool.eq_false_iff.mpr hx)]

theorem objectsAt_filter (depth : Nat) :
    objectsAt h (flat.filter h.isSeq) (depth + 1) = objectsAt h flat (depth + 1) := by
  simp [objectsAt, flatMap_items_filter]

theorem objectsAt_nil : ∀ depth, objectsAt h [] depth = []
  | 0 => rfl
  | depth + 1 => by simp [objectsAt, objectsAt_nil depth]

/-- Below a level whose items are the same, nothing differs where nothing differs below its sequences. -/
theorem objectsAt_level (hk : Kept h h') :
    (∀ depth, objectsAt h' level depth = objectsAt h level depth) ↔
      level.flatMap h'.items = level.flatMap h.items ∧
        ∀ depth, objectsAt h' ((level.flatMap h.items).filter h.isSeq) depth =
          objectsAt h ((level.flatMap h.items).filter h.isSeq) depth := by
  have hseq : h'.isSeq = h.isSeq := funext hk.isSeq
  have hfilter : ∀ depth, _ := @objectsAt_filter _ h' (level.flatMap h.items)
  rw [hseq] at hfilter
  constructor
  · intro hall
    have hflat : level.flatMap h'.items = level.flatMap h.items := by simpa [objectsAt] using hall 1
    refine ⟨hflat, fun depth => ?_⟩
    cases depth with
    | zero => rfl
    | succ depth =>
      rw [hfilter, objectsAt_filter, ← hflat]
      have := hall (depth + 2)
      simpa [objectsAt, hflat] using this
  · rintro ⟨hflat, hbelow⟩ depth
    match depth with
    | 0 => rfl
    | 1 => simpa [objectsAt] using hflat
    | depth + 2 =>
      have := hbelow (depth + 1)
      rw [hfilter, objectsAt_filter] at this
      simpa [objectsAt, hflat] using this

/-! ### The comparison -/

theorem all_zipWith_beq [DecidableEq ρ] (xs ys : List ρ) (hlen : xs.length = ys.length) :
    (List.zipWith (· == ·) xs ys).all id = true ↔ xs = ys := by
  induction xs generalizing ys with
  | nil => cases ys <;> simp_all
  | cons x xs ih =>
    cases ys with
    | nil => simp at hlen
    | cons y ys => simp_all

theorem differs_some [DecidableEq ρ] (before : List ρ) : differs flat (some before) = false ↔ flat = before := by
  by_cases hlen : flat.length = before.length
  · have := all_zipWith_beq flat before hlen
    simp_all [differs]
  · simp only [differs, Bool.or_eq_false_iff, bne_eq_false_iff_eq, hlen, false_and, false_iff]
    exact fun heq => hlen (by rw [heq])

/-- A level that is not held cannot differ: its parents are tuples. -/
theorem differs_held [DecidableEq ρ] (hk : Kept h h') {canChange : Bool}
    (hcan : canChange = false → ∀ x ∈ level, h.isList x = false) :
    differs (level.flatMap h'.items) (if canChange then some (level.flatMap h.items) else none) = false ↔
      level.flatMap h'.items = level.flatMap h.items := by
  cases canChange with
  | true => exact differs_some _
  | false =>
    have hsame : level.flatMap h'.items = level.flatMap h.items := by
      rw [List.flatMap_def, List.flatMap_def]
      exact congrArg _ (List.map_congr_left fun x hx => hk.items x (hcan rfl x hx))
    simp [differs, hsame]

/-- The loop finds a difference just where the objects at some depth differ. -/
theorem changedFrom_held [DecidableEq ρ] (hk : Kept h h') (n : Nat) {flats : List (List ρ)} {canChange : Bool}
    (hl : levelsFrom fakes h n level = some flats) (hcan : canChange = false → ∀ x ∈ level, h.isList x = false) :
    changedFrom h' (level.flatMap h'.items) (held h canChange flats) = false ↔
      ∀ depth, objectsAt h' level depth = objectsAt h level depth := by
  have hseq : h'.isSeq = h.isSeq := funext hk.isSeq
  induction n generalizing level flats canChange with
  | zero => simp [levelsFrom] at hl
  | succ n ih =>
    rw [objectsAt_level hk]
    simp only [levelsFrom] at hl
    split at hl
    case isFalse => cases hl
    split at hl
    case isTrue hleaves =>
      cases hl
      have hnone : (level.flatMap h.items).filter h.isSeq = [] := by
        rw [List.filter_eq_nil_iff]
        intro x hx
        simp [isSeq_of_isLeaf (List.all_eq_true.mp hleaves x hx)]
      simp only [held, changedFrom, Bool.or_false, differs_held hk hcan, hnone, objectsAt_nil, implies_true, and_true]
    case isFalse =>
      obtain ⟨rest, hrest, rfl⟩ := Option.map_eq_some_iff.mp hl
      simp only [held, changedFrom, Bool.or_eq_false_iff, differs_held hk hcan]
      -- below the items that are the same objects, the loop starts over with their sequences
      refine and_congr_right fun hflat => ?_
      rw [hflat, hseq]
      refine ih hrest fun hnolist x hx => ?_
      have hx' := (List.mem_filter.mp hx).1
      exact Bool.eq_false_iff.mpr fun hlist => by
        simp only [List.any_eq_false] at hnolist
        exact hnolist x hx' hlist

theorem levelsFrom_ne_nil {n : Nat} (hl : levelsFrom fakes h n level = some []) : False := by
  cases n with
  | zero => simp [levelsFrom] at hl
  | succ n =>
    simp only [levelsFrom] at hl
    split at hl
    · split at hl <;> simp at hl
    · cases hl

theorem identityChanged_eq_false [DecidableEq ρ] (hk : Kept h h') {snapshot : List (Option (List ρ))}
    (hs : identitySnapshot fakes h value = some snapshot) :
    identityChanged h' value snapshot = false ↔ ∀ depth, objectsAt h' [value] depth = objectsAt h [value] depth := by
  simp only [identitySnapshot, levels] at hs
  split at hs
  case isFalse => cases hs
  next hvalue =>
    split at hs
    case h_2 => cases hs
    next flats hflats =>
      split at hs
      case isTrue => cases hs
      cases hs
      have hne : held h (h.isList value) flats ≠ [] := by
        cases flats with
        | nil => exact (levelsFrom_ne_nil hflats).elim
        | cons => simp [held]
      have hcan : h.isList value = false → ∀ x ∈ [value], h.isList x = false := by simp
      have hloop := changedFrom_held hk maxLevels hflats hcan
      simpa [identityChanged, hk.isSeq, hvalue, hne] using hloop

/-! ### Lists that changed -/

theorem mem_objectsAt_of_reachable (hx : Reachable h value x) : ∀ {level}, value ∈ level →
    ∃ depth, x ∈ objectsAt h level depth := by
  induction hx using Relation.ReflTransGen.head_induction_on with
  | refl => exact fun hmem => ⟨0, hmem⟩
  | head hstep _ ih =>
    intro level hmem
    obtain ⟨depth, hd⟩ := ih (List.mem_flatMap.mpr ⟨_, hmem, hstep⟩)
    exact ⟨depth + 1, hd⟩

theorem objectsAt_reachable {depth : Nat} (hx : x ∈ objectsAt h level depth) :
    ∃ top ∈ level, Reachable h top x := by
  induction depth generalizing level with
  | zero => exact ⟨x, hx, .refl⟩
  | succ depth ih =>
    obtain ⟨y, hy, hreach⟩ := ih hx
    obtain ⟨top, htop, hin⟩ := List.mem_flatMap.mp hy
    exact ⟨top, htop, .head hin hreach⟩

theorem objectsAt_succ (level : List ρ) (depth : Nat) :
    objectsAt h level (depth + 1) = (objectsAt h level depth).flatMap h.items := by
  induction depth generalizing level with
  | zero => rfl
  | succ depth ih => rw [objectsAt, ih, objectsAt]

/-- Where no list is longer or shorter, the items of a level tell the items of each of its sequences. -/
theorem items_eq_of_flatMap_eq {f g : ρ → List ρ} (hlen : ∀ x ∈ level, (f x).length = (g x).length)
    (heq : level.flatMap f = level.flatMap g) : ∀ x ∈ level, f x = g x := by
  induction level with
  | nil => simp
  | cons y level ih =>
    simp only [List.flatMap_cons] at heq
    obtain ⟨hy, hrest⟩ := List.append_inj heq (hlen y (by simp))
    intro x hx
    rcases List.mem_cons.mp hx with rfl | hx
    · exact hy
    · exact ih (fun z hz => hlen z (by simp [hz])) hrest x hx

theorem objectsAt_of_not_changed (hk : Kept h h') (hsame : ¬ Changed h h' value) (depth : Nat) :
    objectsAt h' [value] depth = objectsAt h [value] depth := by
  induction depth with
  | zero => rfl
  | succ depth ih =>
    rw [objectsAt_succ, objectsAt_succ, ih, List.flatMap_def, List.flatMap_def]
    refine congrArg _ (List.map_congr_left fun x hx => ?_)
    obtain ⟨top, htop, hreach⟩ := objectsAt_reachable hx
    rw [List.mem_singleton] at htop
    subst htop
    by_cases hlist : h.isList x = true
    · exact by_contra fun hne => hsame ⟨x, hreach, hlist, hne⟩
    · exact hk.items x (Bool.eq_false_iff.mpr hlist)

theorem not_changed_of_objectsAt (hk : Kept h h') (hregrouped : ¬ Regrouped h h' value)
    (hsame : ∀ depth, objectsAt h' [value] depth = objectsAt h [value] depth) : ¬ Changed h h' value := by
  rintro ⟨l, hreach, hlist, hne⟩
  have hlen : ∀ x, Reachable h value x → (h'.items x).length = (h.items x).length := by
    intro x hx
    by_cases hxl : h.isList x = true
    · exact by_contra fun hlen => hregrouped ⟨⟨x, hx, hxl, hlen⟩, hsame⟩
    · rw [hk.items x (Bool.eq_false_iff.mpr hxl)]
  obtain ⟨depth, hd⟩ := mem_objectsAt_of_reachable hreach (List.mem_singleton.mpr rfl)
  have hnext := hsame (depth + 1)
  rw [objectsAt_succ, objectsAt_succ, hsame depth] at hnext
  refine hne (items_eq_of_flatMap_eq (fun x hx => ?_) hnext l hd)
  obtain ⟨top, htop, hx⟩ := objectsAt_reachable hx
  rw [List.mem_singleton] at htop
  exact hlen x (htop ▸ hx)

theorem Regrouped.changed (hr : Regrouped h h' value) : Changed h h' value := by
  obtain ⟨⟨l, hreach, hlist, hlen⟩, -⟩ := hr
  exact ⟨l, hreach, hlist, fun heq => hlen (by rw [heq])⟩

end

/-! ## A change made in place is seen -/

section

variable {value : ρ}

/-- After any writes in place, `identity_changed` says whether a list of the value has changed, but for
changes that only move the bounds between neighbours of one level. -/
theorem identityChanged_sees [DecidableEq ρ] {snapshot : List (Option (List ρ))}
    (hs : identitySnapshot fakes h value = some snapshot) (hw : Writes h h') :
    ((Changed h h' value → identityChanged h' value snapshot = true) ∧
      (¬ Changed h h' value → identityChanged h' value snapshot = false)) ↔ ¬ Regrouped h h' value := by
  have hiff := identityChanged_eq_false hw.kept hs
  constructor
  · rintro ⟨hsees, -⟩ hr
    have hfalse := hiff.mpr hr.2
    rw [hsees hr.changed] at hfalse
    cases hfalse
  · intro hr
    refine ⟨fun hc => ?_, fun hsame => hiff.mpr (objectsAt_of_not_changed hw.kept hsame)⟩
    rw [← Bool.not_eq_false]
    exact fun hfalse => not_changed_of_objectsAt hw.kept hr (hiff.mp hfalse) hc

/-- `[[a, b], [c]]`. -/
def twoRows : Heap Nat
  | 0 => .list [1, 2]
  | 1 => .list [3, 4]
  | 2 => .list [5]
  | _ => .other .int

theorem twoRows_snapshot : identitySnapshot [] twoRows 0 = some [some [1, 2], some [3, 4, 5]] := by decide

/-- An item appended to the second row is seen. -/
theorem identityChanged_sees_append : identityChanged (Function.update twoRows 2 (.list [5, 6])) 0
    [some [1, 2], some [3, 4, 5]] = true := by
  have hw : Writes twoRows (Function.update twoRows 2 (.list [5, 6])) := .single (.list [5] _ rfl)
  refine ((identityChanged_sees twoRows_snapshot hw).mpr ?_).1 ?_
  · rintro ⟨-, hsame⟩
    exact absurd (hsame 2) (by decide)
  · exact ⟨2, .single (by decide), rfl, by decide⟩

/-- The last item of the first row moved to the front of the second. -/
theorem identityChanged_misses_move : ∃ h', Writes twoRows h' ∧
    identitySnapshot [] twoRows 0 = some [some [1, 2], some [3, 4, 5]] ∧ Changed twoRows h' 0 ∧
    identityChanged h' 0 [some [1, 2], some [3, 4, 5]] = false := by
  refine ⟨Function.update (Function.update twoRows 1 (.list [3])) 2 (.list [4, 5]), ?_, twoRows_snapshot, ?_, ?_⟩
  · have hpop : Write twoRows (Function.update twoRows 1 (.list [3])) := .list [3, 4] _ rfl
    exact .tail (.single hpop) (.list [5] _ rfl)
  · exact ⟨1, .single (by decide), rfl, by decide⟩
  · decide

end

end Cash.Plain
