import Cash.Loops.Rules
import Mathlib.Data.List.TakeWhile

/-!
# What the patterns match, and what the rules add and remove
-/

namespace Cash.Loops

open Py

variable {k : Classes} {name s rest : Str}

/-! ## Scanning -/

theorem dropWhile_eq_cons_iff {p : Nat → Bool} {c : Nat} (hc : p c = false) :
    s.dropWhile p = c :: rest ↔ ∃ ws, (∀ x ∈ ws, p x = true) ∧ s = ws ++ c :: rest := by
  constructor
  · intro h
    refine ⟨s.takeWhile p, fun x hx => List.mem_takeWhile_imp hx, ?_⟩
    rw [← h, List.takeWhile_append_dropWhile]
  · rintro ⟨ws, hws, rfl⟩
    rw [List.dropWhile_append_of_pos hws, List.dropWhile_cons_of_neg (by simp [hc])]

theorem after_eq_some_iff : after name s = some rest ↔ s = name ++ rest := by
  unfold after
  split
  · rename_i h
    obtain ⟨tail, rfl⟩ := List.isPrefixOf_iff_prefix.mp h
    simp
  · rename_i h
    simp only [reduceCtorEq, false_iff]
    rintro rfl
    exact h (List.isPrefixOf_iff_prefix.mpr (List.prefix_append _ _))

theorem Classes.space_marks (k : Classes) {c : Nat} (hc : c ∈ [40, 46, 61, 91, 93, 35]) : k.space c = false := (k.marks c hc).2

/-! ## The in-place changes that are recognised -/

/-- `.name(`, with space between. -/
def CallFollows (k : Classes) (s : Str) : Prop :=
  ∃ ws method ws' rest, s = 46 :: (ws ++ (method ++ (ws' ++ 40 :: rest))) ∧ method ≠ [] ∧ (∀ c ∈ ws, k.space c = true) ∧
    (∀ c ∈ method, k.word c = true) ∧ ∀ c ∈ ws', k.space c = true

/-- `[index] =`, with no `]` in the index, and no second `=`. -/
def StoreFollows (k : Classes) (s : Str) : Prop :=
  ∃ index ws rest, s = 91 :: (index ++ 93 :: (ws ++ 61 :: rest)) ∧ 93 ∉ index ∧ (∀ c ∈ ws, k.space c = true) ∧
    rest.head? ≠ some 61

/-- The text changes the name in place in a form that is recognised: somewhere the name stands where a word begins, and a
method call or a plain store to a subscript follows. -/
def ChangesInPlace (k : Classes) (name s : Str) : Prop :=
  ∃ front ws rest, s = front ++ (name ++ (ws ++ rest)) ∧ (∀ c ∈ front.getLast?, k.word c = false) ∧
    (∀ c ∈ ws, k.space c = true) ∧ (CallFollows k rest ∨ StoreFollows k rest)

theorem callFollows_iff : callFollows k s = true ↔ CallFollows k s := by
  constructor
  · intro h
    match s, h with
    | 46 :: s, h =>
        simp only [callFollows, Bool.decide_and, Bool.and_eq_true, decide_eq_true_eq] at h
        obtain ⟨hne, hcall⟩ := h
        obtain ⟨rest, hrest⟩ := List.head?_eq_some_iff.mp hcall
        obtain ⟨ws', hws', hword⟩ := (dropWhile_eq_cons_iff (k.space_marks (by simp))).mp hrest
        refine ⟨s.takeWhile k.space, (k.skip s).takeWhile k.word, ws', rest, ?_, hne, fun c hc => List.mem_takeWhile_imp hc,
          fun c hc => List.mem_takeWhile_imp hc, hws'⟩
        rw [← hword, List.takeWhile_append_dropWhile, Classes.skip, List.takeWhile_append_dropWhile]
  · rintro ⟨ws, method, ws', rest, rfl, hne, hws, hmethod, hws'⟩
    obtain ⟨c, method, rfl⟩ := List.exists_cons_of_ne_nil hne
    have hc : k.space c = false := k.disjoint c (hmethod c List.mem_cons_self)
    have hskip : k.skip (ws ++ (c :: method ++ (ws' ++ 40 :: rest))) = c :: method ++ (ws' ++ 40 :: rest) :=
      (dropWhile_eq_cons_iff hc).mpr ⟨ws, hws, rfl⟩
    have hstop : (ws' ++ 40 :: rest).takeWhile k.word = [] := by
      cases ws' with
      | nil => simp [(k.marks 40 (by simp)).1]
      | cons w ws' =>
          have hw : k.word w = false := by
            by_contra hword
            have := k.disjoint w (by simpa using hword)
            rw [hws' w List.mem_cons_self] at this
            cases this
          simp [hw]
    have htake : (c :: method ++ (ws' ++ 40 :: rest)).takeWhile k.word = c :: method := by
      rw [List.takeWhile_append_of_pos hmethod, hstop, List.append_nil]
    have hdrop : (c :: method ++ (ws' ++ 40 :: rest)).dropWhile k.word = ws' ++ 40 :: rest := by
      have hall := List.takeWhile_append_dropWhile (p := k.word) (l := c :: method ++ (ws' ++ 40 :: rest))
      rw [htake] at hall
      exact List.append_cancel_left hall
    have hparen : k.skip (ws' ++ 40 :: rest) = 40 :: rest := (dropWhile_eq_cons_iff (k.space_marks (by simp))).mpr ⟨ws', hws', rfl⟩
    simp only [callFollows, hskip, htake, hdrop, hparen, List.head?_cons, decide_eq_true_eq, ne_eq, reduceCtorEq,
      not_false_eq_true, and_self]

theorem storeFollows_iff : storeFollows k s = true ↔ StoreFollows k s := by
  have hbracket : (fun c : Nat => decide (c ≠ 93)) 93 = false := rfl
  constructor
  · intro h
    match s, h with
    | 91 :: s, h =>
        rw [storeFollows] at h
        split at h
        · rename_i c s' hclose
          have hc : c = 93 := by
            have hhead := List.head?_dropWhile_not (fun c : Nat => decide (c ≠ 93)) s
            rw [hclose] at hhead
            simpa using hhead
          subst hc
          obtain ⟨index, hindex, rfl⟩ := (dropWhile_eq_cons_iff hbracket).mp hclose
          split at h
          · rename_i s'' hequals
            obtain ⟨ws, hws, rfl⟩ := (dropWhile_eq_cons_iff (k.space_marks (by simp))).mp hequals
            exact ⟨index, ws, s'', rfl, fun hmem => by simpa using hindex 93 hmem, hws, by simpa using h⟩
          · cases h
        · cases h
  · rintro ⟨index, ws, rest, rfl, hindex, hws, hrest⟩
    have hclose : (index ++ 93 :: (ws ++ 61 :: rest)).dropWhile (fun c : Nat => decide (c ≠ 93)) = 93 :: (ws ++ 61 :: rest) :=
      (dropWhile_eq_cons_iff hbracket).mpr ⟨index, fun c hc => decide_eq_true fun heq => hindex (heq ▸ hc), rfl⟩
    have hequals : k.skip (ws ++ 61 :: rest) = 61 :: rest := (dropWhile_eq_cons_iff (k.space_marks (by simp))).mpr ⟨ws, hws, rfl⟩
    simp only [storeFollows, hclose, hequals, decide_eq_true_eq]
    exact hrest

/-- What follows begins with no space. -/
theorem skip_follows (h : CallFollows k rest ∨ StoreFollows k rest) {ws : Str} (hws : ∀ c ∈ ws, k.space c = true) :
    k.skip (ws ++ rest) = rest := by
  rcases h with ⟨ws₁, method, ws₂, tail, rfl, -⟩ | ⟨index, ws₁, tail, rfl, -⟩
  · exact (dropWhile_eq_cons_iff (k.space_marks (by simp))).mpr ⟨ws, hws, rfl⟩
  · exact (dropWhile_eq_cons_iff (k.space_marks (by simp))).mpr ⟨ws, hws, rfl⟩

theorem changedHere_iff : changedHere k name s = true ↔
    ∃ ws rest, s = name ++ (ws ++ rest) ∧ (∀ c ∈ ws, k.space c = true) ∧ (CallFollows k rest ∨ StoreFollows k rest) := by
  constructor
  · intro h
    rw [changedHere] at h
    split at h
    · rename_i s' hafter
      rw [Bool.or_eq_true, callFollows_iff, storeFollows_iff] at h
      refine ⟨s'.takeWhile k.space, k.skip s', ?_, fun c hc => List.mem_takeWhile_imp hc, h⟩
      rw [Classes.skip, List.takeWhile_append_dropWhile]
      exact after_eq_some_iff.mp hafter
    · cases h
  · rintro ⟨ws, rest, rfl, hws, h⟩
    have hafter : after name (name ++ (ws ++ rest)) = some (ws ++ rest) := after_eq_some_iff.mpr rfl
    simp only [changedHere, hafter, skip_follows h hws]
    rw [Bool.or_eq_true, callFollows_iff, storeFollows_iff]
    exact h

theorem changed_iff {inWord : Bool} : changed k name inWord s = true ↔
    ∃ front tail, s = front ++ tail ∧ (front = [] → inWord = false) ∧ (∀ c ∈ front.getLast?, k.word c = false) ∧
      changedHere k name tail = true := by
  induction s generalizing inWord with
  | nil =>
      rw [changed, Bool.and_eq_true, Bool.not_eq_true']
      constructor
      · rintro ⟨hword, h⟩
        exact ⟨[], [], rfl, fun _ => hword, by simp, h⟩
      · rintro ⟨front, tail, heq, hword, -, h⟩
        obtain ⟨rfl, rfl⟩ := List.append_eq_nil_iff.mp heq.symm
        exact ⟨hword rfl, h⟩
  | cons c s ih =>
      rw [changed, Bool.or_eq_true, Bool.and_eq_true, Bool.not_eq_true', ih]
      constructor
      · rintro (⟨hword, h⟩ | ⟨front, tail, rfl, hword, hlast, h⟩)
        · exact ⟨[], c :: s, rfl, fun _ => hword, by simp, h⟩
        · refine ⟨c :: front, tail, rfl, fun hnil => absurd hnil (by simp), ?_, h⟩
          cases front with
          | nil => simpa using hword rfl
          | cons d front => simpa [List.getLast?_cons_cons] using hlast
      · rintro ⟨front, tail, heq, hword, hlast, h⟩
        cases front with
        | nil => exact .inl ⟨hword rfl, by rw [heq]; exact h⟩
        | cons d front =>
            obtain ⟨rfl, rfl⟩ := List.cons.inj heq
            refine .inr ⟨front, tail, rfl, ?_, ?_, h⟩
            · rintro rfl
              simpa using hlast
            · cases front with
              | nil => simp
              | cons e front => simpa [List.getLast?_cons_cons] using hlast

/-- `pat.search` finds the forms that are recognised. -/
theorem search_iff : changed k name false s = true ↔ ChangesInPlace k name s := by
  rw [changed_iff]
  constructor
  · rintro ⟨front, tail, rfl, -, hlast, h⟩
    obtain ⟨ws, rest, rfl, hws, hfollows⟩ := changedHere_iff.mp h
    exact ⟨front, ws, rest, rfl, hlast, hws, hfollows⟩
  · rintro ⟨front, ws, rest, rfl, hlast, hws, hfollows⟩
    exact ⟨front, _, rfl, fun _ => rfl, hlast, changedHere_iff.mpr ⟨ws, rest, rfl, hws, hfollows⟩⟩

/-! ## An initialisation changes nothing in place -/

/-- A name has none of the marks that the patterns look for. -/
def Identifier (name : Str) : Prop := ∀ c ∈ [40, 46, 61, 91, 93, 35], c ∉ name

theorem Identifier.not_mem (h : Identifier name) {c : Nat} (hc : c ∈ [40, 46, 61, 91, 93, 35]) : c ∉ name := h c hc

theorem space_not_mem {ws : Str} (h : ∀ x ∈ ws, k.space x = true) {c : Nat} (hc : c ∈ [40, 46, 61, 91, 93, 35]) : c ∉ ws := by
  intro hmem
  have hspace := h c hmem
  rw [k.space_marks hc] at hspace
  cases hspace

theorem strip_eq (k : Classes) (s : Str) :
    ∃ ws ws', s = ws ++ (k.strip s ++ ws') ∧ (∀ c ∈ ws, k.space c = true) ∧ ∀ c ∈ ws', k.space c = true := by
  refine ⟨s.takeWhile k.space, ((s.dropWhile k.space).reverse.takeWhile k.space).reverse, ?_,
    fun c hc => List.mem_takeWhile_imp hc, fun c hc => List.mem_takeWhile_imp (List.mem_reverse.mp hc)⟩
  rw [Classes.strip, ← List.reverse_append, List.takeWhile_append_dropWhile, List.reverse_reverse,
    List.takeWhile_append_dropWhile]

theorem emptyInit_eq (h : emptyInit k name s = true) :
    ∃ ws ws' form, s = name ++ (ws ++ 61 :: (ws' ++ form)) ∧ (∀ c ∈ ws, k.space c = true) ∧
      (∀ c ∈ ws', k.space c = true) ∧ form ∈ emptyForms := by
  rw [emptyInit] at h
  split at h
  · rename_i s' hafter
    split at h
    · rename_i s'' hequals
      obtain ⟨ws, hws, rfl⟩ := (dropWhile_eq_cons_iff (k.space_marks (by simp))).mp hequals
      refine ⟨ws, s''.takeWhile k.space, k.skip s'', ?_, hws, fun c hc => List.mem_takeWhile_imp hc, by simpa using h⟩
      rw [Classes.skip, List.takeWhile_append_dropWhile]
      exact after_eq_some_iff.mp hafter
    · cases h
  · cases h

theorem forms_plain : ∀ form ∈ emptyForms, 46 ∉ form ∧ 61 ∉ form ∧ 35 ∉ form := by decide

/-- The text has one `=`, with no bracket before it, and no dot. -/
theorem init_unchanged (hname : Identifier name) (h : emptyInit k name (k.strip s) = true) : ¬ ChangesInPlace k name s := by
  obtain ⟨ws₁, ws₂, hs, hws₁, hws₂⟩ := strip_eq k s
  obtain ⟨ws₃, ws₄, form, hstrip, hws₃, hws₄, hform⟩ := emptyInit_eq h
  obtain ⟨hdot, hequals, -⟩ := forms_plain form hform
  have htext : s = (ws₁ ++ (name ++ ws₃)) ++ 61 :: (ws₄ ++ (form ++ ws₂)) := by
    rw [hs, hstrip]
    simp only [List.append_assoc, List.cons_append]
  rintro ⟨front, ws, rest, heq, -, -, hcall | hstore⟩
  · obtain ⟨ws₅, method, ws₆, tail, rfl, -⟩ := hcall
    have hmem : 46 ∈ s := by rw [heq]; simp
    rw [htext] at hmem
    simp [space_not_mem hws₁, space_not_mem hws₂, space_not_mem hws₃, space_not_mem hws₄, hname.not_mem, hdot] at hmem
  · obtain ⟨index, ws₅, tail, rfl, -⟩ := hstore
    have hfront : 61 ∉ ws₁ ++ (name ++ ws₃) := by
      simp [space_not_mem hws₁, space_not_mem hws₃, hname.not_mem]
    have hback : 61 ∉ ws₄ ++ (form ++ ws₂) := by
      simp [space_not_mem hws₂, space_not_mem hws₄, hequals]
    have hbracket : 91 ∉ ws₁ ++ (name ++ ws₃) := by
      simp [space_not_mem hws₁, space_not_mem hws₃, hname.not_mem]
    have hsplit : front ++ (name ++ (ws ++ 91 :: (index ++ 93 :: ws₅))) ++ 61 :: tail = s := by
      rw [heq]
      simp only [List.append_assoc, List.cons_append]
    rw [htext] at hsplit
    rcases List.append_eq_append_iff.mp hsplit with ⟨a, ha, -⟩ | ⟨a, ha, hrest⟩
    · exact hbracket (by rw [ha]; simp)
    · cases a with
      | nil =>
          rw [List.append_nil] at ha
          exact hbracket (by rw [← ha]; simp)
      | cons c a =>
          have htail := (List.cons.inj hrest).2
          exact hback (by rw [htail]; simp)

theorem mem_intersperse {line sep : Str} {ls : List Str} (h : line ∈ ls) : line ∈ ls.intersperse sep := by
  induction ls with
  | nil => exact h
  | cons l ls ih =>
      cases ls with
      | nil => exact h
      | cons l' ls =>
          rw [List.intersperse_cons_cons, List.mem_cons, List.mem_cons]
          rcases List.mem_cons.mp h with rfl | h
          · exact .inl rfl
          · exact .inr (.inr (ih h))

theorem mem_of_mem_lines {line : Str} {c : Nat} (hline : line ∈ lines s) (hc : c ∈ line) : c ∈ s := by
  have hjoin : [10].intercalate (lines s) = s := List.intercalate_splitOn 10
  rw [← hjoin, List.intercalate, List.mem_flatten]
  exact ⟨line, mem_intersperse hline, hc⟩

/-- An initialisation has no marker. -/
theorem init_unmarked (hname : Identifier name) (h : emptyInit k name (k.strip s) = true) : iterationDigest k s = none := by
  obtain ⟨ws₁, ws₂, hs, hws₁, hws₂⟩ := strip_eq k s
  obtain ⟨ws₃, ws₄, form, hstrip, hws₃, hws₄, hform⟩ := emptyInit_eq h
  obtain ⟨-, -, hhash⟩ := forms_plain form hform
  rw [iterationDigest, List.findSome?_eq_none_iff]
  intro line hline
  rw [Option.map_eq_none_iff, Option.eq_none_iff_forall_ne_some]
  intro rest hafter
  have hmem : 35 ∈ line := by
    have hdropped := List.dropWhile_subset (fun c => c == 32 || c == 9) (l := line)
    rw [after_eq_some_iff.mp hafter] at hdropped
    exact hdropped List.mem_cons_self
  have hmem' := mem_of_mem_lines hline hmem
  rw [hs, hstrip] at hmem'
  simp [space_not_mem hws₁, space_not_mem hws₂, space_not_mem hws₃, space_not_mem hws₄, hname.not_mem, hhash] at hmem'

end Cash.Loops
