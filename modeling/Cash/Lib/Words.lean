import Mathlib.Data.List.Basic
import Mathlib.Tactic.Common

/-!
# Words of a line

`str.split()`: the runs of characters between separators. Words joined by separators are split again as they were
(`split_join`). A text is read line by line (`lines`), with the three ways to end a line made one (`newlines`); what is written
after an ended line is read as lines of its own (`lines_newlines_append`).
-/

namespace Words

variable {α : Type} {isSep : α → Bool}

/-- The words, the first of which began with `word`. -/
def splitFrom (isSep : α → Bool) : List α → List α → List (List α)
  | word, [] => if word.isEmpty then [] else [word]
  | word, c :: s =>
    if isSep c then (if word.isEmpty then splitFrom isSep [] s else word :: splitFrom isSep [] s)
    else splitFrom isSep (word ++ [c]) s

def split (isSep : α → Bool) (s : List α) : List (List α) := splitFrom isSep [] s

/-- A word, as splitting gives it. -/
structure Token (isSep : α → Bool) (word : List α) : Prop where
  ne_nil : word ≠ []
  notSep : ∀ c ∈ word, isSep c = false

/-- Words with a separator between, and one at the end. -/
def join (sep last : α) : List (List α) → List α
  | [] => [last]
  | [word] => word ++ [last]
  | word :: word' :: words => word ++ sep :: join sep last (word' :: words)

theorem splitFrom_append {t : List α} (ht : ∀ c ∈ t, isSep c = false) (word s : List α) :
    splitFrom isSep word (t ++ s) = splitFrom isSep (word ++ t) s := by
  induction t generalizing word with
  | nil => rw [List.nil_append, List.append_nil]
  | cons c t ih =>
      rw [List.cons_append, splitFrom, ht c List.mem_cons_self, if_neg Bool.false_ne_true,
        ih fun d hd => ht d (List.mem_cons_of_mem _ hd), List.append_assoc, List.singleton_append]

theorem split_append {t : List α} (ht : Token isSep t) {sep : α} (hsep : isSep sep = true) (s : List α) :
    split isSep (t ++ sep :: s) = t :: split isSep s := by
  rw [split, splitFrom_append ht.notSep, List.nil_append, splitFrom, if_pos hsep, if_neg, split]
  rw [List.isEmpty_iff]
  exact ht.ne_nil

theorem split_join {sep last : α} (hsep : isSep sep = true) (hlast : isSep last = true) {words : List (List α)}
    (h : ∀ word ∈ words, Token isSep word) : split isSep (join sep last words) = words := by
  induction words with
  | nil =>
      rw [join, split, splitFrom, if_pos hlast]
      rfl
  | cons word words ih =>
      have hword := h word List.mem_cons_self
      have hrest := ih fun w hw => h w (List.mem_cons_of_mem _ hw)
      cases words with
      | nil =>
          rw [join, split_append hword hlast]
          rfl
      | cons word' words => rw [join, split_append hword hsep, hrest]

theorem token_of_mem_splitFrom {word s t : List α} (hword : ∀ c ∈ word, isSep c = false)
    (ht : t ∈ splitFrom isSep word s) : Token isSep t ∧ ∀ c ∈ t, c ∈ word ∨ c ∈ s := by
  induction s generalizing word with
  | nil =>
      rw [splitFrom] at ht
      split at ht
      · cases ht
      · next hne =>
        obtain rfl := List.mem_singleton.mp ht
        rw [List.isEmpty_iff] at hne
        exact ⟨⟨hne, hword⟩, fun c hc => .inl hc⟩
  | cons c s ih =>
      have hnil : t ∈ splitFrom isSep [] s → Token isSep t ∧ ∀ d ∈ t, d ∈ word ∨ d ∈ c :: s := by
        intro hmem
        obtain ⟨htoken, hin⟩ := ih (fun d hd => absurd hd List.not_mem_nil) hmem
        exact ⟨htoken, fun d hd => .inr (List.mem_cons_of_mem _ ((hin d hd).resolve_left List.not_mem_nil))⟩
      rw [splitFrom] at ht
      split at ht
      · split at ht
        · exact hnil ht
        · next hne =>
          rcases List.mem_cons.mp ht with rfl | ht
          · rw [List.isEmpty_iff] at hne
            exact ⟨⟨hne, hword⟩, fun d hd => .inl hd⟩
          · exact hnil ht
      · next hsep =>
        have hmore : ∀ d ∈ word ++ [c], isSep d = false := by
          intro d hd
          rcases List.mem_append.mp hd with hd | hd
          · exact hword d hd
          · rw [List.mem_singleton.mp hd]
            exact Bool.eq_false_iff.mpr hsep
        obtain ⟨htoken, hin⟩ := ih hmore ht
        refine ⟨htoken, fun d hd => ?_⟩
        rcases hin d hd with hd | hd
        · rcases List.mem_append.mp hd with hd | hd
          · exact .inl hd
          · exact .inr (List.mem_singleton.mp hd ▸ List.mem_cons_self)
        · exact .inr (List.mem_cons_of_mem _ hd)

theorem token_of_mem_split {s t : List α} (ht : t ∈ split isSep s) : Token isSep t ∧ ∀ c ∈ t, c ∈ s := by
  obtain ⟨htoken, hin⟩ := token_of_mem_splitFrom (fun c hc => absurd hc List.not_mem_nil) ht
  exact ⟨htoken, fun c hc => (hin c hc).resolve_left List.not_mem_nil⟩

theorem join_eq (sep last : α) (words : List (List α)) :
    ∃ s, join sep last words = s ++ [last] ∧ ∀ c ∈ s, c = sep ∨ ∃ word ∈ words, c ∈ word := by
  induction words with
  | nil => exact ⟨[], rfl, fun c hc => absurd hc List.not_mem_nil⟩
  | cons word words ih =>
      cases words with
      | nil => exact ⟨word, rfl, fun c hc => .inr ⟨word, List.mem_cons_self, hc⟩⟩
      | cons word' words =>
          obtain ⟨s, hs, hin⟩ := ih
          refine ⟨word ++ sep :: s, by rw [join, hs, List.append_assoc, List.cons_append], fun c hc => ?_⟩
          rcases List.mem_append.mp hc with hc | hc
          · exact .inr ⟨word, List.mem_cons_self, hc⟩
          · rcases List.mem_cons.mp hc with rfl | hc
            · exact .inl rfl
            · exact (hin c hc).imp_right fun ⟨w, hw, hcw⟩ => ⟨w, List.mem_cons_of_mem _ hw, hcw⟩

/-! ## Lines -/

section Lines

variable [DecidableEq α] {cr lf : α} {s t : List α}

/-- `cr`, and `cr` with `lf`, made `lf`; `after` a `cr`. -/
def newlines (cr lf : α) : Bool → List α → List α
  | _, [] => []
  | after, c :: s =>
    if c = cr then lf :: newlines cr lf true s
    else if after && decide (c = lf) then newlines cr lf false s
    else c :: newlines cr lf false s

/-- The lines of a text, each with the `lf` that ends it. -/
def lines (lf : α) : List α → List (List α)
  | [] => []
  | c :: s =>
    if c = lf then [c] :: lines lf s
    else
      match lines lf s with
      | [] => [[c]]
      | line :: rest => (c :: line) :: rest

/-- A text whose last line is ended. -/
def Ended (cr lf : α) (s : List α) : Prop := ∀ c ∈ s.getLast?, c = cr ∨ c = lf

instance (cr lf : α) (s : List α) : Decidable (Ended cr lf s) := by
  unfold Ended
  cases s.getLast? with
  | none => exact .isTrue fun c hc => by cases hc
  | some d => exact decidable_of_iff (d = cr ∨ d = lf) ⟨fun h c hc => Option.some_inj.mp hc ▸ h, fun h => h d rfl⟩

theorem lines_ne_nil {c : α} : lines lf (c :: s) ≠ [] := by
  rw [lines]
  split
  · exact List.cons_ne_nil _ _
  · split <;> exact List.cons_ne_nil _ _

theorem lines_append (h : ∀ c ∈ s.getLast?, c = lf) : lines lf (s ++ t) = lines lf s ++ lines lf t := by
  induction s with
  | nil => rfl
  | cons c s ih =>
      rw [List.cons_append, lines, lines]
      by_cases hc : c = lf
      · have hrest : ∀ d ∈ s.getLast?, d = lf := fun d hd => h d (by rw [List.getLast?_cons, hd]; rfl)
        rw [if_pos hc, if_pos hc, ih hrest, List.cons_append]
      · rw [if_neg hc, if_neg hc]
        cases s with
        | nil => exact absurd (h c rfl) hc
        | cons d s =>
            rw [ih fun e he => h e (by rw [List.getLast?_cons_cons]; exact he)]
            have hne : lines lf (d :: s) ≠ [] := lines_ne_nil
            obtain ⟨line, rest, hlines⟩ := List.exists_cons_of_ne_nil hne
            rw [hlines]
            rfl

theorem lines_line (h : lf ∉ s) : lines lf (s ++ lf :: t) = (s ++ [lf]) :: lines lf t := by
  induction s with
  | nil => rw [List.nil_append, lines, if_pos rfl, List.nil_append]
  | cons c s ih =>
      rw [List.mem_cons, not_or] at h
      rw [List.cons_append, lines, if_neg (Ne.symm h.1), ih h.2]
      rfl

theorem newlines_of_notMem (h : cr ∉ s) (after : Bool) (hhead : ∀ c ∈ s.head?, c ≠ lf) : newlines cr lf after s = s := by
  have hrest : ∀ s : List α, cr ∉ s → newlines cr lf false s = s := by
    intro s
    induction s with
    | nil => exact fun _ => rfl
    | cons c s ih =>
        intro h
        rw [List.mem_cons, not_or] at h
        rw [newlines, if_neg (Ne.symm h.1), Bool.false_and, if_neg Bool.false_ne_true, ih h.2]
  cases s with
  | nil => rfl
  | cons c s =>
      rw [List.mem_cons, not_or] at h
      rw [newlines, if_neg (Ne.symm h.1), decide_eq_false (hhead c rfl), Bool.and_false, if_neg Bool.false_ne_true, hrest s h.2]

/-- What is read of the end of a text does not depend on what is before, unless it begins with `lf`. -/
theorem newlines_append (h : cr ∉ t) (hhead : ∀ c ∈ t.head?, c ≠ lf) (after : Bool) :
    newlines cr lf after (s ++ t) = newlines cr lf after s ++ t := by
  induction s generalizing after with
  | nil => exact newlines_of_notMem h after hhead
  | cons c s ih =>
      rw [List.cons_append, newlines, newlines]
      split
      · rw [ih, List.cons_append]
      · split
        · exact ih _
        · rw [ih, List.cons_append]

theorem eq_nil_of_newlines (h : newlines cr lf false s = []) : s = [] := by
  cases s with
  | nil => rfl
  | cons c s =>
      rw [newlines, Bool.false_and, if_neg Bool.false_ne_true] at h
      split at h
      · cases h
      · cases h

theorem getLast?_newlines (after : Bool) (h : Ended cr lf s) : ∀ c ∈ (newlines cr lf after s).getLast?, c = lf := by
  induction s generalizing after with
  | nil => exact fun c hc => by cases hc
  | cons c s ih =>
      have hrest : Ended cr lf s := fun d hd => h d (by rw [List.getLast?_cons, Option.mem_def.mp hd]; rfl)
      rw [newlines]
      split
      · intro d hd
        rw [List.getLast?_cons] at hd
        cases hlast : (newlines cr lf true s).getLast? with
        | none =>
            rw [hlast] at hd
            exact (Option.some_inj.mp hd).symm
        | some e =>
            rw [hlast] at hd
            exact Option.some_inj.mp hd ▸ ih true hrest e hlast
      · split
        · exact ih false hrest
        · next hcr _ =>
          intro d hd
          rw [List.getLast?_cons] at hd
          cases hlast : (newlines cr lf false s).getLast? with
          | none =>
              rw [hlast] at hd
              have hs : s = [] := eq_nil_of_newlines (List.getLast?_eq_none_iff.mp hlast)
              rw [hs] at h
              exact (Option.some_inj.mp hd).symm.trans ((h c rfl).resolve_left hcr)
          | some e =>
              rw [hlast] at hd
              exact Option.some_inj.mp hd ▸ ih false hrest e hlast

/-- What is written after an ended line is read as lines of its own. -/
theorem lines_newlines_append (h : Ended cr lf s) (ht : cr ∉ t) (hhead : ∀ c ∈ t.head?, c ≠ lf) (after : Bool) :
    lines lf (newlines cr lf after (s ++ t)) = lines lf (newlines cr lf after s) ++ lines lf t := by
  rw [newlines_append ht hhead, lines_append (getLast?_newlines after h)]

end Lines

end Words
