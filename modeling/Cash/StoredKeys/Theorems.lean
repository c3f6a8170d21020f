import Cash.StoredKeys.Lemmas.Run

/-!
# The indexed view of a record answers as the whole record
-/

namespace Cash.StoredKeys

open Py

namespace Record

variable {τ : Type} [LinearOrder τ] {started : τ}

/-- Of a view that would be kept, every change that left `_writing` since it was built was saved in the record it was built
on, or noted no key. -/
def Settled (r : Record τ) (now : ℤ) : Prop :=
  ∀ v, r.view = some v → v.disk = (r.diskDoc writeInterval now).2 →
    ∀ p ∈ r.left, (∀ kind, p.1.entries kind = []) ∨ ∃ ref, p.2 = some ref ∧ v.disk = some ref

/-- Changes that noted no key, or are saved, change nothing. -/
theorem Inv.overlay_left {r : Record τ} (h : r.Inv started) {ref : Option ℕ}
    (hleft : ∀ p ∈ r.left, (∀ kind, p.1.entries kind = []) ∨ ∃ n, p.2 = some n ∧ ref = some n) :
    (r.contents ref).entries.overlay (r.left.map (·.1)) = (r.contents ref).entries := by
  apply Entries.overlay_of_saved
  intro c hc
  obtain ⟨p, hp, rfl⟩ := List.mem_map.mp hc
  rcases hleft p hp with hempty | ⟨n, hsaved, rfl⟩
  · rw [Changes.notes, hempty, hempty]
    rfl
  · obtain ⟨doc, hdoc, hsame⟩ := h.left p hp n hsaved
    have hcontents : r.contents (some n) = doc := by
      rw [contents, Option.bind_some, hdoc]
      rfl
    rw [hcontents]
    exact hsame

omit [LinearOrder τ] in
/-- What `read` gives is the record with the changes over it. -/
theorem read_entries (r : Record τ) (now : ℤ) :
    (r.read now).entries =
      ((r.diskDoc writeInterval now).1.contents (r.diskDoc writeInterval now).2).entries.overlay r.overlays :=
  apply_entries _ _

/-- In every run, `miss_facts` answers what `facts_from_doc` answers of `read`, where the view is settled. -/
theorem missFacts_eq {events : List (Event τ)} (hproper : ∀ event ∈ events, event.Proper started) (now : ℤ)
    (hsettled : (run started events).Settled now) (cacheKey : Str) :
    ((run started events).missFacts started now cacheKey).2 =
      factsFromDoc started ((run started events).read now) cacheKey := by
  have h := inv_run hproper
  generalize run started events = r at h hsettled
  have hread := h.diskDoc writeInterval now
  obtain ⟨more, memo, checked, heq, -⟩ := h.diskDoc_grown writeInterval now
  have hoverlays : (r.diskDoc writeInterval now).1.overlays = r.overlays := by rw [heq]; rfl
  have hview : (r.diskDoc writeInterval now).1.view = r.view := by rw [heq]; rfl
  have hleft : (r.diskDoc writeInterval now).1.left = r.left := by rw [heq]; rfl
  have hgood : (((r.diskDoc writeInterval now).1.contents (r.diskDoc writeInterval now).2).entries.overlay r.overlays).Good :=
    (hread.contents_good _).overlay _
  have hbuilt := hread.build (r.diskDoc writeInterval now).2
  rw [hoverlays] at hbuilt
  unfold Record.missFacts
  dsimp only
  rw [hoverlays, hview]
  cases hv : r.view with
  | none => exact hbuilt.facts hgood _ (read_entries r now) cacheKey
  | some v =>
      dsimp only
      split
      · rename_i hdisk
        obtain ⟨-, hrep⟩ := hread.view v (hview.trans hv)
        have hkept : ((r.diskDoc writeInterval now).1.contents v.disk).entries.overlay (r.left.map (·.1)) =
            ((r.diskDoc writeInterval now).1.contents v.disk).entries := by
          rw [← hleft]
          apply hread.overlay_left
          rw [hleft]
          exact hsettled v hv hdisk
        have hstands : v.Rep started
            (((r.diskDoc writeInterval now).1.contents (r.diskDoc writeInterval now).2).entries.overlay r.overlays) := by
          convert hrep using 1
          rw [below, hleft, Entries.overlay_append, hkept, ← Entries.overlay_append, hdisk, ← hoverlays, overlays_eq]
        exact hstands.facts hgood _ (read_entries r now) cacheKey
      · exact hbuilt.facts hgood _ (read_entries r now) cacheKey

/-! ## A write that fails -/

/-- A key is noted, and a miss of it asks. -/
def notedAndAsked : List (Event ℤ) := [.note .keys (str "k") 5 [] fun _ => none, .missFacts 0 (str "k")]

/-- Its write fails. -/
def failed : List (Event ℤ) := notedAndAsked ++ [.beginWrite, .failWrite 0, .endWrite 0]

/-- Its write ends, and the file is removed. -/
def removed : List (Event ℤ) :=
  notedAndAsked ++ [.beginWrite, .load 0 0, .replace 0 1, .rememberWritten 0 0, .endWrite 0, .rewrite none]

/-- The view that was built keeps a key that `read` does not have any more: where the write failed, and where the file it
wrote is removed. -/
theorem stale_view :
    (((run 1 failed).missFacts 1 0 (str "k")).2.stored = some ⟨some 5, []⟩ ∧
      (factsFromDoc 1 ((run 1 failed).read 0) (str "k")).stored = none) ∧
    ((run 1 removed).missFacts 1 writeInterval (str "k")).2.stored = some ⟨some 5, []⟩ ∧
      (factsFromDoc 1 ((run 1 removed).read writeInterval) (str "k")).stored = none := by
  refine ⟨⟨by decide, by decide⟩, by decide, by decide⟩

/-- A key is noted and written; a miss asks while the write ends, and another key is noted. -/
def saved : List (Event ℤ) :=
  notedAndAsked ++ [.beginWrite, .load 0 0, .replace 0 1, .rememberWritten 0 0, .missFacts 0 (str "k"), .endWrite 0,
    .note .ramOnly (str "m") 6 [] fun _ => none]

theorem saved_proper : ∀ event ∈ saved, event.Proper (1 : ℤ) := by
  simp [saved, notedAndAsked, Event.Proper]

/-- The view is kept, and answers as the record. -/
theorem missFacts_eq_saved :
    ((run 1 saved).missFacts 1 0 (str "m")).2 = factsFromDoc 1 ((run 1 saved).read 0) (str "m") := by
  apply missFacts_eq saved_proper
  intro v hv _ p hp
  have hdisk : (run 1 saved).view.map (·.disk) = some (some 0) := by decide
  have hleft : (run 1 saved).left.map (·.2) = [some 0] := by decide
  rw [hv] at hdisk
  have hsaved := List.mem_map_of_mem (f := (·.2)) hp
  rw [hleft] at hsaved
  exact .inr ⟨0, List.mem_singleton.mp hsaved, Option.some.inj hdisk⟩

end Record

end Cash.StoredKeys
