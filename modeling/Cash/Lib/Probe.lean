import Mathlib.Algebra.Group.Nat.Defs
import Mathlib.Data.Finset.Card
import Mathlib.Data.Nat.Bits
import Mathlib.Data.Nat.Find
import Mathlib.Tactic.Common

/-!
# Linear probing

A table of a power of two of slots, each empty or with an item, that is searched from an item's home slot on, round the end,
until the first empty slot. Where every item can be reached from its home without an empty slot between (`Holds`), a search
misses no item, and an item put into the first empty slot after its home keeps it so.
-/

namespace Probe

variable {ι : Type}

structure Table (ι : Type) where
  cap : Nat
  slot : Nat → Option ι

/-- `while (table[j]) { if (stop) break; j = (j + 1) & (cap - 1); }`, for so many slots: where it ends, and whether by `stop`. -/
def seek (t : Table ι) (stop : ι → Bool) : Nat → Nat → Option (Nat × Bool)
  | 0, _ => none
  | fuel + 1, j =>
      match t.slot j with
      | none => some (j, false)
      | some i => if stop i then some (j, true) else seek t stop fuel ((j + 1) &&& (t.cap - 1))

/-- A slot is filled. -/
def Table.set (t : Table ι) (j : Nat) (i : ι) : Table ι := { t with slot := fun j' => if j' = j then some i else t.slot j' }

/-- The slots of the table, and what they hold: the items, once each, where a search for them comes to. -/
structure Holds (t : Table ι) (home : ι → Nat) (items : ι → Prop) : Prop where
  power : ∃ k, t.cap = 2 ^ k
  placed : ∀ i, items i → ∃ n, t.slot ((home i + n) % t.cap) = some i ∧ ∀ m < n, (t.slot ((home i + m) % t.cap)).isSome
  only : ∀ j i, t.slot j = some i → items i
  once : ∀ j j' i, t.slot j = some i → t.slot j' = some i → j = j'

variable {t : Table ι} {home : ι → Nat} {items : ι → Prop} {stop : ι → Bool} {j n fuel : Nat} {i : ι}

theorem Holds.pos (h : Holds t home items) : 0 < t.cap := by
  obtain ⟨k, hk⟩ := h.power
  rw [hk]
  exact Nat.two_pow_pos k

theorem Holds.and_eq (h : Holds t home items) (n : Nat) : n &&& (t.cap - 1) = n % t.cap := by
  obtain ⟨k, hk⟩ := h.power
  rw [hk]
  exact Nat.and_two_pow_sub_one_eq_mod n k

/-- A search ends at the first slot that is empty, or has what stops it. -/
theorem seek_eq (hand : ∀ n, n &&& (t.cap - 1) = n % t.cap) (hlt : n < fuel) (hj : j < t.cap)
    (hpast : ∀ m < n, ∃ i, t.slot ((j + m) % t.cap) = some i ∧ stop i = false)
    (hend : ∀ i, t.slot ((j + n) % t.cap) = some i → stop i = true) :
    seek t stop fuel j = some ((j + n) % t.cap, (t.slot ((j + n) % t.cap)).isSome) := by
  induction n generalizing j fuel with
  | zero =>
      cases fuel with
      | zero => cases hlt
      | succ fuel =>
          have hfirst : (j + 0) % t.cap = j := by rw [Nat.add_zero, Nat.mod_eq_of_lt hj]
          rw [hfirst] at hend ⊢
          rw [seek]
          cases hat : t.slot j with
          | none => rfl
          | some i => simp [hend i hat]
  | succ n ih =>
      cases fuel with
      | zero => cases hlt
      | succ fuel =>
          obtain ⟨i, hat, hstop⟩ := hpast 0 (Nat.succ_pos n)
          rw [Nat.add_zero, Nat.mod_eq_of_lt hj] at hat
          have hshift (m : Nat) : ((j + 1) % t.cap + m) % t.cap = (j + (m + 1)) % t.cap := by
            rw [Nat.mod_add_mod, Nat.add_assoc, Nat.add_comm 1 m]
          have hpast' (m : Nat) (hm : m < n) : ∃ i, t.slot (((j + 1) % t.cap + m) % t.cap) = some i ∧ stop i = false := by
            rw [hshift]
            exact hpast (m + 1) (Nat.succ_lt_succ hm)
          have hend' (i : ι) (h : t.slot (((j + 1) % t.cap + n) % t.cap) = some i) : stop i = true := by
            rw [hshift] at h
            exact hend i h
          rw [seek, hat]
          dsimp only
          rw [if_neg (by simp [hstop]), hand, ← hshift n]
          exact ih (Nat.lt_of_succ_lt_succ hlt) (Nat.mod_lt _ (Nat.zero_lt_of_lt hj)) hpast' hend'

/-- A search that would end, ends within one round. -/
theorem exists_end (hpos : 0 < t.cap) {r : Nat} (hend : ∀ i, t.slot ((j + r) % t.cap) = some i → stop i = true) :
    ∃ n ≤ r, n < t.cap ∧ (∀ m < n, ∃ i, t.slot ((j + m) % t.cap) = some i ∧ stop i = false) ∧
      ∀ i, t.slot ((j + n) % t.cap) = some i → stop i = true := by
  classical
  have hends : ∃ n, ∀ i, t.slot ((j + n) % t.cap) = some i → stop i = true := ⟨r, hend⟩
  refine ⟨Nat.find hends, Nat.find_min' hends hend, ?_, fun m hm => ?_, Nat.find_spec hends⟩
  · have hround : ∀ i, t.slot ((j + r % t.cap) % t.cap) = some i → stop i = true := by
      rw [Nat.add_mod_mod]
      exact hend
    exact Nat.lt_of_le_of_lt (Nat.find_min' hends hround) (Nat.mod_lt _ hpos)
  · have hnot := Nat.find_min hends hm
    rw [Classical.not_forall] at hnot
    obtain ⟨i, hi⟩ := hnot
    rw [Classical.not_imp, Bool.not_eq_true] at hi
    exact ⟨i, hi⟩

/-- With fewer items than slots, some slot is empty. -/
theorem Holds.exists_empty (h : Holds t home items) {s : Finset ι} (hitems : ∀ i, items i → i ∈ s) (hcard : s.card < t.cap) :
    ∃ e < t.cap, t.slot e = none := by
  by_contra hnone
  have hfull (j : Nat) (hj : j < t.cap) : ∃ i, t.slot j = some i := by
    cases hat : t.slot j with
    | none => exact absurd ⟨j, hj, hat⟩ hnone
    | some i => exact ⟨i, rfl⟩
  choose f hf using hfull
  obtain ⟨x, -, y, -, hne, heq⟩ := Finset.exists_ne_map_eq_of_card_lt_of_maps_to
    (s := (Finset.range t.cap).attach) (t := s) (f := fun j => f j.1 (Finset.mem_range.1 j.2)) (by simpa using hcard)
    (fun j _ => hitems _ (h.only _ _ (hf _ _)))
  have hx := hf x.1 (Finset.mem_range.1 x.2)
  have hy := hf y.1 (Finset.mem_range.1 y.2)
  exact hne (Subtype.ext (h.once _ _ _ hx (heq ▸ hy)))

/-- A search from the home of an item that stops it is stopped. -/
theorem Holds.found (h : Holds t home items) (hitem : items i) (hstop : stop i = true) :
    ∃ j, seek t stop t.cap (home i &&& (t.cap - 1)) = some (j, true) := by
  obtain ⟨r, hat, hpath⟩ := h.placed i hitem
  have hshift (m : Nat) : (home i % t.cap + m) % t.cap = (home i + m) % t.cap := Nat.mod_add_mod ..
  have hend (i' : ι) (hi' : t.slot ((home i % t.cap + r) % t.cap) = some i') : stop i' = true := by
    rw [hshift, hat] at hi'
    cases hi'
    exact hstop
  obtain ⟨n, hle, hlt, hpast, hend'⟩ := exists_end h.pos hend
  have hsome : (t.slot ((home i % t.cap + n) % t.cap)).isSome := by
    rw [hshift]
    rcases Nat.lt_or_eq_of_le hle with hless | rfl
    · exact hpath n hless
    · rw [hat]
      rfl
  rw [h.and_eq, seek_eq h.and_eq hlt (Nat.mod_lt _ h.pos) hpast hend', hsome]
  exact ⟨_, rfl⟩

/-- Where some slot is empty a search ends, at an item that stops it or an empty slot. -/
theorem Holds.ends (h : Holds t home items) (hempty : ∃ e < t.cap, t.slot e = none) (stop : ι → Bool)
    (start : Nat) :
    (∃ j i, seek t stop t.cap (start &&& (t.cap - 1)) = some (j, true) ∧ t.slot j = some i ∧ stop i = true) ∨
    ∃ n, seek t stop t.cap (start &&& (t.cap - 1)) = some ((start + n) % t.cap, false) ∧ t.slot ((start + n) % t.cap) = none ∧
      ∀ m < n, (t.slot ((start + m) % t.cap)).isSome := by
  obtain ⟨e, he, hnone⟩ := hempty
  have hj := Nat.mod_lt start h.pos
  have hend (i : ι) (hi : t.slot ((start % t.cap + (e + t.cap - start % t.cap)) % t.cap) = some i) : stop i = true := by
    rw [Nat.add_sub_cancel' (Nat.le_trans (Nat.le_of_lt hj) (Nat.le_add_left _ _)), Nat.add_mod_right, Nat.mod_eq_of_lt he,
      hnone] at hi
    cases hi
  obtain ⟨n, -, hlt, hpast, hend'⟩ := exists_end h.pos hend
  have hseek := seek_eq h.and_eq hlt hj hpast hend'
  have hshift (m : Nat) : (start % t.cap + m) % t.cap = (start + m) % t.cap := Nat.mod_add_mod ..
  rw [h.and_eq, hseek, hshift]
  cases hat : t.slot ((start + n) % t.cap) with
  | some i => exact .inl ⟨_, i, rfl, hat, hend' i ((hshift n).symm ▸ hat)⟩
  | none =>
      refine .inr ⟨n, rfl, hat, fun m hm => ?_⟩
      obtain ⟨i, hi, -⟩ := hpast m hm
      rw [← hshift, hi]
      rfl

/-- A new item is put into the first empty slot after its home. -/
theorem Holds.set (h : Holds t home items) (hnew : ¬ items i) (hat : t.slot ((home i + n) % t.cap) = none)
    (hpath : ∀ m < n, (t.slot ((home i + m) % t.cap)).isSome) :
    Holds (t.set ((home i + n) % t.cap) i) home fun i' => items i' ∨ i' = i where
  power := h.power
  placed i' hi' := by
    rcases hi' with hi' | rfl
    · obtain ⟨n', hat', hpath'⟩ := h.placed i' hi'
      have hne (m : Nat) (hm : (t.slot m).isSome) : m ≠ (home i + n) % t.cap := by
        rintro rfl
        rw [hat] at hm
        cases hm
      refine ⟨n', ?_, fun m hm => ?_⟩
      · exact (if_neg (hne _ (hat' ▸ rfl))).trans hat'
      · have hsome := hpath' m hm
        exact (congrArg Option.isSome (if_neg (hne _ hsome))).trans hsome
    · refine ⟨n, if_pos rfl, fun m hm => ?_⟩
      change Option.isSome (if _ then _ else _) = true
      split
      · rfl
      · exact hpath m hm
  only j i' hi' := by
    change (if _ then _ else _) = some i' at hi'
    split at hi'
    · cases hi'
      exact .inr rfl
    · exact .inl (h.only j i' hi')
  once j j' i' hi hi' := by
    change (if _ then _ else _) = some i' at hi hi'
    split at hi <;> split at hi'
    · simp_all
    · cases hi
      exact absurd (h.only _ _ hi') hnew
    · cases hi'
      exact absurd (h.only _ _ hi) hnew
    · exact h.once _ _ _ hi hi'

/-- Only the homes of the items count. -/
theorem Holds.congr {home' : ι → Nat} {items' : ι → Prop} (h : Holds t home items) (hitems : ∀ i, items' i ↔ items i)
    (hhome : ∀ i, items i → home' i = home i) : Holds t home' items' where
  power := h.power
  placed i hi := by
    rw [hhome i ((hitems i).1 hi)]
    exact h.placed i ((hitems i).1 hi)
  only j i hi := (hitems i).2 (h.only j i hi)
  once := h.once

/-- The empty table. -/
def Table.empty (cap : Nat) : Table ι := ⟨cap, fun _ => none⟩

theorem holds_empty {cap : Nat} (hpower : ∃ k, cap = 2 ^ k) : Holds (.empty cap) home fun _ : ι => False where
  power := hpower
  placed _ h := h.elim
  only _ _ h := by cases h
  once _ _ _ h := by cases h

end Probe
