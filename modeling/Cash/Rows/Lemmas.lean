import Cash.Lib.Ranges
import Cash.Rows.Blocks
import Mathlib.Algebra.Order.Floor.Semifield
import Mathlib.Data.List.Forall2
import Mathlib.Data.Nat.Cast.Order.Field

/-!
# What a fingerprint holds
-/

namespace Cash.Rows

/-! ## Rounded quotients -/

/-- The rows after the last whole block add half a last place or less to the quotient, so they are in no block. -/
def Lost (rows block : Nat) : Prop :=
  0 < rows % block ∧ block ≤ rows ∧ rows % block * 2 ^ (53 - Nat.log 2 (rows / block)) ≤ block

instance (rows block : Nat) : Decidable (Lost rows block) :=
  inferInstanceAs (Decidable (_ ∧ _ ∧ _))

section Quotients

variable {a b m : Nat}

theorem log_quotient_lt (hb : 0 < b) (h : a < 2 ^ 52 * b) : Int.log 2 ((a : ℚ) / b) < 53 := by
  rcases Nat.eq_zero_or_pos a with rfl | ha
  · rw [Nat.cast_zero, zero_div, Int.log_zero_right]
    norm_num
  have hpos : (0 : ℚ) < (a : ℚ) / b := by positivity
  rw [← Int.lt_zpow_iff_log_lt Nat.one_lt_two hpos, div_lt_iff₀ (by positivity)]
  have hlt : a < 2 ^ 53 * b := h.trans_le (Nat.mul_le_mul_right b (by norm_num))
  exact_mod_cast hlt

theorem ceilQuotient_le (hb : 0 < b) (h : a < 2 ^ 52 * b) (hle : a ≤ m * b) : ceilQuotient a b ≤ m := by
  rw [ceilQuotient, Nat.ceil_le]
  have hquotient : (a : ℚ) / b ≤ (m : ℤ) := by
    rw [div_le_iff₀ (by positivity)]
    exact_mod_cast hle
  exact_mod_cast Significand.toBits_le (log_quotient_lt hb h) hquotient

theorem le_ceilQuotient (hb : 0 < b) (h : a < 2 ^ 52 * b) (hle : m * b ≤ a) : m ≤ ceilQuotient a b := by
  have hquotient : ((m : ℤ) : ℚ) ≤ (a : ℚ) / b := by
    rw [le_div_iff₀ (by positivity)]
    exact_mod_cast hle
  have hbits := Significand.le_toBits (log_quotient_lt hb h) hquotient
  have hceil := Nat.le_ceil (Significand.toBits 53 ((a : ℚ) / b))
  exact_mod_cast hbits.trans hceil

theorem lt_of_lt_ceilQuotient (hb : 0 < b) (h : a < 2 ^ 52 * b) (hm : m < ceilQuotient a b) : m * b < a := by
  by_contra hge
  exact absurd (ceilQuotient_le hb h (not_lt.mp hge)) hm.not_ge

theorem ceilQuotient_pos (ha : 0 < a) (hb : 0 < b) : 0 < ceilQuotient a b :=
  Nat.ceil_pos.mpr (Significand.toBits_pos (by norm_num) (by positivity))

theorem le_ceilQuotient_mul (ha : 0 < a) (hb : 0 < b) : a ≤ ceilQuotient a b * (2 * b) := by
  have hpos : (0 : ℚ) < (a : ℚ) / b := by positivity
  have hceil : Significand.toBits 53 ((a : ℚ) / b) ≤ ceilQuotient a b := Nat.le_ceil _
  have hhalf := (Significand.half_le_toBits (by norm_num) hpos).trans hceil
  rw [div_div, div_le_iff₀ (by positivity)] at hhalf
  rw [mul_comm 2 b]
  exact_mod_cast hhalf

theorem ceilQuotient_le_div_iff (hb : 0 < b) (h : a < 2 ^ 52 * b) (hle : b ≤ a) :
    ceilQuotient a b ≤ a / b ↔ a % b * 2 ^ (53 - Nat.log 2 (a / b)) ≤ b := by
  have hquotient : a / b < 2 ^ 52 := Nat.div_lt_of_lt_mul (by rwa [mul_comm])
  have hlog : Nat.log 2 (a / b) < 52 := Nat.log_lt_of_lt_pow (Nat.div_pos hle hb).ne' hquotient
  obtain ⟨s, hs⟩ := Nat.exists_eq_add_of_lt hlog
  have hone : (1 : ℚ) ≤ (a : ℚ) / b := by
    rw [one_le_div (by positivity)]
    exact_mod_cast hle
  have hbits : Int.log 2 ((a : ℚ) / b) + 1 + (s + 1 : ℕ) = (53 : ℕ) := by
    rw [Int.log_of_one_le_right 2 hone, Nat.floor_div_eq_div]
    omega
  have hfloor : (((a / b : ℕ) : ℤ) : ℚ) ≤ (a : ℚ) / b := by
    rw [Int.cast_natCast]
    exact Nat.cast_div_le
  have hrest : (a : ℚ) / b - (a / b : ℕ) = (a % b : ℕ) / b := by
    rw [eq_div_iff (by positivity), sub_mul, div_mul_cancel₀ _ (by positivity), sub_eq_iff_eq_add]
    exact_mod_cast (Nat.mod_add_div' a b).symm
  have hround := Significand.toBits_le_iff hbits hfloor
  rw [Int.cast_natCast, hrest, div_mul_eq_mul_div, div_le_one (by positivity)] at hround
  rw [ceilQuotient, Nat.ceil_le, hround]
  have hexp : 53 - Nat.log 2 (a / b) = s + 2 := by omega
  rw [hexp]
  exact_mod_cast Iff.rfl

theorem ceilQuotient_of_lost (hb : 0 < b) (h : a < 2 ^ 52 * b) (hlost : Lost a b) : ceilQuotient a b = a / b := by
  apply le_antisymm ((ceilQuotient_le_div_iff hb h hlost.2.1).mpr hlost.2.2)
  exact le_ceilQuotient hb h (Nat.div_mul_le_self a b)

theorem le_ceilQuotient_of_not_lost (hb : 0 < b) (h : a < 2 ^ 52 * b) (hlost : ¬Lost a b) : a ≤ ceilQuotient a b * b := by
  rcases Nat.eq_zero_or_pos (a % b) with hmod | hmod
  · have hmul := Nat.div_mul_cancel (Nat.dvd_of_mod_eq_zero hmod)
    exact hmul.symm.le.trans (Nat.mul_le_mul_right b (le_ceilQuotient hb h hmul.le))
  have hlt : a / b < ceilQuotient a b := by
    by_cases hle : b ≤ a
    · rw [← not_le, ceilQuotient_le_div_iff hb h hle]
      exact fun hround => hlost ⟨hmod, hle, hround⟩
    · rw [Nat.div_eq_of_lt (not_le.mp hle)]
      refine ceilQuotient_pos ?_ hb
      exact hmod.trans_le (Nat.mod_le a b)
  exact (Nat.lt_div_mul_add hb).le.trans (by rw [← Nat.succ_mul]; exact Nat.mul_le_mul_right b hlt)

/-- It takes more rows than a float can count. -/
theorem not_lost_of_le (h : a ≤ 2 ^ 53) : ¬Lost a b := by
  rintro ⟨hmod, hle, hround⟩
  have hb : 0 < b := (Nat.mul_pos hmod (Nat.two_pow_pos _)).trans_le hround
  have hquotient : 0 < a / b := Nat.div_pos hle hb
  have hlog : 2 ^ Nat.log 2 (a / b) ≤ a / b := Nat.pow_log_le_self 2 hquotient.ne'
  have hwhole : a / b * b < a := by
    have := Nat.div_add_mod' a b
    omega
  have hbits : Nat.log 2 (a / b) ≤ 53 := by
    have hlt : 2 ^ Nat.log 2 (a / b) < 2 ^ 54 := by
      have := Nat.div_le_self a b
      omega
    have := (Nat.pow_lt_pow_iff_right Nat.one_lt_two).mp hlt
    omega
  have hpow : 2 ^ 53 ≤ b * 2 ^ Nat.log 2 (a / b) := by
    calc 2 ^ 53 = 2 ^ (53 - Nat.log 2 (a / b)) * 2 ^ Nat.log 2 (a / b) := by rw [← pow_add, Nat.sub_add_cancel hbits]
      _ ≤ a % b * 2 ^ (53 - Nat.log 2 (a / b)) * 2 ^ Nat.log 2 (a / b) :=
        Nat.mul_le_mul_right _ (Nat.le_mul_of_pos_left _ hmod)
      _ ≤ b * 2 ^ Nat.log 2 (a / b) := Nat.mul_le_mul_right _ hround
  have hmul : b * 2 ^ Nat.log 2 (a / b) ≤ b * (a / b) := Nat.mul_le_mul_left b hlog
  rw [mul_comm b (a / b)] at hmul
  omega

end Quotients

/-! ## Fingerprints -/

section Fingerprint

variable {Head Row D : Type} {hashes : Hashes Head Row D} {value : Value Head Row} {like : Option (RowBlocks D)}
  {deadline : Option (Nat → Bool)} {blocks : RowBlocks D} {cut : Option D}

theorem bind_eq_ok {ε α β : Type} {x : Except ε α} {f : α → Except ε β} {b : β} :
    x >>= f = .ok b ↔ ∃ a, x = .ok a ∧ f a = .ok b := by
  cases x with
  | ok a =>
      constructor
      · exact fun h => ⟨a, rfl, h⟩
      · rintro ⟨_, ⟨⟩, h⟩
        exact h
  | error e =>
      constructor
      · intro h
        cases h
      · rintro ⟨_, ⟨⟩, _⟩

/-- What the rows of a block are hashed to. -/
def Value.digest (hashes : Hashes Head Row D) (value : Value Head Row) (a b : Nat) : Except Stopped D :=
  if value.kind = .ndarray ∧ value.plain = true then .ok (hashes.ofArray value.head (value.part a b))
  else if value.kind = .pandas ∧ value.plain = true then .ok (hashes.ofColumns value.head (value.part a b))
  else sliceDigest hashes value a b

/-- The blocks are those of the value on the grid, each with its digest. -/
structure Cuts (hashes : Hashes Head Row D) (value : Value Head Row) (like : Option (RowBlocks D)) (blocks : RowBlocks D)
    (cut : Option D) : Prop where
  kind : blocks.kind = value.kind
  rows : blocks.rows = value.rows.length
  many : minRows ≤ value.rows.length
  block : blocks.block = blockSize value.rows.length (taken value.kind value.rows.length like)
  length : blocks.digests.length = ceilQuotient value.rows.length blocks.block
  digest : ∀ i d, blocks.digests[i]? = some d →
    value.digest hashes (i * blocks.block) (min ((i + 1) * blocks.block) value.rows.length) = .ok d
  cut : cutDigest (value.digest hashes) value.rows.length blocks.block (taken value.kind value.rows.length like) = .ok cut

theorem forall₂_of_allBlocks {digest : Nat → Nat → Except Stopped D} {spent : Nat → Bool} {done : Nat}
    {todo : List (Nat × Nat)} {digests : List D} (h : allBlocks digest spent done todo = .ok digests) :
    List.Forall₂ (fun span d => digest span.1 span.2 = .ok d) todo digests := by
  induction todo generalizing done digests with
  | nil =>
      cases h
      exact .nil
  | cons span todo ih =>
      rw [allBlocks, bind_eq_ok] at h
      obtain ⟨d, hd, h⟩ := h
      split at h
      · cases h
      · obtain ⟨rest, hrest, h⟩ := bind_eq_ok.mp h
        cases h
        exact .cons hd (ih hrest)

theorem allBlocks_total {digest : Nat → Nat → Except Stopped D} {spent : Nat → Bool} {done : Nat}
    {todo : List (Nat × Nat)} (hhash : ∀ a b, ∃ d, digest a b = .ok d) (hspent : ∀ n, spent n = false) :
    ∃ digests, allBlocks digest spent done todo = .ok digests := by
  induction todo generalizing done with
  | nil => exact ⟨[], rfl⟩
  | cons span todo ih =>
      obtain ⟨d, hd⟩ := hhash span.1 span.2
      obtain ⟨rest, hrest⟩ : ∃ rest, allBlocks digest spent (done + 1) todo = .ok rest := ih
      refine ⟨d :: rest, bind_eq_ok.mpr ⟨d, hd, ?_⟩⟩
      rw [hspent, if_neg fun h => Bool.false_ne_true h.2]
      exact bind_eq_ok.mpr ⟨rest, hrest, rfl⟩

theorem cutDigest_total {digest : Nat → Nat → Except Stopped D} {rows block : Nat}
    (hhash : ∀ a b, ∃ d, digest a b = .ok d) : ∃ cut, cutDigest digest rows block like = .ok cut := by
  cases like with
  | none => exact ⟨none, rfl⟩
  | some like =>
      obtain ⟨d, hd⟩ := hhash (like.rows / block * block) like.rows
      rw [cutDigest, hd]
      split
      · exact ⟨some d, rfl⟩
      · exact ⟨none, rfl⟩

theorem inBlocks_total {kind : Kind} {digest : Nat → Nat → Except Stopped D} {rows block : Nat} {spent : Nat → Bool}
    (hhash : ∀ a b, ∃ d, digest a b = .ok d) (hspent : ∀ n, spent n = false) :
    ∃ blocks cut, inBlocks kind digest rows block like spent = .ok (blocks, cut) := by
  obtain ⟨digests, hdigests⟩ := allBlocks_total hhash hspent
  obtain ⟨cut, hcut⟩ := cutDigest_total hhash
  exact ⟨_, cut, bind_eq_ok.mpr ⟨digests, hdigests, bind_eq_ok.mpr ⟨cut, hcut, rfl⟩⟩⟩

/-- However a value is cut, it is cut into blocks with a digest each, unless the clock has it given up before the first. -/
theorem cutValue_eq (value : Value Head Row) (rows block : Nat) (like : Option (RowBlocks D)) (spent : Nat → Bool) :
    cutValue hashes value rows block like spent = .error .hashBudgetSpent ∧ spent 0 = true ∨
      ∃ spent', (∀ n, spent' n = true → spent n = true) ∧
        cutValue hashes value rows block like spent = inBlocks value.kind (value.digest hashes) rows block like spent' := by
  unfold cutValue Value.digest
  split
  · next hplain =>
    rw [hplain.1]
    exact .inr ⟨spent, fun _ => id, rfl⟩
  split
  · next hplain =>
    rw [hplain.1]
    exact .inr ⟨spent, fun _ => id, rfl⟩
  split
  · next hkind =>
    split
    · next hspent => exact .inl ⟨rfl, hspent⟩
    · rw [hkind]
      exact .inr ⟨fun _ => false, fun n h => absurd h Bool.false_ne_true, rfl⟩
  · exact .inr ⟨spent, fun _ => id, rfl⟩

theorem caught_eq_ok_some {α : Type} {result : Except Stopped α} {a : α} :
    caught result = .ok (some a) ↔ result = .ok a := by
  cases result with
  | ok b => simp only [caught, Except.ok.injEq, Option.some.injEq]
  | error e => cases e <;> simp only [caught, Except.ok.injEq, reduceCtorEq]

theorem fingerprint_eq (h : minRows ≤ value.rows.length) : fingerprint hashes value like deadline =
    caught (cutValue hashes value value.rows.length
      (blockSize value.rows.length (taken value.kind value.rows.length like)) (taken value.kind value.rows.length like)
      fun done => deadline.any (· done)) := by
  have hcount : rowCount value = some (value.kind, value.rows.length) := if_neg fun hfew => absurd hfew.2 h.not_gt
  simp only [fingerprint, hcount, if_neg h.not_gt]

theorem fingerprint_of_lt (h : value.rows.length < minRows) : fingerprint hashes value like deadline = .ok none := by
  rw [fingerprint, rowCount]
  split
  · rfl
  · next hcount =>
    split at hcount
    · cases hcount
    · cases hcount
      exact if_pos h

theorem cuts_of_fingerprint (h : fingerprint hashes value like deadline = .ok (some (blocks, cut))) :
    Cuts hashes value like blocks cut := by
  rcases lt_or_ge value.rows.length minRows with hfew | hmany
  · rw [fingerprint_of_lt hfew] at h
    cases h
  rw [fingerprint_eq hmany, caught_eq_ok_some] at h
  rcases cutValue_eq value _ _ _ _ with ⟨hstopped, -⟩ | ⟨spent, -, hblocks⟩
  · cases hstopped.symm.trans h
  rw [hblocks] at h
  obtain ⟨digests, hdigests, hblocks⟩ := bind_eq_ok.mp h
  obtain ⟨cut', hcut, hblocks⟩ := bind_eq_ok.mp hblocks
  cases hblocks
  have hall := forall₂_of_allBlocks hdigests
  rw [spans, List.forall₂_map_left_iff] at hall
  refine ⟨rfl, rfl, hmany, rfl, ?_, ?_, hcut⟩
  · rw [← hall.length_eq, List.length_range]
  · intro i d hd
    obtain ⟨hi, rfl⟩ := List.getElem?_eq_some_iff.mp hd
    have hget := hall.get (by rwa [hall.length_eq]) hi
    simpa only [List.get_eq_getElem, List.getElem_range] using hget

/-- There is a fingerprint of enough rows, all hashable, if there is no deadline. -/
theorem fingerprint_total (value : Value Head Row) (like : Option (RowBlocks D)) (hmany : minRows ≤ value.rows.length)
    (hhash : ∀ a b, ∃ d, value.digest hashes a b = .ok d) :
    ∃ blocks cut, fingerprint hashes value like none = .ok (some (blocks, cut)) := by
  rw [fingerprint_eq hmany]
  rcases cutValue_eq value _ _ _ fun _ => false with ⟨-, hspent⟩ | ⟨spent, hspent, hblocks⟩
  · cases hspent
  have hnever : ∀ n, spent n = false := fun n => Bool.eq_false_iff.mpr fun h => Bool.false_ne_true (hspent n h)
  obtain ⟨blocks, cut, htotal⟩ := inBlocks_total hhash hnever
  exact ⟨blocks, cut, caught_eq_ok_some.mpr (hblocks.trans htotal)⟩

/-! ## Grids -/

theorem maxBlocks_pos : 0 < maxBlocks := by decide

theorem eq_some_of_taken {kind : Kind} {rows : Nat} {l : RowBlocks D} (h : taken kind rows like = some l) :
    like = some l ∧ l.kind = kind ∧ 0 < l.block ∧ rows ≤ l.block * maxReusedBlocks := by
  rw [taken, Option.filter_eq_some_iff, decide_eq_true_eq] at h
  exact h

namespace Cuts

theorem rows_pos (h : Cuts hashes value like blocks cut) : 0 < value.rows.length :=
  Nat.lt_of_lt_of_le (by decide) h.many

theorem block_pos (h : Cuts hashes value like blocks cut) : 0 < blocks.block := by
  rw [h.block]
  cases htaken : taken value.kind value.rows.length like with
  | none => exact ceilQuotient_pos h.rows_pos maxBlocks_pos
  | some l => exact (eq_some_of_taken htaken).2.2.1

theorem rows_le (h : Cuts hashes value like blocks cut) : value.rows.length ≤ blocks.block * maxReusedBlocks := by
  rw [h.block]
  cases htaken : taken value.kind value.rows.length like with
  | none =>
      refine (le_ceilQuotient_mul h.rows_pos maxBlocks_pos).trans ?_
      exact Nat.mul_le_mul_left _ (by decide)
  | some l => exact (eq_some_of_taken htaken).2.2.2

theorem rows_lt (h : Cuts hashes value like blocks cut) : value.rows.length < 2 ^ 52 * blocks.block := by
  refine h.rows_le.trans_lt ?_
  rw [mul_comm]
  exact Nat.mul_lt_mul_of_pos_right (by decide : maxReusedBlocks < 2 ^ 52) h.block_pos

/-- Each block has a row. -/
theorem start_lt (h : Cuts hashes value like blocks cut) {i : Nat} (hi : i < blocks.digests.length) :
    i * blocks.block < value.rows.length := by
  rw [h.length] at hi
  exact lt_of_lt_ceilQuotient h.block_pos h.rows_lt hi

/-- A whole block is cut. -/
theorem lt_length (h : Cuts hashes value like blocks cut) {i : Nat} (hi : (i + 1) * blocks.block ≤ value.rows.length) :
    i < blocks.digests.length := by
  rw [h.length]
  exact le_ceilQuotient h.block_pos h.rows_lt hi

end Cuts

end Fingerprint

end Cash.Rows
