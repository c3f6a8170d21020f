import Cash.Rows.Lemmas

/-!
# Changed rows are placed right
-/

namespace Cash.Rows

open Ranges

/-- The value with rows appended. -/
def Value.append {Head Row : Type} (value : Value Head Row) (more : List Row) : Value Head Row :=
  { value with rows := value.rows ++ more }

/-! ## The second loop -/

section Around

variable {ranges changed same : List (Nat × Nat)} {start stop lo rows : Nat}

theorem extend_eq (h : ∀ r ∈ ranges.getLast?, r.2 < start) : extend ranges start stop = ranges ++ [(start, stop)] := by
  rw [extend]
  split
  · rfl
  · next last hlast => rw [if_neg (h last hlast).ne]

/-- No range is extended: between two there is one of `same`. -/
theorem extend_range (h : ∀ r ∈ changed.getLast?, r.2 < lo) :
    (if lo < stop then extend changed lo stop else changed) = changed ++ range lo stop := by
  rw [range]
  split
  · exact extend_eq h
  · rw [List.append_nil]

theorem changedAround_eq (h : Ascending rows 0 same) : changedAround same rows = gaps rows 0 same := by
  have hloop : ∀ lo changed, Ascending rows lo same → (∀ r ∈ changed.getLast?, r.2 < lo) →
      (if (same.foldl passed (lo, changed)).1 < rows
        then extend (same.foldl passed (lo, changed)).2 (same.foldl passed (lo, changed)).1 rows
        else (same.foldl passed (lo, changed)).2) = changed ++ gaps rows lo same := by
    clear h
    induction same with
    | nil => exact fun lo changed _ hlast => extend_range hlast
    | cons r rest ih =>
        intro lo changed h hlast
        have hpassed : passed (lo, changed) r = (r.2, changed ++ range lo r.1) :=
          congrArg (Prod.mk r.2) (extend_range hlast)
        rw [List.foldl_cons, hpassed, ih _ _ h.2.2, List.append_assoc]
        · rfl
        · intro last hmem
          rw [range] at hmem
          split at hmem
          · rw [List.getLast?_concat] at hmem
            cases hmem
            exact h.2.1
          · rw [List.append_nil] at hmem
            exact (hlast last hmem).trans (h.1.trans_lt h.2.1)
  apply hloop 0 [] h
  intro r hr
  cases hr

end Around

/-! ## The first loop -/

section Same

variable {Head Row D : Type} {hashes : Hashes Head Row D} {v w : Value Head Row} {old new : RowBlocks D} {cut : Option D}

theorem Value.getElem?_eq_of_part {a b k : Nat} (h : v.part a b = w.part a b) (ha : a ≤ k) (hb : k < b) :
    v.rows[k]? = w.rows[k]? := by
  obtain ⟨j, rfl⟩ := Nat.exists_eq_add_of_le ha
  have hget := congrArg (·[j]?) h
  simp only [Value.part, List.extract_eq_take_drop] at hget
  rwa [List.getElem?_take_of_lt (by omega), List.getElem?_take_of_lt (by omega), List.getElem?_drop,
    List.getElem?_drop] at hget

theorem Value.digest_append {more : List Row} {a b : Nat} (hb : b ≤ v.rows.length) :
    (v.append more).digest hashes a b = v.digest hashes a b := by
  have hpart : (v.append more).part a b = v.part a b := by
    rw [Value.part, Value.part, List.extract_eq_take_drop, List.extract_eq_take_drop, Value.append]
    by_cases ha : a ≤ b
    · rw [List.drop_append_of_le_length (ha.trans hb), List.take_append_of_le_length]
      rw [List.length_drop]
      omega
    · rw [Nat.sub_eq_zero_of_le (not_le.mp ha).le, List.take_zero, List.take_zero]
  simp only [Value.digest, sliceDigest, hpart]
  rfl

theorem of_drop_eq_cons {α : Type} {l rest : List α} {a : α} {i : Nat} (h : l.drop i = a :: rest) :
    l[i]? = some a ∧ l.drop (i + 1) = rest := by
  rw [← List.head?_drop, ← List.tail_drop, h]
  exact ⟨rfl, rfl⟩

/-- Digests tell the row blocks of two values apart. -/
def Injective (hashes : Hashes Head Row D) (v w : Value Head Row) : Prop :=
  ∀ a b d, v.digest hashes a b = .ok d → w.digest hashes a b = .ok d → v.part a b = w.part a b

/-- Fingerprints of two values of one kind, the second cut on the grid of the first. -/
structure OneGrid (hashes : Hashes Head Row D) (v w : Value Head Row) (old new : RowBlocks D) (cut : Option D) :
    Prop where
  before : ∃ like cut₀, Cuts hashes v like old cut₀
  after : Cuts hashes w (some old) new cut
  kind : w.kind = v.kind
  block : new.block = old.block

namespace OneGrid

/-- A grid that is cut afresh is coarser. -/
theorem taken_eq (h : OneGrid hashes v w old new cut) : taken w.kind w.rows.length (some old) = some old := by
  obtain ⟨like, cut₀, hv⟩ := h.before
  cases htaken : taken w.kind w.rows.length (some old) with
  | some l =>
      cases (eq_some_of_taken htaken).1
      rfl
  | none =>
      have hle : w.rows.length ≤ old.block * maxReusedBlocks := by
        have hfresh := h.after.block
        rw [htaken, h.block] at hfresh
        refine (le_ceilQuotient_mul h.after.rows_pos maxBlocks_pos).trans ?_
        rw [hfresh]
        exact Nat.mul_le_mul_left _ (by decide)
      rw [taken, Option.filter_eq_none_iff] at htaken
      apply absurd (htaken old rfl)
      rw [not_not, decide_eq_true_eq]
      exact ⟨hv.kind.trans h.kind.symm, hv.block_pos, hle⟩

theorem digest_old (h : OneGrid hashes v w old new cut) {i : Nat} {digest : D} (hdigest : old.digests[i]? = some digest) :
    i * new.block < v.rows.length ∧
      v.digest hashes (i * new.block) (min ((i + 1) * new.block) v.rows.length) = .ok digest := by
  obtain ⟨like, cut₀, hv⟩ := h.before
  rw [h.block]
  exact ⟨hv.start_lt (List.getElem?_eq_some_iff.mp hdigest).1, hv.digest i digest hdigest⟩

theorem rows_old (h : OneGrid hashes v w old new cut) : old.rows = v.rows.length := by
  obtain ⟨like, cut₀, hv⟩ := h.before
  exact hv.rows

/-- The rows that are in a block. -/
theorem covered_eq (h : OneGrid hashes v w old new cut) : min (old.digests.length * new.block) v.rows.length =
    if Lost v.rows.length new.block then v.rows.length / new.block * new.block else v.rows.length := by
  obtain ⟨like, cut₀, hv⟩ := h.before
  rw [hv.length, h.block]
  split
  · next hlost =>
    rw [ceilQuotient_of_lost hv.block_pos hv.rows_lt hlost]
    exact Nat.min_eq_left (Nat.div_mul_le_self _ _)
  · next hlost => exact Nat.min_eq_right (le_ceilQuotient_of_not_lost hv.block_pos hv.rows_lt hlost)

variable [DecidableEq D]

/-- What counts as unchanged in a block is its beginning, and unchanged. -/
theorem sameIn_cases (h : OneGrid hashes v w old new cut) (hinj : Injective hashes v w) {i : Nat} {digest : D}
    (hdigest : old.digests[i]? = some digest) (hi : i * new.block < new.rows) :
    sameIn old new cut i digest = [] ∨ ∃ stop,
      sameIn old new cut i digest = [(i * new.block, stop)] ∧ i * new.block < stop ∧ stop ≤ (i + 1) * new.block ∧
        stop ≤ new.rows ∧ ∀ k, i * new.block ≤ k → k < stop → v.rows[k]? = w.rows[k]? := by
  obtain ⟨hstart, hvd⟩ := h.digest_old hdigest
  have hpos := h.after.block_pos
  have hsucc : i * new.block + new.block = (i + 1) * new.block := (Nat.succ_mul _ _).symm
  rw [sameIn, hsucc, h.rows_old]
  split
  · next hstop =>
    split
    · next hnew =>
      refine .inr ⟨_, rfl, by omega, Nat.min_le_left _ _, Nat.min_le_right _ _, ?_⟩
      have hwd := h.after.digest i digest hnew
      rw [← h.after.rows, ← hstop] at hwd
      rw [← hstop]
      exact fun k => Value.getElem?_eq_of_part (hinj _ _ _ hvd hwd)
    · exact .inl rfl
  · split
    · next hcut =>
      -- The block is the last of `old`, and partial.
      obtain ⟨hlt, rfl⟩ := hcut
      have hmin : min ((i + 1) * new.block) v.rows.length = v.rows.length := by omega
      have hdiv : v.rows.length / new.block = i := by
        rw [Nat.div_eq_iff hpos]
        omega
      have hwd := h.after.cut
      rw [h.taken_eq, cutDigest, h.rows_old, hdiv] at hwd
      rw [hmin] at hlt hvd ⊢
      split at hwd
      · refine .inr ⟨_, rfl, hstart, by omega, by omega, ?_⟩
        cases hd : w.digest hashes (i * new.block) v.rows.length with
        | error e =>
            rw [hd] at hwd
            cases hwd
        | ok d =>
            rw [hd] at hwd
            cases hwd
            exact fun k => Value.getElem?_eq_of_part (hinj _ _ _ hvd hd)
      · cases hwd
    · exact .inl rfl

theorem ascending_sameFrom (h : OneGrid hashes v w old new cut) (hinj : Injective hashes v w) {i lo : Nat}
    {digests : List D} (hdrop : old.digests.drop i = digests) (hlo : lo ≤ i * new.block) (hrows : lo ≤ new.rows) :
    Ascending new.rows lo (sameFrom old new cut i digests) := by
  induction digests generalizing i lo with
  | nil => exact hrows
  | cons digest digests ih =>
      obtain ⟨hdigest, hrest⟩ := of_drop_eq_cons hdrop
      rw [sameFrom]
      split
      · exact hrows
      next hi =>
      rcases h.sameIn_cases hinj hdigest (not_le.mp hi) with hsame | ⟨stop, hsame, hlt, hle, hstop, -⟩
      · rw [hsame]
        exact ih hrest (hlo.trans (Nat.mul_le_mul_right _ (Nat.le_succ i))) hrows
      · rw [hsame]
        exact ⟨hlo, hlt, ih hrest hle hstop⟩

theorem agree_of_covers (h : OneGrid hashes v w old new cut) (hinj : Injective hashes v w) {i k : Nat} {digests : List D}
    (hdrop : old.digests.drop i = digests) (hcovers : Covers (sameFrom old new cut i digests) k) :
    v.rows[k]? = w.rows[k]? := by
  induction digests generalizing i with
  | nil => exact absurd hcovers not_covers_nil
  | cons digest digests ih =>
      obtain ⟨hdigest, hrest⟩ := of_drop_eq_cons hdrop
      rw [sameFrom] at hcovers
      split at hcovers
      · exact absurd hcovers not_covers_nil
      next hi =>
      rcases covers_append.mp hcovers with hcovers | hcovers
      · rcases h.sameIn_cases hinj hdigest (not_le.mp hi) with hsame | ⟨stop, hsame, -, -, -, hagree⟩
        · rw [hsame] at hcovers
          exact absurd hcovers not_covers_nil
        · rw [hsame, covers_cons, or_iff_left not_covers_nil] at hcovers
          exact hagree k hcovers.1 hcovers.2
      · exact ih hrest hcovers

theorem compare_eq (h : OneGrid hashes v w old new cut) (hinj : Injective hashes v w) :
    compare old new cut = some ⟨new.rows, gaps new.rows 0 (sameFrom old new cut 0 old.digests)⟩ := by
  obtain ⟨like, cut₀, hv⟩ := h.before
  have hascending := h.ascending_sameFrom hinj List.drop_zero (Nat.zero_le _) (Nat.zero_le _)
  rw [compare, if_neg, changedAround_eq hascending]
  rintro (hkind | hblock)
  · exact hkind (hv.kind.trans (h.kind.symm.trans h.after.kind.symm))
  · exact hblock h.block.symm

/-! ## Rows appended -/

theorem sameIn_append {more : List Row} (h : OneGrid hashes v (v.append more) old new cut) {i : Nat} {digest : D}
    (hdigest : old.digests[i]? = some digest) :
    sameIn old new cut i digest = [(i * new.block, min ((i + 1) * new.block) v.rows.length)] := by
  obtain ⟨hstart, hvd⟩ := h.digest_old hdigest
  have hrows : new.rows = v.rows.length + more.length := h.after.rows.trans List.length_append
  have hsucc : i * new.block + new.block = (i + 1) * new.block := (Nat.succ_mul _ _).symm
  rw [sameIn, hsucc, h.rows_old]
  split
  · next hstop =>
    have hi : i < new.digests.length := by
      by_cases hwhole : (i + 1) * new.block ≤ new.rows
      · exact h.after.lt_length (hwhole.trans h.after.rows.le)
      · -- Nothing is appended.
        obtain ⟨like, cut₀, hv⟩ := h.before
        have hsame : (v.append more).rows.length = v.rows.length := by
          rw [← h.after.rows]
          omega
        rw [h.after.length, h.block, hsame, ← hv.length]
        exact (List.getElem?_eq_some_iff.mp hdigest).1
    have hnew := List.getElem?_eq_getElem hi
    have hwd := h.after.digest i _ hnew
    rw [← h.after.rows, ← hstop, Value.digest_append (Nat.min_le_right _ _), hvd] at hwd
    cases hwd
    rw [if_pos hnew, hstop]
  · next hstop =>
    have hmin : min ((i + 1) * new.block) v.rows.length = v.rows.length := by omega
    have hdiv : v.rows.length / new.block = i := by
      rw [Nat.div_eq_iff h.after.block_pos]
      omega
    have hmod : v.rows.length % new.block ≠ 0 := by
      intro hmod
      have := Nat.div_mul_cancel (Nat.dvd_of_mod_eq_zero hmod)
      rw [hdiv] at this
      omega
    have hwd := h.after.cut
    rw [hmin] at hvd
    rw [h.taken_eq, cutDigest, h.rows_old, hdiv, if_pos ⟨hmod, by rw [← h.after.rows]; omega⟩,
      Value.digest_append (le_refl _), hvd] at hwd
    cases hwd
    rw [if_pos ⟨by omega, rfl⟩]

theorem tiling_sameFrom {more : List Row} (h : OneGrid hashes v (v.append more) old new cut) {i : Nat} {digests : List D}
    (hdrop : old.digests.drop i = digests) (hi : i ≤ old.digests.length) :
    Tiling (min (old.digests.length * new.block) v.rows.length) (min (i * new.block) v.rows.length)
      (sameFrom old new cut i digests) := by
  induction digests generalizing i with
  | nil =>
      rw [le_antisymm hi (List.drop_eq_nil_iff.mp hdrop)]
      exact rfl
  | cons digest digests ih =>
      obtain ⟨hdigest, hrest⟩ := of_drop_eq_cons hdrop
      have hstart := (h.digest_old hdigest).1
      have hrows : new.rows = v.rows.length + more.length := h.after.rows.trans List.length_append
      rw [sameFrom, if_neg (by omega), h.sameIn_append hdigest]
      exact ⟨(Nat.min_eq_left hstart.le).symm, ih hrest (List.getElem?_eq_some_iff.mp hdigest).1⟩

theorem gaps_append {more : List Row} (h : OneGrid hashes v (v.append more) old new cut) :
    gaps new.rows 0 (sameFrom old new cut 0 old.digests) =
      range (if Lost v.rows.length new.block then v.rows.length / new.block * new.block else v.rows.length) new.rows := by
  have htiling := h.tiling_sameFrom List.drop_zero (Nat.zero_le _)
  rw [Nat.zero_mul, Nat.zero_min, h.covered_eq] at htiling
  exact gaps_of_tiling htiling

end OneGrid

end Same

/-! ## Two runs -/

section Runs

variable {Head Row D : Type} {hashes : Hashes Head Row D} {v w : Value Head Row} {like : Option (RowBlocks D)}
  {deadline deadline' : Option (Nat → Bool)} {old new : RowBlocks D} {cut₀ cut : Option D}

/-- Which rows changed from `v` to `w`. -/
structure Placed (v w : Value Head Row) (old new : RowBlocks D) (change : RowChange) : Prop where
  nonempty : ∀ r ∈ change.changed, r.1 < r.2
  apart : change.changed.Pairwise fun a b => a.2 < b.1
  within : ∀ r ∈ change.changed, r.2 ≤ new.rows
  differ : ∀ i < w.rows.length, v.rows[i]? ≠ w.rows[i]? → Covers change.changed i
  agree : ∀ i < w.rows.length, ¬Covers change.changed i → v.rows[i]? = w.rows[i]?
  appended : ∀ more, more ≠ [] → w = v.append more → change.changed = [(old.rows, new.rows)]
  equal : w = v → change.changed = []

theorem Value.append_nil : v.append [] = v := by
  rw [Value.append, List.append_nil]

theorem block_eq (hv : Cuts hashes v like old cut₀) (hw : Cuts hashes w (some old) new cut) (hkind : w.kind = v.kind)
    (hle : w.rows.length ≤ old.block * maxReusedBlocks) : new.block = old.block := by
  have htaken : taken w.kind w.rows.length (some old) = some old := by
    rw [taken, Option.filter_some, if_pos]
    rw [decide_eq_true_eq]
    exact ⟨hv.kind.trans hkind.symm, hv.block_pos, hle⟩
  rw [hw.block, htaken, blockSize]

/-- Two values can be compared if the second has not outgrown the grid. -/
theorem exists_fingerprints (hvhash : ∀ a b, ∃ d, v.digest hashes a b = .ok d)
    (hwhash : ∀ a b, ∃ d, w.digest hashes a b = .ok d) (hvmany : minRows ≤ v.rows.length)
    (hwmany : minRows ≤ w.rows.length) (hkind : w.kind = v.kind) : ∃ old cut₀ new cut,
      fingerprint hashes v none none = .ok (some (old, cut₀)) ∧
        fingerprint hashes w (some old) none = .ok (some (new, cut)) ∧
        (w.rows.length ≤ old.block * maxReusedBlocks → new.block = old.block) := by
  obtain ⟨old, cut₀, hold⟩ := fingerprint_total v none hvmany hvhash
  obtain ⟨new, cut, hnew⟩ := fingerprint_total w (some old) hwmany hwhash
  exact ⟨old, cut₀, new, cut, hold, hnew, block_eq (cuts_of_fingerprint hold) (cuts_of_fingerprint hnew) hkind⟩

variable [DecidableEq D]

/-- A value with rows in no block differs from itself in them. -/
theorem compare_self_of_lost (h : OneGrid hashes v v old new cut) (hinj : Injective hashes v v)
    (hlost : Lost v.rows.length new.block) :
    compare old new cut = some ⟨new.rows, range (v.rows.length / new.block * new.block) v.rows.length⟩ := by
  have happend : OneGrid hashes v (v.append []) old new cut := by rwa [Value.append_nil]
  rw [h.compare_eq hinj, happend.gaps_append, if_pos hlost, h.after.rows]

/-- The changed rows are placed right unless rows of `v` are in no block and `w` begins with `v`. -/
theorem compare_placed_iff (hinj : Injective hashes v w)
    (hold : fingerprint hashes v like deadline = .ok (some (old, cut₀)))
    (hnew : fingerprint hashes w (some old) deadline' = .ok (some (new, cut)))
    (hkind : w.kind = v.kind) (hblock : new.block = old.block) :
    (∃ change, compare old new cut = some change ∧ Placed v w old new change) ↔
      ¬((∃ more, w = v.append more) ∧
        Lost v.rows.length (blockSize v.rows.length (taken v.kind v.rows.length like))) := by
  have hv := cuts_of_fingerprint hold
  have h : OneGrid hashes v w old new cut := ⟨⟨like, cut₀, hv⟩, cuts_of_fingerprint hnew, hkind, hblock⟩
  rw [← hv.block, ← hblock]
  constructor
  · rintro ⟨change, hchange, hplaced⟩ ⟨⟨more, rfl⟩, hlost⟩
    rw [h.compare_eq hinj, h.gaps_append, if_pos hlost] at hchange
    cases hchange
    have hlt : v.rows.length / new.block * new.block < v.rows.length := by
      have := Nat.div_add_mod' v.rows.length new.block
      have := hlost.1
      omega
    have hrows : new.rows = v.rows.length + more.length := h.after.rows.trans List.length_append
    have hrange : range (v.rows.length / new.block * new.block) new.rows =
        [(v.rows.length / new.block * new.block, new.rows)] := if_pos (by omega)
    by_cases hmore : more = []
    · cases hrange.symm.trans (hplaced.equal (by rw [hmore, Value.append_nil]))
    · have happended := hrange.symm.trans (hplaced.appended more hmore rfl)
      rw [List.cons.injEq, Prod.mk.injEq, h.rows_old] at happended
      omega
  · intro hnot
    have hascending := h.ascending_sameFrom hinj List.drop_zero (Nat.zero_le _) (Nat.zero_le _)
    have hbounds := gaps_bounds hascending
    have hagree : ∀ i < w.rows.length, ¬Covers (gaps new.rows 0 (sameFrom old new cut 0 old.digests)) i →
        v.rows[i]? = w.rows[i]? := by
      intro i hi hcovers
      rw [covers_gaps hascending, h.after.rows, not_and, not_and, not_not] at hcovers
      exact h.agree_of_covers hinj List.drop_zero (hcovers (Nat.zero_le i) hi)
    have hbegins : ∀ more, w = v.append more →
        gaps new.rows 0 (sameFrom old new cut 0 old.digests) = range v.rows.length new.rows := by
      rintro more rfl
      rw [h.gaps_append, if_neg]
      exact fun hlost => hnot ⟨⟨more, rfl⟩, hlost⟩
    refine ⟨_, h.compare_eq hinj, ?_⟩
    refine ⟨fun r hr => (hbounds r hr).2.1, pairwise_gaps hascending, fun r hr => (hbounds r hr).2.2, ?_, hagree, ?_, ?_⟩
    · intro i hi hne
      by_contra hcovers
      exact hne (hagree i hi hcovers)
    · rintro more hmore rfl
      have hrows : new.rows = v.rows.length + more.length := h.after.rows.trans List.length_append
      have hpos : 0 < more.length := List.length_pos_iff.mpr hmore
      refine (hbegins more rfl).trans ?_
      rw [h.rows_old]
      exact if_pos (by omega)
    · rintro rfl
      refine (hbegins [] Value.append_nil.symm).trans ?_
      rw [h.after.rows]
      exact if_neg (lt_irrefl _)

end Runs

/-- A block hashed to its rows. -/
def asRows : Hashes Unit Nat (List Nat) := ⟨fun _ rows => rows, fun _ rows => rows, fun _ _ rows => some rows⟩

theorem digest_asRows (value : Value Unit Nat) (a b : Nat) : value.digest asRows a b = .ok (value.part a b) := by
  rw [Value.digest, ite_eq_left_iff.mpr]
  · rfl
  · exact fun _ => ite_eq_left_iff.mpr fun _ => rfl

theorem injective_asRows (v w : Value Unit Nat) : Injective asRows v w := by
  intro a b d hv hw
  rw [digest_asRows] at hv hw
  exact Except.ok.inj (hv.trans hw.symm)

/-- A hundred and one rows, in blocks of two and a last one, then two more. -/
theorem compare_placed_hundred : ∃ old cut₀ new cut,
    fingerprint asRows ⟨.ndarray, true, (), List.range 101⟩ none none = .ok (some (old, cut₀)) ∧
      fingerprint asRows ⟨.ndarray, true, (), List.range 103⟩ (some old) none = .ok (some (new, cut)) ∧
      ∃ change, compare old new cut = some change ∧
        Placed ⟨.ndarray, true, (), List.range 101⟩ ⟨.ndarray, true, (), List.range 103⟩ old new change := by
  obtain ⟨old, cut₀, new, cut, hold, hnew, hblock⟩ := exists_fingerprints
    (fun a b => ⟨_, digest_asRows ⟨.ndarray, true, (), List.range 101⟩ a b⟩)
    (fun a b => ⟨_, digest_asRows ⟨.ndarray, true, (), List.range 103⟩ a b⟩)
    (List.length_range ▸ by decide) (List.length_range ▸ by decide) rfl
  refine ⟨old, cut₀, new, cut, hold, hnew, ?_⟩
  have hpos := (cuts_of_fingerprint hold).block_pos
  have hle : (List.range 103).length ≤ old.block * maxReusedBlocks :=
    (by rw [List.length_range]; decide : (List.range 103).length ≤ 1 * maxReusedBlocks).trans (Nat.mul_le_mul_right _ hpos)
  rw [compare_placed_iff (injective_asRows _ _) hold hnew rfl (hblock hle)]
  exact fun hlost => not_lost_of_le (by rw [List.length_range]; decide) hlost.2

/-- A frame of an index of so many labels and no columns is cut into 64 blocks of `2 ^ 47` rows. Its last row is in none. -/
theorem last_row_in_no_block : ∃ old cut₀ new cut,
    fingerprint asRows ⟨.pandas, true, (), List.range (2 ^ 53 + 1)⟩ none none = .ok (some (old, cut₀)) ∧
      fingerprint asRows ⟨.pandas, true, (), List.range (2 ^ 53 + 1)⟩ (some old) none = .ok (some (new, cut)) ∧
      compare old new cut = some ⟨2 ^ 53 + 1, [(2 ^ 53, 2 ^ 53 + 1)]⟩ := by
  obtain ⟨n, hn⟩ : ∃ n, n = 2 ^ 53 + 1 := ⟨_, rfl⟩
  rw [← hn]
  have hrows : (List.range n).length = n := List.length_range
  have hmany : minRows ≤ (List.range n).length := by
    rw [hrows, hn]
    norm_num [minRows]
  obtain ⟨old, cut₀, new, cut, hold, hnew, hblock⟩ := exists_fingerprints
    (fun a b => ⟨_, digest_asRows ⟨.pandas, true, (), List.range n⟩ a b⟩)
    (fun a b => ⟨_, digest_asRows ⟨.pandas, true, (), List.range n⟩ a b⟩) hmany hmany rfl
  have hcuts := cuts_of_fingerprint hold
  have h : OneGrid asRows _ _ old new cut := ⟨⟨none, cut₀, hcuts⟩, cuts_of_fingerprint hnew, rfl, hblock hcuts.rows_le⟩
  have hquotient : ceilQuotient n 64 = 2 ^ 47 := by
    have hdiv : n / 64 = 2 ^ 47 := by omega
    rw [ceilQuotient_of_lost (by norm_num) (by omega), hdiv]
    refine ⟨by omega, by omega, ?_⟩
    rw [hdiv, Nat.log_pow Nat.one_lt_two]
    omega
  have hgrid : new.block = 2 ^ 47 := by
    rw [h.block, hcuts.block]
    exact (congrArg (ceilQuotient · 64) hrows).trans hquotient
  have hlost : Lost (List.range n).length new.block := by
    have hdiv : n / 2 ^ 47 = 2 ^ 6 := by omega
    rw [hrows, hgrid]
    refine ⟨by omega, by omega, ?_⟩
    rw [hdiv, Nat.log_pow Nat.one_lt_two]
    omega
  have hcompare := compare_self_of_lost h (injective_asRows _ _) hlost
  refine ⟨old, cut₀, new, cut, hold, hnew, hcompare.trans ?_⟩
  have hwhole : n / 2 ^ 47 * 2 ^ 47 = 2 ^ 53 := by omega
  rw [h.after.rows, hrows, hgrid, hwhole, range, if_pos (by omega)]

end Cash.Rows
