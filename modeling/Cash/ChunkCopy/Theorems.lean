import Cash.ChunkCopy.Lemmas.Views

/-!
# The copies of chunks

A call copies its pieces one after the other (`Placement`), and each keeps what the others wrote.
-/

namespace Cash.ChunkCopy

open Arrow

/-! ## Pieces in a row -/

/-- Pieces placed in outputs: what it takes to be copied, what is then written, and that other places keep it. -/
structure Placement (P O S : Type) where
  copy : P → O → Outcome O
  size : O → S
  Able : P → Prop
  Fits : P → O → Prop
  Written : P → O → Prop
  Apart : P → P → Prop
  fits_of_size : ∀ {p o o'}, size o = size o' → Fits p o → Fits p o'
  done : ∀ {p o}, Able p → Fits p o → ∃ o', copy p o = .done o' ∧ size o' = size o ∧ Written p o'
  refused : ∀ {p o}, Able p → ¬ Fits p o → ∃ message o', copy p o = .valueError message o' ∧ size o' = size o
  kept : ∀ {p q o o'}, Able q → Fits q o → Apart p q → Written p o → copy q o = .done o' → Written p o'

namespace Placement

variable {P O S : Type} (m : Placement P O S) {pieces : List P} {o : O}

/-- What every piece's copy keeps, a call keeps. -/
theorem copyAll_keeps {Φ : O → Prop} (hable : ∀ q ∈ pieces, m.Able q) (hfits : ∀ q ∈ pieces, m.Fits q o)
    (hkeeps : ∀ q ∈ pieces, ∀ {o o'}, m.Fits q o → m.copy q o = .done o' → Φ o → Φ o') (hΦ : Φ o) {o' : O}
    (h : copyAll m.copy pieces o = .done o') : Φ o' := by
  induction pieces generalizing o with
  | nil =>
      cases h
      exact hΦ
  | cons q pieces ih =>
      obtain ⟨hq, hable⟩ := List.forall_mem_cons.1 hable
      obtain ⟨hqfits, hfits⟩ := List.forall_mem_cons.1 hfits
      obtain ⟨mid, hcopy, hsize, -⟩ := m.done hq hqfits
      rw [copyAll, hcopy] at h
      refine ih hable (fun r hr => m.fits_of_size hsize.symm (hfits r hr)) (fun r hr => hkeeps r (.tail _ hr)) ?_ h
      exact hkeeps q (.head _) hqfits hcopy hΦ

theorem copyAll_done (hable : ∀ p ∈ pieces, m.Able p) (hfits : ∀ p ∈ pieces, m.Fits p o) (hapart : pieces.Pairwise m.Apart) :
    ∃ o', copyAll m.copy pieces o = .done o' ∧ m.size o' = m.size o ∧ ∀ p ∈ pieces, m.Written p o' := by
  induction pieces generalizing o with
  | nil => exact ⟨o, rfl, rfl, fun p hp => by cases hp⟩
  | cons p pieces ih =>
      obtain ⟨hp, hable⟩ := List.forall_mem_cons.1 hable
      obtain ⟨hpfits, hfits⟩ := List.forall_mem_cons.1 hfits
      obtain ⟨hpapart, hapart⟩ := List.pairwise_cons.1 hapart
      obtain ⟨mid, hcopy, hsize, hwritten⟩ := m.done hp hpfits
      have hfits' : ∀ q ∈ pieces, m.Fits q mid := fun q hq => m.fits_of_size hsize.symm (hfits q hq)
      obtain ⟨o', hrest, hsize', hall⟩ := ih hable hfits' hapart
      refine ⟨o', by rw [copyAll, hcopy]; exact hrest, hsize'.trans hsize, ?_⟩
      have hkept : m.Written p o' := m.copyAll_keeps hable hfits' (fun q hq _ _ hqfits hcopy hp =>
        m.kept (hable q hq) hqfits (hpapart q hq) hp hcopy) hwritten hrest
      exact List.forall_mem_cons.2 ⟨hkept, hall⟩

/-- Pieces that fit are copied, wherever they are. -/
theorem copyAll_ends (hable : ∀ p ∈ pieces, m.Able p) (hfits : ∀ p ∈ pieces, m.Fits p o) :
    ∃ o', copyAll m.copy pieces o = .done o' ∧ m.size o' = m.size o := by
  induction pieces generalizing o with
  | nil => exact ⟨o, rfl, rfl⟩
  | cons p pieces ih =>
      obtain ⟨hp, hable⟩ := List.forall_mem_cons.1 hable
      obtain ⟨hpfits, hfits⟩ := List.forall_mem_cons.1 hfits
      obtain ⟨mid, hcopy, hsize, -⟩ := m.done hp hpfits
      obtain ⟨o', hrest, hsize'⟩ := ih hable fun q hq => m.fits_of_size hsize.symm (hfits q hq)
      exact ⟨o', by rw [copyAll, hcopy]; exact hrest, hsize'.trans hsize⟩

/-- A piece that does not fit ends the call with an error. -/
theorem copyAll_refused (hable : ∀ p ∈ pieces, m.Able p) (hnot : ∃ p ∈ pieces, ¬ m.Fits p o) :
    ∃ message o', copyAll m.copy pieces o = .valueError message o' ∧ m.size o' = m.size o := by
  induction pieces generalizing o with
  | nil =>
      obtain ⟨p, hp, -⟩ := hnot
      cases hp
  | cons p pieces ih =>
      obtain ⟨hp, hable⟩ := List.forall_mem_cons.1 hable
      by_cases hfits : m.Fits p o
      · obtain ⟨mid, hcopy, hsize, -⟩ := m.done hp hfits
        have hrest : ∃ q ∈ pieces, ¬ m.Fits q mid := by
          obtain ⟨q, hq, hnot⟩ := hnot
          rcases List.mem_cons.1 hq with rfl | hq
          · exact absurd hfits hnot
          · exact ⟨q, hq, fun h => hnot (m.fits_of_size hsize h)⟩
        obtain ⟨message, o', hrest, hsize'⟩ := ih hable hrest
        exact ⟨message, o', by rw [copyAll, hcopy]; exact hrest, hsize'.trans hsize⟩
      · obtain ⟨message, o', hcopy, hsize⟩ := m.refused hp hfits
        exact ⟨message, o', by rw [copyAll, hcopy], hsize⟩

end Placement

/-! ## A text piece -/

namespace Placed

variable {p q : Placed} {o : ViewOuts}

/-- The outputs with the piece in its place, and `raw` for its validity. -/
def putIn (p : Placed) (o : ViewOuts) (raw : Bytes) : ViewOuts where
  views := o.views.put p.viewsAt.toInt.toNat (p.viewsFrom p.rows p.piece.start 0)
  data := o.data.put p.dataAt.toInt.toNat (p.dataFrom p.rows p.piece.start)
  validity := if placeOf p.validityAt = -2 then o.validity else o.validity.map fun out => out.put (placeOf p.validityAt).toNat raw

/-- `raw` holds the validity bits of the piece from bit 0, and no others, if it has a place for them. -/
def Bits (p : Placed) (raw : Bytes) : Prop :=
  placeOf p.validityAt ≠ -2 → raw.length = (p.rows + 7) / 8 ∧ ∀ bits, p.validity = some bits →
    ∀ i, i < 8 * ((p.rows + 7) / 8) → bit raw i = (decide (i < p.rows) && bit bits (p.piece.start + i))

theorem getViews_none : getViews p.views p.validity p.start.toInt p.stop.toInt = none ↔
    (0 ≤ p.start.toInt ∧ p.start.toInt ≤ p.stop.toInt) ∧ p.stop.toInt * viewBytes ≤ p.views.length ∧
      ∀ bits, p.validity = some bits → (p.stop.toInt + 7) / 8 ≤ bits.length := by
  unfold getViews viewBytes
  split
  · next h => exact iff_of_false (Option.some_ne_none _) (fun hin => by omega)
  split
  · next h => exact iff_of_false (Option.some_ne_none _) (fun hin => by omega)
  have hrows : 0 ≤ p.start.toInt ∧ p.start.toInt ≤ p.stop.toInt := by omega
  have hviews : p.stop.toInt * (16 : Nat) ≤ p.views.length := by omega
  cases p.validity with
  | none => exact iff_of_true rfl ⟨hrows, hviews, fun bits h => by cases h⟩
  | some bits =>
    dsimp only
    split
    · next h => exact iff_of_false (Option.some_ne_none _) (fun hin => by have := hin.2.2 bits rfl; omega)
    · refine iff_of_true rfl ⟨hrows, hviews, fun bits' h' => ?_⟩
      cases h'
      omega

/-- What the tests before the rows find. -/
structure Tested (p : Placed) (o : ViewOuts) : Prop where
  rows_in : 0 ≤ p.start.toInt ∧ p.start.toInt ≤ p.stop.toInt
  views_in : p.stop.toInt * viewBytes ≤ p.views.length
  bits_in : ∀ bits, p.validity = some bits → (p.stop.toInt + 7) / 8 ≤ bits.length
  viewsAt_in : 0 ≤ p.viewsAt.toInt ∧ p.viewsAt.toInt + p.rows * viewBytes ≤ o.views.length
  dataAt_in : 0 ≤ p.dataAt.toInt ∧ p.dataAt.toInt ≤ o.data.length
  validityAt_in : placeOf p.validityAt = -2 ∨ ∃ bits out, p.validity = some bits ∧ o.validity = some out ∧
    0 ≤ placeOf p.validityAt ∧ placeOf p.validityAt + ((p.rows + 7) / 8 : Nat) ≤ out.length

theorem rows_eq (h : 0 ≤ p.start.toInt ∧ p.start.toInt ≤ p.stop.toInt) :
    (p.rows : Int) = p.stop.toInt - p.start.toInt ∧ (p.piece.start : Int) = p.start.toInt ∧
      (p.piece.stop : Int) = p.stop.toInt := by
  unfold rows piece
  dsimp only
  omega

/-- The tests of the place, as conditions. -/
theorem refused_none (hrows : 0 ≤ p.start.toInt ∧ p.start.toInt ≤ p.stop.toInt) : p.refused o = none ↔
    (0 ≤ p.viewsAt.toInt ∧ p.viewsAt.toInt + p.rows * viewBytes ≤ o.views.length) ∧
    (0 ≤ p.dataAt.toInt ∧ p.dataAt.toInt ≤ o.data.length) ∧
    (placeOf p.validityAt = -2 ∨ ∃ bits out, p.validity = some bits ∧ o.validity = some out ∧
      0 ≤ placeOf p.validityAt ∧ placeOf p.validityAt + ((p.rows + 7) / 8 : Nat) ≤ out.length) := by
  obtain ⟨hcount, -, -⟩ := rows_eq hrows
  unfold refused viewBytes
  rw [← hcount]
  dsimp only
  split
  · next h => exact iff_of_false (Option.some_ne_none _) (fun hin => by omega)
  have hin : (0 ≤ p.viewsAt.toInt ∧ p.viewsAt.toInt + p.rows * (16 : Nat) ≤ o.views.length) ∧
      0 ≤ p.dataAt.toInt ∧ p.dataAt.toInt ≤ o.data.length := by omega
  split
  · next hnone => exact iff_of_true rfl ⟨hin.1, hin.2, .inl hnone⟩
  next hplaced =>
  cases hbits : p.validity with
  | none =>
    refine iff_of_false (Option.some_ne_none _) ?_
    rintro ⟨-, -, hnone | ⟨bits, out, h, -⟩⟩
    · exact hplaced hnone
    · cases h
  | some bits =>
    cases hout : o.validity with
    | none =>
      refine iff_of_false (Option.some_ne_none _) ?_
      rintro ⟨-, -, hnone | ⟨bits, out, -, h, -⟩⟩
      · exact hplaced hnone
      · cases h
    | some out =>
      dsimp only
      split
      · next h =>
        refine iff_of_false (Option.some_ne_none _) ?_
        rintro ⟨-, -, hnone | ⟨bits, out', -, h', hle⟩⟩
        · exact hplaced hnone
        · cases h'
          omega
      · exact iff_of_true rfl ⟨hin.1, hin.2, .inr ⟨bits, out, rfl, rfl, by omega, by omega⟩⟩

theorem tested_iff : p.Tested o ↔
    getViews p.views p.validity p.start.toInt p.stop.toInt = none ∧ p.refused o = none := by
  constructor
  · rintro ⟨hrows, hviews, hbits, hviewsAt, hdataAt, hvalidityAt⟩
    exact ⟨getViews_none.2 ⟨hrows, hviews, hbits⟩, (refused_none hrows).2 ⟨hviewsAt, hdataAt, hvalidityAt⟩⟩
  · rintro ⟨h, hrefused⟩
    obtain ⟨hrows, hviews, hbits⟩ := getViews_none.1 h
    obtain ⟨hviewsAt, hdataAt, hvalidityAt⟩ := (refused_none hrows).1 hrefused
    exact ⟨hrows, hviews, hbits, hviewsAt, hdataAt, hvalidityAt⟩

/-- The outputs as the rows find them. -/
def begun (p : Placed) (o : ViewOuts) : Copying := ⟨o.views, o.data, p.dataAt.toInt.toNat⟩

theorem fits_iff : p.Fits o ↔ p.Tested o ∧ CopyableFrom p p.rows p.piece.start 0 (p.begun o) := by
  constructor
  · rintro ⟨hrows, hviews, hbits, hgood, hviewsAt, hdataAt, hsize, hvalidityAt⟩
    refine ⟨⟨hrows, hviews, hbits, hviewsAt, by omega, hvalidityAt⟩, fun row hle hlt => hgood row hle ?_, ?_, ?_⟩
    · rw [rows] at hlt
      omega
    · rw [Nat.zero_add]
      exact hsize
    · rw [dataSize] at hdataAt
      dsimp only [begun]
      omega
  · rintro ⟨⟨hrows, hviews, hbits, hviewsAt, hdataAt, hvalidityAt⟩, hgood, hmax, hlength⟩
    rw [Nat.zero_add] at hmax
    dsimp only [begun] at hlength
    refine ⟨hrows, hviews, hbits, fun row hle hlt => hgood row hle ?_, hviewsAt, ⟨hdataAt.1, ?_⟩, hmax, hvalidityAt⟩
    · rw [rows]
      omega
    · rw [dataSize]
      omega

theorem Tested.copyValidity_some (h : p.Tested o) : ∃ raw, p.Bits raw ∧
    p.copyValidity o = some { o with validity := (p.putIn o raw).validity } := by
  obtain ⟨hrows, hstart, hstop⟩ := rows_eq h.rows_in
  unfold copyValidity putIn
  rcases h.validityAt_in with hnone | ⟨bits, out, hbits, hout, hnonneg, hle⟩
  · refine ⟨[], fun hplaced => absurd hnone hplaced, ?_⟩
    rw [if_pos hnone, if_pos hnone]
  · have hplaced : placeOf p.validityAt ≠ -2 := by omega
    have hbits_in := h.bits_in bits hbits
    have hsrc : p.rows ≠ 0 → (p.piece.start + p.rows - 1) / 8 < bits.length := by omega
    have hdst : (placeOf p.validityAt).toNat + (p.rows + 7) / 8 ≤ out.length := by omega
    obtain ⟨raw, hlength, hcopy, hraw⟩ := copyBits_spec hsrc hdst
    refine ⟨raw, fun _ => ⟨hlength, fun bits' hbits' => ?_⟩, ?_⟩
    · rw [hbits, Option.some.injEq] at hbits'
      rw [← hbits']
      exact hraw
    · rw [if_neg hplaced, if_neg hplaced, hbits, hout]
      dsimp only
      rw [show p.piece.stop - p.piece.start = p.rows from rfl, hcopy]
      rfl

theorem Tested.size_validity (h : p.Tested o) {raw : Bytes} (hraw : p.Bits raw) :
    (p.putIn o raw).validity.map (·.length) = o.validity.map (·.length) := by
  unfold putIn
  dsimp only
  split
  · rfl
  next hplaced =>
  rcases h.validityAt_in with hnone | ⟨bits, out, hbits, hout, hnonneg, hle⟩
  · exact absurd hnone hplaced
  · have hlength := (hraw hplaced).1
    rw [hout, Option.map_some, Option.map_some, Option.map_some, Bytes.length_put (by omega)]

theorem Tested.spans (h : p.Tested o) : Spans p p.rows p.piece.start (p.begun o) := by
  obtain ⟨hrows, hstart, hstop⟩ := rows_eq h.rows_in
  have hviews := h.views_in
  have hat := h.viewsAt_in
  rw [viewBytes] at hviews hat
  refine ⟨Nat.le_refl _, ?_, fun bits hbits => ?_, ?_⟩
  · rw [viewBytes]
    omega
  · have hin := h.bits_in bits hbits
    omega
  · rw [dest, Nat.sub_self, Nat.zero_mul, Nat.add_zero, viewBytes]
    dsimp only [begun]
    omega

theorem Tested.room (h : p.Tested o) : Room p 0 (p.begun o) := by
  have hdata := h.dataAt_in
  exact ⟨hdata.1, rfl, Nat.zero_le _, by dsimp only [begun]; omega⟩

theorem copyTaking_all (n row : Nat) (s : Copying) :
    copyTaking p p.datas.length [] n row s = copyRows p (List.range p.datas.length) n row s :=
  copyTaking_eq (fun _ hi => List.mem_range.2 hi) List.nodup_nil (fun _ hi => by cases hi) (Nat.le_refl _)

/-- A piece that fits is copied into its place. -/
theorem copyViewPiece_done (h : p.Fits o) : ∃ raw, p.Bits raw ∧ copyViewPiece p o = .done (p.putIn o raw) := by
  obtain ⟨htested, hok⟩ := fits_iff.1 h
  obtain ⟨hviews, hrefused⟩ := tested_iff.1 htested
  obtain ⟨raw, hraw, hvalidity⟩ := htested.copyValidity_some
  have hrows := copyRows_done htested.spans htested.room (fun _ hi => List.mem_range.2 hi) hok
  refine ⟨raw, hraw, ?_⟩
  rw [begun] at hrows
  rw [copyViewPiece, hviews, hrefused, hvalidity]
  dsimp only
  rw [copyTaking_all, show p.piece.stop - p.piece.start = p.rows from rfl, hrows]
  simp only [Copying.after, dest, Nat.sub_self, Nat.zero_mul, Nat.add_zero, putIn]

/-- Any other piece ends the call with an error, and the outputs keep their lengths. -/
theorem copyViewPiece_refused (h : ¬ p.Fits o) : ∃ message o', copyViewPiece p o = .valueError message o' ∧
    o'.size = o.size := by
  cases hviews : getViews p.views p.validity p.start.toInt p.stop.toInt with
  | some message => exact ⟨message, o, by rw [copyViewPiece, hviews], rfl⟩
  | none =>
    cases hrefused : p.refused o with
    | some message => exact ⟨message, o, by rw [copyViewPiece, hviews, hrefused], rfl⟩
    | none =>
      have htested := tested_iff.2 ⟨hviews, hrefused⟩
      have hok : ¬ CopyableFrom p p.rows p.piece.start 0 (p.begun o) := fun hok => h (fits_iff.2 ⟨htested, hok⟩)
      obtain ⟨raw, hraw, hvalidity⟩ := htested.copyValidity_some
      obtain ⟨message, t, hrows, hv, hd⟩ := copyRows_bad htested.spans htested.room (fun _ hi => List.mem_range.2 hi) hok
      refine ⟨message, ⟨t.views, t.data, (p.putIn o raw).validity⟩, ?_, ?_⟩
      · rw [begun] at hrows
        rw [copyViewPiece, hviews, hrefused, hvalidity]
        dsimp only
        rw [copyTaking_all, show p.piece.stop - p.piece.start = p.rows from rfl, hrows]
      · rw [ViewOuts.size, ViewOuts.size, htested.size_validity hraw, hv, hd]
        rfl

/-- The outputs hold the piece in its place. -/
structure Written (p : Placed) (o : ViewOuts) : Prop where
  views : o.views.slice p.viewsAt.toInt.toNat (p.rows * viewBytes) = p.viewsFrom p.rows p.piece.start 0
  data : o.data.slice p.dataAt.toInt.toNat p.dataSize = p.dataFrom p.rows p.piece.start
  bits : placeOf p.validityAt ≠ -2 → ∃ bits out, p.validity = some bits ∧ o.validity = some out ∧
    p.Bits (out.slice (placeOf p.validityAt).toNat ((p.rows + 7) / 8))

theorem Fits.tested (h : p.Fits o) : p.Tested o := (fits_iff.1 h).1

/-- A piece's views, data and bits are inside the outputs. -/
theorem Fits.places (h : p.Fits o) (raw : Bytes) :
    p.viewsAt.toInt.toNat + (p.viewsFrom p.rows p.piece.start 0).length ≤ o.views.length ∧
    (p.viewsFrom p.rows p.piece.start 0).length = p.rows * viewBytes ∧
    p.dataAt.toInt.toNat + (p.dataFrom p.rows p.piece.start).length ≤ o.data.length ∧
    (placeOf p.validityAt ≠ -2 → p.Bits raw → ∃ bits out, p.validity = some bits ∧ o.validity = some out ∧
      (placeOf p.validityAt).toNat + raw.length ≤ out.length) := by
  have hviews := h.viewsAt_in
  have hdata := h.dataAt_in
  have hlength := length_viewsFrom (k := 0) h.tested.spans.views
  rw [dataSize] at hdata
  refine ⟨?_, hlength, by omega, fun hplaced hraw => ?_⟩
  · rw [hlength]
    rw [viewBytes] at hviews ⊢
    omega
  · rcases h.validityAt_in with hnone | ⟨bits, out, hbits, hout, hnonneg, hle⟩
    · exact absurd hnone hplaced
    · have hlength := (hraw hplaced).1
      exact ⟨bits, out, hbits, hout, by omega⟩

theorem Fits.size_putIn (h : p.Fits o) {raw : Bytes} (hraw : p.Bits raw) : (p.putIn o raw).size = o.size := by
  obtain ⟨hviews, -, hdata, -⟩ := h.places raw
  rw [ViewOuts.size, ViewOuts.size, h.tested.size_validity hraw, putIn, Bytes.length_put hviews, Bytes.length_put hdata]

theorem Fits.written (h : p.Fits o) {raw : Bytes} (hraw : p.Bits raw) : p.Written (p.putIn o raw) := by
  obtain ⟨hviews, hlength, hdata, hbits⟩ := h.places raw
  refine ⟨?_, Bytes.slice_put hdata, fun hplaced => ?_⟩
  · rw [← hlength]
    exact Bytes.slice_put hviews
  · obtain ⟨bits, out, hsome, hout, hle⟩ := hbits hplaced hraw
    have hback : (out.put (placeOf p.validityAt).toNat raw).slice (placeOf p.validityAt).toNat ((p.rows + 7) / 8) = raw := by
      rw [← (hraw hplaced).1]
      exact Bytes.slice_put hle
    refine ⟨bits, out.put (placeOf p.validityAt).toNat raw, hsome, ?_, ?_⟩
    · rw [putIn, if_neg hplaced, hout]
      rfl
    · rw [hback]
      exact hraw

/-- A piece in another place keeps it. -/
theorem Written.putIn (hwritten : p.Written o) (hfits : q.Fits o) (hapart : p.Apart q) {raw : Bytes} (hraw : q.Bits raw) :
    p.Written (q.putIn o raw) := by
  obtain ⟨hviews, hlength, hdata, hbits⟩ := hfits.places raw
  obtain ⟨haviews, hadata, habits⟩ := hapart
  refine ⟨?_, ?_, fun hplaced => ?_⟩
  · rw [← hwritten.views]
    exact Bytes.slice_put_of_apart hviews (by rw [hlength]; exact haviews.symm)
  · rw [← hwritten.data]
    exact Bytes.slice_put_of_apart hdata hadata.symm
  · obtain ⟨bits, out, hsome, hout, hheld⟩ := hwritten.bits hplaced
    by_cases hqplaced : placeOf q.validityAt = -2
    · refine ⟨bits, out, hsome, ?_, hheld⟩
      rw [Placed.putIn, if_pos hqplaced]
      exact hout
    · obtain ⟨qbits, out', -, hout', hle⟩ := hbits hqplaced hraw
      rw [hout, Option.some.injEq] at hout'
      subst hout'
      have habits' := (habits.resolve_left hplaced).resolve_left hqplaced
      refine ⟨bits, out.put (placeOf q.validityAt).toNat raw, hsome, ?_, ?_⟩
      · rw [Placed.putIn, if_neg hqplaced, hout]
        rfl
      · rw [Bytes.slice_put_of_apart hle (by rw [(hraw hqplaced).1]; exact habits'.symm)]
        exact hheld

/-- A piece that fits writes in its place only. -/
theorem Fits.untouched (h : p.Fits o) {raw : Bytes} (hraw : p.Bits raw) (i : Nat) :
    (¬ p.InViews i → (p.putIn o raw).views[i]? = o.views[i]?) ∧ (¬ p.InData i → (p.putIn o raw).data[i]? = o.data[i]?) ∧
      (¬ p.InValidity i → (p.putIn o raw).bitsAt i = o.bitsAt i) := by
  obtain ⟨hviews, hlength, hdata, hbits⟩ := h.places raw
  unfold InViews InData InValidity
  refine ⟨fun hout => ?_, fun hout => ?_, fun hout => ?_⟩
  · exact Bytes.getElem?_put_of_outside hviews (by rw [hlength]; omega)
  · exact Bytes.getElem?_put_of_outside hdata (by rw [dataSize] at hout; omega)
  · unfold ViewOuts.bitsAt putIn
    dsimp only
    split
    · rfl
    next hplaced =>
    obtain ⟨bits, out, -, hsome, hle⟩ := hbits hplaced hraw
    rw [hsome]
    exact Bytes.getElem?_put_of_outside hle (by rw [(hraw hplaced).1]; omega)

theorem fits_of_size {o' : ViewOuts} (hsize : o.size = o'.size) (h : p.Fits o) : p.Fits o' := by
  simp only [ViewOuts.size, Prod.mk.injEq] at hsize
  obtain ⟨hviews, hdata, hvalidity⟩ := hsize
  refine ⟨h.rows_in, h.views_in, h.bits_in, h.good, hviews ▸ h.viewsAt_in, hdata ▸ h.dataAt_in, h.size_le, ?_⟩
  rcases h.validityAt_in with hnone | ⟨bits, out, hbits, hout, hnonneg, hle⟩
  · exact .inl hnone
  · rw [hout, Option.map_some] at hvalidity
    obtain ⟨out', hout', hlength⟩ := Option.map_eq_some_iff.1 hvalidity.symm
    exact .inr ⟨bits, out', hbits, hout', hnonneg, by rw [hlength]; exact hle⟩

/-! ### Reading a piece back -/

theorem readI32_slice {b : Bytes} {off n j : Nat} (h : j + 4 ≤ n) : readI32 (b.slice off n) j = readI32 b (off + j) := by
  rw [readI32, readI32, Bytes.slice_slice h]

theorem readI32_of_slice {b : Bytes} {off n : Nat} (h : b.slice off 4 = Bytes.le 4 n) (hlt : n < 2 ^ 31) :
    readI32 b off = n := by
  rw [readI32, h, Bytes.unle_le (by omega)]
  exact if_pos hlt

/-- The words of a view that points into buffer 0. -/
theorem readI32_pointing {first : Bytes} (hfirst : first.length = 8) {k : Nat} (hk : k < 2 ^ 31) :
    readI32 (first ++ (Bytes.le 4 0 ++ Bytes.le 4 k)) 0 = readI32 first 0 ∧
    readI32 (first ++ (Bytes.le 4 0 ++ Bytes.le 4 k)) 8 = 0 ∧ readI32 (first ++ (Bytes.le 4 0 ++ Bytes.le 4 k)) 12 = k := by
  refine ⟨?_, ?_, ?_⟩
  · have hleft : (first ++ (Bytes.le 4 0 ++ Bytes.le 4 k)).slice 0 4 = first.slice 0 4 :=
      List.take_append_of_le_length (by rw [hfirst]; omega)
    rw [readI32, readI32, hleft]
  · exact readI32_of_slice (Bytes.slice_of_eq rfl hfirst.symm (Bytes.length_le 4 0).symm) (Nat.two_pow_pos 31)
  · refine readI32_of_slice (Bytes.slice_of_eq (a := first ++ Bytes.le 4 0) (b := Bytes.le 4 k) (c := []) ?_ ?_ ?_) hk
    · rw [List.append_nil, List.append_assoc]
    · rw [List.length_append, hfirst, Bytes.length_le]
    · exact (Bytes.length_le 4 k).symm

theorem dataFrom_add (p : Placed) (i m row : Nat) : p.dataFrom (i + m) row = p.dataFrom i row ++ p.dataFrom m (row + i) := by
  rw [dataFrom, dataFrom, dataFrom, ← List.flatten_append, ← List.map_append, ← List.range'_append_1]

/-- A row's bytes, in the data of all. -/
theorem slice_dataFrom {i n : Nat} (h : i < n) (row : Nat) :
    (p.dataFrom n row).slice (p.dataFrom i row).length (p.rowData (row + i)).length = p.rowData (row + i) := by
  have hsplit : p.dataFrom n row = p.dataFrom i row ++ (p.rowData (row + i) ++ p.dataFrom (n - i - 1) (row + i + 1)) := by
    rw [← dataFrom_succ, ← dataFrom_add, show i + (n - i - 1 + 1) = n by omega]
  exact Bytes.slice_of_eq hsplit rfl rfl

/-- A row's view, among the views of all. -/
theorem slice_viewsFrom {i n row k : Nat} (hviews : (row + n) * viewBytes ≤ p.views.length) (h : i < n) :
    (p.viewsFrom n row k).slice (i * viewBytes) viewBytes = p.rowView (row + i) (k + (p.dataFrom i row).length) := by
  induction i generalizing n row k with
  | zero =>
      obtain ⟨m, rfl⟩ : ∃ m, n = m + 1 := ⟨n - 1, by omega⟩
      have hhead : row * viewBytes + viewBytes ≤ p.views.length := by
        rw [viewBytes] at hviews ⊢
        omega
      rw [viewsFrom, Nat.zero_mul, ← length_rowView (k := k) hhead]
      simp [Bytes.slice, dataFrom]
  | succ i ih =>
      obtain ⟨m, rfl⟩ : ∃ m, n = m + 1 := ⟨n - 1, by omega⟩
      have hhead : row * viewBytes + viewBytes ≤ p.views.length := by
        rw [viewBytes] at hviews ⊢
        omega
      have hskip : (i + 1) * viewBytes = (p.rowView row k).length + i * viewBytes := by
        rw [length_rowView hhead, Nat.succ_mul, Nat.add_comm]
      rw [viewsFrom, hskip, Bytes.slice, List.drop_length_add_append, dataFrom_succ, List.length_append, ← Nat.add_assoc k,
        show row + (i + 1) = row + 1 + i by omega]
      exact ih (by rw [show row + 1 + m = row + (m + 1) by omega]; exact hviews) (by omega)

theorem back_isValid (hwritten : p.Written o) (hplaced : placeOf p.validityAt = -2 → p.validity = none) {i : Nat}
    (hi : i < p.rows) : (p.back o).isValid i = p.piece.isValid (p.piece.start + i) := by
  have hfull : ∀ {q r : Piece}, q.validity = (p.back o).validity → r.validity = p.validity →
      q.isValid i = r.isValid (p.piece.start + i) := by
    intro q r hq hr
    unfold Piece.isValid
    rw [hq, hr, back]
    dsimp only
    by_cases hnone : placeOf p.validityAt = -2
    · rw [if_pos hnone, hplaced hnone]
    · obtain ⟨bits, out, hbits, hout, hheld⟩ := hwritten.bits hnone
      rw [if_neg hnone, hbits, hout, Option.map_some]
      dsimp only
      rw [(hheld hnone).2 bits hbits i (by omega), decide_eq_true hi, Bool.true_and]
  exact hfull rfl rfl

theorem four_add_le {length : Int} (h : length ≤ inlineBytes) : 4 + length.toNat ≤ viewBytes := by
  rw [inlineBytes] at h
  rw [viewBytes]
  omega

/-- A view that holds its value, read where it stands. -/
theorem value_of_short {q : Piece} {i : Nat} {view : Bytes} (hview : q.views.slice (i * viewBytes) viewBytes = view)
    (h : 0 ≤ readI32 view 0) (hle : readI32 view 0 ≤ inlineBytes) :
    q.value i = some (view.slice 4 (readI32 view 0).toNat) := by
  have hlength : readI32 q.views (i * viewBytes) = readI32 view 0 := by
    rw [← hview, readI32_slice (by rw [viewBytes]; omega), Nat.add_zero]
  unfold Piece.value
  dsimp only
  rw [hlength, if_neg (by omega), if_pos hle, ← Bytes.slice_slice (four_add_le hle), hview]

/-- A view that points into the one data buffer there is. -/
theorem value_of_pointing {q : Piece} {i length start : Nat} {view data : Bytes} (hdatas : q.datas = [some data])
    (hview : q.views.slice (i * viewBytes) viewBytes = view) (hlength : readI32 view 0 = length) (hlt : inlineBytes < length)
    (hindex : readI32 view 8 = 0) (hstart : readI32 view 12 = start) (hin : start + length ≤ data.length) :
    q.value i = some (data.slice start length) := by
  have hread : ∀ j, j + 4 ≤ viewBytes → readI32 q.views (i * viewBytes + j) = readI32 view j := by
    intro j hj
    rw [← hview, readI32_slice hj]
  have h0 := hread 0 (by rw [viewBytes]; omega)
  rw [Nat.add_zero, hlength] at h0
  unfold Piece.value
  dsimp only
  rw [h0, hread 8 (by rw [viewBytes]; omega), hread 12 (by rw [viewBytes]), hindex, hstart, hdatas, if_neg (by omega),
    if_neg (by omega), if_neg (by omega)]
  simp only [Int.toNat_zero, Int.toNat_natCast, List.getElem?_cons_zero]
  rw [if_neg (by omega)]

theorem back_value (h : p.Fits o) (hwritten : p.Written o) {i : Nat} (hi : i < p.rows)
    (hvalid : p.piece.isValid (p.piece.start + i) = true) :
    (p.back o).value i = p.piece.value (p.piece.start + i) := by
  have hspans := h.tested.spans
  have hview : (p.back o).views.slice (i * viewBytes) viewBytes =
      p.rowView (p.piece.start + i) (p.dataFrom i p.piece.start).length := by
    rw [back]
    dsimp only
    rw [hwritten.views, slice_viewsFrom hspans.views hi, Nat.zero_add]
  have hgood : p.Good (p.piece.start + i) := h.good _ (by omega) (by rw [rows] at hi; omega)
  have hsome := hgood hvalid
  rcases row_cases p (p.piece.start + i) with hrow | ⟨-, hrow⟩ | ⟨-, hrow, hle⟩ | ⟨-, hlt, hrow⟩ |
    ⟨index, start, length, data, hrow⟩
  · rw [hvalid] at hrow
    cases hrow
  · rw [value_of_negative hrow] at hsome
    cases hsome
  · have hrow_view : p.rowView (p.piece.start + i) (p.dataFrom i p.piece.start).length =
        p.views.slice ((p.piece.start + i) * viewBytes) viewBytes := by
      rw [rowView, if_pos hvalid, if_pos hle]
    have hread : readI32 (p.views.slice ((p.piece.start + i) * viewBytes) viewBytes) 0 =
        readI32 p.views ((p.piece.start + i) * viewBytes) := by
      rw [readI32_slice (by rw [viewBytes]; omega), Nat.add_zero]
    rw [hrow_view] at hview
    rw [value_of_short hview (by rw [hread]; exact hrow) (by rw [hread]; exact hle), value_of_inline hrow hle, hread,
      Bytes.slice_slice (four_add_le hle)]
  · rw [value_of_astray hlt hrow] at hsome
    cases hsome
  · have hinside := hrow.inside hgood
    have hbytes : (p.rowData (p.piece.start + i)).length = length := by
      rw [rowData_of_long hrow hinside, Bytes.length_slice_of_le hinside]
    have hle : ¬ readI32 p.views ((p.piece.start + i) * viewBytes) ≤ inlineBytes := by
      have hlt := hrow.length_lt
      rw [hrow.length_eq]
      omega
    have hwhole : p.dataFrom p.rows p.piece.start = p.dataFrom i p.piece.start ++ (p.rowData (p.piece.start + i) ++
        p.dataFrom (p.rows - i - 1) (p.piece.start + i + 1)) := by
      rw [← dataFrom_succ, ← dataFrom_add, show i + (p.rows - i - 1 + 1) = p.rows by omega]
    have hlength : (p.dataFrom i p.piece.start).length + length ≤ (p.dataFrom p.rows p.piece.start).length := by
      rw [hwhole, List.length_append, List.length_append, hbytes]
      omega
    have hsize := h.size_le
    rw [dataSize, int32Max] at hsize
    have hviews := hspans.views
    have hword : (p.views.slice ((p.piece.start + i) * viewBytes) 8).length = 8 := by
      refine Bytes.length_slice_of_le ?_
      rw [viewBytes] at hviews ⊢
      omega
    have hrow_view : p.rowView (p.piece.start + i) (p.dataFrom i p.piece.start).length =
        p.views.slice ((p.piece.start + i) * viewBytes) 8 ++ (Bytes.le 4 0 ++
          Bytes.le 4 (p.dataFrom i p.piece.start).length) := by
      rw [rowView, if_pos hvalid, if_neg hle]
    rw [hrow_view] at hview
    have hdatas : (p.back o).datas = [some (p.dataFrom p.rows p.piece.start)] := by
      rw [back]
      dsimp only
      rw [hwritten.data]
    obtain ⟨hw0, hw8, hw12⟩ := readI32_pointing hword (k := (p.dataFrom i p.piece.start).length) (by omega)
    rw [readI32_slice (by omega), Nat.add_zero, hrow.length_eq] at hw0
    rw [value_of_pointing hdatas hview hw0 hrow.length_lt hw8 hw12 hlength, ← hbytes, slice_dataFrom hi, value_of_long hrow,
      if_neg (by omega), rowData_of_long hrow hinside]

/-- What a piece read back says of a row. -/
theorem back_cell (h : p.Fits o) (hwritten : p.Written o) (hplaced : placeOf p.validityAt = -2 → p.validity = none) {i : Nat}
    (hi : i < p.rows) : viewCell (p.back o) i = viewCell p.piece (p.piece.start + i) := by
  unfold viewCell
  rw [back_isValid hwritten hplaced hi]
  split
  · next hvalid => rw [back_value h hwritten hi hvalid]
  · rfl

/-- Text pieces, placed. -/
def placement : Placement Placed ViewOuts (Nat × Nat × Option Nat) where
  copy := copyViewPiece
  size := ViewOuts.size
  Able _ := True
  Fits := Fits
  Written := Written
  Apart := Apart
  fits_of_size := fits_of_size
  done _ h := by
    obtain ⟨raw, hraw, hdone⟩ := copyViewPiece_done h
    exact ⟨_, hdone, h.size_putIn hraw, h.written hraw⟩
  refused _ h := copyViewPiece_refused h
  kept _ hfits hapart hwritten hcopy := by
    obtain ⟨raw, hraw, hdone⟩ := copyViewPiece_done hfits
    rw [hdone] at hcopy
    cases hcopy
    exact hwritten.putIn hfits hapart hraw

end Placed

/-! ## Text chunks -/

variable {pieces : List Placed} {o : ViewOuts}

theorem back_cells {p : Placed} (h : p.Fits o) (hwritten : p.Written o)
    (hplaced : placeOf p.validityAt = -2 → p.validity = none) : viewCells (p.back o) = viewCells p.piece := by
  have hback : viewCells (p.back o) = (List.range' 0 p.rows).map (viewCell (p.back o)) := rfl
  have hpiece : viewCells p.piece = (List.range' (p.piece.start + 0) p.rows).map (viewCell p.piece) := rfl
  rw [hback, hpiece, List.range'_eq_map_range, List.range'_eq_map_range, List.map_map, List.map_map]
  refine List.map_congr_left fun i hi => ?_
  have hcell := Placed.back_cell h hwritten hplaced (List.mem_range.1 hi)
  simpa using hcell

/-- What `view_data_sizes` counts of rows that all show a value. -/
theorem dataSizeLoop_eq {p : Placed} {n row : Nat} {total : Int64} (hgood : ∀ i, row ≤ i → i < row + n → p.Good i) :
    dataSizeLoop p.piece n row total = some (total + Int64.ofNat (p.dataFrom n row).length) := by
  induction n generalizing row total with
  | zero =>
      rw [dataSizeLoop, Placed.dataFrom, List.range'_zero, List.map_nil, List.flatten_nil, List.length_nil]
      simp
  | succ n ih =>
      have hrow : dataSizeLoop p.piece (n + 1) row total =
          dataSizeLoop p.piece n (row + 1) (total + Int64.ofNat (p.rowData row).length) := by
        have hgood := hgood row (Nat.le_refl _) (by omega)
        have hzero : ∀ x : Int64, x + Int64.ofNat 0 = x := fun x => by simp
        rcases row_cases p row with h | ⟨hvalid, h⟩ | ⟨hvalid, h, hle⟩ | ⟨hvalid, hlt, h⟩ | ⟨index, start, length, data, h⟩
        · rw [dataSizeLoop, h, rowData_of_not_valid h, List.length_nil, hzero]
          rfl
        · have hnone := hgood hvalid
          rw [value_of_negative h] at hnone
          cases hnone
        · rw [rowData_of_le hle, List.length_nil, hzero, dataSizeLoop, hvalid]
          have hneg : ¬ readI32 p.piece.views (row * viewBytes) < 0 := Int.not_lt.2 h
          have hle' : ¬ readI32 p.piece.views (row * viewBytes) > inlineBytes := Int.not_lt.2 hle
          simp only [hneg, hle', Bool.not_true, Bool.false_eq_true, if_false]
        · have hnone := hgood hvalid
          rw [value_of_astray hlt h] at hnone
          cases hnone
        · have hinside := h.inside hgood
          have hlength : readI32 p.piece.views (row * viewBytes) = length := h.length_eq
          have hlt := h.length_lt
          rw [rowData_of_long h hinside, Bytes.length_slice_of_le hinside, dataSizeLoop, h.valid]
          dsimp only
          rw [hlength, Bool.not_true, if_neg Bool.false_ne_true, if_neg (by omega), if_pos (by omega), Int64.ofInt_eq_ofNat]
      rw [hrow, ih fun i hi hlt => hgood i (by omega) (by omega), Placed.dataFrom_succ, List.length_append, Int64.ofNat_add,
        Int64.add_assoc]

theorem viewDataSizes_eq (hgood : ∀ p ∈ pieces, p.Tested o ∧ ∀ row, p.piece.start ≤ row → row < p.piece.stop → p.Good row) :
    viewDataSizes pieces = .ok (pieces.map fun p => Int64.ofNat p.dataSize) := by
  induction pieces with
  | nil => rfl
  | cons p pieces ih =>
      obtain ⟨⟨htested, hp⟩, hrest⟩ := List.forall_mem_cons.1 hgood
      have hloop : dataSizeLoop p.piece p.rows p.piece.start 0 =
          some (0 + Int64.ofNat (p.dataFrom p.rows p.piece.start).length) :=
        dataSizeLoop_eq fun i hi hlt => hp i hi (by rw [Placed.rows] at hlt; omega)
      rw [Int64.zero_add] at hloop
      rw [viewDataSizes, (Placed.tested_iff.1 htested).1]
      dsimp only
      rw [show p.piece.stop - p.piece.start = p.rows from rfl, hloop, ih hrest]
      rfl

theorem untouched_of_done (hfits : ∀ p ∈ pieces, p.Fits o) {o' : ViewOuts} (h : copyViewChunks pieces o = .done o') :
    Untouched pieces o o' := by
  have hputs : ∀ {p : Placed} {o o' : ViewOuts}, p.Fits o → copyViewPiece p o = .done o' →
      ∃ raw, p.Bits raw ∧ o' = p.putIn o raw := by
    intro p o o' hfits hcopy
    obtain ⟨raw, hraw, hdone⟩ := Placed.copyViewPiece_done hfits
    rw [hdone] at hcopy
    cases hcopy
    exact ⟨raw, hraw, rfl⟩
  have hkeeps := fun (Φ : ViewOuts → Prop) hkeeps hΦ =>
    Placed.placement.copyAll_keeps (Φ := Φ) (fun _ _ => trivial) hfits hkeeps hΦ h
  refine ⟨fun i hi => ?_, fun i hi => ?_, fun i hi => ?_⟩
  · refine hkeeps (fun q => q.views[i]? = o.views[i]?) (fun q hq o o' hfits hcopy hΦ => ?_) rfl
    obtain ⟨raw, hraw, rfl⟩ := hputs hfits hcopy
    exact ((hfits.untouched hraw i).1 (hi q hq)).trans hΦ
  · refine hkeeps (fun q => q.data[i]? = o.data[i]?) (fun q hq o o' hfits hcopy hΦ => ?_) rfl
    obtain ⟨raw, hraw, rfl⟩ := hputs hfits hcopy
    exact ((hfits.untouched hraw i).2.1 (hi q hq)).trans hΦ
  · refine hkeeps (fun q => q.bitsAt i = o.bitsAt i) (fun q hq o o' hfits hcopy hΦ => ?_) rfl
    obtain ⟨raw, hraw, rfl⟩ := hputs hfits hcopy
    exact ((hfits.untouched hraw i).2.2 (hi q hq)).trans hΦ

/-- Text pieces that fit, in places of their own, are copied, and each is read back as it was. -/
theorem copyViewChunks_reads_back (hfits : ∀ p ∈ pieces, p.Fits o) (hapart : pieces.Pairwise Placed.Apart)
    (hplaced : ∀ p ∈ pieces, placeOf p.validityAt = -2 → p.validity = none) :
    (∃ sizes, viewDataSizes pieces = .ok sizes ∧ sizes.map Int64.toInt = pieces.map fun p => (p.dataSize : Int)) ∧
    ∃ o', copyViewChunks pieces o = .done o' ∧ o'.size = o.size ∧ Untouched pieces o o' ∧
      ∀ p ∈ pieces, viewCells (p.back o') = viewCells p.piece := by
  constructor
  · refine ⟨_, viewDataSizes_eq fun p hp => ⟨(hfits p hp).tested, (hfits p hp).good⟩, ?_⟩
    rw [List.map_map]
    refine List.map_congr_left fun p hp => ?_
    have hsize := (hfits p hp).size_le
    rw [int32Max] at hsize
    exact Int64.toInt_ofNat_of_lt (by omega)
  · obtain ⟨o', hdone, hsize, hwritten⟩ := Placed.placement.copyAll_done (fun _ _ => trivial) hfits hapart
    refine ⟨o', hdone, hsize, untouched_of_done hfits hdone, fun p hp => ?_⟩
    exact back_cells (Placed.fits_of_size hsize.symm (hfits p hp)) (hwritten p hp) (hplaced p hp)

/-- A value of 13 bytes, and a missing one after it. -/
def longThenMissing : List Placed :=
  [⟨Bytes.le 4 13 ++ ([1, 2, 3, 4] ++ Bytes.zeros 8), [[1, 2, 3, 4, 5, 6, 7, 8, 9, 10, 11, 12, 13]], none, 0, 1, 0, 0, none⟩,
    ⟨Bytes.zeros 16, [], some [0], 0, 1, 16, 13, some 0⟩]

theorem copyViewChunks_reads_back_two :
    ∃ o', copyViewChunks longThenMissing ⟨Bytes.zeros 32, Bytes.zeros 13, some [255]⟩ = .done o' ∧
      longThenMissing.map (fun p => viewCells (p.back o')) =
        [[some (some [1, 2, 3, 4, 5, 6, 7, 8, 9, 10, 11, 12, 13])], [none]] := by
  have hfits : ∀ p ∈ longThenMissing, p.Fits ⟨Bytes.zeros 32, Bytes.zeros 13, some [255]⟩ := by
    refine List.forall_mem_cons.2 ⟨?_, List.forall_mem_cons.2 ⟨?_, fun p hp => by cases hp⟩⟩
    · refine ⟨by decide, by decide, ?_, fun row h0 h1 => ?_, by decide, by decide, by decide, .inl rfl⟩
      · intro bits h
        cases h
      obtain rfl : row = 0 := Nat.lt_one_iff.1 h1
      intro _
      decide
    · refine ⟨by decide, by decide, ?_, fun row h0 h1 => ?_, by decide, by decide, by decide,
        .inr ⟨[0], [255], rfl, rfl, by decide, by decide⟩⟩
      · intro bits h
        cases h
        decide
      obtain rfl : row = 0 := Nat.lt_one_iff.1 h1
      intro hvalid
      exact absurd hvalid (by decide)
  have hplaced : ∀ p ∈ longThenMissing, placeOf p.validityAt = -2 → p.validity = none :=
    List.forall_mem_cons.2 ⟨fun _ => rfl, List.forall_mem_cons.2 ⟨fun h => absurd h (by decide), fun p hp => by cases hp⟩⟩
  have hapart : longThenMissing.Pairwise Placed.Apart := by
    refine List.pairwise_cons.2 ⟨fun q hq => ?_, List.pairwise_singleton _ _⟩
    rw [List.mem_singleton.1 hq]
    exact ⟨by decide, by decide, .inl rfl⟩
  obtain ⟨-, o', hdone, -, -, hback⟩ := copyViewChunks_reads_back hfits hapart hplaced
  exact ⟨o', hdone, (List.map_congr_left hback).trans (by decide)⟩

/-- Whatever its pieces hold, a call reads and writes inside the buffers only, and raises exactly when one does not fit. -/
theorem copyViewChunks_ends (pieces : List Placed) (o : ViewOuts) :
    (∀ p ∈ pieces, p.Fits o) ∧ (∃ o', copyViewChunks pieces o = .done o' ∧ o'.size = o.size) ∨
    (∃ p ∈ pieces, ¬ p.Fits o) ∧ ∃ message o', copyViewChunks pieces o = .valueError message o' ∧ o'.size = o.size := by
  by_cases hfits : ∀ p ∈ pieces, p.Fits o
  · exact .inl ⟨hfits, Placed.placement.copyAll_ends (fun _ _ => trivial) hfits⟩
  · have hnot : ∃ p ∈ pieces, ¬ p.Fits o := by
      by_contra hall
      exact hfits fun p hp => by_contra fun h => hall ⟨p, hp, h⟩
    exact .inr ⟨hnot, Placed.placement.copyAll_refused (fun _ _ => trivial) hnot⟩

/-! ## A piece of values of one width -/

namespace Fixed

variable {p q : Fixed} {o : FixedOuts}

theorem bmod_eq {x : Int} (h : -2 ^ 63 ≤ x ∧ x < 2 ^ 63) : x.bmod (2 ^ 64) = x := Int.bmod_eq_of_le (by omega) (by omega)

theorem Exact.toInt_rows (h : p.Exact) : (p.stop - p.start).toInt = p.stop.toInt - p.start.toInt := by
  have hrows := h.rows
  rw [Int64.toInt_sub, bmod_eq (by omega)]

theorem Exact.toInt_size (h : p.Exact) :
    ((p.stop - p.start) * p.width).toInt = (p.stop.toInt - p.start.toInt) * p.width.toInt := by
  rw [Int64.toInt_mul, h.toInt_rows, bmod_eq h.size]

theorem Exact.toInt_values (h : p.Exact) : (p.stop * p.width).toInt = p.stop.toInt * p.width.toInt := by
  rw [Int64.toInt_mul, bmod_eq h.values]

theorem toInt_bytes {x : Int64} (hnonneg : 0 ≤ x.toInt) (hlt : x.toInt < 2 ^ 63 - 7) :
    ((x + 7) / 8).toInt = (x.toInt + 7) / 8 := by
  have hadd : (x + 7).toInt = x.toInt + 7 := by
    rw [Int64.toInt_add, show (7 : Int64).toInt = 7 from rfl, bmod_eq (by omega)]
  rw [Int64.toInt_div, hadd, show (8 : Int64).toInt = 8 from rfl, Int.tdiv_eq_ediv_of_nonneg (by omega), bmod_eq (by omega)]

/-- The outputs with the piece in its place, and `raw` for its validity. -/
def putIn (p : Fixed) (o : FixedOuts) (raw : Bytes) : FixedOuts where
  values := o.values.put p.valuesAt.toInt.toNat
    (p.values.slice (p.start.toInt.toNat * p.width.toInt.toNat) (p.rows * p.width.toInt.toNat))
  validity := if placeOf p.validityAt = -2 then o.validity else o.validity.map fun out => out.put (placeOf p.validityAt).toNat raw

/-- `raw` holds the validity bits of the piece from bit 0, and no others, if it has a place for them. -/
def Bits (p : Fixed) (raw : Bytes) : Prop :=
  placeOf p.validityAt ≠ -2 → raw.length = (p.rows + 7) / 8 ∧ ∀ bits, p.validity = some bits →
    ∀ i, i < 8 * ((p.rows + 7) / 8) → bit raw i = (decide (i < p.rows) && bit bits (p.start.toInt.toNat + i))

/-- What the test of the values finds. -/
structure Tested (p : Fixed) (o : FixedOuts) : Prop where
  width_pos : 0 < p.width.toInt
  rows_in : 0 ≤ p.start.toInt ∧ p.start.toInt ≤ p.stop.toInt
  values_in : p.stop.toInt * p.width.toInt ≤ p.values.length
  valuesAt_in : 0 ≤ p.valuesAt.toInt ∧ p.valuesAt.toInt + (p.stop.toInt - p.start.toInt) * p.width.toInt ≤ o.values.length

theorem Tested.rows_eq (h : p.Tested o) : (p.rows : Int) = p.stop.toInt - p.start.toInt ∧
    (p.rows * p.width.toInt.toNat : Nat) = (p.stop.toInt - p.start.toInt) * p.width.toInt ∧
    (p.start.toInt.toNat * p.width.toInt.toNat : Nat) = p.start.toInt * p.width.toInt ∧
    p.start.toInt * p.width.toInt + (p.stop.toInt - p.start.toInt) * p.width.toInt = p.stop.toInt * p.width.toInt := by
  have hrows := h.rows_in
  have hwidth := h.width_pos
  have hcount : (p.rows : Int) = p.stop.toInt - p.start.toInt := by
    rw [rows]
    omega
  refine ⟨hcount, ?_, ?_, ?_⟩
  · rw [Nat.cast_mul, hcount, Int.toNat_of_nonneg (by omega)]
  · rw [Nat.cast_mul, Int.toNat_of_nonneg (by omega), Int.toNat_of_nonneg (by omega)]
  · rw [← Int.add_mul, show p.start.toInt + (p.stop.toInt - p.start.toInt) = p.stop.toInt by omega]

/-- The piece's values are inside its buffer. -/
theorem Tested.places (h : p.Tested o) :
    p.start.toInt.toNat * p.width.toInt.toNat + p.rows * p.width.toInt.toNat ≤ p.values.length ∧
    p.valuesAt.toInt.toNat + p.rows * p.width.toInt.toNat ≤ o.values.length := by
  obtain ⟨hrows, hsize, hstart, hsum⟩ := h.rows_eq
  have hvalues := h.values_in
  have hat := h.valuesAt_in
  omega

/-- The piece's place for its validity. -/
def Placeable (p : Fixed) (validity : Option Bytes) : Prop :=
  placeOf p.validityAt = -2 ∨ ∃ bits out, p.validity = some bits ∧ validity = some out ∧
    (p.stop.toInt + 7) / 8 ≤ bits.length ∧
    0 ≤ placeOf p.validityAt ∧ placeOf p.validityAt + ((p.rows + 7) / 8 : Nat) ≤ out.length

theorem fits_iff : p.Fits o ↔ p.Tested o ∧ p.Placeable o.validity :=
  ⟨fun ⟨hwidth, hrows, hvalues, hat, hvalidity⟩ => ⟨⟨hwidth, hrows, hvalues, hat⟩, hvalidity⟩,
    fun ⟨⟨hwidth, hrows, hvalues, hat⟩, hvalidity⟩ => ⟨hwidth, hrows, hvalues, hat, hvalidity⟩⟩

theorem copyFixedValidity_done (hexact : p.Exact) (hrows : 0 ≤ p.start.toInt ∧ p.start.toInt ≤ p.stop.toInt)
    (h : p.Placeable o.validity) : ∃ raw, p.Bits raw ∧
      copyFixedValidity p (p.stop - p.start) o = .done { o with validity := (p.putIn o raw).validity } := by
  unfold copyFixedValidity putIn
  rcases h with hnone | ⟨bits, out, hbits, hout, hin, hnonneg, hle⟩
  · refine ⟨[], fun hplaced => absurd hnone hplaced, ?_⟩
    rw [if_pos hnone, if_pos hnone]
  · have hplaced : placeOf p.validityAt ≠ -2 := by omega
    have hlt := hexact.rows
    have hcount : (p.rows : Int) = p.stop.toInt - p.start.toInt := by
      rw [rows]
      omega
    have htoInt := hexact.toInt_rows
    have hbytes : ((p.stop - p.start + 7) / 8).toInt = (p.stop.toInt - p.start.toInt + 7) / 8 := by
      rw [toInt_bytes (by rw [htoInt]; omega) (by rw [htoInt]; omega), htoInt]
    have hstop : ((p.stop + 7) / 8).toInt = (p.stop.toInt + 7) / 8 := toInt_bytes (by omega) hexact.stop
    have hsrc : p.rows ≠ 0 → (p.start.toInt.toNat + p.rows - 1) / 8 < bits.length := by omega
    have hdst : (placeOf p.validityAt).toNat + (p.rows + 7) / 8 ≤ out.length := by omega
    obtain ⟨raw, hlength, hcopy, hraw⟩ := copyBits_spec hsrc hdst
    refine ⟨raw, fun _ => ⟨hlength, fun bits' hbits' => ?_⟩, ?_⟩
    · rw [hbits, Option.some.injEq] at hbits'
      rw [← hbits']
      exact hraw
    · rw [if_neg hplaced, if_neg hplaced, hbits, hout]
      dsimp only
      rw [if_neg (by rw [hbytes]; omega), if_neg (by rw [hstop]; omega), if_neg (by rw [hbytes]; omega), htoInt,
        show (p.stop.toInt - p.start.toInt).toNat = p.rows from rfl, hcopy]
      rfl

theorem copyFixedValidity_refused (hexact : p.Exact) (hrows : 0 ≤ p.start.toInt ∧ p.start.toInt ≤ p.stop.toInt)
    (h : ¬ p.Placeable o.validity) : ∃ message, copyFixedValidity p (p.stop - p.start) o = .valueError message o := by
  have hplaced : placeOf p.validityAt ≠ -2 := fun hnone => h (.inl hnone)
  unfold copyFixedValidity
  rw [if_neg hplaced]
  cases hbits : p.validity with
  | none => exact ⟨_, rfl⟩
  | some bits =>
    cases hout : o.validity with
    | none => exact ⟨_, rfl⟩
    | some out =>
      have hlt := hexact.rows
      have htoInt := hexact.toInt_rows
      have hcount : (p.rows : Int) = p.stop.toInt - p.start.toInt := by
        rw [rows]
        omega
      have hbytes : ((p.stop - p.start + 7) / 8).toInt = (p.stop.toInt - p.start.toInt + 7) / 8 := by
        rw [toInt_bytes (by rw [htoInt]; omega) (by rw [htoInt]; omega), htoInt]
      have hstop : ((p.stop + 7) / 8).toInt = (p.stop.toInt + 7) / 8 := toInt_bytes (by omega) hexact.stop
      dsimp only
      split
      · exact ⟨_, rfl⟩
      next hin =>
      split
      · exact ⟨_, rfl⟩
      next hstop' =>
      rw [hbytes] at hin
      rw [hstop] at hstop'
      exact absurd (.inr ⟨bits, out, hbits, hout, by omega, by omega, by omega⟩) h

/-- The values are copied, then the validity. -/
theorem copyFixedPiece_of_tested (hexact : p.Exact) (h : p.Tested o) :
    copyFixedPiece p o = copyFixedValidity p (p.stop - p.start) { o with values := (p.putIn o []).values } := by
  obtain ⟨hrows, hsize, hstart, hsum⟩ := h.rows_eq
  obtain ⟨hsrc, hdst⟩ := h.places
  have hwidth := h.width_pos
  have hin := h.rows_in
  have hat := h.valuesAt_in
  have hvalues := h.values_in
  have hbound := hexact.values
  have htoInt := hexact.toInt_rows
  have hsizeInt := hexact.toInt_size
  have hsizeNat : ((p.stop - p.start) * p.width).toUInt64.toNat = p.rows * p.width.toInt.toNat := by
    have hnonneg : (0 : Int64) ≤ (p.stop - p.start) * p.width := by
      rw [Int64.le_iff_toInt_le, hsizeInt, show (0 : Int64).toInt = 0 from rfl]
      omega
    rw [Int64.toNat_toUInt64_of_le hnonneg, Int64.toNatClampNeg, hsizeInt]
    omega
  have hstartInt : (p.start * p.width).toInt = p.start.toInt * p.width.toInt := by
    rw [Int64.toInt_mul, bmod_eq]
    omega
  have hcopy := Bytes.copy_eq hdst hsrc
  unfold copyFixedPiece
  dsimp only
  rw [if_neg (by rw [hsizeInt, htoInt]; omega), if_neg (by rw [hexact.toInt_values]; omega), hsizeNat, hstartInt, ← hstart,
    show p.valuesAt.toInt = (p.valuesAt.toInt.toNat : Int) by omega, hcopy]
  simp only [putIn]

theorem copyFixedPiece_of_not_tested (hexact : p.Exact) (h : ¬ p.Tested o) :
    ∃ message, copyFixedPiece p o = .valueError message o := by
  unfold copyFixedPiece
  dsimp only
  rw [hexact.toInt_size, hexact.toInt_rows, hexact.toInt_values]
  split
  · exact ⟨_, rfl⟩
  next hin =>
  split
  · exact ⟨_, rfl⟩
  next hvalues =>
  exact absurd ⟨by omega, by omega, by omega, by omega, by omega⟩ h

/-- A piece that fits is copied into its place. -/
theorem copyFixedPiece_done (hexact : p.Exact) (h : p.Fits o) : ∃ raw, p.Bits raw ∧ copyFixedPiece p o = .done (p.putIn o raw) := by
  obtain ⟨htested, hplaceable⟩ := fits_iff.1 h
  obtain ⟨raw, hraw, hvalidity⟩ :=
    copyFixedValidity_done (o := { o with values := (p.putIn o []).values }) hexact h.rows_in hplaceable
  exact ⟨raw, hraw, by rw [copyFixedPiece_of_tested hexact htested, hvalidity]; rfl⟩

theorem Fits.size_putIn (h : p.Fits o) {raw : Bytes} (hraw : p.Bits raw) : (p.putIn o raw).size = o.size := by
  obtain ⟨htested, hplaceable⟩ := fits_iff.1 h
  obtain ⟨hsrc, hdst⟩ := htested.places
  have hvalues : (p.putIn o raw).values.length = o.values.length :=
    Bytes.length_put (by rw [Bytes.length_slice_of_le hsrc]; exact hdst)
  have hvalidity : (p.putIn o raw).validity.map (·.length) = o.validity.map (·.length) := by
    unfold putIn
    dsimp only
    split
    · rfl
    next hplaced =>
    rcases hplaceable with hnone | ⟨bits, out, hbits, hout, hin, hnonneg, hle⟩
    · exact absurd hnone hplaced
    · have hlength := (hraw hplaced).1
      rw [hout, Option.map_some, Option.map_some, Option.map_some, Bytes.length_put (by omega)]
  rw [FixedOuts.size, FixedOuts.size, hvalues, hvalidity]

/-- Any other piece ends the call with an error, and the outputs keep their lengths. -/
theorem copyFixedPiece_refused (hexact : p.Exact) (h : ¬ p.Fits o) :
    ∃ message o', copyFixedPiece p o = .valueError message o' ∧ o'.size = o.size := by
  by_cases htested : p.Tested o
  · have hplaceable : ¬ p.Placeable o.validity := fun hplaceable => h (fits_iff.2 ⟨htested, hplaceable⟩)
    obtain ⟨message, hrefused⟩ := copyFixedValidity_refused (o := { o with values := (p.putIn o []).values }) hexact
      htested.rows_in hplaceable
    obtain ⟨hsrc, hdst⟩ := htested.places
    refine ⟨message, _, by rw [copyFixedPiece_of_tested hexact htested, hrefused], ?_⟩
    rw [FixedOuts.size, FixedOuts.size, putIn, Bytes.length_put (by rw [Bytes.length_slice_of_le hsrc]; exact hdst)]
  · obtain ⟨message, hrefused⟩ := copyFixedPiece_of_not_tested hexact htested
    exact ⟨message, o, hrefused, rfl⟩

/-- The outputs hold the piece in its place. -/
structure Written (p : Fixed) (o : FixedOuts) : Prop where
  values : o.values.slice p.valuesAt.toInt.toNat (p.rows * p.width.toInt.toNat) =
    p.values.slice (p.start.toInt.toNat * p.width.toInt.toNat) (p.rows * p.width.toInt.toNat)
  bits : placeOf p.validityAt ≠ -2 → ∃ bits out, p.validity = some bits ∧ o.validity = some out ∧
    p.Bits (out.slice (placeOf p.validityAt).toNat ((p.rows + 7) / 8))

theorem Fits.written (h : p.Fits o) {raw : Bytes} (hraw : p.Bits raw) : p.Written (p.putIn o raw) := by
  obtain ⟨htested, hplaceable⟩ := fits_iff.1 h
  obtain ⟨hsrc, hdst⟩ := htested.places
  have hlength := Bytes.length_slice_of_le hsrc
  refine ⟨?_, fun hplaced => ?_⟩
  · have hback := Bytes.slice_put (b := o.values)
      (s := p.values.slice (p.start.toInt.toNat * p.width.toInt.toNat) (p.rows * p.width.toInt.toNat)) (by rw [hlength]; exact hdst)
    rw [hlength] at hback
    exact hback
  · rcases hplaceable with hnone | ⟨bits, out, hbits, hout, hin, hnonneg, hle⟩
    · exact absurd hnone hplaced
    · have hlen := (hraw hplaced).1
      have hback : (out.put (placeOf p.validityAt).toNat raw).slice (placeOf p.validityAt).toNat ((p.rows + 7) / 8) = raw := by
        rw [← hlen]
        exact Bytes.slice_put (by omega)
      refine ⟨bits, out.put (placeOf p.validityAt).toNat raw, hbits, ?_, ?_⟩
      · rw [putIn, if_neg hplaced, hout]
        rfl
      · rw [hback]
        exact hraw

/-- A piece in another place keeps it. -/
theorem Written.putIn (hwritten : p.Written o) (hfits : q.Fits o) (hapart : p.Apart q) {raw : Bytes} (hraw : q.Bits raw) :
    p.Written (q.putIn o raw) := by
  obtain ⟨htested, hplaceable⟩ := fits_iff.1 hfits
  obtain ⟨hsrc, hdst⟩ := htested.places
  have hlength := Bytes.length_slice_of_le hsrc
  refine ⟨?_, fun hplaced => ?_⟩
  · rw [← hwritten.values]
    exact Bytes.slice_put_of_apart (by rw [hlength]; exact hdst) (by rw [hlength]; exact hapart.1.symm)
  · obtain ⟨bits, out, hbits, hout, hheld⟩ := hwritten.bits hplaced
    by_cases hqplaced : placeOf q.validityAt = -2
    · refine ⟨bits, out, hbits, ?_, hheld⟩
      rw [Fixed.putIn, if_pos hqplaced]
      exact hout
    · obtain ⟨qbits, out', -, hout', hin, hnonneg, hle⟩ := hplaceable.resolve_left hqplaced
      rw [hout, Option.some.injEq] at hout'
      subst hout'
      have hlen := (hraw hqplaced).1
      have habits := (hapart.2.resolve_left hplaced).resolve_left hqplaced
      refine ⟨bits, out.put (placeOf q.validityAt).toNat raw, hbits, ?_, ?_⟩
      · rw [Fixed.putIn, if_neg hqplaced, hout]
        rfl
      · rw [Bytes.slice_put_of_apart (by omega) (by rw [hlen]; exact habits.symm)]
        exact hheld

theorem fits_of_size {o' : FixedOuts} (hsize : o.size = o'.size) (h : p.Fits o) : p.Fits o' := by
  simp only [FixedOuts.size, Prod.mk.injEq] at hsize
  obtain ⟨hvalues, hvalidity⟩ := hsize
  refine ⟨h.width_pos, h.rows_in, h.values_in, hvalues ▸ h.valuesAt_in, ?_⟩
  rcases h.validityAt_in with hnone | ⟨bits, out, hbits, hout, hin, hnonneg, hle⟩
  · exact .inl hnone
  · rw [hout, Option.map_some] at hvalidity
    obtain ⟨out', hout', hlength⟩ := Option.map_eq_some_iff.1 hvalidity.symm
    exact .inr ⟨bits, out', hbits, hout', hin, hnonneg, by rw [hlength]; exact hle⟩

/-- Pieces of values of one width, placed. -/
def placement : Placement Fixed FixedOuts (Nat × Option Nat) where
  copy := copyFixedPiece
  size := FixedOuts.size
  Able := Exact
  Fits := Fits
  Written := Written
  Apart := Apart
  fits_of_size := fits_of_size
  done hexact h := by
    obtain ⟨raw, hraw, hdone⟩ := copyFixedPiece_done hexact h
    exact ⟨_, hdone, h.size_putIn hraw, h.written hraw⟩
  refused := copyFixedPiece_refused
  kept hexact hfits hapart hwritten hcopy := by
    obtain ⟨raw, hraw, hdone⟩ := copyFixedPiece_done hexact hfits
    rw [hdone] at hcopy
    cases hcopy
    exact hwritten.putIn hfits hapart hraw

theorem backCells_eq (hwritten : p.Written o) (hplaced : placeOf p.validityAt = -2 → p.validity = none) :
    p.backCells o = p.cells := by
  have hcells : p.cells = (List.range' (p.start.toInt.toNat + 0) p.rows).map
      (fixedCell p.values p.width.toInt.toNat p.validity) := rfl
  rw [backCells, hcells, List.range'_eq_map_range, List.range'_eq_map_range, List.map_map, List.map_map]
  refine List.map_congr_left fun i hi => ?_
  have hi := List.mem_range.1 hi
  have hend : i * p.width.toInt.toNat + p.width.toInt.toNat ≤ p.rows * p.width.toInt.toNat := by
    rw [← Nat.succ_mul]
    exact Nat.mul_le_mul_right _ hi
  have hbytes : (o.values.slice p.valuesAt.toInt.toNat (p.rows * p.width.toInt.toNat)).slice (i * p.width.toInt.toNat)
      p.width.toInt.toNat = p.values.slice ((p.start.toInt.toNat + i) * p.width.toInt.toNat) p.width.toInt.toNat := by
    rw [hwritten.values, Bytes.slice_slice hend, Nat.add_mul]
  simp only [Function.comp_apply, Nat.zero_add, Nat.add_zero, fixedCell]
  by_cases hnone : placeOf p.validityAt = -2
  · rw [if_pos hnone, hplaced hnone]
    exact congrArg some hbytes
  · obtain ⟨bits, out, hbits, hout, hheld⟩ := hwritten.bits hnone
    rw [if_neg hnone, hbits, hout, Option.map_some]
    dsimp only
    rw [(hheld hnone).2 bits hbits i (by omega), decide_eq_true hi, Bool.true_and, hbytes]

end Fixed

/-! ## Chunks of values of one width -/

/-- Pieces that fit, in places of their own, are copied, and each is read back as it was; any other piece ends the call with
an error. -/
theorem copyFixedChunks_reads_back {pieces : List Fixed} {o : FixedOuts} (hexact : ∀ p ∈ pieces, p.Exact) :
    ((∀ p ∈ pieces, p.Fits o) → pieces.Pairwise Fixed.Apart →
      (∀ p ∈ pieces, placeOf p.validityAt = -2 → p.validity = none) →
      ∃ o', copyFixedChunks pieces o = .done o' ∧ o'.size = o.size ∧ ∀ p ∈ pieces, p.backCells o' = p.cells) ∧
    ((∃ p ∈ pieces, ¬ p.Fits o) → ∃ message o', copyFixedChunks pieces o = .valueError message o' ∧ o'.size = o.size) := by
  refine ⟨fun hfits hapart hplaced => ?_, Fixed.placement.copyAll_refused hexact⟩
  obtain ⟨o', hdone, hsize, hwritten⟩ := Fixed.placement.copyAll_done hexact hfits hapart
  exact ⟨o', hdone, hsize, fun p hp => Fixed.backCells_eq (hwritten p hp) (hplaced p hp)⟩

/-- Three values of two bytes, the second of them missing, from a chunk that begins a row before. -/
def threeValues : Fixed := ⟨[9, 9, 1, 2, 3, 4, 5, 6], 2, some [0b1011], 1, 4, 0, some 0⟩

theorem copyFixedChunks_reads_back_three :
    ∃ o', copyFixedChunks [threeValues] ⟨Bytes.zeros 6, some [0]⟩ = .done o' ∧
      threeValues.backCells o' = [some [1, 2], none, some [5, 6]] := by
  have hexact : ∀ p ∈ [threeValues], p.Exact := by
    intro p hp
    rw [List.mem_singleton.1 hp]
    exact ⟨by decide, by decide, by decide, by decide⟩
  obtain ⟨o', hdone, -, hback⟩ := (copyFixedChunks_reads_back (o := ⟨Bytes.zeros 6, some [0]⟩) hexact).1
    (fun p hp => by
      rw [List.mem_singleton.1 hp]
      exact ⟨by decide, by decide, by decide, by decide, .inr ⟨[0b1011], [0], rfl, rfl, by decide, by decide, by decide⟩⟩)
    (List.pairwise_singleton _ _)
    (fun p hp hnone => by
      rw [List.mem_singleton.1 hp] at hnone
      exact absurd hnone (by decide))
  exact ⟨o', hdone, (hback _ (.head _)).trans (by decide)⟩

end Cash.ChunkCopy
