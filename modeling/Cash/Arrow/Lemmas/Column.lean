import Cash.Arrow.Views

/-!
# Columns folded to their rows
-/

namespace Cash.Arrow

/-! ## A column is folded to its rows -/

section

variable {kind : Layout} {width : Nat} {c : Chunk} {cells cells' : List Cell}

/-! ### The parts of a list of rows -/

theorem nullsOf_append (base : Nat) :
    nullsOf base (cells ++ cells') = nullsOf base cells ++ nullsOf (base + cells.length) cells' := by
  induction cells generalizing base with
  | nil => rfl
  | cons cell cells ih =>
    simp only [List.cons_append, nullsOf, ih, List.append_assoc, List.length_cons]
    rw [show base + 1 + cells.length = base + (cells.length + 1) by omega]

theorem lengthsOf_append : lengthsOf kind width (cells ++ cells') = lengthsOf kind width cells ++ lengthsOf kind width cells' := by
  unfold lengthsOf
  split
  · exact List.flatMap_append
  · rfl

theorem valuesOf_append : valuesOf (cells ++ cells') = valuesOf cells ++ valuesOf cells' := List.flatMap_append

theorem nullsOf_range (f : Nat → Cell) (n base : Nat) :
    nullsOf base ((List.range n).map f) = ((List.range n).filter fun i => !(f i).valid).flatMap fun i => Bytes.le 8 (i + base) := by
  induction n with
  | zero => rfl
  | succ n ih =>
    rw [List.range_succ, List.map_append, nullsOf_append, ih, List.filter_append, List.flatMap_append]
    congr 1
    cases hv : (f n).valid <;> simp [nullsOf, hv, Nat.add_comm]

/-! ### One chunk -/

@[simp] theorem length_cells : (c.cells kind width).length = c.length := by simp [Chunk.cells]

theorem Chunk.nulls_eq (base : Nat) : c.nulls base = c.missing.flatMap fun i => Bytes.le 8 (i + base) := by
  unfold Chunk.nulls Chunk.nullCount
  split
  · next h => rw [List.length_eq_zero_iff.mp h]; rfl
  · rfl

theorem nulls_cells (base : Nat) : c.nulls base = nullsOf base (c.cells kind width) := by
  rw [Chunk.nulls_eq, Chunk.cells, nullsOf_range]
  rfl

/-- Slices one after the other, where what they begin at does not go back. -/
theorem slice_flatMap (b : Bytes) (start : Nat → Nat) {n : Nat} (h : ∀ i < n, start i ≤ start (i + 1)) :
    start 0 ≤ start n ∧ b.slice (start 0) (start n - start 0) =
      (List.range n).flatMap fun i => b.slice (start i) (start (i + 1) - start i) := by
  induction n with
  | zero => simp
  | succ n ih =>
    obtain ⟨hle, heq⟩ := ih fun i hi => h i (by omega)
    have hn := h n (by omega)
    refine ⟨by omega, ?_⟩
    rw [List.range_succ, List.flatMap_append, ← heq, List.flatMap_singleton,
      show start (n + 1) - start 0 = (start n - start 0) + (start (n + 1) - start n) by omega, Bytes.slice_add,
      show start 0 + (start n - start 0) = start n by omega]

theorem fixedPiece_eq (c : Chunk) (width : Nat) : c.fixedPiece width = valuesOf (c.cells .fixed width) := by
  have h := (slice_flatMap c.first (fun i => (c.offset + i) * width) (n := c.length) fun i _ =>
    Nat.mul_le_mul_right _ (by omega)).2
  simp only [Nat.add_zero] at h
  rw [Chunk.fixedPiece, h, valuesOf, Chunk.cells, List.flatMap_map]
  congr 1
  funext i
  rw [Chunk.cell, ← Nat.sub_mul, show c.offset + (i + 1) - (c.offset + i) = 1 by omega, Nat.one_mul]

theorem boolBytes_eq (c : Chunk) (width : Nat) : c.boolBytes = valuesOf (c.cells .bool width) := by
  rw [Chunk.boolBytes, valuesOf, Chunk.cells, List.flatMap_map, ← List.flatMap_pure_eq_map]
  apply List.flatMap_congr
  intro i hi
  have hvalid : c.nullCount = 0 → c.isValid i = true := by
    intro h
    have hnot : i ∉ c.missing := by rw [List.length_eq_zero_iff.mp h]; simp
    simpa [Chunk.missing, List.mem_range.mp hi] using hnot
  simp only [Chunk.cell]
  split
  · next h => simp [hvalid h]
  · rfl

theorem dataSlice_eq (h : c.Valid .offsets width) : c.dataSlice width = valuesOf (c.cells .offsets width) := by
  have hall := slice_flatMap c.data (c.offsetAt width) h.1
  have hdata : c.dataSlice width = c.data.slice (c.offsetAt width 0) (c.offsetAt width c.length - c.offsetAt width 0) := by
    unfold Chunk.dataSlice Chunk.data
    rcases c.rest.head? with _ | _ | data
    · simp [Bytes.slice]
    · simp [Bytes.slice]
    · simp only
      split
      · rfl
      · rw [show c.offsetAt width c.length - c.offsetAt width 0 = 0 by omega, Bytes.slice_zero]
  rw [hdata, hall.2, valuesOf, Chunk.cells, List.flatMap_map]
  rfl

theorem offsetAt_le {i : Nat} (h : c.Valid .offsets width) (hi : i ≤ c.length) :
    c.offsetAt width i ≤ c.offsetAt width c.length := by
  induction hi using Nat.decreasingInduction with
  | self => exact Nat.le_refl _
  | of_succ i hi ih => exact Nat.le_trans (h.1 i hi) ih

theorem length_cell_offsets {i : Nat} (h : c.Valid .offsets width) (hi : i < c.length) :
    (c.cell .offsets width i).bytes.length = c.offsetAt width (i + 1) - c.offsetAt width i := by
  have hle := offsetAt_le h (show i + 1 ≤ c.length from hi)
  have hdata := h.2.1
  rw [Chunk.cell, Bytes.length_slice]
  omega

theorem diffs_eq (h : c.Valid .offsets width) : c.diffs width = lengthsOf .offsets width (c.cells .offsets width) := by
  rw [Chunk.diffs, lengthsOf, if_pos rfl, Chunk.cells, List.flatMap_map]
  apply List.flatMap_congr
  intro i hi
  have hi := List.mem_range.mp hi
  have hmono := h.1 i hi
  have hle := offsetAt_le h (show i + 1 ≤ c.length from hi)
  have hlast := h.2.2
  rw [length_cell_offsets h hi]
  congr 1
  rw [show c.offsetAt width (i + 1) + 256 ^ width - c.offsetAt width i =
    c.offsetAt width (i + 1) - c.offsetAt width i + 256 ^ width by omega, Nat.add_mod_right]
  exact Nat.mod_eq_of_lt (by omega)

end

/-! ## The pieces gathered into blocks are one stream -/

section

variable {pieces : List Bytes} {skip room block : Nat}

/-- What is left from byte `skip` of the first piece on. -/
def restPieces : List Bytes → Nat → Bytes
  | [], _ => []
  | piece :: pieces, skip => piece.drop skip ++ pieces.flatten

def SkipIn : List Bytes → Nat → Prop
  | [], _ => True
  | piece :: _, skip => skip ≤ piece.length

theorem restPieces_zero (pieces : List Bytes) : restPieces pieces 0 = pieces.flatten := by
  cases pieces <;> simp [restPieces]

theorem skipIn_zero (pieces : List Bytes) : SkipIn pieces 0 := by
  cases pieces <;> simp [SkipIn]

theorem copyPieces_spec (room : Nat) (h : SkipIn pieces skip) :
    ∃ read skip' out, copyPieces pieces skip room = some ((read, skip'), out) ∧ SkipIn (pieces.drop read) skip' ∧
      out ++ restPieces (pieces.drop read) skip' = restPieces pieces skip ∧
      (pieces ≠ [] → 0 < room → 0 < out.length + read) := by
  induction pieces generalizing skip room with
  | nil => exact ⟨0, skip, [], rfl, trivial, rfl, fun h => absurd rfl h⟩
  | cons piece pieces ih =>
    have hskip : skip ≤ piece.length := h
    rw [copyPieces]
    split
    · next hroom => exact ⟨0, skip, [], rfl, h, rfl, fun _ hpos => absurd hroom (by omega)⟩
    rw [if_neg (by omega)]
    simp only
    generalize htake : min (piece.length - skip) room = take
    split
    · next hend =>
      have htake : take = piece.length - skip := by omega
      obtain ⟨read, skip', out, hcopy, hin, hout, -⟩ := ih (room - take) (skipIn_zero pieces)
      refine ⟨read + 1, skip', piece.slice skip take ++ out, by rw [hcopy]; rfl, hin, ?_, fun _ _ => by omega⟩
      rw [List.drop_succ_cons, List.append_assoc, hout, restPieces_zero, restPieces, htake, Bytes.slice_eq_drop (by omega)]
    · next hend =>
      refine ⟨0, skip + take, piece.slice skip take, rfl, by simp only [List.drop_zero, SkipIn]; omega, ?_, fun _ _ => ?_⟩
      · rw [List.drop_zero, restPieces, restPieces, ← List.append_assoc, Bytes.slice, ← List.drop_drop, List.take_append_drop]
      · rw [Bytes.length_slice_of_le (by omega)]
        omega

theorem updateFromPieces_eq (hblock : 0 < block) (pieces : List Bytes) : updateFromPieces block pieces = some pieces.flatten := by
  have hreads : Reader.Reads (fun s : Nat × Nat => SkipIn (pieces.drop s.1) s.2) (fun s => decide (pieces.length ≤ s.1))
      (copyCall pieces block) (fun s => restPieces (pieces.drop s.1) s.2)
      (fun s => (restPieces (pieces.drop s.1) s.2).length + (pieces.length - s.1)) := by
    constructor
    · intro s _ hdone
      rw [List.drop_eq_nil_of_le (of_decide_eq_true hdone)]
      rfl
    · intro s hs hdone
      have hlt : s.1 < pieces.length := by simpa using hdone
      obtain ⟨read, skip', out, hcopy, hin, hout, hpos⟩ := copyPieces_spec block hs
      have hmore := hpos (by simp [hlt]) hblock
      have hlen := congrArg List.length hout
      rw [List.length_append, List.drop_drop] at hlen
      rw [List.drop_drop] at hin hout
      exact ⟨(s.1 + read, skip'), out, by simp [copyCall, hcopy], hin, hout, by simp only; omega⟩
  rw [updateFromPieces, Reader.drain_eq hreads (skipIn_zero _) (by simp [restPieces_zero]), List.drop_zero, restPieces_zero]

end

/-! ## The readers of a view column give its lengths and its values -/

section

variable {p : Piece} {pieces : List Piece} {row skip room n : Nat}

/-! ### One piece -/

/-- The bytes of a row, none for a missing one. -/
def Piece.text (p : Piece) (row : Nat) : Bytes := if p.isValid row then (p.value row).getD [] else []

/-- The buffers cover the rows, and each view that is there points into them. -/
structure Piece.Ok (p : Piece) : Prop where
  inBounds : p.inBounds = true
  value : ∀ row, p.start ≤ row → row < p.stop → p.isValid row → (p.value row).isSome

def Piece.lengthsFrom (p : Piece) (row : Nat) : Bytes :=
  (List.range' row (p.stop - row)).flatMap fun row => Bytes.le 8 (p.text row).length

def Piece.valuesFrom (p : Piece) (row : Nat) : Bytes := (List.range' row (p.stop - row)).flatMap p.text

theorem Piece.lengthsFrom_of_lt (h : row < p.stop) :
    p.lengthsFrom row = Bytes.le 8 (p.text row).length ++ p.lengthsFrom (row + 1) := by
  unfold Piece.lengthsFrom
  rw [show p.stop - row = p.stop - (row + 1) + 1 by omega, List.range'_succ, List.flatMap_cons]

theorem Piece.lengthsFrom_of_le (h : p.stop ≤ row) : p.lengthsFrom row = [] := by
  unfold Piece.lengthsFrom
  rw [show p.stop - row = 0 by omega]
  rfl

theorem Piece.valuesFrom_of_lt (h : row < p.stop) : p.valuesFrom row = p.text row ++ p.valuesFrom (row + 1) := by
  unfold Piece.valuesFrom
  rw [show p.stop - row = p.stop - (row + 1) + 1 by omega, List.range'_succ, List.flatMap_cons]

theorem Piece.valuesFrom_of_le (h : p.stop ≤ row) : p.valuesFrom row = [] := by
  unfold Piece.valuesFrom
  rw [show p.stop - row = 0 by omega]
  rfl

/-- The length a view states is the length of what it shows. -/
theorem Piece.length_value {bytes : Bytes} (hrow : (row + 1) * viewBytes ≤ p.views.length) (h : p.value row = some bytes) :
    0 ≤ readI32 p.views (row * viewBytes) ∧ bytes.length = (readI32 p.views (row * viewBytes)).toNat := by
  unfold Piece.value at h
  unfold viewBytes at hrow h ⊢
  unfold inlineBytes at h
  simp only at h
  split at h
  · cases h
  next hneg =>
  refine ⟨by omega, ?_⟩
  split at h
  · cases h
    rw [Bytes.length_slice_of_le (by omega)]
  split at h
  · cases h
  split at h
  · split at h
    · cases h
    · cases h
      rw [Bytes.length_slice_of_le (by omega)]
  · cases h

theorem Piece.inBounds_row (h : p.inBounds = true) (hrow : row < p.stop) : (row + 1) * viewBytes ≤ p.views.length := by
  simp only [inBounds, Bool.and_eq_true, decide_eq_true_eq] at h
  have hviews := h.1.2
  unfold viewBytes at hviews ⊢
  omega

theorem Piece.length_text (h : p.Ok) (hstart : p.start ≤ row) (hrow : row < p.stop) :
    let length := if p.isValid row then readI32 p.views (row * viewBytes) else 0
    0 ≤ length ∧ (p.text row).length = length.toNat := by
  simp only [Piece.text]
  split
  · next hvalid =>
    obtain ⟨bytes, hbytes⟩ := Option.isSome_iff_exists.mp (h.value row hstart hrow hvalid)
    rw [hbytes]
    exact length_value (inBounds_row h.inBounds hrow) hbytes
  · exact ⟨Int.le_refl 0, rfl⟩

/-! ### `view_lengths_many` -/

theorem lengthRows_spec (row room n : Nat) (h : p.Ok) (hstart : p.start ≤ row) (hn : n = p.stop - row) :
    ∃ row' out, p.lengthRows n row room = some (row', out) ∧ row ≤ row' ∧ out ++ p.lengthsFrom row' = p.lengthsFrom row ∧
      out.length = 8 * (row' - row) ∧ row' - row ≤ room ∧ (row' < p.stop → row' - row = room) := by
  induction n generalizing row room with
  | zero => exact ⟨row, [], rfl, Nat.le_refl _, rfl, by simp, by omega, by omega⟩
  | succ n ih =>
    rw [Piece.lengthRows]
    split
    · next hroom => exact ⟨row, [], rfl, Nat.le_refl _, rfl, by simp, by omega, by omega⟩
    have hlt : row < p.stop := by omega
    obtain ⟨hpos, hlen⟩ := Piece.length_text h hstart hlt
    simp only
    rw [if_neg (by omega)]
    obtain ⟨row', out, hrows, hle, hout, hlenOut, hroom, hstop⟩ :=
      ih (row + 1) (room - 1) (by omega) (by omega)
    refine ⟨row', _, by rw [hrows]; rfl, by omega, ?_, ?_, by omega, fun h => by have := hstop h; omega⟩
    · rw [← hlen, List.append_assoc, hout, ← Piece.lengthsFrom_of_lt hlt]
    · rw [List.length_append, Bytes.length_le, hlenOut]
      omega

/-- The lengths left from `row` of the first piece on. -/
def restLengths : List Piece → Nat → Bytes
  | [], _ => []
  | p :: pieces, row => p.lengthsFrom (max row p.start) ++ pieces.flatMap fun p => p.lengthsFrom p.start

theorem restLengths_zero (pieces : List Piece) : restLengths pieces 0 = pieces.flatMap fun p => p.lengthsFrom p.start := by
  cases pieces with
  | nil => rfl
  | cons p pieces => rw [restLengths, Nat.zero_max, List.flatMap_cons]

theorem viewLengthsMany_spec (pieces : List Piece) (row room : Nat) (h : ∀ p ∈ pieces, p.Ok) :
    ∃ read row' out, viewLengthsMany pieces row room = some ((read, row'), out) ∧
      out ++ restLengths (pieces.drop read) row' = restLengths pieces row ∧
      (pieces ≠ [] → 0 < room → 0 < out.length + read) := by
  induction pieces generalizing row room with
  | nil => exact ⟨0, row, [], rfl, rfl, fun h => absurd rfl h⟩
  | cons p pieces ih =>
    have hp := h p (List.mem_cons_self ..)
    rw [viewLengthsMany]
    split
    · next hroom => exact ⟨0, row, [], rfl, rfl, fun _ hpos => absurd hroom (by omega)⟩
    rw [if_neg (by simp [hp.inBounds])]
    obtain ⟨row', out, hrows, hle, hout, hlen, hroom, hstop⟩ := lengthRows_spec (max row p.start) room _ hp
      (Nat.le_max_right ..) rfl
    simp only [hrows]
    split
    · next hend =>
      obtain ⟨read, row'', more, hmany, hmore, -⟩ := ih 0 (room - (row' - max row p.start))
        fun p hp => h p (List.mem_cons_of_mem _ hp)
      refine ⟨read + 1, row'', out ++ more, by rw [hmany]; rfl, ?_, fun _ _ => by omega⟩
      rw [List.drop_succ_cons, List.append_assoc, hmore, restLengths_zero, restLengths, ← hout,
        Piece.lengthsFrom_of_le hend, List.append_nil]
    · next hend =>
      refine ⟨0, row', out, rfl, ?_, fun _ _ => ?_⟩
      · rw [List.drop_zero, restLengths, restLengths, Nat.max_eq_left (by omega), ← List.append_assoc, hout]
      · have hall := hstop (by omega)
        omega

theorem drain_lengths {block fuel : Nat} (h : ∀ p ∈ pieces, p.Ok) (hblock : 8 ≤ block)
    (hfuel : (pieces.flatMap fun p => p.lengthsFrom p.start).length + pieces.length < fuel) :
    Reader.drain (fun s => decide (pieces.length ≤ s.1)) (lengthsCall pieces block) fuel (0, 0) =
      some (pieces.flatMap fun p => p.lengthsFrom p.start) := by
  have hreads : Reader.Reads (fun _ : Nat × Nat => True) (fun s => decide (pieces.length ≤ s.1))
      (lengthsCall pieces block) (fun s => restLengths (pieces.drop s.1) s.2)
      (fun s => (restLengths (pieces.drop s.1) s.2).length + (pieces.length - s.1)) := by
    constructor
    · intro s _ hdone
      rw [List.drop_eq_nil_of_le (of_decide_eq_true hdone)]
      rfl
    · intro s _ hdone
      have hlt : s.1 < pieces.length := by simpa using hdone
      obtain ⟨read, row', out, hmany, hout, hpos⟩ := viewLengthsMany_spec (pieces.drop s.1) s.2 (block / 8) fun p hp => h p (List.mem_of_mem_drop hp)
      have hmore := hpos (by simp [hlt]) (by omega)
      have hlen := congrArg List.length hout
      rw [List.length_append, List.drop_drop] at hlen
      rw [List.drop_drop] at hout
      exact ⟨(s.1 + read, row'), out, by simp [lengthsCall, hmany], trivial, hout, by simp only; omega⟩
  rw [Reader.drain_eq hreads trivial (by simpa [restLengths_zero] using hfuel), List.drop_zero, restLengths_zero]

/-! ### `view_values_many` -/

/-- Byte `skip` is in the value of its row, or just past it. -/
def Piece.SkipIn (p : Piece) (row skip : Nat) : Prop := row < p.stop → skip ≤ (p.text row).length

theorem Piece.drop_valuesFrom (h : row < p.stop) (hskip : skip ≤ (p.text row).length) :
    (p.valuesFrom row).drop skip = (p.text row).drop skip ++ p.valuesFrom (row + 1) := by
  rw [valuesFrom_of_lt h, List.drop_append_of_le_length hskip]

theorem valueRows_spec (row skip room n : Nat) (h : p.Ok) (hstart : p.start ≤ row) (hn : n = p.stop - row)
    (hskip : p.SkipIn row skip) :
    ∃ row' skip' out, p.valueRows n row skip room = some ((row', skip'), out) ∧ row ≤ row' ∧
      out ++ (p.valuesFrom row').drop skip' = (p.valuesFrom row).drop skip ∧ p.SkipIn row' skip' ∧
      (row' < p.stop → out.length = room) := by
  induction n generalizing row skip room with
  | zero => exact ⟨row, skip, [], rfl, Nat.le_refl _, rfl, hskip, by omega⟩
  | succ n ih =>
    rw [Piece.valueRows]
    have hlt : row < p.stop := by omega
    have hle := hskip hlt
    split
    · next hroom => exact ⟨row, skip, [], rfl, Nat.le_refl _, rfl, hskip, fun _ => hroom.symm⟩
    split
    · next hmissing =>
      rw [Bool.not_eq_true'] at hmissing
      have htext : p.text row = [] := by simp [Piece.text, hmissing]
      obtain ⟨row', skip', out, hrows, hrow, hout, hin, hall⟩ := ih (row + 1) 0 room (by omega) (by omega)
        fun _ => Nat.zero_le _
      refine ⟨row', skip', out, hrows, by omega, ?_, hin, hall⟩
      rw [hout, Piece.drop_valuesFrom hlt hle, htext, List.drop_nil, List.nil_append, List.drop_zero]
    next hvalid =>
    simp only [Bool.not_eq_true', Bool.not_eq_false] at hvalid
    obtain ⟨value, hvalue⟩ := Option.isSome_iff_exists.mp (h.value row hstart hlt hvalid)
    have htext : p.text row = value := by rw [Piece.text, if_pos hvalid, hvalue]; rfl
    rw [htext] at hle
    simp only [hvalue]
    rw [if_neg (by omega)]
    split
    · next hsplit =>
      refine ⟨row, skip + room, _, rfl, Nat.le_refl _, ?_, fun _ => by rw [htext]; omega, fun _ => ?_⟩
      · rw [Piece.drop_valuesFrom hlt (by rw [htext]; omega), Piece.drop_valuesFrom hlt (by rw [htext]; omega), htext,
          ← List.append_assoc, Bytes.slice, ← List.drop_drop, List.take_append_drop]
      · rw [Bytes.length_slice_of_le (by omega)]
    · next hfits =>
      obtain ⟨row', skip', out, hrows, hrow, hout, hin, hall⟩ := ih (row + 1) 0 (room - (value.length - skip)) (by omega)
        (by omega) fun _ => Nat.zero_le _
      refine ⟨row', skip', _, by rw [hrows]; rfl, by omega, ?_, hin, fun hlt' => ?_⟩
      · rw [List.append_assoc, hout, Piece.drop_valuesFrom hlt (by rw [htext]; omega), htext, List.drop_zero,
          Bytes.slice_eq_drop (by omega)]
      · rw [List.length_append, Bytes.length_slice_of_le (by omega), hall hlt']
        omega

/-- The values left from byte `skip` of `row` of the first piece on. -/
def restValues : List Piece → Nat → Nat → Bytes
  | [], _, _ => []
  | p :: pieces, row, skip =>
    (if row < p.start then p.valuesFrom p.start else (p.valuesFrom row).drop skip) ++
      pieces.flatMap fun p => p.valuesFrom p.start

def RowIn : List Piece → Nat → Nat → Prop
  | [], _, _ => True
  | p :: _, row, skip => p.start ≤ row → p.SkipIn row skip

theorem restValues_zero (pieces : List Piece) : restValues pieces 0 0 = pieces.flatMap fun p => p.valuesFrom p.start := by
  cases pieces with
  | nil => rfl
  | cons p pieces =>
    rw [restValues, List.flatMap_cons]
    split
    · rfl
    · rw [show p.start = 0 by omega, List.drop_zero]

theorem rowIn_zero (pieces : List Piece) (row : Nat) : RowIn pieces row 0 := by
  cases pieces with
  | nil => trivial
  | cons p pieces => exact fun _ _ => Nat.zero_le _

theorem viewValuesMany_spec (pieces : List Piece) (row skip room : Nat) (h : ∀ p ∈ pieces, p.Ok)
    (hin : RowIn pieces row skip) :
    ∃ read row' skip' out, viewValuesMany pieces row skip room = some ((read, row', skip'), out) ∧
      RowIn (pieces.drop read) row' skip' ∧
      out ++ restValues (pieces.drop read) row' skip' = restValues pieces row skip ∧
      (pieces ≠ [] → 0 < room → 0 < out.length + read) := by
  induction pieces generalizing row skip room with
  | nil => exact ⟨0, row, skip, [], rfl, trivial, rfl, fun h => absurd rfl h⟩
  | cons p pieces ih =>
    have hp := h p (List.mem_cons_self ..)
    rw [viewValuesMany]
    split
    · next hroom => exact ⟨0, row, skip, [], rfl, hin, rfl, fun _ hpos => absurd hroom (by omega)⟩
    rw [if_neg (by simp [hp.inBounds])]
    generalize hfirst : (if row < p.start then (p.start, 0) else (row, skip)) = s
    obtain ⟨first, byte⟩ := s
    have hstart : p.start ≤ first ∧ p.SkipIn first byte ∧
        restValues (p :: pieces) row skip = (p.valuesFrom first).drop byte ++ pieces.flatMap fun p => p.valuesFrom p.start := by
      rw [restValues]
      split at hfirst
      · next hlt =>
        cases hfirst
        exact ⟨Nat.le_refl _, fun _ => Nat.zero_le _, by rw [if_pos hlt, List.drop_zero]⟩
      · next hge =>
        cases hfirst
        exact ⟨by omega, hin (by omega), by rw [if_neg hge]⟩
    obtain ⟨hle, hskip, hrest⟩ := hstart
    obtain ⟨row', skip', out, hrows, hrow, hout, hin', hall⟩ := valueRows_spec first byte room _ hp hle rfl hskip
    simp only [hrows]
    split
    · next hend =>
      obtain ⟨read, row'', skip'', more, hmany, hin'', hmore, -⟩ := ih 0 0 (room - out.length)
        (fun p hp => h p (List.mem_cons_of_mem _ hp)) (rowIn_zero _ _)
      refine ⟨read + 1, row'', skip'', out ++ more, by rw [hmany]; rfl, hin'', ?_, fun _ _ => by omega⟩
      rw [List.drop_succ_cons, List.append_assoc, hmore, restValues_zero, hrest, ← hout, Piece.valuesFrom_of_le hend,
        List.drop_nil, List.append_nil]
    · next hend =>
      refine ⟨0, row', skip', out, rfl, fun _ => hin', ?_, fun _ _ => ?_⟩
      · rw [List.drop_zero, restValues, if_neg (by omega), ← List.append_assoc, hout, hrest]
      · have hfull := hall (by omega)
        omega

theorem drain_values {block fuel : Nat} (h : ∀ p ∈ pieces, p.Ok) (hblock : 0 < block)
    (hfuel : (pieces.flatMap fun p => p.valuesFrom p.start).length + pieces.length < fuel) :
    Reader.drain (fun s => decide (pieces.length ≤ s.1)) (valuesCall pieces block) fuel (0, 0, 0) =
      some (pieces.flatMap fun p => p.valuesFrom p.start) := by
  have hreads : Reader.Reads (fun s : Nat × Nat × Nat => RowIn (pieces.drop s.1) s.2.1 s.2.2)
      (fun s => decide (pieces.length ≤ s.1)) (valuesCall pieces block)
      (fun s => restValues (pieces.drop s.1) s.2.1 s.2.2)
      (fun s => (restValues (pieces.drop s.1) s.2.1 s.2.2).length + (pieces.length - s.1)) := by
    constructor
    · intro s _ hdone
      rw [List.drop_eq_nil_of_le (of_decide_eq_true hdone)]
      rfl
    · intro s hs hdone
      have hlt : s.1 < pieces.length := by simpa using hdone
      obtain ⟨read, row', skip', out, hmany, hin, hout, hpos⟩ := viewValuesMany_spec (pieces.drop s.1) s.2.1 s.2.2 block
        (fun p hp => h p (List.mem_of_mem_drop hp)) hs
      have hmore := hpos (by simp [hlt]) hblock
      have hlen := congrArg List.length hout
      rw [List.length_append, List.drop_drop] at hlen
      rw [List.drop_drop] at hin hout
      exact ⟨(s.1 + read, row', skip'), out, by simp [valuesCall, hmany], hin, hout, by simp only; omega⟩
  rw [Reader.drain_eq hreads (rowIn_zero _ _) (by simpa [restValues_zero] using hfuel), List.drop_zero, restValues_zero]

end

/-! ## The fold of a column is the fold of its rows -/

section

variable {T : Type} {pa : PyArrow T} {env : Env} {kind : Layout} {width : Nat} {c : Chunk} {acc : Acc}

/-- The values so far, gathered or not. -/
def Acc.stream (acc : Acc) : Bytes := acc.values ++ (acc.pieces.getD []).flatten

/-- What folding chunks adds: the parts of their rows. -/
structure Adds (kind : Layout) (width : Nat) (acc acc' : Acc) (cells : List Cell) : Prop where
  nulls : acc'.nulls = acc.nulls ++ nullsOf acc.base cells
  lengths : acc'.lengths = acc.lengths ++ lengthsOf kind width cells
  stream : acc'.stream = acc.stream ++ valuesOf cells
  pieces : acc'.pieces.isSome → kind = .fixed
  base : acc'.base = acc.base + cells.length

theorem adds_foldChunk (h : c.Valid kind width) (hacc : acc.pieces.isSome → kind = .fixed) :
    Adds kind width acc (foldChunk kind width acc c) (c.cells kind width) := by
  unfold foldChunk
  split
  · next hzero =>
    have hnil : c.cells kind width = [] := by rw [← List.length_eq_zero_iff, length_cells, hzero]
    rw [hnil]
    exact ⟨by simp [nullsOf], by simp [lengthsOf], by simp [valuesOf], hacc, rfl⟩
  · cases kind with
    | fixed =>
      have hvalues := fixedPiece_eq c width
      cases hpieces : acc.pieces with
      | none =>
        exact ⟨by rw [nulls_cells], by simp [lengthsOf], by simp [Acc.stream, hpieces, hvalues], fun _ => rfl, by simp⟩
      | some pieces =>
        exact ⟨by rw [nulls_cells], by simp [lengthsOf], by simp [Acc.stream, hpieces, hvalues], fun _ => rfl, by simp⟩
    | bool =>
      have hnone : acc.pieces = none := by
        cases hpieces : acc.pieces with
        | none => rfl
        | some pieces => simp [hpieces] at hacc
      exact ⟨by rw [nulls_cells], by simp [lengthsOf], by simp [Acc.stream, hnone, boolBytes_eq c width], hacc, by simp⟩
    | offsets =>
      have hnone : acc.pieces = none := by
        cases hpieces : acc.pieces with
        | none => rfl
        | some pieces => simp [hpieces] at hacc
      exact ⟨by rw [nulls_cells], by rw [diffs_eq h], by simp [Acc.stream, hnone, dataSlice_eq h], hacc, by simp⟩

theorem adds_foldl {chunks : List Chunk} (acc : Acc) (h : ∀ c ∈ chunks, c.Valid kind width)
    (hacc : acc.pieces.isSome → kind = .fixed) :
    Adds kind width acc (chunks.foldl (foldChunk kind width) acc) (chunks.flatMap (·.cells kind width)) := by
  induction chunks generalizing acc with
  | nil => exact ⟨by simp [nullsOf], by simp [lengthsOf], by simp [valuesOf], hacc, rfl⟩
  | cons c chunks ih =>
    have hone := adds_foldChunk (h c (List.mem_cons_self ..)) hacc
    have hrest := ih _ (fun c hc => h c (List.mem_cons_of_mem _ hc)) hone.pieces
    rw [List.foldl_cons, List.flatMap_cons]
    constructor
    · rw [hrest.nulls, hone.nulls, hone.base, nullsOf_append, List.append_assoc]
    · rw [hrest.lengths, hone.lengths, lengthsOf_append, List.append_assoc]
    · rw [hrest.stream, hone.stream, valuesOf_append, List.append_assoc]
    · exact hrest.pieces
    · rw [hrest.base, hone.base, List.length_append, Nat.add_assoc]

theorem gathered_eq {block : Nat} (hblock : 0 < block) (acc : Acc) : acc.gathered block = some acc.stream := by
  unfold Acc.gathered Acc.stream
  split
  · next hp => simp [hp]
  · next hp => simp [hp]
  · next hp => simp [hp, updateFromPieces_eq hblock]

/-- A column of a type with a layout is folded to its type and rows, in any chunks, gathered or not. -/
theorem foldArrowColumn_eq {column : Column T} (hblock : 0 < env.viewBlockBytes)
    (hlayout : arrowLayout pa column.type = some (kind, width)) (h : column.Valid kind width) :
    foldArrowColumn pa env column = some (foldRows env (pa.str column.type) kind width (column.cells kind width)) := by
  unfold foldArrowColumn foldRows Column.cells
  simp only [hlayout, Option.bind_eq_bind, Option.bind_some, gathered_eq hblock]
  generalize hpieces : (if kind = .fixed ∧ gathersPieces env column.chunks width then some [] else none) = pieces
  have hstart : pieces.isSome → kind = .fixed := by
    rw [← hpieces]
    split
    · next h => exact fun _ => h.1
    · simp
  have hempty : (pieces.getD []).flatten = [] := by
    rw [← hpieces]
    split <;> rfl
  have hadds := adds_foldl ⟨[], [], [], pieces, 0⟩ h.chunks hstart
  rw [hadds.nulls, hadds.lengths, hadds.stream, hadds.base]
  simp [Acc.stream, hempty]

end

/-! ## The fold of a view column is the fold of its rows -/

section

variable {env : Env} {c : Chunk} {i : Nat}

theorem isValid_of_nullCount (h : c.nullCount = 0) (hi : i < c.length) : c.isValid i = true := by
  have hnot : i ∉ c.missing := by rw [List.length_eq_zero_iff.mp h]; simp
  simpa [Chunk.missing, hi] using hnot

theorem isValid_piece (hi : i < c.length) : c.piece.isValid (c.offset + i) = c.isValid i := by
  unfold Piece.isValid Chunk.piece
  by_cases h : c.nullCount = 0
  · simp only [h, if_true, isValid_of_nullCount h hi]
  · simp only [h, if_false]
    rfl

theorem text_piece (hi : i < c.length) : c.piece.text (c.offset + i) = (c.viewCell i).bytes := by
  rw [Piece.text, isValid_piece hi]
  rfl

theorem ok_piece (h : c.ValidViews) : c.piece.Ok where
  inBounds := h.1
  value row hstart hstop hvalid := by
    obtain ⟨i, rfl⟩ := Nat.exists_eq_add_of_le (show c.offset ≤ row from hstart)
    have hi : i < c.length := Nat.lt_of_add_lt_add_left hstop
    exact h.2 i hi (by rwa [isValid_piece hi] at hvalid)

theorem flatMap_piece (f : Bytes → Bytes) :
    ((List.range' c.piece.start (c.piece.stop - c.piece.start)).flatMap fun row => f (c.piece.text row)) =
      c.viewCells.flatMap fun cell => f cell.bytes := by
  have hlen : c.piece.stop - c.piece.start = c.length := Nat.add_sub_cancel_left ..
  rw [hlen, List.range'_eq_map_range, Chunk.viewCells, List.flatMap_map, List.flatMap_map]
  apply List.flatMap_congr
  intro i hi
  exact congrArg f (text_piece (List.mem_range.mp hi))

/-- What the loop over the chunks leaves: the missing rows, and pieces with the lengths and values of the rows. -/
theorem foldl_foldViewChunk {chunks : List Chunk} (h : ∀ c ∈ chunks, c.ValidViews) (nulls : Bytes) (pieces : List Piece)
    (base : Nat) :
    ∃ more, chunks.foldl foldViewChunk (nulls, pieces, base) =
        (nulls ++ nullsOf base (chunks.flatMap (·.viewCells)), pieces ++ more,
          base + (chunks.flatMap (·.viewCells)).length) ∧
      (∀ p ∈ more, p.Ok) ∧
      (more.flatMap fun p => p.lengthsFrom p.start) = lengthsOf .offsets 8 (chunks.flatMap (·.viewCells)) ∧
      (more.flatMap fun p => p.valuesFrom p.start) = valuesOf (chunks.flatMap (·.viewCells)) := by
  induction chunks generalizing nulls pieces base with
  | nil => exact ⟨[], by simp [nullsOf], by simp, rfl, rfl⟩
  | cons c chunks ih =>
    have hchunks : ∀ c ∈ chunks, c.ValidViews := fun c hc => h c (List.mem_cons_of_mem _ hc)
    have hlen : c.viewCells.length = c.length := by simp [Chunk.viewCells]
    rw [List.foldl_cons, List.flatMap_cons, foldViewChunk]
    split
    · next hzero =>
      have hnil : c.viewCells = [] := by rw [← List.length_eq_zero_iff, hlen, hzero]
      rw [hnil, List.nil_append]
      exact ih hchunks nulls pieces base
    · have hnulls : c.nulls base = nullsOf base c.viewCells := by
        rw [Chunk.nulls_eq, Chunk.viewCells, nullsOf_range]
        rfl
      obtain ⟨more, hfold, hok, hlengths, hvalues⟩ := ih hchunks (nulls ++ c.nulls base) (pieces ++ [c.piece])
        (base + c.length)
      refine ⟨c.piece :: more, ?_, ?_, ?_, ?_⟩
      · rw [hfold, hnulls, nullsOf_append, List.length_append, hlen, List.append_assoc, List.append_assoc, Nat.add_assoc]
        rfl
      · intro p hp
        rcases List.mem_cons.mp hp with rfl | hp
        · exact ok_piece (h c (List.mem_cons_self ..))
        · exact hok p hp
      · rw [List.flatMap_cons, hlengths, lengthsOf_append]
        congr 1
        exact flatMap_piece fun bytes => Bytes.le 8 bytes.length
      · rw [List.flatMap_cons, hvalues, valuesOf_append]
        congr 1
        exact flatMap_piece id

/-- A view column is folded to its rows, in blocks of any size that is a multiple of eight. -/
theorem foldViewColumn_eq {chunks : List Chunk} (large : Bytes) (hblock : 0 < env.viewBlockBytes)
    (hmultiple : env.viewBlockBytes % 8 = 0) (h : ∀ c ∈ chunks, c.ValidViews) :
    ∃ enough, ∀ fuel > enough, foldViewColumn env fuel chunks large =
      some (foldRows env large .offsets 8 (chunks.flatMap (·.viewCells))) := by
  obtain ⟨pieces, hfold, hok, hlengths, hvalues⟩ := foldl_foldViewChunk h [] [] 0
  refine ⟨(pieces.flatMap fun p => p.lengthsFrom p.start).length + (pieces.flatMap fun p => p.valuesFrom p.start).length +
    pieces.length, fun fuel hfuel => ?_⟩
  rw [List.nil_append, List.nil_append, Nat.zero_add] at hfold
  simp only [foldViewColumn, hfold, Option.bind_eq_bind]
  rw [drain_lengths hok (by omega) (by omega), drain_values hok hblock (by omega), hlengths, hvalues]
  rfl

end

end Cash.Arrow
