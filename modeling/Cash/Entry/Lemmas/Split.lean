import Cash.Entry.Read

/-!
# The two ways of reading a split payload agree

On a file whose table says its layout, reading the parts one after the other gives what the views of the
mapped payload are, and the crc32 taken on the way is the one of the whole payload.
-/

namespace Cash.Entry

open Bytes Py Chunks

variable {env : Env} {file : Bytes}

/-! ## Parts -/

theorem readExact_result {pos n : Nat} (h : pos + n ≤ file.length) :
    (readExact env file pos n).result = .ok (slice file pos n) := by
  have hlen : (slice file pos n).length = n := length_slice_of_le h
  unfold readExact
  by_cases hn : n = 0
  · subst hn
    simp
  · simp [hn, readBytes, Io.result_bind, Except.bind, hlen]

theorem readExact_ok {pos n : Nat} {data : Bytes} (h : (readExact env file pos n).result = .ok data) :
    data = slice file pos n ∧ data.length = n := by
  unfold readExact at h
  by_cases hn : n = 0
  · subst hn
    simp only [if_true, Io.result_pure, Except.ok.injEq] at h
    subst h
    simp
  · rw [if_neg hn, Io.result_bind_eq_ok] at h
    obtain ⟨d, hd, h⟩ := h
    have hdata : d = slice file pos n := by
      simp only [readBytes, Io.result_bind, Except.bind, Io.result_alloc, Io.result_pure, Except.ok.injEq] at hd
      exact hd.symm
    split at h
    · cases h
    · rename_i hlen
      simp only [Io.result_pure, Except.ok.injEq] at h
      subst h
      exact ⟨hdata, not_not.mp hlen⟩

theorem readInto_result {pos n : Nat} (h : pos + n ≤ file.length) :
    (readInto file pos n).result = .ok (slice file pos n) := by
  have hlen : (slice file pos n).length = n := length_slice_of_le h
  simp [readInto, Io.result_bind, Except.bind, hlen]

theorem layoutEnd_ge (apart : List Ref) (i offset : Nat) (lengths : List Nat) :
    offset ≤ layoutEnd apart i offset lengths := by
  induction lengths generalizing i offset with
  | nil => exact Nat.le_refl _
  | cons n rest ih =>
      unfold layoutEnd
      split
      · exact ih _ _
      · exact Nat.le_trans (by omega) (ih _ _)

/-! ## The buffers -/

/-- Reading the buffers one after the other: the views of the payload, and the crc32 of all of it. -/
theorem readBuffers_result {start : Nat} {apart : List Ref} {crc : BitVec 32} {i offset : Nat}
    {lengths : List Nat} (h : start + layoutEnd apart i offset lengths ≤ file.length) :
    (readBuffers env file start apart crc i offset lengths).result =
      .ok (crc32 (slice file (start + offset) (layoutEnd apart i offset lengths - offset)) crc,
        layoutEnd apart i offset lengths, mapBuffers (file.drop start) apart i offset lengths) := by
  induction lengths generalizing crc i offset with
  | nil => simp [readBuffers, layoutEnd, mapBuffers, crc32_nil]
  | cons n rest ih =>
      unfold readBuffers layoutEnd mapBuffers
      unfold layoutEnd at h
      by_cases ha : isApart apart i = true
      · rw [if_pos ha] at h
        simp only [ha, if_true, Io.result_bind, ih h, Except.bind, Io.result_pure]
      · rw [if_neg ha] at h
        simp only [ha, Bool.false_eq_true, if_false]
        have hge := layoutEnd_ge apart (i + 1) (offset + pad offset + n) rest
        have hpad : (readExact env file (start + offset) (pad offset)).result =
            .ok (slice file (start + offset) (pad offset)) := readExact_result (by omega)
        have hbuf : (readInto file (start + offset + pad offset) n).result =
            .ok (slice file (start + offset + pad offset) n) := readInto_result (by omega)
        rw [Io.result_bind_ok hpad, Io.result_bind_ok hbuf, Io.result_bind_ok (ih h), Io.result_pure]
        have hslice : slice (file.drop start) (offset + pad offset) n = slice file (start + offset + pad offset) n := by
          rw [slice_drop, Nat.add_assoc]
        have hlen : layoutEnd apart (i + 1) (offset + pad offset + n) rest - offset = pad offset + (n +
            (layoutEnd apart (i + 1) (offset + pad offset + n) rest - (offset + pad offset + n))) := by omega
        have hpos : start + offset + pad offset + n = start + (offset + pad offset + n) := by omega
        rw [hslice, hlen, slice_add, slice_add, hpos, crc32_append, crc32_append]

/-! ## The table -/

/-- What a table that was read says about the file: it stands at `start`, and the parts it describes end
where the file ends. -/
structure TableAt (file : Bytes) (start : Nat) (t : Table) : Prop where
  raw : t.raw.1 ++ (t.raw.2.1 ++ (t.raw.2.2.1 ++ t.raw.2.2.2)) = slice file start t.size
  size : start + t.size ≤ file.length
  fits : start + layoutEnd t.apart 0 (t.size + pad t.size + t.streamLen) t.lengths = file.length

theorem readTable_ok {start : Nat} {t : Table} (h : (readTable env file start).result = .ok t) :
    TableAt file start t := by
  simp only [readTable, Io.result_bind_eq_ok] at h
  obtain ⟨head, hhead, h⟩ := h
  split at h
  · cases h
  · simp only [Io.result_bind_eq_ok] at h
    obtain ⟨lengthsRaw, hlengths, countRaw, hcount, h⟩ := h
    split at h
    · cases h
    · rename_i hsize
      simp only [Io.result_bind_eq_ok] at h
      obtain ⟨refsRaw, hrefs, apart, _, h⟩ := h
      split at h
      · cases h
      · rename_i hfits
        simp only [Io.result_pure, Except.ok.injEq] at h
        subst h
        refine ⟨?_, by simpa using hsize, not_not.mp hfits⟩
        dsimp only
        conv_lhs => rw [(readExact_ok hhead).1, (readExact_ok hlengths).1, (readExact_ok hcount).1,
          (readExact_ok hrefs).1, ← slice_add, ← slice_add, ← slice_add]
        simp only [Nat.add_assoc]

/-! ## The whole payload -/

section Parts

variable {start : Nat} {t : Table}

/-- Where the buffers start. -/
def Table.buffersAt (t : Table) : Nat := t.size + pad t.size + t.streamLen

/-- Where the payload ends. -/
def Table.finish (t : Table) : Nat := layoutEnd t.apart 0 t.buffersAt t.lengths

theorem TableAt.fits' (ht : TableAt file start t) : start + t.finish = file.length := ht.fits

theorem Table.buffersAt_le (t : Table) : t.buffersAt ≤ t.finish := layoutEnd_ge ..

theorem TableAt.stream_le (ht : TableAt file start t) : start + t.size + pad t.size + t.streamLen ≤ file.length := by
  have hge := t.buffersAt_le
  have hfits := ht.fits'
  simp only [Table.buffersAt] at hge
  omega

/-- The crc32 taken part by part is the one of everything from `start` on. -/
theorem TableAt.crc (ht : TableAt file start t) :
    crc32 (slice file (start + t.buffersAt) (t.finish - t.buffersAt))
      (crc32 (slice file (start + t.size + pad t.size) t.streamLen) (crc32 (slice file (start + t.size) (pad t.size))
        (crc32 t.raw.2.2.2 (crc32 t.raw.2.2.1 (crc32 t.raw.2.1 (crc32 t.raw.1 0)))))) =
      crc32 (file.drop start) 0 := by
  have hge := t.buffersAt_le
  have hfits := ht.fits'
  have hwhole : file.drop start = slice file start t.size ++ (slice file (start + t.size) (pad t.size) ++
      (slice file (start + t.size + pad t.size) t.streamLen ++
        slice file (start + t.buffersAt) (t.finish - t.buffersAt))) := by
    have hpos : start + t.size + pad t.size + t.streamLen = start + t.buffersAt := by
      simp only [Table.buffersAt]
      omega
    have hlen : t.size + (pad t.size + (t.streamLen + (t.finish - t.buffersAt))) = t.finish := by
      simp only [Table.buffersAt] at hge ⊢
      omega
    rw [← hpos, ← slice_add, ← slice_add, ← slice_add, hlen, slice_eq_drop (by omega)]
  rw [hwhole, crc32_append, crc32_append, crc32_append, ← ht.raw, crc32_append, crc32_append, crc32_append]

/-- Reading the parts of a split payload and mapping it end the same way. -/
theorem readParts_result {dir : ChunkDir} {expected : Val} {places : Option Val} (ht : TableAt file start t) :
    (readParts env dir file start t expected places).result =
      (mapSplit env dir file start t.size t.streamLen t.lengths t.apart expected places).result := by
  have hle := ht.stream_le
  have hpad : (readExact env file (start + t.size) (pad t.size)).result =
      .ok (slice file (start + t.size) (pad t.size)) := readExact_result (by omega)
  have hstream : (readInto file (start + t.size + pad t.size) t.streamLen).result =
      .ok (slice file (start + t.size + pad t.size) t.streamLen) := readInto_result hle
  have hlen : (file.drop start).length = layoutEnd t.apart 0 (t.size + pad t.size + t.streamLen) t.lengths := by
    rw [List.length_drop, ← ht.fits]
    omega
  have hslice : slice (file.drop start) (t.size + pad t.size) t.streamLen =
      slice file (start + t.size + pad t.size) t.streamLen := by rw [slice_drop, Nat.add_assoc]
  have hcrc := ht.crc
  simp only [Table.finish, Table.buffersAt] at hcrc
  unfold readParts mapSplit
  rw [Io.result_bind_ok hpad, Io.result_bind_ok hstream,
    Io.result_bind_ok (readBuffers_result (Nat.le_of_eq ht.fits))]
  simp only [crcOf, hcrc, hlen, hslice]

end Parts

end Cash.Entry
