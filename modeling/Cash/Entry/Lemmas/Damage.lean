import Mathlib.Data.List.Dedup
import Cash.Chunks.Lemmas.Damage
import Cash.Entry.Lemmas.Split

/-!
# When reading a damaged entry raises an `OSError` or a `CorruptEntry` and nothing else

No checksum covers the metadata. Two things in it reach an operation that may raise something else: the
checksum itself, whose `hex` is shown when it does not match, and the places of the chunks. Where a chunk of a pack is
found damaged, the lists of chunks of the entries that hold it reach one too, in the handler that removes them.
-/

namespace Cash.Entry

open Bytes Py Chunks

/-- An `OSError` or a `CorruptEntry`. -/
def IsReadError : ReadError → Prop
  | .os => True
  | .corrupt _ => True
  | .py _ => False

/-- The metadata the header announces is no longer than the file, where reading reserves its length. -/
def HeaderBounded (env : Env) (file : Bytes) : Prop :=
  env.readReserves = true → headerSize ≤ file.length →
    (unpackHeader (file.take headerSize)).magic = magic ∨ (unpackHeader (file.take headerSize)).magic = magicSplit →
    (unpackHeader (file.take headerSize)).metaLen ≤ (unpackHeader (file.take headerSize)).metaCap →
    (unpackHeader (file.take headerSize)).metaLen ≤ file.length

/-- A checksum that matches, or whose `hex()` can be shown. -/
def ChecksumReadable (expected : Val) (payload : Bytes) : Prop :=
  expected.eqBytes (crcOf payload) = true ∨ expected.hasHex = true

/-- A split payload with a readable checksum and, where that matches, readable chunks. -/
def SplitReadable (env : Env) (dir : ChunkDir) (payload : Bytes) (t : Table) (expected : Val) (places : Option Val) :
    Prop :=
  ChecksumReadable expected payload ∧ (expected.eqBytes (crcOf payload) = true → t.apart ≠ [] →
    ChunksReadable env dir (placesDict places) (wantedChunks t.apart t.lengths))

/-- What the metadata of a file must be for its read to raise an `OSError` or a `CorruptEntry` only. -/
def EntryReadable (env : Env) (dir : ChunkDir) (file : Bytes) : Prop :=
  HeaderBounded env file ∧
  ∀ h metadata expected, (readHead env file).result = .ok (h, metadata) →
    metadata.get checksumField = some expected →
    (h.magic ≠ magicSplit → ChecksumReadable expected (file.drop (headerSize + h.metaCap))) ∧
    (h.magic = magicSplit → ∀ t, (readTable env file (headerSize + h.metaCap)).result = .ok t →
      SplitReadable env dir (file.drop (headerSize + h.metaCap)) t expected
        ((metadata.pop checksumField).get placesField))

/-! ## Parts -/

variable {env : Env} {dir : ChunkDir} {file : Bytes}

theorem readBytes_safe (pos n : Nat) :
    Io.Safe IsReadError (readBytes env file pos n) ↔ (env.readReserves = true → n ≤ file.length) := by
  have hlen : (slice file pos n).length ≤ file.length := by
    rw [length_slice]
    omega
  simp only [readBytes, Io.safe_bind, Io.safe_alloc, Io.safe_pure, implies_true, and_true]
  cases env.readReserves <;> simp [hlen]

theorem readExact_safe {pos n : Nat} (h : n ≤ file.length) : Io.Safe IsReadError (readExact env file pos n) := by
  unfold readExact
  split
  · exact Io.safe_pure _
  · rw [Io.safe_bind, readBytes_safe]
    refine ⟨fun _ => h, fun data _ => ?_⟩
    split
    · simp [IsReadError]
    · simp

theorem readInto_safe {pos n : Nat} (h : n ≤ file.length) : Io.Safe IsReadError (readInto file pos n) := by
  simp only [readInto, Io.safe_bind, Io.safe_alloc]
  refine ⟨h, fun _ _ => ?_⟩
  split
  · simp [IsReadError]
  · simp

theorem checkRefs_safe (count : Nat) (apart refs : List Ref) : Io.Safe IsReadError (checkRefs count apart refs) := by
  induction refs generalizing apart with
  | nil => exact Io.safe_pure _
  | cons r rest ih =>
      unfold checkRefs
      split
      · simp [IsReadError]
      · exact ih _

theorem checksumDiffers_isReadError {expected : Val} {found : Bytes} {size : Nat} :
    IsReadError (checksumDiffers expected found size) ↔ expected.hasHex = true := by
  unfold checksumDiffers
  split
  · rename_i h; simp [IsReadError, h]
  · rename_i h; simp [IsReadError, h]

theorem verify_safe (payload : Bytes) (expected : Val) :
    Io.Safe IsReadError (verify payload (some expected)) ↔ ChecksumReadable expected payload := by
  unfold verify ChecksumReadable
  dsimp only
  split
  · rename_i h; simp [h]
  · rename_i h; simp [h, checksumDiffers_isReadError]

theorem readTable_safe {start : Nat} (h : splitHeadSize ≤ file.length) :
    Io.Safe IsReadError (readTable env file start) := by
  simp only [readTable, Io.safe_bind]
  refine ⟨readExact_safe h, fun head _ => ?_⟩
  split
  · simp [IsReadError]
  · rename_i hcount
    simp only [Io.safe_bind]
    refine ⟨readExact_safe (by omega), fun lengthsRaw _ => ⟨readExact_safe (by omega), fun countRaw _ => ?_⟩⟩
    split
    · simp [IsReadError]
    · rename_i htable
      simp only [Io.safe_bind]
      refine ⟨readExact_safe (by omega), fun refsRaw _ => ⟨checkRefs_safe _ _ _, fun apart _ => ?_⟩⟩
      split
      · simp [IsReadError]
      · simp

theorem readBuffers_safe {start : Nat} {apart : List Ref} {crc : BitVec 32} {i offset : Nat} {lengths : List Nat}
    (h : start + layoutEnd apart i offset lengths ≤ file.length) :
    Io.Safe IsReadError (readBuffers env file start apart crc i offset lengths) := by
  induction lengths generalizing crc i offset with
  | nil => exact Io.safe_pure _
  | cons n rest ih =>
      unfold readBuffers
      unfold layoutEnd at h
      by_cases ha : isApart apart i = true
      · rw [if_pos ha] at h ⊢
        rw [Io.safe_bind]
        exact ⟨ih h, fun _ _ => Io.safe_pure _⟩
      · rw [if_neg ha] at h ⊢
        have hge := layoutEnd_ge apart (i + 1) (offset + pad offset + n) rest
        simp only [Io.safe_bind]
        exact ⟨readExact_safe (by omega), fun _ _ => ⟨readInto_safe (by omega), fun _ _ => ⟨ih h, fun _ _ =>
          Io.safe_pure _⟩⟩⟩

/-! ## The split payload -/

theorem isReadError_chunkFailed (e : ReadErr) : IsReadError (chunkFailed e) ↔ IsChunkError e := by
  cases e <;> rfl

theorem readApart_safe (buffers : List (Option Bytes)) (lengths : List Nat) (apart : List Ref) (places : Option Val) :
    Io.Safe IsReadError (readApart env dir buffers lengths apart places) ↔
      (apart ≠ [] → ChunksReadable env dir (placesDict places) (wantedChunks apart lengths)) := by
  unfold readApart
  split
  · rename_i h; simp [h]
  · rename_i h
    simp only [Io.safe_bind, Io.safe_mapError, isReadError_chunkFailed, readChunks_safe, Io.safe_pure, implies_true,
      and_true, ne_eq, h, not_false_eq_true, true_implies]

theorem mapSplit_safe {start : Nat} (t : Table) (expected : Val) (places : Option Val) :
    Io.Safe IsReadError (mapSplit env dir file start t.size t.streamLen t.lengths t.apart expected places) ↔
      SplitReadable env dir (file.drop start) t expected places := by
  unfold mapSplit SplitReadable ChecksumReadable
  dsimp only
  cases he : expected.eqBytes (crcOf (file.drop start)) with
  | false => simp [checksumDiffers_isReadError]
  | true => simp [Io.safe_bind, readApart_safe]

theorem readParts_safe {start : Nat} {t : Table} {expected : Val} {places : Option Val}
    (ht : TableAt file start t) :
    Io.Safe IsReadError (readParts env dir file start t expected places) ↔
      SplitReadable env dir (file.drop start) t expected places := by
  have hle := ht.stream_le
  have hpad : (readExact env file (start + t.size) (pad t.size)).result =
      .ok (slice file (start + t.size) (pad t.size)) := readExact_result (by omega)
  have hstream : (readInto file (start + t.size + pad t.size) t.streamLen).result =
      .ok (slice file (start + t.size + pad t.size) t.streamLen) := readInto_result hle
  have hcrc := ht.crc
  simp only [Table.finish, Table.buffersAt] at hcrc
  have hpadSafe : Io.Safe IsReadError (readExact env file (start + t.size) (pad t.size)) := readExact_safe (by omega)
  have hstreamSafe : Io.Safe IsReadError (readInto file (start + t.size + pad t.size) t.streamLen) :=
    readInto_safe (by omega)
  unfold readParts SplitReadable ChecksumReadable
  simp only [Io.safe_bind, hpadSafe, hpad, hstreamSafe, hstream, readBuffers_safe (Nat.le_of_eq ht.fits),
    readBuffers_result (Nat.le_of_eq ht.fits), Except.ok.injEq, forall_eq', true_and, hcrc, crcOf]
  cases he : expected.eqBytes (crcBytes (crc32 (file.drop start) 0)) with
  | false => simp [checksumDiffers_isReadError]
  | true => simp [Io.safe_bind, readApart_safe]

theorem readSplit_safe {start : Nat} (hhead : splitHeadSize ≤ file.length) (expected : Val) (places : Option Val) :
    Io.Safe IsReadError (readSplit env dir file start (some expected) places) ↔
      ∀ t, (readTable env file start).result = .ok t →
        SplitReadable env dir (file.drop start) t expected places := by
  simp only [readSplit, Io.safe_bind]
  constructor
  · rintro ⟨_, h⟩ t ht
    have hsafe := h t ht
    split at hsafe
    · exact (mapSplit_safe t expected places).mp hsafe
    · exact (readParts_safe (readTable_ok ht)).mp hsafe
  · intro h
    refine ⟨readTable_safe hhead, fun t ht => ?_⟩
    split
    · exact (mapSplit_safe t expected places).mpr (h t ht)
    · exact (readParts_safe (readTable_ok ht)).mpr (h t ht)

/-! ## The entry -/

theorem readHead_safe : Io.Safe IsReadError (readHead env file) ↔ HeaderBounded env file := by
  unfold readHead HeaderBounded
  dsimp only
  by_cases hlen : (file.take headerSize).length < headerSize
  · have hshort : ¬headerSize ≤ file.length := by
      rw [List.length_take] at hlen
      omega
    rw [if_pos hlen]
    simp [hshort, IsReadError]
  · have hlong : headerSize ≤ file.length := by
      rw [List.length_take] at hlen
      omega
    rw [if_neg hlen]
    generalize unpackHeader (file.take headerSize) = h
    by_cases hmagic : h.magic ≠ magic ∧ h.magic ≠ magicSplit
    · simp [hmagic.1, hmagic.2, IsReadError]
    · have hmagic' : h.magic = magic ∨ h.magic = magicSplit := by
        by_contra hnot
        rw [not_or] at hnot
        exact hmagic hnot
      rw [if_neg hmagic]
      by_cases hcap : h.metaCap < h.metaLen
      · rw [if_pos hcap]
        simp only [Io.safe_throw, IsReadError, true_iff]
        exact fun _ _ _ hle => absurd hle (Nat.not_le.mpr hcap)
      · rw [if_neg hcap, Io.safe_bind, readBytes_safe]
        have hrest : ∀ data : Bytes, Io.Safe IsReadError (if data.length < h.metaLen then
            .throw (.corrupt .metadataTruncated) else do
              let metadata ← loadMetadata env data
              pure (h, metadata) : Io ReadError (Header × Items)) := by
          intro data
          split
          · simp [IsReadError]
          · rw [Io.safe_bind]
            refine ⟨?_, fun _ _ => Io.safe_pure _⟩
            unfold loadMetadata
            split <;> simp [IsReadError]
        constructor
        · rintro ⟨h', _⟩ hres _ _ _; exact h' hres
        · intro h'; exact ⟨fun hres => h' hres hlong hmagic' (by omega), fun data _ => hrest data⟩

theorem readHead_ok_length {found : Header × Items} (h : (readHead env file).result = .ok found) :
    headerSize ≤ file.length := by
  unfold readHead at h
  dsimp only at h
  split at h
  · cases h
  · rename_i hlen
    rw [List.length_take] at hlen
    omega

/-- The read of an entry raises an `OSError` or a `CorruptEntry` only, and allocates within the files it
reads, exactly when its metadata can be looked at. -/
theorem readEntryAndChecksum_safe :
    Io.Safe IsReadError (readEntryAndChecksum env dir (some file) true) ↔ EntryReadable env dir file := by
  simp only [readEntryAndChecksum, Io.safe_bind, readHead_safe, EntryReadable]
  refine and_congr Iff.rfl ⟨fun h hd metadata expected hhead hget => ?_, fun h found hhead => ?_⟩
  · have hsafe := h (hd, metadata) hhead
    have hlen := readHead_ok_length hhead
    simp only [Bool.not_true, Bool.false_eq_true, if_false, hget] at hsafe
    constructor
    · intro hm
      rw [if_neg hm] at hsafe
      simp only [Io.safe_bind, Io.safe_alloc, verify_safe] at hsafe
      exact (hsafe.2 () rfl).1
    · intro hm
      rw [if_pos hm, Io.safe_bind] at hsafe
      exact (readSplit_safe hlen expected _).mp hsafe.1
  · obtain ⟨hd, metadata⟩ := found
    have hlen := readHead_ok_length hhead
    simp only [Bool.not_true, Bool.false_eq_true, if_false]
    cases hget : metadata.get checksumField with
    | none =>
        split
        · simp [Io.safe_bind, readSplit, IsReadError]
        · simp [Io.safe_bind, verify, IsReadError]
    | some expected =>
        obtain ⟨hwhole, hsplit⟩ := h hd metadata expected hhead hget
        split
        · rename_i hm
          rw [Io.safe_bind]
          exact ⟨(readSplit_safe hlen expected _).mpr (hsplit hm), fun _ _ => Io.safe_pure _⟩
        · rename_i hm
          simp only [Io.safe_bind, Io.safe_alloc, verify_safe]
          exact ⟨by simp, fun _ _ => ⟨hwhole hm, fun _ _ => Io.safe_pure _⟩⟩

/-! ## When a chunk of a pack is found damaged -/

/-- A split entry whose payload matches its checksum, with a chunk in a pack that is damaged at `offset`, where all
that is read before it is usable. -/
def DamagedAt (env : Env) (dir : ChunkDir) (file : Bytes) (pack : Str) (offset : Nat) : Prop :=
  ∃ h metadata expected t, (readHead env file).result = .ok (h, metadata) ∧ h.magic = magicSplit ∧
    metadata.get checksumField = some expected ∧ (readTable env file (headerSize + h.metaCap)).result = .ok t ∧
    expected.eqBytes (crcOf (file.drop (headerSize + h.metaCap))) = true ∧
    ChunkDamaged env dir (placesDict ((metadata.pop checksumField).get placesField))
      (wantedChunks t.apart t.lengths) pack offset

section Damaged

variable {pack : Str} {offset : Nat}

theorem checksumDiffers_ne_damaged {expected : Val} {found : Bytes} {size : Nat} {e : ChunkError} :
    checksumDiffers expected found size ≠ .corrupt (.chunk e) := by
  unfold checksumDiffers
  split <;> simp

theorem readExact_ne_chunk {pos n : Nat} {e : ChunkError} :
    (readExact env file pos n).result ≠ .error (.corrupt (.chunk e)) := by
  unfold readExact
  split
  · simp
  · simp only [readBytes, ne_eq, Io.result_bind_eq_error, Io.result_alloc, Io.result_pure]
    simp only [reduceCtorEq, false_or, not_exists, not_and, and_false, exists_false]
    intro data _
    split <;> simp

theorem checkRefs_ne_chunk {count : Nat} {apart refs : List Ref} {e : ChunkError} :
    (checkRefs count apart refs).result ≠ .error (.corrupt (.chunk e)) := by
  induction refs generalizing apart with
  | nil => simp [checkRefs]
  | cons r rest ih =>
      unfold checkRefs
      split
      · simp
      · exact ih

theorem readTable_ne_chunk {start : Nat} {e : ChunkError} :
    (readTable env file start).result ≠ .error (.corrupt (.chunk e)) := by
  simp only [readTable, ne_eq, Io.result_bind_eq_error, readExact_ne_chunk, false_or, not_exists, not_and]
  intro head _
  split
  · simp
  · simp only [Io.result_bind_eq_error, readExact_ne_chunk, false_or, not_exists, not_and]
    intro lengthsRaw _ countRaw _
    split
    · simp
    · simp only [Io.result_bind_eq_error, readExact_ne_chunk, checkRefs_ne_chunk, false_or, not_exists, not_and]
      intro refsRaw _ apart _
      split <;> simp

theorem readHead_ne_chunk {e : ChunkError} : (readHead env file).result ≠ .error (.corrupt (.chunk e)) := by
  unfold readHead
  dsimp only
  split
  · simp
  · split
    · simp
    · split
      · simp
      · simp only [readBytes, ne_eq, Io.result_bind_eq_error, Io.result_alloc, Io.result_pure]
        simp only [reduceCtorEq, false_or, not_exists, not_and, and_false, exists_false]
        intro data _
        split
        · simp
        · simp only [Io.result_bind_eq_error, Io.result_pure, reduceCtorEq, and_false, exists_false, or_false]
          unfold loadMetadata
          split <;> simp

theorem readApart_damaged {buffers : List (Option Bytes)} {lengths : List Nat} {apart : List Ref}
    {places : Option Val} :
    (readApart env dir buffers lengths apart places).result = .error (.corrupt (.chunk (.damaged pack offset))) ↔
      ChunkDamaged env dir (placesDict places) (wantedChunks apart lengths) pack offset := by
  have hfailed : ∀ e : ReadErr, chunkFailed e = .corrupt (.chunk (.damaged pack offset)) ↔
      e = .chunk (.damaged pack offset) := by
    intro e
    cases e <;> simp [chunkFailed]
  unfold readApart
  split
  · rename_i hapart
    subst hapart
    simp [ChunkDamaged, wantedChunks, byPack]
  · simp [Io.result_bind_eq_error, Io.result_mapError_eq_error, hfailed, readChunks_damaged]

theorem mapSplit_damaged {start : Nat} {t : Table} {expected : Val} {places : Option Val} :
    (mapSplit env dir file start t.size t.streamLen t.lengths t.apart expected places).result =
        .error (.corrupt (.chunk (.damaged pack offset))) ↔
      expected.eqBytes (crcOf (file.drop start)) = true ∧
        ChunkDamaged env dir (placesDict places) (wantedChunks t.apart t.lengths) pack offset := by
  unfold mapSplit
  dsimp only
  cases he : expected.eqBytes (crcOf (file.drop start)) with
  | false => simp [checksumDiffers_ne_damaged]
  | true => simp [Io.result_bind_eq_error, readApart_damaged]

theorem readParts_damaged {start : Nat} {t : Table} {expected : Val} {places : Option Val}
    (ht : TableAt file start t) :
    (readParts env dir file start t expected places).result = .error (.corrupt (.chunk (.damaged pack offset))) ↔
      expected.eqBytes (crcOf (file.drop start)) = true ∧
        ChunkDamaged env dir (placesDict places) (wantedChunks t.apart t.lengths) pack offset := by
  have hle := ht.stream_le
  have hpad : (readExact env file (start + t.size) (pad t.size)).result =
      .ok (slice file (start + t.size) (pad t.size)) := readExact_result (by omega)
  have hstream : (readInto file (start + t.size + pad t.size) t.streamLen).result =
      .ok (slice file (start + t.size + pad t.size) t.streamLen) := readInto_result hle
  have hcrc := ht.crc
  simp only [Table.finish, Table.buffersAt] at hcrc
  unfold readParts
  simp only [Io.result_bind_eq_error, hpad, hstream, readBuffers_result (Nat.le_of_eq ht.fits), Except.ok.injEq,
    exists_eq_left', reduceCtorEq, false_or, hcrc, crcOf]
  cases he : expected.eqBytes (crcBytes (crc32 (file.drop start) 0)) with
  | false => simp [checksumDiffers_ne_damaged]
  | true => simp [Io.result_bind_eq_error, readApart_damaged]

theorem readSplit_damaged {start : Nat} {expected : Val} {places : Option Val} :
    (readSplit env dir file start (some expected) places).result =
        .error (.corrupt (.chunk (.damaged pack offset))) ↔
      ∃ t, (readTable env file start).result = .ok t ∧ expected.eqBytes (crcOf (file.drop start)) = true ∧
        ChunkDamaged env dir (placesDict places) (wantedChunks t.apart t.lengths) pack offset := by
  simp only [readSplit, Io.result_bind_eq_error, readTable_ne_chunk, false_or]
  refine exists_congr fun t => and_congr_right fun ht => ?_
  split
  · exact mapSplit_damaged
  · exact readParts_damaged (readTable_ok ht)

/-- The read of an entry finds a chunk damaged exactly where the entry is one. -/
theorem readEntryAndChecksum_damaged :
    (readEntryAndChecksum env dir (some file) true).result = .error (.corrupt (.chunk (.damaged pack offset))) ↔
      DamagedAt env dir file pack offset := by
  simp only [readEntryAndChecksum, Io.result_bind_eq_error, readHead_ne_chunk, false_or, DamagedAt]
  constructor
  · rintro ⟨⟨h, metadata⟩, hhead, hd⟩
    simp only [Bool.not_true, Bool.false_eq_true, if_false] at hd
    split at hd
    · rename_i hm
      cases hget : metadata.get checksumField with
      | none => simp [hget, readSplit, Io.result_bind_eq_error] at hd
      | some expected =>
          simp only [hget, Io.result_bind_eq_error, readSplit_damaged, Io.result_pure, reduceCtorEq, and_false,
            exists_false, or_false] at hd
          obtain ⟨t, ht, heq, hd⟩ := hd
          exact ⟨h, metadata, expected, t, hhead, hm, hget, ht, heq, hd⟩
    · simp only [Io.result_bind_eq_error, Io.result_alloc, Io.result_pure, reduceCtorEq, and_false, exists_false,
        or_false, false_or] at hd
      obtain ⟨_, _, hd⟩ := hd
      unfold verify at hd
      split at hd
      · simp at hd
      · dsimp only at hd
        split at hd
        · simp at hd
        · simp [checksumDiffers_ne_damaged] at hd
  · rintro ⟨h, metadata, expected, t, hhead, hm, hget, ht, heq, hd⟩
    refine ⟨(h, metadata), hhead, ?_⟩
    simp only [Bool.not_true, Bool.false_eq_true, if_false, if_pos hm, hget]
    rw [Io.result_bind_eq_error, readSplit_damaged]
    exact .inl ⟨t, ht, heq, hd⟩

end Damaged

/-! ## When the entries that hold it can be removed -/

/-- A pair whose first item can be a name. -/
def PairReadable (item : Val) : Prop := ∃ name size, item.iterate = .ok [name, size] ∧ name.hashable = true

/-- A list of chunks that can be gone through. -/
def HeldReadable (held : Val) : Prop := ∃ items, held.iterate = .ok items ∧ ∀ item ∈ items, PairReadable item

/-- The first item. -/
def firstItem (item : Val) : Val :=
  match item.iterate with
  | .ok (name :: _) => name
  | _ => .none

/-- The first items of the pairs. -/
def heldNames (held : Val) : List Val :=
  match held.iterate with
  | .ok items => items.map firstItem
  | .error _ => []

def IsInf (v : Val) : Prop := ∃ negative, v = .float (.inf negative)

/-- A place in a pack with an infinite offset or length, which `int()` does not refuse with a `ValueError`. -/
def Endless (env : Env) (key value : Val) : Prop :=
  ∃ name offset nbytes crc, value.iterate = .ok [.str name, offset, nbytes, crc] ∧ name.endsWith packSuffix = true ∧
    (env.fromHex key).isSome = true ∧
    (IsInf offset ∨ (∃ n, offset.toInt env.parseInt = .ok n) ∧ IsInf nbytes)

/-- The places that parse. -/
def parsed (env : Env) (items : Items) : List (Digest × Parsed) :=
  items.filterMap fun p => (parseItem env p.1 p.2).toOption.join

/-- The metadata of an entry that can be read. -/
def metadataIn (env : Env) (file : Option Bytes) : Option Items :=
  file.bind fun content => ((readHead env content).result.toOption).map fun found => found.2.pop checksumField

/-- What is to be learned of an entry. -/
def foundOf (env : Env) (entry : Str × Option Bytes) : Option Found :=
  (metadataIn env entry.2).bind fun metadata => (chunksOf metadata).map fun held =>
    ⟨entry.1, heldNames held, Dict.update ∅ (parsed env ((placesDict (metadata.get placesField)).getD []))⟩

/-- An entry whose chunks and places can be gone through. -/
def EntryListable (env : Env) (entry : Str × Option Bytes) : Prop :=
  ∀ metadata, metadataIn env entry.2 = some metadata → ∀ held, chunksOf metadata = some held →
    HeldReadable held ∧ ∀ p ∈ (placesDict (metadata.get placesField)).getD [], ¬Endless env p.1 p.2

def IsChunkName (name : Val) : Prop := ∃ s, name = .str s ∧ s.endsWith chunkSuffix = true

/-- The index is there, or can be made: every entry of the folder can be gone through, and where no chunk file is known
yet, the names up to the first of one are texts. -/
def IndexReadable (env : Env) (folder : Folder) (k : Known) : Prop :=
  k.indexed = false → (∀ entry ∈ folder.listed, EntryListable env entry) ∧
    (k.oldChunks = false → Io.UpTo (fun name => ¬IsChunkName name) (fun name => ∃ s, name = .str s)
      ((folder.listed.filterMap (foundOf env)).flatMap (·.names)))

/-- What is known once the index is there. -/
def knownThen (env : Env) (folder : Folder) (k : Known) : Known :=
  if k.indexed then k else (folder.listed.filterMap (foundOf env)).foldl Known.learn k

/-- The list of chunks in the metadata of an entry to be removed. -/
def heldIn (env : Env) (folder : Folder) (stem : Str) : Option Val :=
  (metadataIn env (folder.content stem)).bind chunksOf

/-- The names an entry to be removed gives up. -/
def namesGivenUp (env : Env) (folder : Folder) (k : Known) (stem : Str) : List Val :=
  (k.heldBy.lookup stem).getD (((heldIn env folder stem).map heldNames).getD [])

/-- A text that `os.stat` takes, or that is not looked up: a write in flight or an entry that stays has it. -/
def Droppable (env : Env) (k : Known) (gone : Str → Prop) (name : Val) : Prop :=
  ∃ s, name = .str s ∧ (env.encodes s = true ∨ s ∈ k.pending ∨
    ∃ other names, ¬gone other ∧ k.heldBy.lookup other = some names ∧ .str s ∈ names)

/-- An entry that can be removed together with those that are `gone` afterwards. -/
structure StemRemovable (env : Env) (folder : Folder) (k : Known) (gone : Str → Prop) (stem : Str) : Prop where
  encodes : stem.isUtf8 = true
  held : folder.removes stem = true → k.heldBy.lookup stem = none →
    ∀ held, heldIn env folder stem = some held → HeldReadable held
  names : folder.removes stem = true → ∀ name ∈ namesGivenUp env folder k stem, Droppable env k gone name

/-- The entry read and the others known to hold the chunk. -/
def IsHolder (k : Known) (stem pack : Str) (offset : Nat) (holder : Str) : Prop :=
  holder = stem ∨ holder ∈ k.damaged pack offset

/-- The index can be made, and each entry that holds the chunk can be removed with the others. -/
def Removable (env : Env) (folder : Folder) (k : Known) (stem pack : Str) (offset : Nat) : Prop :=
  IndexReadable env folder k ∧
    ∀ holder, IsHolder (knownThen env folder k) stem pack offset holder →
      StemRemovable env folder (knownThen env folder k)
        (fun other => IsHolder (knownThen env folder k) stem pack offset other ∧ folder.removes other = true) holder

/-! ### One entry -/

theorem nameOf_ok {item name : Val} : nameOf item = .ok name ↔ PairReadable item ∧ name = firstItem item := by
  unfold nameOf PairReadable firstItem
  cases item.iterate with
  | error e => simp [bind, Except.bind]
  | ok items =>
      simp only [bind, Except.bind, Except.ok.injEq]
      constructor
      · intro h
        split at h
        · rename_i name' size
          split at h
          · rename_i hh
            cases h
            exact ⟨⟨_, size, rfl, hh⟩, rfl⟩
          · cases h
        · cases h
      · rintro ⟨⟨name', size, rfl, hh⟩, rfl⟩
        simp [hh]

theorem namesOfItems_ok {items names : List Val} :
    namesOfItems items = .ok names ↔ (∀ item ∈ items, PairReadable item) ∧ names = items.map firstItem := by
  induction items generalizing names with
  | nil => simp [namesOfItems, eq_comm]
  | cons item rest ih =>
      simp only [namesOfItems, bind, Except.bind]
      constructor
      · intro h
        cases hname : nameOf item with
        | error e => simp [hname] at h
        | ok name =>
            cases hrest : namesOfItems rest with
            | error e => simp [hname, hrest] at h
            | ok others =>
                simp only [hname, hrest, pure, Except.pure, Except.ok.injEq] at h
                obtain ⟨hread, rfl⟩ := nameOf_ok.mp hname
                obtain ⟨hall, rfl⟩ := ih.mp hrest
                exact ⟨by simpa using ⟨hread, hall⟩, h.symm⟩
      · rintro ⟨hall, rfl⟩
        have hitem : nameOf item = .ok (firstItem item) := nameOf_ok.mpr ⟨hall item (by simp), rfl⟩
        have hrest : namesOfItems rest = .ok (rest.map firstItem) :=
          ih.mpr ⟨fun item hitem => hall item (by simp [hitem]), rfl⟩
        simp [hitem, hrest, pure, Except.pure]

theorem namesOf_ok {held : Val} {names : List Val} :
    namesOf held = .ok names ↔ HeldReadable held ∧ names = heldNames held := by
  unfold namesOf HeldReadable heldNames
  cases held.iterate with
  | error e => simp [Except.bind]
  | ok items => simp [Except.bind, namesOfItems_ok]

theorem toInt_overflow {v : Val} {parse : Str → Option Int} :
    v.toInt parse = .error .overflowError ↔ IsInf v := by
  have hparse : ∀ o : Option Int, o.elim (Except.error Err.valueError) Except.ok ≠ .error .overflowError := by
    intro o
    cases o <;> simp
  cases v with
  | float x => cases x <;> simp [Val.toInt, Flt.toInt, IsInf]
  | str s => simp [Val.toInt, hparse, IsInf]
  | bytes b => simp [Val.toInt, hparse, IsInf]
  | bytearray b => simp [Val.toInt, hparse, IsInf]
  | _ => simp [Val.toInt, IsInf]

/-- The errors that `_parse_places` handles. -/
def Caught (e : Err) : Prop := e = .typeError ∨ e = .valueError

theorem iterate_error {v : Val} {e : Err} (h : v.iterate = .error e) : e = .typeError := by
  cases v <;> simp [Val.iterate] at h <;> exact h.symm

theorem toInt_error {v : Val} {parse : Str → Option Int} {e : Err} (h : v.toInt parse = .error e) :
    Caught e ∨ e = .overflowError := by
  have hparse : ∀ o : Option Int, o.elim (Except.error Err.valueError) Except.ok = .error e → Caught e := by
    intro o ho
    cases o with
    | none => cases ho; exact .inr rfl
    | some n => cases ho
  cases v with
  | float x =>
      cases x with
      | fin m n => cases h
      | inf negative => cases h; exact .inr rfl
      | nan => cases h; exact .inl (.inr rfl)
  | str s => exact .inl (hparse _ h)
  | bytes b => exact .inl (hparse _ h)
  | bytearray b => exact .inl (hparse _ h)
  | bool b => cases h
  | int n => cases h
  | _ => cases h; exact .inl (.inl rfl)

/-- The place of four items with a name of a pack. -/
theorem parseItem_four {env : Env} {key value offset nbytes crc : Val} {name : Str}
    (hv : value.iterate = .ok [.str name, offset, nbytes, crc]) (hname : name.endsWith packSuffix = true) :
    parseItem env key value =
      (unhex env key).bind fun digest => (offset.toInt env.parseInt).bind fun offset =>
        (nbytes.toInt env.parseInt).bind fun nbytes => (unhex env crc).bind fun crc =>
          .ok (some (digest, ⟨name, offset, nbytes, crc⟩)) := by
  simp [parseItem, hv, hname, bind, pure, Except.pure, Except.bind]

/-- A place without four items, or whose name is none of a pack. -/
theorem parseItem_other {env : Env} {key value : Val}
    (h : ∀ name offset nbytes crc, value.iterate = .ok [.str name, offset, nbytes, crc] →
      name.endsWith packSuffix = false) :
    parseItem env key value = .ok none ∨ ∃ e, parseItem env key value = .error e ∧ Caught e := by
  unfold parseItem
  cases hv : value.iterate with
  | error e => exact .inr ⟨e, rfl, .inl (iterate_error hv)⟩
  | ok items =>
      simp only [bind, Except.bind]
      split
      · rename_i name offset nbytes crc
        exact .inl (by simp [h name offset nbytes crc hv, pure, Except.pure])
      · exact .inl rfl
      · exact .inr ⟨.valueError, rfl, .inr rfl⟩

theorem not_isInf_of_ok {v : Val} {parse : Str → Option Int} {n : Int} (h : v.toInt parse = .ok n) : ¬IsInf v := by
  rintro hv
  rw [toInt_overflow.mpr hv] at h
  cases h

/-- What `_parse_places` does not handle is an infinite number. -/
theorem parseItem_cases (env : Env) (key value : Val) :
    (Endless env key value ∧ parseItem env key value = .error .overflowError) ∨
      (¬Endless env key value ∧ ((∃ r, parseItem env key value = .ok r) ∨
        ∃ e, parseItem env key value = .error e ∧ Caught e)) := by
  by_cases h : ∃ name offset nbytes crc, value.iterate = .ok [.str name, offset, nbytes, crc] ∧
      name.endsWith packSuffix = true
  · obtain ⟨name, offset, nbytes, crc, hv, hname⟩ := h
    have hend : Endless env key value ↔ (env.fromHex key).isSome = true ∧
        (IsInf offset ∨ (∃ n, offset.toInt env.parseInt = .ok n) ∧ IsInf nbytes) := by
      constructor
      · rintro ⟨name', offset', nbytes', crc', hv', _, hinf⟩
        rw [hv] at hv'
        cases hv'
        exact hinf
      · intro hinf; exact ⟨name, offset, nbytes, crc, hv, hname, hinf⟩
    rw [hend, parseItem_four hv hname, unhex, unhex]
    cases env.fromHex key with
    | none => exact .inr ⟨by simp, .inr ⟨.valueError, rfl, .inr rfl⟩⟩
    | some digest =>
        simp only [Option.isSome_some, true_and, Option.elim_some, Except.bind]
        cases hoff : offset.toInt env.parseInt with
        | error e =>
            rcases toInt_error hoff with he | rfl
            · refine .inr ⟨?_, .inr ⟨e, rfl, he⟩⟩
              rintro (hinf | ⟨⟨n, hn⟩, _⟩)
              · rw [toInt_overflow.mpr hinf] at hoff
                cases hoff
                simp [Caught] at he
              · cases hn
            · exact .inl ⟨.inl (toInt_overflow.mp hoff), rfl⟩
        | ok n =>
            have hfin := not_isInf_of_ok hoff
            simp only [hfin, false_or, Except.ok.injEq, exists_eq', true_and]
            cases hn : nbytes.toInt env.parseInt with
            | error e =>
                rcases toInt_error hn with he | rfl
                · refine .inr ⟨fun hinf => ?_, .inr ⟨e, rfl, he⟩⟩
                  rw [toInt_overflow.mpr hinf] at hn
                  cases hn
                  simp [Caught] at he
                · exact .inl ⟨toInt_overflow.mp hn, rfl⟩
            | ok n' =>
                refine .inr ⟨not_isInf_of_ok hn, ?_⟩
                cases env.fromHex crc with
                | none => exact .inr ⟨.valueError, rfl, .inr rfl⟩
                | some crc => exact .inl ⟨_, rfl⟩
  · have hno : ∀ name offset nbytes crc, value.iterate = .ok [.str name, offset, nbytes, crc] →
        name.endsWith packSuffix = false := by
      intro name offset nbytes crc hv
      cases hname : name.endsWith packSuffix with
      | false => rfl
      | true => exact absurd ⟨name, offset, nbytes, crc, hv, hname⟩ h
    refine .inr ⟨fun ⟨name, offset, nbytes, crc, hv, hname, _⟩ => h ⟨name, offset, nbytes, crc, hv, hname⟩, ?_⟩
    exact (parseItem_other hno).imp (fun h => ⟨none, h⟩) id

theorem parseItems_ok {env : Env} {items : Items} {places : List (Digest × Parsed)} :
    parseItems env items = .ok places ↔ (∀ p ∈ items, ¬Endless env p.1 p.2) ∧ places = parsed env items := by
  induction items generalizing places with
  | nil => simp [parseItems, parsed, eq_comm]
  | cons p rest ih =>
      obtain ⟨key, value⟩ := p
      simp only [parseItems, List.forall_mem_cons]
      rcases parseItem_cases env key value with ⟨hend, herr⟩ | ⟨hend, ⟨r, hr⟩ | ⟨e, he, hcaught⟩⟩
      · simp [herr, hend]
      · have hparsed : parsed env ((key, value) :: rest) = r.toList ++ parsed env rest := by
          cases r <;> simp [parsed, hr, Except.toOption]
        rw [hparsed]
        cases r with
        | none => simpa [hr, hend] using ih
        | some place =>
            simp only [hr, hend, not_false_eq_true, true_and]
            cases hrest : parseItems env rest with
            | error e =>
                simp only [Except.map, reduceCtorEq, false_iff, not_and]
                intro hall
                have := ih.mpr ⟨hall, rfl⟩
                rw [hrest] at this
                cases this
            | ok others =>
                obtain ⟨hall, rfl⟩ := ih.mp hrest
                simp only [Except.map, Except.ok.injEq, Option.toList_some, List.singleton_append]
                exact ⟨fun h => ⟨hall, h.symm⟩, fun h => h.2.symm⟩
      · have hparsed : parsed env ((key, value) :: rest) = parsed env rest := by
          simp [parsed, he, Except.toOption]
        rw [hparsed]
        rcases hcaught with rfl | rfl
        · simpa [he, hend] using ih
        · simpa [he, hend] using ih

theorem readMetadata_eq (file : Option Bytes) : readMetadata env dir file = .ok (metadataIn env file) := by
  have hhead : ∀ content e, (readHead env content).result ≠ .error (.py e) := by
    intro content e h
    unfold readHead at h
    dsimp only at h
    split at h
    · cases h
    · split at h
      · cases h
      · split at h
        · cases h
        · simp only [readBytes, Io.result_bind_eq_error, Io.result_alloc, Io.result_pure, reduceCtorEq, false_or,
            and_false, exists_false] at h
          obtain ⟨data, _, h⟩ := h
          split at h
          · cases h
          · simp only [Io.result_bind_eq_error, Io.result_pure, reduceCtorEq, and_false, exists_false, or_false] at h
            unfold loadMetadata at h
            split at h <;> cases h
  cases file with
  | none =>
      have hread : (readEntry env dir none false).result = .error .os := rfl
      rw [readMetadata, hread]
      rfl
  | some content =>
      unfold readMetadata metadataIn readEntry readEntryAndChecksum
      simp only [Io.result_bind, Option.bind_some]
      cases h : (readHead env content).result with
      | error e =>
          cases e with
          | py e => exact absurd h (hhead content e)
          | os => rfl
          | corrupt e => rfl
      | ok found => rfl

theorem findEntry_ok {entry : Str × Option Bytes} {r : Option Found} :
    findEntry env dir entry = .ok r ↔ EntryListable env entry ∧ r = foundOf env entry := by
  simp only [findEntry, readMetadata_eq, EntryListable, foundOf, bind, Except.bind]
  cases metadataIn env entry.2 with
  | none => simp [pure, Except.pure, eq_comm]
  | some metadata =>
      cases hheld : chunksOf metadata with
      | none => simp [hheld, pure, Except.pure, eq_comm]
      | some held =>
          simp only [hheld, Option.some.injEq, forall_eq', Option.bind_some, Option.map_some, parsePlaces]
          cases hnames : namesOf held with
          | error e =>
              simp only [reduceCtorEq, false_iff, not_and]
              rintro ⟨hread, _⟩
              rw [namesOf_ok.mpr ⟨hread, rfl⟩] at hnames
              cases hnames
          | ok names =>
              obtain ⟨hread, rfl⟩ := namesOf_ok.mp hnames
              simp only [hread, true_and]
              cases hplaces : parseItems env ((placesDict (metadata.get placesField)).getD []) with
              | error e =>
                  simp only [reduceCtorEq, false_iff, not_and]
                  intro hall
                  rw [parseItems_ok.mpr ⟨hall, rfl⟩] at hplaces
                  cases hplaces
              | ok places =>
                  obtain ⟨hall, rfl⟩ := parseItems_ok.mp hplaces
                  simp only [pure, Except.pure, Except.ok.injEq]
                  exact ⟨fun h => ⟨hall, h.symm⟩, fun h => h.2.symm⟩

theorem findEntries_ok {entries : List (Str × Option Bytes)} {found : List Found} :
    findEntries env dir entries = .ok found ↔
      (∀ entry ∈ entries, EntryListable env entry) ∧ found = entries.filterMap (foundOf env) := by
  induction entries generalizing found with
  | nil => simp [findEntries, eq_comm]
  | cons entry rest ih =>
      have htail : (entry :: rest).filterMap (foundOf env) =
          (foundOf env entry).toList ++ rest.filterMap (foundOf env) := by
        cases h : foundOf env entry <;> simp [h]
      rw [htail]
      simp only [findEntries, bind, Except.bind, List.forall_mem_cons]
      constructor
      · intro h
        cases hentry : findEntry env dir entry with
        | error e => simp [hentry] at h
        | ok r =>
            cases hrest : findEntries env dir rest with
            | error e => simp [hentry, hrest] at h
            | ok others =>
                simp only [hentry, hrest, pure, Except.pure, Except.ok.injEq] at h
                obtain ⟨hlist, rfl⟩ := findEntry_ok.mp hentry
                obtain ⟨hall, rfl⟩ := ih.mp hrest
                exact ⟨⟨hlist, hall⟩, h.symm⟩
      · rintro ⟨⟨hlist, hall⟩, rfl⟩
        have hentry : findEntry env dir entry = .ok (foundOf env entry) := findEntry_ok.mpr ⟨hlist, rfl⟩
        have hrest : findEntries env dir rest = .ok (rest.filterMap (foundOf env)) := ih.mpr ⟨hall, rfl⟩
        simp [hentry, hrest, pure, Except.pure]

/-! ### The index -/

theorem anyChunk_returns {names : List Val} : (∃ b, anyChunk names = .ok b) ↔
    Io.UpTo (fun name => ¬IsChunkName name) (fun name => ∃ s, name = .str s) names := by
  induction names with
  | nil => simp [anyChunk]
  | cons name rest ih =>
      rw [Io.upTo_cons, ← ih]
      cases name with
      | str s => cases hs : s.endsWith chunkSuffix <;> simp [anyChunk, IsChunkName, hs]
      | _ => simp [anyChunk]

theorem Known.ensureIndex_returns {folder : Folder} {k : Known} :
    (∃ k', k.ensureIndex env dir folder = .ok k') ↔ IndexReadable env folder k := by
  unfold Known.ensureIndex IndexReadable
  cases hi : k.indexed with
  | true => simp
  | false =>
      simp only [Bool.false_eq_true, if_false, true_implies, bind, Except.bind, pure, Except.pure]
      cases hfound : findEntries env dir folder.listed with
      | error e =>
          simp only [reduceCtorEq, exists_false, false_iff, not_and]
          intro hall
          rw [findEntries_ok.mpr ⟨hall, rfl⟩] at hfound
          cases hfound
      | ok found =>
          obtain ⟨hall, rfl⟩ := findEntries_ok.mp hfound
          rw [and_iff_right hall, ← anyChunk_returns]
          cases k.oldChunks with
          | true => simp
          | false =>
              simp only [Bool.false_eq_true, if_false, true_implies]
              cases anyChunk ((folder.listed.filterMap (foundOf env)).flatMap (·.names)) <;> simp

theorem Known.ensureIndex_eq {folder : Folder} {k k' : Known} (h : k.ensureIndex env dir folder = .ok k') :
    ∃ indexed oldChunks, k' = { knownThen env folder k with indexed, oldChunks } := by
  unfold Known.ensureIndex at h
  unfold knownThen
  cases hi : k.indexed with
  | true =>
      rw [hi, if_pos rfl] at h
      cases h
      exact ⟨true, k.oldChunks, by rw [if_pos rfl, ← hi]⟩
  | false =>
      simp only [hi, Bool.false_eq_true, if_false, bind, Except.bind, pure, Except.pure] at h
      cases hfound : findEntries env dir folder.listed with
      | error e => simp [hfound] at h
      | ok found =>
          obtain ⟨_, rfl⟩ := findEntries_ok.mp hfound
          simp only [hfound] at h
          cases ho : k.oldChunks with
          | true =>
              simp only [ho, if_true, Except.ok.injEq] at h
              exact ⟨true, true, h.symm⟩
          | false =>
              simp only [ho, Bool.false_eq_true, if_false] at h
              cases hany : anyChunk ((folder.listed.filterMap (foundOf env)).flatMap (·.names)) with
              | error e => simp [hany] at h
              | ok old =>
                  simp only [hany, Except.ok.injEq] at h
                  exact ⟨true, old, h.symm⟩

/-! ### Removing -/

section Remove

variable {folder : Folder} {k : Known} {stem : Str} {gone : Str → Prop} {name : Val}

/-- What is known after the entry is removed. -/
def Known.without (k : Known) (stem : Str) : Known :=
  { k with heldBy := k.heldBy.erase stem, placedBy := k.placedBy.erase stem }

theorem Val.eq_str_of_isStr {s : Str} {v : Val} (h : v.isStr s = true) : v = .str s := by
  cases v with
  | str t => rw [Val.isStr_str, decide_eq_true_eq] at h; rw [h]
  | _ => simp [Val.isStr] at h

theorem Known.isHeld_iff {s : Str} :
    k.isHeld s = true ↔ ∃ other names, k.heldBy.lookup other = some names ∧ .str s ∈ names := by
  simp only [Known.isHeld, List.any_eq_true]
  constructor
  · rintro ⟨e, he, v, hv, hs⟩
    rw [Val.eq_str_of_isStr hs] at hv
    exact ⟨e.1, e.2, Dict.lookup_of_mem_entries he, hv⟩
  · rintro ⟨other, names, hlook, hmem⟩
    exact ⟨_, Dict.mem_entries_of_lookup hlook, .str s, hmem, by simp⟩

theorem Known.drop_ok {names : List Val} :
    k.drop env names = .ok () ↔ ∀ name ∈ names, Droppable env k (fun _ => False) name := by
  induction names with
  | nil => simp [Known.drop]
  | cons name rest ih =>
      rw [List.forall_mem_cons, ← ih]
      cases name with
      | str s =>
          have hs : (k.isHeld s || decide (s ∈ k.pending) || env.encodes s) = true ↔
              Droppable env k (fun _ => False) (.str s) := by
            simp only [Bool.or_eq_true, Known.isHeld_iff, decide_eq_true_eq, Droppable, Val.str.injEq, exists_eq_left',
              not_false_eq_true, true_and]
            rw [or_comm, or_comm (a := ∃ other names, _)]
          rw [← hs]
          simp only [Known.drop]
          split
          · rename_i h; simp [h]
          · rename_i h; simp [h]
      | _ => simp [Known.drop, Droppable]

theorem droppable_without :
    Droppable env (k.without stem) gone name ↔ Droppable env k (fun other => other = stem ∨ gone other) name := by
  have hlook : ∀ other names, (k.without stem).heldBy.lookup other = some names ↔
      other ≠ stem ∧ k.heldBy.lookup other = some names := by
    intro other names
    rw [Known.without, Dict.lookup_erase']
    by_cases h : other = stem
    · simp [h]
    · simp [h]
  simp only [Droppable, hlook, not_or]
  refine exists_congr fun s => and_congr_right fun _ => or_congr_right (or_congr_right ?_)
  refine exists_congr fun other => exists_congr fun names => ?_
  constructor
  · rintro ⟨hg, ⟨hne, hlk⟩, hs⟩; exact ⟨⟨hne, hg⟩, hlk, hs⟩
  · rintro ⟨⟨hne, hg⟩, hlk, hs⟩; exact ⟨hg, ⟨hne, hlk⟩, hs⟩

theorem Known.chunksHeld_eq : k.chunksHeld env dir folder stem =
    .ok (if stem ∈ k.heldBy then none else heldIn env folder stem) := by
  unfold Known.chunksHeld heldIn
  split
  · rfl
  · rw [readMetadata_eq]; rfl

/-- An entry that holds chunks no list of which can be gone through stays unknown to `release`. -/
theorem Known.release_ok {k' : Known} {held : Option Val} (hheld : stem ∈ k.heldBy → held = none) :
    k.release env stem held = .ok k' ↔
      (k.heldBy.lookup stem = none → ∀ v, held = some v → HeldReadable v) ∧
        (∀ name ∈ (k.heldBy.lookup stem).getD ((held.map heldNames).getD []),
          Droppable env k (fun other => other = stem) name) ∧ k' = k.without stem := by
  have hdrop : ∀ names : List Val, ((k.without stem).drop env names).bind (fun _ => Except.ok (k.without stem)) =
      .ok k' ↔ (∀ name ∈ names, Droppable env k (fun other => other = stem) name) ∧ k' = k.without stem := by
    intro names
    have hmem : (∀ name ∈ names, Droppable env k (fun other => other = stem) name) ↔
        (k.without stem).drop env names = .ok () := by
      rw [Known.drop_ok]
      simp only [droppable_without, or_false]
    rw [hmem]
    cases (k.without stem).drop env names with
    | error e => simp [Except.bind]
    | ok u => simp [Except.bind, eq_comm]
  unfold Known.release
  simp only [bind, pure, Except.pure]
  cases hk : k.heldBy.lookup stem with
  | some names => simpa [Except.bind, Known.without] using hdrop names
  | none =>
      cases held with
      | none => simpa [Except.bind, Known.without] using hdrop []
      | some v =>
          simp only [Option.elim_some, Option.some.injEq, forall_eq', true_implies, Option.map_some, Option.getD_none,
            Option.getD_some]
          cases hnames : namesOf v with
          | error e =>
              simp only [Except.bind, reduceCtorEq, false_iff, not_and]
              intro hread
              rw [namesOf_ok.mpr ⟨hread, rfl⟩] at hnames
              cases hnames
          | ok names =>
              obtain ⟨hread, rfl⟩ := namesOf_ok.mp hnames
              rw [and_iff_right hread]
              exact hdrop (heldNames v)

theorem Known.removePath_ok {k' : Known} :
    k.removePath env dir folder stem = .ok k' ↔ StemRemovable env folder k (fun other => other = stem) stem ∧
      k' = if folder.removes stem then k.without stem else k := by
  unfold Known.removePath
  rw [Known.chunksHeld_eq]
  simp only [bind, Except.bind, pure, Except.pure]
  cases hutf : stem.isUtf8 with
  | false =>
      simp only [Bool.not_false, if_true, reduceCtorEq, false_iff]
      rintro ⟨h, _⟩
      rw [h.encodes] at hutf
      cases hutf
  | true =>
      cases hrem : folder.removes stem with
      | false =>
          simp only [Bool.not_true, Bool.not_false, Bool.false_eq_true, if_false, if_true, Except.ok.injEq]
          constructor
          · intro h; exact ⟨⟨hutf, by simp [hrem], by simp [hrem]⟩, h.symm⟩
          · intro h; exact h.2.symm
      | true =>
          simp only [Bool.not_true, Bool.false_eq_true, if_false, if_true]
          rw [Known.release_ok fun h => if_pos h]
          cases hk : k.heldBy.lookup stem with
          | some names =>
              simp only [reduceCtorEq, false_implies, true_and, Option.getD_some]
              constructor
              · rintro ⟨hnames, rfl⟩
                refine ⟨⟨hutf, by simp [hk], fun _ => ?_⟩, rfl⟩
                simpa [namesGivenUp, hk] using hnames
              · rintro ⟨h, rfl⟩
                have hnames := h.names hrem
                exact ⟨by simpa [namesGivenUp, hk] using hnames, rfl⟩
          | none =>
              have hmem : stem ∉ k.heldBy := AList.lookup_eq_none.mp hk
              simp only [if_neg hmem, true_implies, Option.getD_none]
              constructor
              · rintro ⟨hread, hnames, rfl⟩
                refine ⟨⟨hutf, fun _ _ => hread, fun _ => ?_⟩, rfl⟩
                simpa [namesGivenUp, hk] using hnames
              · rintro ⟨h, rfl⟩
                have hnames := h.names hrem
                exact ⟨h.held hrem hk, by simpa [namesGivenUp, hk] using hnames, rfl⟩

theorem StemRemovable.of_removes_false {k' : Known} {gone gone' : Str → Prop}
    (h : StemRemovable env folder k gone stem) (hrem : folder.removes stem = false) :
    StemRemovable env folder k' gone' stem :=
  ⟨h.encodes, by simp [hrem], by simp [hrem]⟩

theorem namesGivenUp_without {other : Str} (h : other ≠ stem) :
    namesGivenUp env folder (k.without stem) other = namesGivenUp env folder k other := by
  simp only [namesGivenUp, Known.without, Dict.lookup_erase', if_neg h]

theorem StemRemovable.without_iff {other : Str} (h : other ≠ stem) :
    StemRemovable env folder (k.without stem) gone other ↔
      StemRemovable env folder k (fun o => o = stem ∨ gone o) other := by
  have hlook : (k.without stem).heldBy.lookup other = k.heldBy.lookup other := by
    rw [Known.without, Dict.lookup_erase', if_neg h]
  constructor
  · intro hr
    refine ⟨hr.encodes, fun hrem hnone => hr.held hrem (hlook.trans hnone), fun hrem name hname => ?_⟩
    rw [← droppable_without]
    exact hr.names hrem name ((namesGivenUp_without h).symm ▸ hname)
  · intro hr
    refine ⟨hr.encodes, fun hrem hnone => hr.held hrem (hlook.symm.trans hnone), fun hrem name hname => ?_⟩
    rw [droppable_without]
    exact hr.names hrem name (namesGivenUp_without h ▸ hname)

theorem Droppable.mono {gone' : Str → Prop} (h : ∀ other, gone other → gone' other)
    (hd : Droppable env k gone' name) : Droppable env k gone name := by
  obtain ⟨s, hs, henc | hpend | ⟨other, names, hg, hlook, hmem⟩⟩ := hd
  · exact ⟨s, hs, .inl henc⟩
  · exact ⟨s, hs, .inr (.inl hpend)⟩
  · exact ⟨s, hs, .inr (.inr ⟨other, names, fun h' => hg (h other h'), hlook, hmem⟩)⟩

/-- A name that another entry holds is held by one that stays, or can be dropped with the last that holds it. -/
theorem Droppable.of_rest {rest : List Str} (hrest : ∀ other ∈ rest, folder.removes other = true →
      StemRemovable env folder k (fun o => o = stem ∨ o ∈ rest ∧ folder.removes o = true) other)
    (hd : Droppable env k (fun o => o = stem) name) :
    Droppable env k (fun o => o = stem ∨ o ∈ rest ∧ folder.removes o = true) name := by
  obtain ⟨s, rfl, henc | hpend | ⟨other, names, hne, hlook, hmem⟩⟩ := hd
  · exact ⟨s, rfl, .inl henc⟩
  · exact ⟨s, rfl, .inr (.inl hpend)⟩
  · by_cases hother : other ∈ rest ∧ folder.removes other = true
    · refine (hrest other hother.1 hother.2).names hother.2 (.str s) ?_
      rw [namesGivenUp, hlook]
      exact hmem
    · exact ⟨s, rfl, .inr (.inr ⟨other, names, fun h => h.elim hne hother, hlook, hmem⟩)⟩

/-- The entries are all removed exactly when each can be with the others gone. -/
theorem Known.removePaths_returns {stems : List Str} (hnodup : stems.Nodup) :
    (∃ k', k.removePaths env dir folder stems = .ok k') ↔ ∀ stem ∈ stems,
      StemRemovable env folder k (fun o => o ∈ stems ∧ folder.removes o = true) stem := by
  induction stems generalizing k with
  | nil => simp [Known.removePaths]
  | cons stem rest ih =>
      obtain ⟨hnot, hnodup⟩ := List.nodup_cons.mp hnodup
      have hstep : (∃ k', k.removePaths env dir folder (stem :: rest) = .ok k') ↔
          StemRemovable env folder k (fun other => other = stem) stem ∧
            ∃ k', (if folder.removes stem then k.without stem else k).removePaths env dir folder rest = .ok k' := by
        simp only [Known.removePaths, bind, Except.bind]
        constructor
        · rintro ⟨k', h⟩
          cases hpath : k.removePath env dir folder stem with
          | error e => simp [hpath] at h
          | ok k₁ =>
              obtain ⟨hrem, rfl⟩ := Known.removePath_ok.mp hpath
              rw [hpath] at h
              exact ⟨hrem, k', h⟩
        · rintro ⟨hrem, k', h⟩
          have hpath : k.removePath env dir folder stem = .ok _ := Known.removePath_ok.mpr ⟨hrem, rfl⟩
          exact ⟨k', by rw [hpath]; exact h⟩
      rw [hstep, ih hnodup, List.forall_mem_cons]
      have hne : ∀ other ∈ rest, other ≠ stem := fun other h heq => hnot (heq ▸ h)
      cases hrem : folder.removes stem with
      | false =>
          -- The entry stays: it is none of those gone.
          have hgone : (fun o => o ∈ stem :: rest ∧ folder.removes o = true) =
              fun o => o ∈ rest ∧ folder.removes o = true := by
            funext o
            refine propext ⟨?_, fun h => ⟨List.mem_cons_of_mem _ h.1, h.2⟩⟩
            rintro ⟨ho, hr⟩
            rcases List.mem_cons.mp ho with rfl | ho
            · rw [hrem] at hr; cases hr
            · exact ⟨ho, hr⟩
          rw [hgone]
          simp only [Bool.false_eq_true, if_false]
          exact and_congr_left fun _ => ⟨fun h => h.of_removes_false hrem, fun h => h.of_removes_false hrem⟩
      | true =>
          have hgone : (fun o => o ∈ stem :: rest ∧ folder.removes o = true) =
              fun o => o = stem ∨ o ∈ rest ∧ folder.removes o = true := by
            funext o
            refine propext ⟨?_, ?_⟩
            · rintro ⟨ho, hr⟩
              exact (List.mem_cons.mp ho).imp id fun h => ⟨h, hr⟩
            · rintro (rfl | ⟨ho, hr⟩)
              · exact ⟨List.mem_cons_self, hrem⟩
              · exact ⟨List.mem_cons_of_mem _ ho, hr⟩
          have hothers : (∀ other ∈ rest, StemRemovable env folder (k.without stem)
                (fun o => o ∈ rest ∧ folder.removes o = true) other) ↔
              ∀ other ∈ rest, StemRemovable env folder k
                (fun o => o = stem ∨ o ∈ rest ∧ folder.removes o = true) other :=
            forall₂_congr fun other h => StemRemovable.without_iff (hne other h)
          rw [hgone, if_pos rfl, hothers]
          refine and_congr_left fun hrest => ⟨fun h => ?_, fun h => ?_⟩
          · exact ⟨h.encodes, h.held, fun hr name hname => (h.names hr name hname).of_rest fun o ho _ => hrest o ho⟩
          · exact ⟨h.encodes, h.held, fun hr name hname => (h.names hr name hname).mono fun o ho => .inl ho⟩

/-- What `ensure_index` notes beside the tables does not matter to a removal. -/
theorem StemRemovable.noted {indexed oldChunks : Bool} :
    StemRemovable env folder { k with indexed, oldChunks } gone stem ↔ StemRemovable env folder k gone stem :=
  ⟨fun h => ⟨h.encodes, h.held, h.names⟩, fun h => ⟨h.encodes, h.held, h.names⟩⟩

/-- `_remove_damaged` returns exactly when the entries that hold the chunk can be removed. -/
theorem Known.removeDamaged_returns {pack : Str} {offset : Nat} :
    (∃ k', k.removeDamaged env dir folder stem pack offset = .ok k') ↔
      Removable env folder k stem pack offset := by
  have hstep : (∃ k', k.removeDamaged env dir folder stem pack offset = .ok k') ↔
      ∃ k₁, k.ensureIndex env dir folder = .ok k₁ ∧
        ∃ k', k₁.removePaths env dir folder (k₁.toRemove stem pack offset) = .ok k' := by
    simp only [Known.removeDamaged, bind, Except.bind]
    cases k.ensureIndex env dir folder <;> simp
  have hmem : ∀ (k₁ : Known) holder, holder ∈ k₁.toRemove stem pack offset ↔ IsHolder k₁ stem pack offset holder := by
    intro k₁ holder
    simp only [Known.toRemove, List.mem_mergeSort, List.mem_dedup, List.mem_cons, IsHolder]
  have hnodup : ∀ k₁ : Known, (k₁.toRemove stem pack offset).Nodup := fun k₁ =>
    (List.mergeSort_perm _ _).nodup_iff.mpr (List.nodup_dedup _)
  have hpaths : ∀ k₁ : Known, (∃ k', k₁.removePaths env dir folder (k₁.toRemove stem pack offset) = .ok k') ↔
      ∀ holder, IsHolder k₁ stem pack offset holder → StemRemovable env folder k₁
        (fun other => IsHolder k₁ stem pack offset other ∧ folder.removes other = true) holder := by
    intro k₁
    rw [Known.removePaths_returns (hnodup k₁)]
    simp only [hmem]
  rw [hstep, Removable, ← Known.ensureIndex_returns]
  constructor
  · rintro ⟨k₁, hindex, h⟩
    obtain ⟨indexed, oldChunks, rfl⟩ := Known.ensureIndex_eq hindex
    exact ⟨⟨_, hindex⟩, fun holder hholder => StemRemovable.noted.mp ((hpaths _).mp h holder hholder)⟩
  · rintro ⟨⟨k₁, hindex⟩, h⟩
    obtain ⟨indexed, oldChunks, rfl⟩ := Known.ensureIndex_eq hindex
    exact ⟨_, hindex, (hpaths _).mpr fun holder hholder => StemRemovable.noted.mpr (h holder hholder)⟩

end Remove

end Cash.Entry
