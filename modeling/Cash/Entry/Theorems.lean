import Cash.Entry.Lemmas.Damage
import Cash.Entry.Lemmas.Head

/-!
# Theorems about the entry format

1. What was written is read back, by every way of reading it.
2. Which damaged files are read as a miss, and which make a read raise.
-/

namespace Cash.Entry

open Bytes Py Chunks

/-! ## Round trip -/

section RoundTrip

variable {env : Env} {dir : ChunkDir} {packs : Str → List Bytes} {dumps : Items → Bytes} {metadata : Items}

/-- What holds of an entry file whatever its payload is: its metadata is read without the payload, also from
any part that covers `metadata_span`, and its size is the one the packed entry says. -/
structure ReadsHead (env : Env) (dir : ChunkDir) (metadata : Items) (e : PackedEntry) : Prop where
  reads : (readEntry env dir (some e.file) false).result = .ok (metadata, none)
  span : ∃ span, metadataSpan e.file = .ok span ∧
    ∀ n, span ≤ n → (unpackEntry env (e.file.take n) false).result = .ok (metadata, none)
  size : e.size = e.file.length

theorem HeadParts.readsHead {split : Bool} {e : PackedEntry} (h : HeadParts dumps metadata split e)
    (hk : metadata.has checksumField = false) (hp : Pickles env dumps metadata e.checksum) :
    ReadsHead env dir metadata e := by
  refine ⟨?_, ⟨e.head.length, h.metadataSpan, fun n hn => h.unpackEntry hp hk hn⟩, h.length_file⟩
  have hpop : (stamped metadata e.checksum).pop checksumField = metadata := Items.pop_with hk
  simp only [readEntry, readEntryAndChecksum]
  rw [Io.result_bind, Io.result_bind_ok (h.readHead hp)]
  simp [hpop, Except.bind]

theorem readEntry_whole {chunks : List Bytes} {e : PackedEntry} (hk : metadata.has checksumField = false)
    (he : packEntryParts dumps metadata chunks false none = some e) (hp : Pickles env dumps metadata e.checksum) :
    (readEntry env dir (some e.file) true).result = .ok (metadata, some (.whole chunks.flatten)) := by
  obtain ⟨h, hchunks, hsum⟩ := packEntryParts_parts he
  have hpop : (stamped metadata e.checksum).pop checksumField = metadata := Items.pop_with hk
  have hget : (stamped metadata e.checksum).get checksumField = some (.bytes e.checksum) := Items.get_with hk
  have hdrop : e.file.drop (headerSize + metaCap (dumps (stamped metadata e.checksum)).length false) =
      chunks.flatten := by rw [← h.length, PackedEntry.file, List.drop_left, hchunks]
  have hverify : (verify chunks.flatten (some (.bytes e.checksum))).result = .ok () := by
    simp [verify, Val.eqBytes, hsum, checksumOf_eq]
  have hmagic : ¬(magic = magicSplit) := by decide
  simp only [readEntry, readEntryAndChecksum]
  rw [Io.result_bind, Io.result_bind_ok (h.readHead hp)]
  simp only [hpop, hget, hdrop, Bool.false_eq_true, if_false, Bool.not_true, hmagic]
  rw [Io.result_bind_ok (Io.result_alloc ..), Io.result_bind_ok hverify]
  rfl

theorem readEntry_split {stream : Bytes} {buffers chunks : List Bytes} {apart : StoredApart} {e : PackedEntry}
    (hk : metadata.has checksumField = false) (hs : Stored env dir packs (metadata.get placesField) buffers apart)
    (hc : splitChunks stream buffers apart = some chunks)
    (he : packEntryParts dumps metadata chunks true none = some e) (hp : Pickles env dumps metadata e.checksum) :
    (readEntry env dir (some e.file) true).result = .ok (metadata, some (.split ⟨stream, buffers⟩)) := by
  obtain ⟨h, hchunks, hsum⟩ := packEntryParts_parts he
  have hpop : (stamped metadata e.checksum).pop checksumField = metadata := Items.pop_with hk
  have hget : (stamped metadata e.checksum).get checksumField = some (.bytes e.checksum) := Items.get_with hk
  have hfile : e.file = e.head ++ chunks.flatten := by rw [PackedEntry.file, hchunks]
  obtain ⟨t, ht, hmap, hread⟩ := @readSplit_parts env dir packs _ _ _ _ _ e.head hs hc
  have hsplit : (readSplit env dir e.file (headerSize + metaCap (dumps (stamped metadata e.checksum)).length true)
      (some (.bytes e.checksum)) (metadata.get placesField)).result = .ok ⟨stream, buffers⟩ := by
    rw [← h.length, hfile, hsum]
    simp only [readSplit, Option.getD_none]
    rw [Io.result_bind_ok ht]
    split
    · exact hmap
    · exact hread
  simp only [readEntry, readEntryAndChecksum]
  rw [Io.result_bind, Io.result_bind_ok (h.readHead hp)]
  simp only [hpop, hget, if_true, Bool.not_true, Bool.false_eq_true, if_false]
  rw [Io.result_bind_ok hsplit]
  rfl

theorem HeadParts.packedSize {split : Bool} {e : PackedEntry} (h : HeadParts dumps metadata split e)
    (hp : Pickles env dumps metadata e.checksum) :
    e.file.length = packedSize dumps metadata e.chunks.flatten.length +
      (if split then pad (headerSize + ((dumps (stamped metadata e.checksum)).length + metaSlack)) else 0) := by
  rw [PackedEntry.file, List.length_append, h.length, Entry.packedSize,
    show metadata.with checksumField (.bytes (zeros 4)) = stamped metadata (zeros 4) from rfl, hp.width]
  cases split <;> simp [metaCap] <;> omega

/-- The whole format read back. For every metadata dict without the checksum's key that pickle round-trips:

* an entry of one piece: reading returns the metadata and the payload, and `packed_size` is the file's length;
* a split entry, with any of its buffers kept apart in the chunk folder: reading returns the metadata, the
  stream and the buffers in order, mapped or read part by part, and the file is longer than `packed_size` by the
  padding of its metadata region;
* of both: the metadata is read without the payload, also from any part of at least `metadata_span` bytes, and
  `PackedEntry.size` is the file's length. -/
theorem entry_round_trip (env : Env) (dir : ChunkDir) (packs : Str → List Bytes) (dumps : Items → Bytes)
    (metadata : Items) (hk : metadata.has checksumField = false) :
    (∀ chunks e, packEntryParts dumps metadata chunks false none = some e →
      Pickles env dumps metadata e.checksum →
      (readEntry env dir (some e.file) true).result = .ok (metadata, some (.whole chunks.flatten)) ∧
      ReadsHead env dir metadata e ∧ packedSize dumps metadata chunks.flatten.length = e.file.length) ∧
    (∀ stream buffers apart chunks e, Stored env dir packs (metadata.get placesField) buffers apart →
      splitChunks stream buffers apart = some chunks → packEntryParts dumps metadata chunks true none = some e →
      Pickles env dumps metadata e.checksum →
      (readEntry env dir (some e.file) true).result = .ok (metadata, some (.split ⟨stream, buffers⟩)) ∧
      (∃ t, (readTable env e.file e.head.length).result = .ok t ∧
        (mapSplit env dir e.file e.head.length t.size t.streamLen t.lengths t.apart (.bytes e.checksum)
          (metadata.get placesField)).result = .ok ⟨stream, buffers⟩ ∧
        (readParts env dir e.file e.head.length t (.bytes e.checksum) (metadata.get placesField)).result =
          .ok ⟨stream, buffers⟩) ∧
      ReadsHead env dir metadata e ∧
      e.file.length = packedSize dumps metadata chunks.flatten.length +
        pad (headerSize + ((dumps (stamped metadata e.checksum)).length + metaSlack))) := by
  constructor
  · intro chunks e he hp
    obtain ⟨h, hchunks, _⟩ := packEntryParts_parts he
    refine ⟨readEntry_whole hk he hp, h.readsHead hk hp, ?_⟩
    have hsize := h.packedSize hp
    simp only [hchunks, Bool.false_eq_true, if_false, Nat.add_zero] at hsize
    exact hsize.symm
  · intro stream buffers apart chunks e hs hc he hp
    obtain ⟨h, hchunks, hsum⟩ := packEntryParts_parts he
    have hfile : e.file = e.head ++ chunks.flatten := by rw [PackedEntry.file, hchunks]
    refine ⟨readEntry_split hk hs hc he hp, ?_, h.readsHead hk hp, ?_⟩
    · rw [hfile, hsum]
      exact readSplit_parts hs hc
    · have hsize := h.packedSize hp
      simp only [hchunks, if_true] at hsize
      exact hsize

end RoundTrip

/-! ### A small entry -/

/-- `{"a": 1}`. -/
def smallMetadata : Items := [(.str (str "a"), .int 1)]

/-- The pickle of `{"a": 1, "_payload_crc32": crc}` up to the four bytes of the checksum. -/
def smallPickleStart : Bytes :=
  [128, 4, 149, 35, 0, 0, 0, 0, 0, 0, 0, 125, 148, 40, 140, 1, 97, 148, 75, 1, 140, 14, 95, 112, 97, 121, 108, 111,
    97, 100, 95, 99, 114, 99, 51, 50, 148, 67, 4]

/-- `pickle.dumps` of the small metadata with a checksum. -/
def smallDumps (m : Items) : Bytes :=
  match m.get checksumField with
  | some (.bytes crc) => smallPickleStart ++ crc ++ [148, 117, 46]
  | _ => []

/-- `pickle.loads` of it. -/
def smallLoads (b : Bytes) : Option Val :=
  if b.take 39 = smallPickleStart then some (.dict (stamped smallMetadata (slice b 39 4))) else none

def smallEnv : Env where
  loads := smallLoads
  canMap := false
  mapsEntry := false
  mapsChunk _ := false
  readReserves := true
  reprReturns _ := true
  parseInt _ := none
  fromHex _ := none
  encodes _ := true

def smallDigest : Digest := zeros 32

/-- The first of three buffers is kept apart. -/
def smallApart : StoredApart := (∅ : StoredApart).insert 0 (smallDigest, crcOf [1, 2])

def smallDir : ChunkDir := fun name => if name = chunkName smallDigest then some ([1, 2] ++ crcOf [1, 2]) else none

theorem smallPickles {checksum : Bytes} (h : checksum.length = 4) :
    Pickles smallEnv smallDumps smallMetadata checksum := by
  have hk : smallMetadata.has checksumField = false := by decide
  have hdumps : ∀ c, smallDumps (stamped smallMetadata c) = smallPickleStart ++ c ++ [148, 117, 46] := by
    intro c
    simp only [smallDumps, stamped, Items.get_with hk]
  refine ⟨?_, by simp [hdumps, h]⟩
  have hslice : slice (smallPickleStart ++ checksum ++ [148, 117, 46]) 39 4 = checksum :=
    slice_of_eq (a := smallPickleStart) (by rw [List.append_assoc]) rfl h.symm
  have htake : (smallPickleStart ++ checksum ++ [148, 117, 46]).take 39 = smallPickleStart := by
    rw [List.append_assoc]
    exact List.take_left' rfl
  rw [hdumps, smallEnv]
  simp only [smallLoads, htake, hslice, if_true]

theorem length_smallDumps {checksum : Bytes} (h : checksum.length = 4) :
    (smallDumps (stamped smallMetadata checksum)).length = 46 := by
  have hk : smallMetadata.has checksumField = false := by decide
  simp only [smallDumps, stamped, Items.get_with hk]
  simp [smallPickleStart, h]

theorem smallStored :
    Stored smallEnv smallDir (fun _ => []) (smallMetadata.get placesField) [[1, 2], [], [3]] smallApart := by
  have hlookup : ∀ i ref, smallApart.lookup i = some ref → i = 0 ∧ ref = (smallDigest, crcOf [1, 2]) := by
    intro i ref h
    rw [smallApart, Dict.lookup_insert'] at h
    split at h
    · rename_i hi; cases h; exact ⟨hi, rfl⟩
    · simp at h
  refine ⟨?_, ?_, ?_⟩ <;> intro i ref h <;> obtain ⟨rfl, rfl⟩ := hlookup i ref h
  · exact ⟨by decide, by simp [smallDigest], by simp⟩
  · simp
  · exact .file rfl (by simp [smallDir])

/-- A small entry of one piece and a small split one, each read back. -/
theorem entry_round_trip_small :
    (∃ e, packEntryParts smallDumps smallMetadata [[1, 2], [3]] false none = some e ∧
      (readEntry smallEnv smallDir (some e.file) true).result = .ok (smallMetadata, some (.whole [1, 2, 3]))) ∧
    ∃ chunks e, splitChunks [9] [[1, 2], [], [3]] smallApart = some chunks ∧
      packEntryParts smallDumps smallMetadata chunks true none = some e ∧
      (readEntry smallEnv smallDir (some e.file) true).result =
        .ok (smallMetadata, some (.split ⟨[9], [[1, 2], [], [3]]⟩)) := by
  obtain ⟨hwhole, hsplit⟩ := entry_round_trip smallEnv smallDir (fun _ => []) smallDumps smallMetadata (by decide)
  have hlen : ∀ chunks, (checksumOf chunks).length = 4 := fun chunks => by simp [checksumOf]
  constructor
  · obtain ⟨e, he⟩ : ∃ e, packEntryParts smallDumps smallMetadata [[1, 2], [3]] false none = some e :=
      exists_packEntryParts (by rw [length_smallDumps (hlen _)]; decide +kernel)
    have hp : Pickles smallEnv smallDumps smallMetadata e.checksum :=
      smallPickles (by rw [(packEntryParts_parts he).2.2, Option.getD_none]; exact hlen _)
    exact ⟨e, he, (hwhole _ e he hp).1⟩
  · obtain ⟨chunks, hc⟩ : ∃ chunks, splitChunks [9] [[1, 2], [], [3]] smallApart = some chunks := by
      have hkeys : smallApart.keys = [0] := rfl
      have hlookup : smallApart.lookup 0 = some (smallDigest, crcOf [1, 2]) := AList.lookup_insert _
      simp [splitChunks, splitTable, packUInts, packUInt, hkeys, packChunkRef, hlookup]
    obtain ⟨e, he⟩ : ∃ e, packEntryParts smallDumps smallMetadata chunks true none = some e :=
      exists_packEntryParts (by rw [length_smallDumps (hlen _)]; decide +kernel)
    have hp : Pickles smallEnv smallDumps smallMetadata e.checksum :=
      smallPickles (by rw [(packEntryParts_parts he).2.2, Option.getD_none]; exact hlen _)
    exact ⟨chunks, e, hc, he, (hsplit _ _ _ chunks e smallStored hc he hp).1⟩

/-- `packed_size` is short of a split entry by the padding of its metadata region: 6 bytes here. -/
theorem packedSize_split_short :
    ∃ chunks e, splitChunks [9] [] ∅ = some chunks ∧
      packEntryParts smallDumps smallMetadata chunks true none = some e ∧
      Pickles smallEnv smallDumps smallMetadata e.checksum ∧
      e.file.length = packedSize smallDumps smallMetadata chunks.flatten.length + 6 := by
  have hlen : ∀ chunks, (checksumOf chunks).length = 4 := fun chunks => by simp [checksumOf]
  obtain ⟨chunks, hc⟩ : ∃ chunks, splitChunks [9] [] ∅ = some chunks := by
    simp [splitChunks, splitTable, packUInts, packUInt]
  obtain ⟨e, he⟩ : ∃ e, packEntryParts smallDumps smallMetadata chunks true none = some e :=
    exists_packEntryParts (by rw [length_smallDumps (hlen _)]; decide +kernel)
  obtain ⟨h, hchunks, hsum⟩ := packEntryParts_parts he
  have h4 : e.checksum.length = 4 := by rw [hsum, Option.getD_none]; exact hlen _
  refine ⟨chunks, e, hc, he, smallPickles h4, ?_⟩
  have hsize := h.packedSize (smallPickles h4)
  rw [hchunks, length_smallDumps h4] at hsize
  exact hsize

/-! ## Damaged entries -/

/-- For every content of the file and of the chunk folder: reading the entry returns or raises an `OSError` or
a `CorruptEntry`, allocates no buffer longer than the file it is read from, and `FileBackend.get` does not
raise, exactly when the entry's metadata can be looked at and, where a chunk of a pack is found damaged, the entries
that hold it can be removed. -/
theorem damaged_entry_iff (env : Env) (dir : ChunkDir) (file : Option Bytes) (folder : Folder) (k : Known) (stem : Str) :
    (Io.Safe IsReadError (readEntryAndChecksum env dir file true) ∧
      ∀ (V : Type) (restore : Items × Option Payload × Option Val → Restored V),
        (∀ found, restore found ≠ .raised false) →
        fileGet (k.removeDamaged env dir folder stem) (readEntryAndChecksum env dir file true) restore ≠ .raises) ↔
    ∀ content, file = some content → EntryReadable env dir content ∧
      ∀ pack offset, DamagedAt env dir content pack offset → Removable env folder k stem pack offset := by
  constructor
  · rintro ⟨hsafe, hget⟩ content rfl
    refine ⟨readEntryAndChecksum_safe.mp hsafe, fun pack offset hd => ?_⟩
    rw [← readEntryAndChecksum_damaged] at hd
    have hmiss := hget Unit (fun _ => .miss) (by simp)
    rw [fileGet, hd] at hmiss
    dsimp only at hmiss
    split at hmiss
    · rename_i k' hk'
      exact Known.removeDamaged_returns.mp ⟨k', hk'⟩
    · exact absurd rfl hmiss
  · intro h
    have hsafe : Io.Safe IsReadError (readEntryAndChecksum env dir file true) := by
      cases file with
      | none => simp [readEntryAndChecksum, IsReadError]
      | some content => exact readEntryAndChecksum_safe.mpr (h content rfl).1
    refine ⟨hsafe, fun V restore hrestore => ?_⟩
    unfold fileGet
    split
    · simp
    · rename_i pack offset hd
      cases file with
      | none => simp [readEntryAndChecksum] at hd
      | some content =>
          have hdamaged := readEntryAndChecksum_damaged.mp hd
          obtain ⟨k', hk'⟩ := Known.removeDamaged_returns.mpr ((h content rfl).2 pack offset hdamaged)
          rw [hk']
          simp
    · simp
    · rename_i e he; exact (hsafe.2 _ he).elim
    · rename_i found _
      split
      · simp
      · simp
      · rename_i caught hraised
        cases caught with
        | true => simp
        | false => exact (hrestore found hraised).elim

/-- The pickle of `{"_payload_crc32": 5}`. -/
def intChecksumPickle : Bytes :=
  [128, 4, 149, 23, 0, 0, 0, 0, 0, 0, 0, 125, 148, 140, 14, 95, 112, 97, 121, 108, 111, 97, 100, 95, 99, 114, 99, 51,
    50, 148, 75, 5, 115, 46]

def intChecksumEnv : Env :=
  { smallEnv with loads := fun b => if b = intChecksumPickle then some (.dict [(.str checksumField, .int 5)]) else none }

/-- A process that has looked at nothing yet. -/
def newlyKnown : Known := ⟨false, false, ∅, ∅, []⟩

def emptyFolder : Folder := ⟨[], fun _ => none, fun _ => true⟩

/-- An entry whose checksum is a number: the message that it does not match asks the number for its `hex`, and
`FileBackend.get` raises. -/
theorem damaged_entry_raises :
    (readEntryAndChecksum intChecksumEnv (fun _ => none)
      (some (magic ++ le 4 34 ++ le 4 34 ++ intChecksumPickle ++ [1])) true).result = .error (.py .attributeError) ∧
    fileGet (newlyKnown.removeDamaged intChecksumEnv (fun _ => none) emptyFolder (str "a"))
      (readEntryAndChecksum intChecksumEnv (fun _ => none)
        (some (magic ++ le 4 34 ++ le 4 34 ++ intChecksumPickle ++ [1])) true)
      (fun _ => (Restored.miss : Restored Nat)) = .raises := by
  have hread : (readEntryAndChecksum intChecksumEnv (fun _ => none)
      (some (magic ++ le 4 34 ++ le 4 34 ++ intChecksumPickle ++ [1])) true).result =
        .error (.py .attributeError) := rfl
  exact ⟨hread, by rw [fileGet, hread]⟩

end Cash.Entry
