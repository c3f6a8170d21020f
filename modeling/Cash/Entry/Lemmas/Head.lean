import Cash.Entry.Lemmas.Split
import Cash.Chunks.Lemmas.Read

/-!
# What the writer wrote is what the reader finds

The table of a split payload read back (`readTable_splitTable`), and the views of its inline buffers
(`inlineChunks_views`).
-/

namespace Cash.Entry

open Bytes Py Chunks

variable {env : Env}

/-! ## Numbers -/

theorem packUInt_eq_some {n x : Nat} {b : Bytes} (h : packUInt n x = some b) : x < 256 ^ n ∧ b = le n x := by
  unfold packUInt at h
  split at h
  · rename_i hx
    cases h
    exact ⟨hx, rfl⟩
  · cases h

theorem mapM_packUInt {n : Nat} {xs : List Nat} {bs : List Bytes} (h : xs.mapM (packUInt n) = some bs) :
    (∀ x ∈ xs, x < 256 ^ n) ∧ bs = xs.map (le n) := by
  induction xs generalizing bs with
  | nil => simp at h; simp [h]
  | cons x xs ih =>
      simp only [List.mapM_cons, Option.bind_eq_bind, Option.bind_eq_some_iff, Option.pure_def,
        Option.some.injEq] at h
      obtain ⟨b, hb, bs', hbs, rfl⟩ := h
      obtain ⟨hx, rfl⟩ := packUInt_eq_some hb
      obtain ⟨hall, rfl⟩ := ih hbs
      exact ⟨by simpa using ⟨hx, hall⟩, rfl⟩

/-- Numbers of `n` bytes each, read back. -/
theorem unpackUInts {n : Nat} {xs : List Nat} (h : ∀ x ∈ xs, x < 256 ^ n) :
    (List.range xs.length).map (fun i => unle (slice (xs.map (le n)).flatten (n * i) n)) = xs := by
  apply List.ext_getElem
  · simp
  · intro i h₁ h₂
    have hlen : ∀ b ∈ xs.map (le n), b.length = n := by simp
    simp only [List.getElem_map, List.getElem_range]
    rw [slice_flatten hlen (by simpa using h₂)]
    simp only [List.getElem_map]
    exact unle_le (h _ (List.getElem_mem h₂))

/-! ## References -/

/-- The references of a table, in order. -/
def apartRefs (apart : StoredApart) : List Ref :=
  (apart.keys.mergeSort (· ≤ ·)).map fun i =>
    ⟨i, ((apart.lookup i).getD ([], [])).1, ((apart.lookup i).getD ([], [])).2⟩

/-- The chunks a split payload refers to: buffers it has, digests of 32 bytes and checksums of 4. -/
def WellFormed (apart : StoredApart) (count : Nat) : Prop :=
  ∀ i ref, apart.lookup i = some ref → i < count ∧ ref.1.length = 32 ∧ ref.2.length = 4

theorem mem_sortedKeys {apart : StoredApart} {i : Nat} : i ∈ apart.keys.mergeSort (· ≤ ·) ↔ i ∈ apart := by
  rw [List.mem_mergeSort]
  exact Iff.rfl

theorem isApart_apartRefs (apart : StoredApart) (i : Nat) : isApart (apartRefs apart) i = decide (i ∈ apart) := by
  rw [Bool.eq_iff_iff]
  simp only [isApart, apartRefs, List.any_map, List.any_eq_true, Function.comp_apply, decide_eq_true_eq]
  constructor
  · rintro ⟨j, hj, rfl⟩; exact mem_sortedKeys.mp hj
  · intro hi; exact ⟨i, mem_sortedKeys.mpr hi, rfl⟩

theorem packBytesField_of_length {n : Nat} {b : Bytes} (h : b.length = n) : packBytesField n b = b := by
  simp [packBytesField, ← h]

/-- The bytes of one reference. -/
def refBytes (r : Ref) : Bytes := le 4 r.index ++ r.digest ++ r.crc

theorem mapM_packChunkRef {apart : StoredApart} {count : Nat} {keys : List Nat} {bs : List Bytes}
    (hw : WellFormed apart count)
    (h : keys.mapM (fun i => (apart.lookup i).bind (packChunkRef i)) = some bs) :
    (∀ i ∈ keys, i < 256 ^ 4) ∧ bs = keys.map fun i =>
      refBytes ⟨i, ((apart.lookup i).getD ([], [])).1, ((apart.lookup i).getD ([], [])).2⟩ := by
  induction keys generalizing bs with
  | nil => simp at h; simp [h]
  | cons i keys ih =>
      simp only [List.mapM_cons, Option.bind_eq_bind, Option.bind_eq_some_iff, Option.pure_def,
        Option.some.injEq] at h
      obtain ⟨b, ⟨ref, href, hb⟩, bs', hbs, rfl⟩ := h
      simp only [packChunkRef, Option.map_eq_some_iff] at hb
      obtain ⟨index, hindex, rfl⟩ := hb
      obtain ⟨hi, rfl⟩ := packUInt_eq_some hindex
      obtain ⟨hall, rfl⟩ := ih hbs
      obtain ⟨_, hd, hc⟩ := hw i ref href
      refine ⟨by simpa using ⟨hi, hall⟩, ?_⟩
      simp only [List.map_cons, refBytes, href, Option.getD_some, packBytesField_of_length hd,
        packBytesField_of_length hc]

theorem unpackRefs_flatten {refs : List Ref} (hi : ∀ r ∈ refs, r.index < 256 ^ 4)
    (hd : ∀ r ∈ refs, r.digest.length = 32 ∧ r.crc.length = 4) :
    unpackRefs (refs.map refBytes).flatten refs.length = refs := by
  have hlen : ∀ b ∈ refs.map refBytes, b.length = chunkRefSize := by
    intro b hb
    obtain ⟨r, hr, rfl⟩ := List.mem_map.mp hb
    simp [refBytes, hd r hr, chunkRefSize]
  apply List.ext_getElem
  · simp [unpackRefs]
  · intro i h₁ h₂
    have hr := List.getElem_mem h₂
    obtain ⟨hdigest, hcrc⟩ := hd _ hr
    simp only [unpackRefs, List.getElem_map, List.getElem_range]
    rw [slice_flatten hlen (by simpa using h₂)]
    simp only [List.getElem_map]
    generalize refs[i] = r at hr hdigest hcrc
    have h4 : (refBytes r).take 4 = le 4 r.index := by simp [refBytes]
    have h32 : slice (refBytes r) 4 32 = r.digest := slice_of_eq (by simp [refBytes]; rfl) (by simp) hdigest.symm
    have h36 : slice (refBytes r) 36 4 = r.crc :=
      slice_of_eq (a := le 4 r.index ++ r.digest) (c := []) (by simp [refBytes]) (by simp [hdigest]) hcrc.symm
    rw [h4, h32, h36, unle_le (hi r hr)]

theorem checkRefs_result {count : Nat} {refs apart : List Ref} (hi : ∀ r ∈ refs, r.index < count)
    (hnd : (refs.map (·.index)).Nodup) (hnew : ∀ r ∈ refs, isApart apart r.index = false) :
    (checkRefs count apart refs).result = .ok (apart ++ refs) := by
  induction refs generalizing apart with
  | nil => simp [checkRefs]
  | cons r rest ih =>
      have hr : ¬(count ≤ r.index ∨ isApart apart r.index = true) := by
        rw [hnew r (by simp)]
        have := hi r (by simp)
        simp
        omega
      rw [List.map_cons, List.nodup_cons] at hnd
      unfold checkRefs
      rw [if_neg hr, ih (fun r' hr' => hi r' (by simp [hr'])) hnd.2, List.append_assoc]
      · rfl
      · intro r' hr'
        have hne : r.index ≠ r'.index := fun heq => hnd.1 (List.mem_map.mpr ⟨r', hr', heq.symm⟩)
        have hold := hnew r' (by simp [hr'])
        simp only [isApart, List.any_append, Bool.or_eq_false_iff] at hold ⊢
        exact ⟨hold, by simp [hne]⟩

/-! ## The table -/

section Table

variable {stream table : Bytes} {buffers : List Bytes} {apart : StoredApart}

theorem length_apartRefs (apart : StoredApart) : (apartRefs apart).length = apart.keys.length := by
  simp [apartRefs]

theorem apartRefs_wellFormed (hw : WellFormed apart buffers.length) :
    ∀ r ∈ apartRefs apart, r.index < buffers.length ∧ r.digest.length = 32 ∧ r.crc.length = 4 := by
  intro r hr
  obtain ⟨i, hi, rfl⟩ := List.mem_map.mp hr
  obtain ⟨ref, href⟩ := Dict.mem_iff_lookup.mp (mem_sortedKeys.mp hi)
  simpa [href] using hw i ref href

theorem apartRefs_nodup (apart : StoredApart) : ((apartRefs apart).map (·.index)).Nodup := by
  have hmap : (apartRefs apart).map (·.index) = apart.keys.mergeSort (· ≤ ·) := by
    simp [apartRefs, Function.comp_def]
  rw [hmap]
  exact (List.mergeSort_perm _ _).nodup_iff.mpr apart.nodupKeys

/-- The lengths of the buffers, as the table has them. -/
def lengthsBytes (buffers : List Bytes) : Bytes := ((buffers.map List.length).map (le 8)).flatten

/-- The references, as the table has them. -/
def refsBytes (apart : StoredApart) : Bytes := ((apartRefs apart).map refBytes).flatten

theorem length_lengthsBytes (buffers : List Bytes) : (lengthsBytes buffers).length = 8 * buffers.length := by
  rw [lengthsBytes, length_flatten_of (n := 8) (by simp)]
  simp

theorem length_refsBytes (hw : WellFormed apart buffers.length) :
    (refsBytes apart).length = chunkRefSize * apart.keys.length := by
  rw [refsBytes, length_flatten_of (n := chunkRefSize), List.length_map, length_apartRefs]
  intro b hb
  obtain ⟨r, hr, rfl⟩ := List.mem_map.mp hb
  obtain ⟨_, hd, hc⟩ := apartRefs_wellFormed hw r hr
  simp [refBytes, hd, hc, chunkRefSize]

/-- What a table that could be written is, and the bounds its numbers meet. -/
structure TableParts (stream : Bytes) (buffers : List Bytes) (apart : StoredApart) (table : Bytes) : Prop where
  stream_lt : stream.length < 256 ^ 8
  count_lt : buffers.length < 256 ^ 4
  lengths_lt : ∀ n ∈ buffers.map List.length, n < 256 ^ 8
  nApart_lt : apart.keys.length < 256 ^ 4
  index_lt : ∀ r ∈ apartRefs apart, r.index < 256 ^ 4
  eq : table = (le 8 stream.length ++ le 4 buffers.length) ++ (lengthsBytes buffers ++
    (le 4 apart.keys.length ++ refsBytes apart))

theorem splitTable_parts (hw : WellFormed apart buffers.length) (h : splitTable stream buffers apart = some table) :
    TableParts stream buffers apart table := by
  simp only [splitTable, packUInts, Option.bind_eq_bind, Option.bind_eq_some_iff, Option.map_eq_some_iff,
    Option.pure_def, Option.some.injEq] at h
  obtain ⟨b₁, h₁, b₂, h₂, b₃, ⟨bs, h₃, rfl⟩, b₄, h₄, refs, h₅, rfl⟩ := h
  obtain ⟨hstream, rfl⟩ := packUInt_eq_some h₁
  obtain ⟨hcount, rfl⟩ := packUInt_eq_some h₂
  obtain ⟨hlengths, rfl⟩ := mapM_packUInt h₃
  obtain ⟨hapart, rfl⟩ := packUInt_eq_some h₄
  obtain ⟨hindices, rfl⟩ := mapM_packChunkRef hw h₅
  refine ⟨hstream, hcount, hlengths, hapart, ?_, ?_⟩
  · intro r hr
    obtain ⟨i, hi, rfl⟩ := List.mem_map.mp hr
    exact hindices i hi
  · simp [lengthsBytes, refsBytes, apartRefs, Function.comp_def]

namespace TableParts

theorem length (h : TableParts stream buffers apart table) (hw : WellFormed apart buffers.length) :
    table.length = splitHeadSize + 8 * buffers.length + countSize + chunkRefSize * apart.keys.length := by
  rw [h.eq]
  simp only [List.length_append, length_le, length_lengthsBytes, length_refsBytes hw, splitHeadSize, countSize]
  omega

variable {pre rest : Bytes}

theorem slice_head (h : TableParts stream buffers apart table) :
    slice (pre ++ (table ++ rest)) pre.length splitHeadSize = le 8 stream.length ++ le 4 buffers.length := by
  refine slice_of_eq (c := lengthsBytes buffers ++ (le 4 apart.keys.length ++ refsBytes apart) ++ rest) ?_ rfl ?_
  · rw [h.eq]; simp
  · simp [splitHeadSize]

theorem slice_lengths (h : TableParts stream buffers apart table) :
    slice (pre ++ (table ++ rest)) (pre.length + splitHeadSize) (8 * buffers.length) = lengthsBytes buffers := by
  refine slice_of_eq (a := pre ++ (le 8 stream.length ++ le 4 buffers.length))
    (c := le 4 apart.keys.length ++ refsBytes apart ++ rest) ?_ ?_ (length_lengthsBytes buffers).symm
  · rw [h.eq]; simp
  · simp [splitHeadSize]

theorem slice_count (h : TableParts stream buffers apart table) :
    slice (pre ++ (table ++ rest)) (pre.length + splitHeadSize + 8 * buffers.length) countSize =
      le 4 apart.keys.length := by
  refine slice_of_eq (a := pre ++ (le 8 stream.length ++ le 4 buffers.length) ++ lengthsBytes buffers)
    (c := refsBytes apart ++ rest) ?_ ?_ ?_
  · rw [h.eq]; simp
  · simp [splitHeadSize, length_lengthsBytes]; omega
  · simp [countSize]

theorem slice_refs (h : TableParts stream buffers apart table) (hw : WellFormed apart buffers.length) :
    slice (pre ++ (table ++ rest)) (pre.length + splitHeadSize + 8 * buffers.length + countSize)
      (chunkRefSize * apart.keys.length) = refsBytes apart := by
  refine slice_of_eq (a := pre ++ (le 8 stream.length ++ le 4 buffers.length) ++ lengthsBytes buffers ++
    le 4 apart.keys.length) (c := rest) ?_ ?_ (length_refsBytes hw).symm
  · rw [h.eq]; simp
  · simp [splitHeadSize, countSize, length_lengthsBytes]; omega

end TableParts

/-- The table read back from the file, when the parts it describes fill the file. -/
theorem readTable_splitTable {pre rest : Bytes} (hw : WellFormed apart buffers.length)
    (h : splitTable stream buffers apart = some table)
    (hfits : layoutEnd (apartRefs apart) 0 (table.length + pad table.length + stream.length)
      (buffers.map List.length) = table.length + rest.length) :
    ∃ t, (readTable env (pre ++ (table ++ rest)) pre.length).result = .ok t ∧ t.streamLen = stream.length ∧
      t.lengths = buffers.map List.length ∧ t.apart = apartRefs apart ∧ t.size = table.length := by
  have hp := splitTable_parts hw h
  have hlen := hp.length hw
  have hunpack : unpackRefs (refsBytes apart) apart.keys.length = apartRefs apart := by
    rw [refsBytes, ← length_apartRefs]
    exact unpackRefs_flatten hp.index_lt fun r hr => (apartRefs_wellFormed hw r hr).2
  have hcheck : (checkRefs buffers.length [] (apartRefs apart)).result = .ok (apartRefs apart) :=
    checkRefs_result (fun r hr => (apartRefs_wellFormed hw r hr).1) (apartRefs_nodup apart) fun _ _ => rfl
  have h8 : unle ((le 8 stream.length ++ le 4 buffers.length).take 8) = stream.length := by
    rw [List.take_left' (length_le 8 _), unle_le hp.stream_lt]
  have h4 : unle ((le 8 stream.length ++ le 4 buffers.length).drop 8) = buffers.length := by
    rw [List.drop_left' (length_le 8 _), unle_le hp.count_lt]
  have hn : unle (le 4 apart.keys.length) = apart.keys.length := unle_le hp.nApart_lt
  have hback : (List.range buffers.length).map (fun i => unle (slice (lengthsBytes buffers) (8 * i) 8)) =
      buffers.map List.length := by
    have hall := unpackUInts hp.lengths_lt
    rwa [List.length_map] at hall
  have hfile : (pre ++ (table ++ rest)).length = pre.length + (table.length + rest.length) := by simp
  refine ⟨⟨stream.length, buffers.map List.length, apartRefs apart, table.length, (le 8 stream.length ++
    le 4 buffers.length, lengthsBytes buffers, le 4 apart.keys.length, refsBytes apart)⟩, ?_, rfl, rfl, rfl, rfl⟩
  simp only [readTable]
  rw [Io.result_bind_ok (readExact_result (by omega)), hp.slice_head, h8, h4, if_neg (by omega),
    Io.result_bind_ok (readExact_result (by omega)), hp.slice_lengths, hback,
    Io.result_bind_ok (readExact_result (by omega)), hp.slice_count, hn, if_neg (by omega),
    Io.result_bind_ok (readExact_result (by omega)), hp.slice_refs hw, hunpack, Io.result_bind_ok hcheck, ← hlen,
    hfits, if_neg (by omega)]
  rfl

end Table

/-! ## The buffers in the entry -/

/-- The buffers as they are in the entry: a hole for one kept apart. -/
def holes (apart : StoredApart) : Nat → List Bytes → List (Option Bytes)
  | _, [] => []
  | i, buf :: rest => (if i ∈ apart then none else some buf) :: holes apart (i + 1) rest

/-- The views of the inline buffers are the buffers, and they end where the payload ends. -/
theorem inlineChunks_views (apart : StoredApart) (pre : Bytes) (i : Nat) (buffers : List Bytes) :
    mapBuffers (pre ++ (inlineChunks apart i pre.length buffers).flatten) (apartRefs apart) i pre.length
        (buffers.map List.length) = holes apart i buffers ∧
      layoutEnd (apartRefs apart) i pre.length (buffers.map List.length) =
        pre.length + (inlineChunks apart i pre.length buffers).flatten.length := by
  induction buffers generalizing pre i with
  | nil => simp [mapBuffers, holes, layoutEnd, inlineChunks]
  | cons buf rest ih =>
      simp only [List.map_cons, mapBuffers, holes, layoutEnd, inlineChunks, isApart_apartRefs, decide_eq_true_eq]
      by_cases ha : i ∈ apart
      · obtain ⟨hviews, hend⟩ := ih pre (i + 1)
        simp only [ha, if_true]
        exact ⟨by rw [hviews], hend⟩
      · simp only [ha, if_false]
        have hpad : ((if pad pre.length = 0 then [] else [zeros (pad pre.length)]) : List Bytes).flatten =
            zeros (pad pre.length) := by
          split
          · rename_i h0; simp [h0, zeros]
          · simp
        have hpre : (pre ++ zeros (pad pre.length) ++ buf).length = pre.length + pad pre.length + buf.length := by
          simp
          omega
        obtain ⟨hviews, hend⟩ := ih (pre ++ zeros (pad pre.length) ++ buf) (i + 1)
        rw [hpre] at hviews hend
        simp only [List.flatten_append, List.flatten_cons, hpad]
        have hwhole : pre ++ (zeros (pad pre.length) ++ (buf ++
            (inlineChunks apart (i + 1) (pre.length + pad pre.length + buf.length) rest).flatten)) =
            pre ++ zeros (pad pre.length) ++ buf ++
              (inlineChunks apart (i + 1) (pre.length + pad pre.length + buf.length) rest).flatten := by simp
        refine ⟨?_, ?_⟩
        · have hview : slice (pre ++ (zeros (pad pre.length) ++ (buf ++
              (inlineChunks apart (i + 1) (pre.length + pad pre.length + buf.length) rest).flatten)))
              (pre.length + pad pre.length) buf.length = buf :=
            slice_of_eq (a := pre ++ zeros (pad pre.length)) (by simp; rfl) (by simp) rfl
          rw [hview, hwhole, hviews]
        · rw [hend]
          simp
          omega

/-! ## Filling the holes -/

theorem length_holes (apart : StoredApart) (i : Nat) (buffers : List Bytes) :
    (holes apart i buffers).length = buffers.length := by
  induction buffers generalizing i with
  | nil => rfl
  | cons buf rest ih => simp [holes, ih]

theorem getElem_holes {apart : StoredApart} {buffers : List Bytes} {i k : Nat} (hk : k < buffers.length) :
    (holes apart i buffers)[k]? = some (if i + k ∈ apart then none else some buffers[k]) := by
  induction buffers generalizing i k with
  | nil => simp at hk
  | cons buf rest ih =>
      cases k with
      | zero => simp [holes]
      | succ k =>
          have hk' : k < rest.length := by simpa using hk
          have h := ih (i := i + 1) hk'
          simp only [holes, List.getElem?_cons_succ, h, List.getElem_cons_succ]
          rw [show i + 1 + k = i + (k + 1) by omega]

/-- A list in which each entry found was put where it belongs. -/
theorem getElem_fillIn {found : List (Nat × Bytes)} {D : Nat → Bytes} (hD : ∀ p ∈ found, p.2 = D p.1)
    (buffers : List (Option Bytes)) (k : Nat) (hk : k < buffers.length) :
    (fillIn buffers found)[k]? = if k ∈ found.map (·.1) then some (some (D k)) else buffers[k]? := by
  induction found generalizing buffers with
  | nil => simp [fillIn]
  | cons p found ih =>
      have hp : p.2 = D p.1 := hD p (by simp)
      have h := ih (fun q hq => hD q (by simp [hq])) (buffers.set p.1 (some p.2)) (by simpa using hk)
      rw [show fillIn buffers (p :: found) = fillIn (buffers.set p.1 (some p.2)) found from rfl, h]
      by_cases hmem : k ∈ found.map (·.1)
      · simp [hmem]
      · rw [if_neg hmem, List.getElem?_set]
        by_cases hkp : p.1 = k
        · subst hkp
          simp [hk, hp]
        · have hkp' : k ≠ p.1 := fun h => hkp h.symm
          simp [hkp, hkp', hmem]

theorem length_fillIn (buffers : List (Option Bytes)) (found : List (Nat × Bytes)) :
    (fillIn buffers found).length = buffers.length := by
  induction found generalizing buffers with
  | nil => rfl
  | cons p found ih =>
      rw [show fillIn buffers (p :: found) = fillIn (buffers.set p.1 (some p.2)) found from rfl, ih]
      simp

/-- The chunks found fill the holes. -/
theorem fillIn_holes {apart : StoredApart} {buffers : List Bytes} {found : List (Nat × Bytes)}
    (hD : ∀ p ∈ found, p.2 = buffers.getD p.1 []) (hall : ∀ i, i ∈ apart ↔ i ∈ found.map (·.1)) :
    (fillIn (holes apart 0 buffers) found).map (·.getD []) = buffers := by
  apply List.ext_getElem?
  intro k
  by_cases hk : k < buffers.length
  · rw [List.getElem?_map, getElem_fillIn (D := fun i => buffers.getD i []) hD _ k (by rw [length_holes]; exact hk), getElem_holes hk]
    have hbuf : buffers.getD k [] = buffers[k] := by simp [hk]
    by_cases hmem : k ∈ found.map (·.1)
    · simp [hmem, hk]
    · have hna : k ∉ apart := fun h => hmem ((hall k).mp h)
      simp [hmem, hna, hk]
  · rw [List.getElem?_eq_none (by rw [List.length_map, length_fillIn, length_holes]; omega),
      List.getElem?_eq_none (by omega)]

/-! ## The head of an entry, and the entry as a whole -/

section

variable {dumps : Items → Bytes} {metadata : Items}

/-- The metadata as it is pickled: with the checksum of the payload. -/
def stamped (metadata : Items) (checksum : Bytes) : Items := metadata.with checksumField (.bytes checksum)

/-- What an entry relies on of `pickle`: the stamped metadata comes back, and its length does not depend on
the four bytes of the checksum. -/
structure Pickles (env : Env) (dumps : Items → Bytes) (metadata : Items) (checksum : Bytes) : Prop where
  loads : env.loads (dumps (stamped metadata checksum)) = some (.dict (stamped metadata checksum))
  width : (dumps (stamped metadata (zeros 4))).length = (dumps (stamped metadata checksum)).length

/-! ### The head -/

/-- The head of an entry: a header, the pickled metadata and zeros up to its room. -/
structure HeadParts (dumps : Items → Bytes) (metadata : Items) (split : Bool) (e : PackedEntry) : Prop where
  len_lt : (dumps (stamped metadata e.checksum)).length < 256 ^ 4
  cap_lt : metaCap (dumps (stamped metadata e.checksum)).length split < 256 ^ 4
  head : e.head = (if split then magicSplit else magic) ++ le 4 (dumps (stamped metadata e.checksum)).length ++
    le 4 (metaCap (dumps (stamped metadata e.checksum)).length split) ++ dumps (stamped metadata e.checksum) ++
    zeros (metaCap (dumps (stamped metadata e.checksum)).length split -
      (dumps (stamped metadata e.checksum)).length)
  size : e.size = e.head.length + (e.chunks.map List.length).sum

theorem packEntryParts_parts {chunks : List Bytes} {split : Bool} {checksum : Option Bytes} {e : PackedEntry}
    (h : packEntryParts dumps metadata chunks split checksum = some e) :
    HeadParts dumps metadata split e ∧ e.chunks = chunks ∧ e.checksum = checksum.getD (checksumOf chunks) := by
  simp only [packEntryParts, packHeader, Option.bind_eq_bind, Option.bind_eq_some_iff, Option.pure_def,
    Option.some.injEq] at h
  obtain ⟨header, ⟨b₁, h₁, b₂, h₂, rfl⟩, rfl⟩ := h
  obtain ⟨hlen, rfl⟩ := packUInt_eq_some h₁
  obtain ⟨hcap, rfl⟩ := packUInt_eq_some h₂
  exact ⟨⟨hlen, hcap, rfl, rfl⟩, rfl, rfl⟩

theorem le_metaCap (n : Nat) (split : Bool) : n ≤ metaCap n split := by
  cases split <;> simp only [metaCap, Bool.false_eq_true, if_false, if_true] <;> omega

/-- An entry whose metadata fits its header can be packed. -/
theorem exists_packEntryParts {chunks : List Bytes} {split : Bool}
    (h : metaCap (dumps (stamped metadata (checksumOf chunks))).length split < 256 ^ 4) :
    ∃ e, packEntryParts dumps metadata chunks split none = some e := by
  have hlen := Nat.lt_of_le_of_lt (le_metaCap _ _) h
  have hheader : packHeader (if split then magicSplit else magic)
      (dumps (stamped metadata (checksumOf chunks))).length
      (metaCap (dumps (stamped metadata (checksumOf chunks))).length split) = some ((if split then magicSplit else magic)
        ++ le 4 (dumps (stamped metadata (checksumOf chunks))).length ++
        le 4 (metaCap (dumps (stamped metadata (checksumOf chunks))).length split)) := by
    rw [packHeader, packUInt, if_pos hlen, packUInt, if_pos h]
    rfl
  simp only [stamped] at hheader
  simp only [packEntryParts, Option.getD_none, hheader]
  exact ⟨_, rfl⟩

section Head

variable {split : Bool} {e : PackedEntry}

theorem length_magicOf (split : Bool) : (if split then magicSplit else magic).length = 4 := by
  cases split <;> rfl

theorem HeadParts.length (h : HeadParts dumps metadata split e) :
    e.head.length = headerSize + metaCap (dumps (stamped metadata e.checksum)).length split := by
  have hcap := le_metaCap (dumps (stamped metadata e.checksum)).length split
  rw [h.head]
  simp only [List.length_append, length_magicOf, length_le, length_zeros, headerSize]
  omega

theorem HeadParts.length_file (h : HeadParts dumps metadata split e) : e.size = e.file.length := by
  rw [h.size, PackedEntry.file, List.length_append, List.length_flatten]

/-- The header read back, from the entry or a part of it that holds the header. -/
theorem HeadParts.header (h : HeadParts dumps metadata split e) {n : Nat} (hn : headerSize ≤ n) :
    (e.file.take n).take headerSize = e.file.take headerSize ∧
    unpackHeader (e.file.take headerSize) = ⟨if split then magicSplit else magic,
      (dumps (stamped metadata e.checksum)).length,
      metaCap (dumps (stamped metadata e.checksum)).length split⟩ := by
  refine ⟨by rw [List.take_take, Nat.min_eq_left hn], ?_⟩
  have htake : e.file.take headerSize = (if split then magicSplit else magic) ++
      (le 4 (dumps (stamped metadata e.checksum)).length ++
        le 4 (metaCap (dumps (stamped metadata e.checksum)).length split)) := by
    rw [PackedEntry.file, h.head]
    simp only [List.append_assoc]
    rw [← List.append_assoc, ← List.append_assoc, List.take_left']
    · simp only [List.append_assoc]
    · simp [length_magicOf, headerSize]
  rw [htake, unpackHeader]
  congr 1
  · rw [List.take_left' (length_magicOf split)]
  · rw [slice_of_eq rfl (length_magicOf split).symm (length_le 4 _).symm, unle_le h.len_lt]
  · rw [slice_of_eq (a := (if split then magicSplit else magic) ++
        le 4 (dumps (stamped metadata e.checksum)).length) (c := [])
        (b := le 4 (metaCap (dumps (stamped metadata e.checksum)).length split)) (by simp) (by simp [length_magicOf])
        (length_le 4 _).symm, unle_le h.cap_lt]

/-- The metadata read back, from the entry or a part of it that holds the whole head. -/
theorem HeadParts.metaBytes (h : HeadParts dumps metadata split e) {n : Nat} (hn : e.head.length ≤ n) :
    slice (e.file.take n) headerSize (dumps (stamped metadata e.checksum)).length =
      dumps (stamped metadata e.checksum) := by
  obtain ⟨rest, hsplit⟩ : ∃ rest, e.file.take n = e.head ++ rest :=
    ⟨_, by rw [PackedEntry.file, List.take_append, List.take_of_length_le hn]⟩
  refine slice_of_eq (a := (if split then magicSplit else magic) ++ le 4 (dumps (stamped metadata e.checksum)).length
    ++ le 4 (metaCap (dumps (stamped metadata e.checksum)).length split))
    (c := zeros (metaCap (dumps (stamped metadata e.checksum)).length split -
      (dumps (stamped metadata e.checksum)).length) ++ rest) ?_ ?_ rfl
  · rw [hsplit, h.head]
    simp only [List.append_assoc]
  · simp [length_magicOf, headerSize]

theorem HeadParts.readHead (h : HeadParts dumps metadata split e) (hp : Pickles env dumps metadata e.checksum) :
    (readHead env e.file).result = .ok (⟨if split then magicSplit else magic,
      (dumps (stamped metadata e.checksum)).length,
      metaCap (dumps (stamped metadata e.checksum)).length split⟩, stamped metadata e.checksum) := by
  have hfile : e.head.length ≤ e.file.length := by simp [PackedEntry.file]
  have hlen := h.length
  have hcap := le_metaCap (dumps (stamped metadata e.checksum)).length split
  have hmeta := h.metaBytes hfile
  rw [List.take_length] at hmeta
  have hmagic : ¬((if split then magicSplit else magic) ≠ magic ∧ (if split then magicSplit else magic) ≠ magicSplit) := by
    cases split <;> simp
  have hhead : (e.file.take headerSize).length = headerSize := by
    rw [List.length_take]
    omega
  have hread : (readBytes env e.file headerSize (dumps (stamped metadata e.checksum)).length).result =
      .ok (dumps (stamped metadata e.checksum)) := by
    simp [readBytes, Io.result_bind, Except.bind, hmeta]
  unfold Entry.readHead
  simp only [hhead, Nat.lt_irrefl, if_false, (h.header (Nat.le_refl _)).2]
  rw [if_neg hmagic, if_neg (Nat.not_lt.mpr hcap), Io.result_bind_ok hread, if_neg (Nat.lt_irrefl _)]
  simp [loadMetadata, hp.loads, Io.result_bind, Except.bind]

/-- `unpack_entry` of a part that holds the head. -/
theorem HeadParts.unpackEntry (h : HeadParts dumps metadata split e) (hp : Pickles env dumps metadata e.checksum)
    (hk : metadata.has checksumField = false) {n : Nat} (hn : e.head.length ≤ n) :
    (unpackEntry env (e.file.take n) false).result = .ok (metadata, none) := by
  have hfile : e.head.length ≤ e.file.length := by simp [PackedEntry.file]
  have hlen := h.length
  have hcap := le_metaCap (dumps (stamped metadata e.checksum)).length split
  have hblob : e.head.length ≤ (e.file.take n).length := by
    rw [List.length_take]
    omega
  obtain ⟨htake, hheader⟩ := h.header (n := n) (by omega)
  have hmagic : ¬(((if split then magicSplit else magic) ≠ magic ∧
      (if split then magicSplit else magic) ≠ magicSplit) ∨
      (false = true ∧ (if split then magicSplit else magic) ≠ magic)) := by
    cases split <;> simp
  unfold Entry.unpackEntry
  rw [if_neg (by omega)]
  simp only [htake, hheader]
  rw [if_neg hmagic, if_neg (Nat.not_lt.mpr hcap), if_neg (by omega), h.metaBytes hn]
  have hpop : (stamped metadata e.checksum).pop checksumField = metadata := Items.pop_with hk
  simp [loadMetadata, hp.loads, Io.result_bind, Except.bind, hpop]

theorem HeadParts.metadataSpan (h : HeadParts dumps metadata split e) :
    metadataSpan e.file = .ok e.head.length := by
  have hfile : e.head.length ≤ e.file.length := by simp [PackedEntry.file]
  have hlen := h.length
  unfold Entry.metadataSpan
  rw [if_neg (by omega), (h.header (Nat.le_refl _)).2, hlen]

end Head

end

/-!
## A split payload read back

The payload written from `split_chunks`, with the chunks it keeps apart in the chunk folder, is read as the
stream and the buffers it was written from: mapped, and read part by part.
-/

section

variable {dir : ChunkDir} {packs : Str → List Bytes}

/-- The chunk folder holds the buffers kept apart, under the digests and checksums the table names. -/
structure Stored (env : Env) (dir : ChunkDir) (packs : Str → List Bytes) (places : Option Val)
    (buffers : List Bytes) (apart : StoredApart) : Prop where
  wellFormed : WellFormed apart buffers.length
  crc : ∀ i ref, apart.lookup i = some ref → ref.2 = crcOf (buffers.getD i [])
  holds : ∀ i ref, apart.lookup i = some ref →
    Holds env dir packs (placesDict places) ⟨i, ref.1, ref.2, (buffers.getD i []).length⟩ (buffers.getD i [])

theorem foldl_crc32 (chunks : List Bytes) (crc : BitVec 32) :
    chunks.foldl (fun crc chunk => crc32 chunk crc) crc = crc32 chunks.flatten crc := by
  induction chunks generalizing crc with
  | nil => simp [crc32_nil]
  | cons c chunks ih => rw [List.foldl_cons, ih, List.flatten_cons, crc32_append]

theorem checksumOf_eq (chunks : List Bytes) : checksumOf chunks = crcOf chunks.flatten := by
  rw [checksumOf, foldl_crc32, crcOf]

section Split

variable {places : Option Val} {stream : Bytes} {buffers : List Bytes} {apart : StoredApart}

theorem mem_apartRefs {r : Ref} (hr : r ∈ apartRefs apart) : apart.lookup r.index = some (r.digest, r.crc) := by
  obtain ⟨i, hi, rfl⟩ := List.mem_map.mp hr
  obtain ⟨ref, href⟩ := Dict.mem_iff_lookup.mp (mem_sortedKeys.mp hi)
  simp [href]

/-- The holes left by the buffers kept apart are filled from the chunk folder. -/
theorem readApart_result (h : Stored env dir packs places buffers apart) :
    ∃ filled, (readApart env dir (holes apart 0 buffers) (buffers.map List.length) (apartRefs apart) places).result =
      .ok filled ∧ filled.map (·.getD []) = buffers := by
  have hindices : ∀ i, i ∈ apart ↔ i ∈ (apartRefs apart).map (·.index) := by
    intro i
    have hi : isApart (apartRefs apart) i = true ↔ i ∈ apart := by rw [isApart_apartRefs]; simp
    rw [← hi]
    simp [isApart]
  unfold readApart
  by_cases hnone : apartRefs apart = []
  · refine ⟨holes apart 0 buffers, by simp [hnone], ?_⟩
    have hall : ∀ i, i ∈ apart ↔ i ∈ ([] : List (Nat × Bytes)).map (·.1) := fun i => by rw [hindices i, hnone]; simp
    exact fillIn_holes (fun p hp => by cases hp) hall
  · have hlen : ∀ i, (buffers.map List.length).getD i 0 = (buffers.getD i []).length := by
      intro i
      simp only [List.getD_eq_getElem?_getD, List.getElem?_map]
      cases buffers[i]? <;> rfl
    have hwants : ∀ w ∈ wantedChunks (apartRefs apart) (buffers.map List.length),
        Wants w (buffers.getD w.index []) := by
      intro w hw
      obtain ⟨r, hr, rfl⟩ := List.mem_map.mp hw
      exact ⟨hlen _, h.crc _ _ (mem_apartRefs hr)⟩
    have hholds : ∀ w ∈ wantedChunks (apartRefs apart) (buffers.map List.length),
        Holds env dir packs (placesDict places) w (buffers.getD w.index []) := by
      intro w hw
      obtain ⟨r, hr, rfl⟩ := List.mem_map.mp hw
      rw [hlen]
      exact h.holds _ _ (mem_apartRefs hr)
    obtain ⟨found, hr, hD, hi⟩ := readChunks_result (D := fun i => buffers.getD i []) hwants hholds
    have hfound : (Io.mapError chunkFailed (readChunks env dir (wantedChunks (apartRefs apart)
        (buffers.map List.length)) (placesDict places))).result = .ok found := by
      simp [Io.mapError, hr]
    refine ⟨fillIn (holes apart 0 buffers) found, ?_, fillIn_holes hD fun i => ?_⟩
    · rw [if_neg hnone, Io.result_bind_ok hfound]
      rfl
    · rw [hindices i, hi i]
      simp [wantedChunks, Function.comp_def]

/-- A split payload in a file, behind a head that ends at `start`. -/
theorem readSplit_parts {chunks : List Bytes} {head : Bytes} (h : Stored env dir packs places buffers apart)
    (hc : splitChunks stream buffers apart = some chunks) :
    ∃ t, (readTable env (head ++ chunks.flatten) head.length).result = .ok t ∧
      (mapSplit env dir (head ++ chunks.flatten) head.length t.size t.streamLen t.lengths t.apart
        (.bytes (checksumOf chunks)) places).result = .ok ⟨stream, buffers⟩ ∧
      (readParts env dir (head ++ chunks.flatten) head.length t (.bytes (checksumOf chunks)) places).result =
        .ok ⟨stream, buffers⟩ := by
  simp only [splitChunks, Option.bind_eq_bind, Option.bind_eq_some_iff, Option.pure_def, Option.some.injEq] at hc
  obtain ⟨table, htable, rfl⟩ := hc
  set pre := table ++ zeros (pad table.length) ++ stream with hpre
  have hprelen : pre.length = table.length + pad table.length + stream.length := by
    simp [hpre]
    omega
  have hfirst : (table ++ zeros (pad table.length)).length + stream.length = pre.length := by
    rw [hprelen]
    simp
  rw [hfirst]
  set inline := (inlineChunks apart 0 pre.length buffers).flatten with hinline
  obtain ⟨hviews, hend⟩ := inlineChunks_views apart pre 0 buffers
  rw [← hinline] at hviews hend
  have hpayload : ((table ++ zeros (pad table.length)) :: stream :: inlineChunks apart 0 pre.length buffers).flatten =
      pre ++ inline := by rw [hinline]; simp [hpre]
  have hrest : pre ++ inline = table ++ (zeros (pad table.length) ++ (stream ++ inline)) := by
    rw [hpre, List.append_assoc, List.append_assoc]
  have hfits : layoutEnd (apartRefs apart) 0 (table.length + pad table.length + stream.length)
      (buffers.map List.length) = table.length + (zeros (pad table.length) ++ (stream ++ inline)).length := by
    rw [← hprelen, hend, hprelen]
    simp
    omega
  obtain ⟨t, ht, hstream, hlengths, hapart, hsize⟩ :=
    @readTable_splitTable env _ _ _ _ head _ h.wellFormed htable hfits
  have hcrc : checksumOf ((table ++ zeros (pad table.length)) :: stream :: inlineChunks apart 0 pre.length buffers) =
      crcOf (pre ++ inline) := by rw [checksumOf_eq, hpayload]
  rw [hcrc, hpayload]
  rw [← hrest] at ht
  obtain ⟨filled, hfilled, hbuffers⟩ := readApart_result h
  have hmap : (mapSplit env dir (head ++ (pre ++ inline)) head.length t.size t.streamLen t.lengths t.apart
      (.bytes (crcOf (pre ++ inline))) places).result = .ok ⟨stream, buffers⟩ := by
    have hslice : slice (pre ++ inline) (table.length + pad table.length) stream.length = stream :=
      slice_of_eq (a := table ++ zeros (pad table.length)) (c := inline) (by simp [hpre]) (by simp) rfl
    unfold mapSplit
    simp only [List.drop_left, Val.eqBytes, decide_true, Bool.not_true, Bool.false_eq_true, if_false, hstream, hlengths,
      hapart, hsize, hslice]
    rw [← hprelen, hviews, Io.result_bind_ok hfilled]
    simp [hbuffers]
  exact ⟨t, ht, hmap, by rw [readParts_result (readTable_ok ht)]; exact hmap⟩

end Split

end

end Cash.Entry
