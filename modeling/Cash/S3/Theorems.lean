import Cash.Entry.Lemmas.Head
import Cash.S3.Backend

/-!
# What a listing leaves out
-/

namespace Cash.S3

open Bytes Py Chunks Entry

variable {env : Env} {dumps : Items → Bytes} {b : Backend} {blob : Bytes} {len : Nat}

/-! ## An entry read from its front -/

/-- An entry whose metadata has this many bytes. -/
structure Packed (blob : Bytes) (len : Nat) : Prop where
  header : unpackHeader (blob.take headerSize) = ⟨magic, len, len + metaSlack⟩
  length : headerSize + (len + metaSlack) ≤ blob.length

theorem packed_of_packEntry {metadata : Items} {payload : Bytes} (h : packEntry dumps metadata payload none = some blob) :
    Packed blob (dumps (stamped metadata (checksumOf [payload]))).length ∧
      slice blob headerSize (dumps (stamped metadata (checksumOf [payload]))).length =
        dumps (stamped metadata (checksumOf [payload])) := by
  rw [packEntry, Option.map_eq_some_iff] at h
  obtain ⟨e, he, rfl⟩ := h
  obtain ⟨hparts, hchunks, hchecksum⟩ := packEntryParts_parts he
  have hfile : e.file = e.head ++ payload := by rw [PackedEntry.file, hchunks, List.flatten_singleton]
  have hhead : e.head.length ≤ e.file.length := by
    rw [hfile, List.length_append]
    exact Nat.le_add_right _ _
  have hmeta := hparts.metaBytes hhead
  have hheader := (hparts.header (Nat.le_refl _)).2
  have hlength := hparts.length
  rw [Option.getD_none] at hchecksum
  rw [hchecksum] at hmeta hheader hlength
  rw [List.take_length] at hmeta
  rw [hfile] at hmeta hheader
  refine ⟨⟨hheader, ?_⟩, hmeta⟩
  rw [List.length_append, hlength]
  exact Nat.le_add_right _ _

/-- The metadata that the bytes of an entry unpickle to. -/
def dictOf (env : Env) (metaBytes : Bytes) : Option Items :=
  match env.loads metaBytes with
  | some (.dict items) => some items
  | _ => none

theorem loadMetadata_dictOf (env : Env) (metaBytes : Bytes) :
    (∃ items, dictOf env metaBytes = some items ∧ (loadMetadata env metaBytes).result = .ok items) ∨
      ∃ e, dictOf env metaBytes = none ∧ (loadMetadata env metaBytes).result = .error (.corrupt e) := by
  rw [loadMetadata, dictOf]
  cases env.loads metaBytes with
  | none => exact .inr ⟨_, rfl, rfl⟩
  | some v =>
      cases v with
      | dict items => exact .inl ⟨items, rfl, rfl⟩
      | _ => exact .inr ⟨_, rfl, rfl⟩

theorem slice_take {s : Bytes} {n off k : Nat} (h : off + k ≤ n) : slice (s.take n) off k = slice s off k := by
  rw [slice, slice, List.drop_take, List.take_take, Nat.min_eq_left (by omega)]

theorem unpackEntry_take (env : Env) (h : Packed blob len) {n : Nat} (hn : headerSize + len ≤ n) :
    (∀ items, dictOf env (slice blob headerSize len) = some items →
      (unpackEntry env (blob.take n) false).result = .ok (items.pop checksumField, none)) ∧
    (dictOf env (slice blob headerSize len) = none → ∃ e, (unpackEntry env (blob.take n) false).result = .error (.corrupt e)) := by
  have hlength := h.length
  have htake : (blob.take n).take headerSize = blob.take headerSize := by rw [List.take_take, Nat.min_eq_left (by omega)]
  have hblob : headerSize + len ≤ (blob.take n).length := by
    rw [List.length_take]
    omega
  have hunpack : unpackEntry env (blob.take n) false = loadMetadata env (slice blob headerSize len) >>= fun metadata =>
      pure (metadata.pop checksumField, none) := by
    unfold unpackEntry
    rw [if_neg (by omega), htake, h.header]
    dsimp only
    rw [if_neg (by simp), if_neg (by omega), if_neg (by omega), slice_take hn]
    rfl
  rw [hunpack, Io.result_bind]
  rcases loadMetadata_dictOf env (slice blob headerSize len) with ⟨items, hdict, hload⟩ | ⟨e, hdict, hload⟩
  · rw [hdict, hload]
    refine ⟨fun found h => ?_, fun h => absurd h (Option.some_ne_none _)⟩
    rw [← Option.some_inj.mp h]
    rfl
  · rw [hdict, hload]
    exact ⟨fun found h => absurd h.symm (Option.some_ne_none _), fun _ => ⟨e, rfl⟩⟩

theorem unpackEntry_short (h : Packed blob len) {n : Nat} (hhead : headerSize ≤ n) (hn : n < headerSize + len) :
    (unpackEntry env (blob.take n) false).result = .error (.corrupt .metadataTruncated) := by
  have hlength := h.length
  have htake : (blob.take n).take headerSize = blob.take headerSize := by rw [List.take_take, Nat.min_eq_left hhead]
  have hblob : (blob.take n).length = n := List.length_take_of_le (by omega)
  unfold unpackEntry
  rw [if_neg (by omega), htake, h.header]
  dsimp only
  rw [if_neg (by simp), if_neg (by omega), if_pos (by omega)]
  rfl

theorem metadataSpan_take (h : Packed blob len) {n : Nat} (hn : headerSize ≤ n) :
    metadataSpan (blob.take n) = .ok (headerSize + (len + metaSlack)) := by
  have hlength := h.length
  have hblob : headerSize ≤ (blob.take n).length := by
    rw [List.length_take]
    omega
  rw [metadataSpan, if_neg (by omega), List.take_take, Nat.min_eq_left hn, h.header]

/-! ## One key -/

theorem getMetadata_eq {bucket : Bucket} {key : Str} (h : Packed blob len) (hlook : bucket.lookup (b.getKey key) = some blob) :
    b.getMetadata env bucket key = (dictOf env (slice blob headerSize len)).map fun items => b.sourced (items.pop checksumField) := by
  have hget : ∀ n, Backend.rangedGet bucket (b.getKey key) n = some (blob.take n) := fun n => by
    rw [Backend.rangedGet, hlook, Option.map_some]
  have hspan : headerSize + len ≤ headerSize + (len + metaSlack) := by omega
  have hprefetch : headerSize ≤ metadataPrefetchBytes := by decide
  obtain ⟨hwide, hwideNone⟩ := unpackEntry_take env h hspan
  rw [Backend.getMetadata, hget]
  dsimp only
  rw [metadataSpan_take h hprefetch]
  dsimp only
  rw [hget]
  dsimp only
  by_cases hfits : headerSize + len ≤ metadataPrefetchBytes
  · obtain ⟨hok, hnone⟩ := unpackEntry_take env h hfits
    cases hdict : dictOf env (slice blob headerSize len) with
    | some items =>
        rw [hok items hdict]
        rfl
    | none =>
        obtain ⟨e, he⟩ := hnone hdict
        obtain ⟨e', he'⟩ := hwideNone hdict
        rw [he, he']
        dsimp only
        split
        · rfl
        · rfl
  · rw [unpackEntry_short h hprefetch (by omega)]
    dsimp only
    have hlong : ¬headerSize + (len + metaSlack) ≤ (blob.take metadataPrefetchBytes).length := by
      rw [List.length_take]
      omega
    rw [if_neg hlong]
    cases hdict : dictOf env (slice blob headerSize len) with
    | some items =>
        rw [hwide items hdict]
        rfl
    | none =>
        obtain ⟨e', he'⟩ := hwideNone hdict
        rw [he']
        rfl

theorem listEntry_eq (env : Env) (b : Backend) (key : Str) (h : Packed blob len) :
    b.listEntry env (b.getKey key, blob) =
      if headerSize + len ≤ metadataPrefetchBytes then (dictOf env (slice blob headerSize len)).map (·.pop checksumField)
      else none := by
  have hnames : (b.root.isPrefixOf (b.getKey key) && Str.endsWith (b.getKey key) entrySuffix) = true := by
    rw [Backend.getKey, Str.endsWith, Bool.and_eq_true, List.isPrefixOf_iff_prefix, List.isSuffixOf_iff_suffix]
    exact ⟨⟨key ++ entrySuffix, (List.append_assoc ..).symm⟩, List.suffix_append _ _⟩
  rw [Backend.listEntry, if_pos hnames]
  dsimp only
  by_cases hfits : headerSize + len ≤ metadataPrefetchBytes
  · rw [if_pos hfits]
    obtain ⟨hok, hnone⟩ := unpackEntry_take env h hfits
    cases hdict : dictOf env (slice blob headerSize len) with
    | some items =>
        rw [hok items hdict]
        rfl
    | none =>
        obtain ⟨e, he⟩ := hnone hdict
        rw [he]
        rfl
  · rw [if_neg hfits, unpackEntry_short h (by decide) (by omega)]

theorem keyOf_getKey (key : Str) : b.keyOf (b.getKey key) = key := by
  rw [Backend.keyOf, Backend.getKey, List.append_assoc, List.drop_left, List.length_append, List.length_append,
    show b.root.length + (key.length + entrySuffix.length) - b.root.length - entrySuffix.length = key.length by omega,
    List.take_left]

/-! ## Buckets -/

/-- Every object is an entry under its key, and no key has two. -/
structure Written (b : Backend) (bucket : Bucket) : Prop where
  objects : ∀ o ∈ bucket, ∃ key len, o.1 = b.getKey key ∧ Packed o.2 len
  nodup : (Items.keys bucket).Nodup

theorem written_put {bucket : Bucket} (h : Written b bucket) (key : Str) {metadata : Items} {payload : Bytes} :
    Written b (b.put bucket key (packEntry dumps metadata payload none)) := by
  cases hpack : packEntry dumps metadata payload none with
  | none => exact h
  | some blob =>
      refine ⟨fun o ho => ?_, Items.nodup_setItem h.nodup _ _⟩
      rcases Dict.mem_setItem ho with rfl | ho
      · exact ⟨key, _, rfl, (packed_of_packEntry hpack).1⟩
      · exact h.objects o ho

theorem written_run (writes : List Backend.Write) : Written b (b.run env dumps writes) := by
  have hwrites : ∀ (writes : List Backend.Write) (bucket : Bucket), Written b bucket →
      Written b (writes.foldl (b.write env dumps) bucket) := by
    intro writes
    induction writes with
    | nil => exact fun _ h => h
    | cons w writes ih =>
        intro bucket h
        apply ih
        cases w with
        | set key metadata serialized now => exact written_put h key
        | setMetadataOnly key metadata =>
            rw [Backend.write, Backend.setMetadataOnly]
            dsimp only
            split
            · split
              · exact written_put h key
              · exact h
            · exact written_put h key
  exact hwrites writes [] ⟨fun _ h => absurd h List.not_mem_nil, List.nodup_nil⟩

/-- Its metadata is longer than a listing fetches, and can be read. -/
def Overlong (env : Env) (blob : Bytes) : Prop :=
  metadataPrefetchBytes < headerSize + (unpackHeader (blob.take headerSize)).metaLen ∧
    (dictOf env (slice blob headerSize (unpackHeader (blob.take headerSize)).metaLen)).isSome

/-- Two selections, one of which leaves out what the other takes. -/
theorem filterMap_eq_iff {α β : Type} {f g : α → Option β} {l : List α} (h : ∀ x ∈ l, f x = none ∨ f x = g x) :
    l.filterMap f = l.filterMap g ↔ ∀ x ∈ l, f x = g x := by
  have hle : ∀ l : List α, (∀ x ∈ l, f x = none ∨ f x = g x) → (l.filterMap f).length ≤ (l.filterMap g).length := by
    intro l
    induction l with
    | nil => exact fun _ => Nat.le_refl _
    | cons x l ih =>
        intro h
        have hrest := ih fun y hy => h y (List.mem_cons_of_mem _ hy)
        rw [List.filterMap_cons, List.filterMap_cons]
        rcases h x List.mem_cons_self with hx | hx
        · rw [hx]
          dsimp only
          split
          · exact hrest
          · exact hrest.trans (Nat.le_succ _)
        · rw [hx]
          split
          · exact hrest
          · exact Nat.succ_le_succ hrest
  induction l with
  | nil => exact ⟨fun _ x hx => (List.not_mem_nil hx).elim, fun _ => rfl⟩
  | cons x l ih =>
      have hrest : l.filterMap f = l.filterMap g ↔ ∀ x ∈ l, f x = g x := ih fun y hy => h y (List.mem_cons_of_mem _ hy)
      have hlength := hle l fun y hy => h y (List.mem_cons_of_mem _ hy)
      rw [List.filterMap_cons, List.filterMap_cons, List.forall_mem_cons]
      rcases h x List.mem_cons_self with hx | hx
      · rw [hx]
        cases hg : g x with
        | none =>
            rw [eq_self, true_and]
            exact hrest
        | some y =>
            refine iff_of_false (fun heq => ?_) fun hall => by cases hall.1
            have hlen := congrArg List.length heq
            dsimp only at hlen
            rw [List.length_cons] at hlen
            omega
      · rw [hx]
        cases hg : g x with
        | none =>
            rw [eq_self, true_and]
            exact hrest
        | some y =>
            dsimp only
            rw [List.cons.injEq, eq_self, true_and, eq_self, true_and]
            exact hrest

theorem Written.listing_iff {bucket : Bucket} (hwritten : Written b bucket) :
    (b.listEntries env bucket).map b.sourced = (b.storedKeys bucket).filterMap (b.getMetadata env bucket) ↔
      ∀ o ∈ bucket, ¬Overlong env o.2 := by
  rw [Backend.listEntries, Backend.storedKeys, List.map_filterMap, List.filterMap_map]
  have hobject : ∀ o ∈ bucket, ∃ len, Packed o.2 len ∧
      b.getMetadata env bucket (b.keyOf o.1) =
        (dictOf env (slice o.2 headerSize len)).map (fun items => b.sourced (items.pop checksumField)) ∧
      (b.listEntry env o).map b.sourced = if headerSize + len ≤ metadataPrefetchBytes then
        (dictOf env (slice o.2 headerSize len)).map (fun items => b.sourced (items.pop checksumField)) else none := by
    intro o ho
    obtain ⟨key, len, hkey, hpacked⟩ := hwritten.objects o ho
    have hlook : bucket.lookup (b.getKey key) = some o.2 := by
      apply Items.lookup_eq_of_mem hwritten.nodup
      rw [← hkey]
      exact ho
    refine ⟨len, hpacked, ?_, ?_⟩
    · rw [hkey, keyOf_getKey]
      exact getMetadata_eq hpacked hlook
    · have hentry := listEntry_eq env b key hpacked
      rw [← hkey] at hentry
      rw [hentry]
      split
      · rw [Option.map_map]
        rfl
      · rfl
  rw [filterMap_eq_iff]
  · apply forall₂_congr
    intro o ho
    obtain ⟨len, hpacked, hget, hlist⟩ := hobject o ho
    rw [Function.comp_apply, hget, hlist, Overlong, hpacked.header]
    dsimp only
    by_cases hfits : headerSize + len ≤ metadataPrefetchBytes
    · rw [if_pos hfits]
      exact iff_of_true rfl fun h => absurd h.1 (by omega)
    · rw [if_neg hfits]
      cases dictOf env (slice o.2 headerSize len) with
      | none => exact iff_of_true rfl fun h => by cases h.2
      | some items => exact iff_of_false (fun h => by cases h) fun h => h ⟨by omega, rfl⟩
  · intro o ho
    obtain ⟨len, hpacked, hget, hlist⟩ := hobject o ho
    rw [Function.comp_apply, hget, hlist]
    split
    · exact .inr rfl
    · exact .inl rfl

/-- A listing gives what looking up every key stored gives, exactly when no readable metadata is overlong. -/
theorem listEntries_iff (env : Env) (dumps : Items → Bytes) (b : Backend) (writes : List Backend.Write) :
    (b.listEntries env (b.run env dumps writes)).map b.sourced =
        (b.storedKeys (b.run env dumps writes)).filterMap (b.getMetadata env (b.run env dumps writes)) ↔
      ∀ o ∈ b.run env dumps writes, ¬Overlong env o.2 :=
  (written_run writes).listing_iff

/-! ## An entry with long metadata -/

def plainBackend : Backend := ⟨str "cash/", str "s3"⟩

/-- The metadata `set` stores. -/
def longMetadata : Items :=
  [(.str (str "key"), .str (str "k")), (.str (str "created_at"), .int 0), (.str (str "last_access"), .int 0),
    (.str (str "access_count"), .int 0), (.str (str "size"), .int 0), (.str (str "storage"), .list [.str (str "s3")])]

/-- A pickle with 8190 bytes more than its checksum. -/
def longDumps (metadata : Items) : Bytes :=
  match metadata.get checksumField with
  | some (.bytes checksum) => checksum ++ zeros 8190
  | _ => []

def longEnv : Env where
  loads b := if b.drop 4 = zeros 8190 then some (.dict (stamped longMetadata (b.take 4))) else none
  canMap := false
  mapsEntry := false
  mapsChunk _ := false
  readReserves := true
  reprReturns _ := true
  parseInt _ := none
  fromHex _ := none
  encodes _ := true

def longWrites : List Backend.Write := [.set (str "k") [] [] (.int 0)]

theorem longDumps_eq (checksum : Bytes) : longDumps (stamped longMetadata checksum) = checksum ++ zeros 8190 := by
  rw [longDumps, stamped, Items.get_with (by decide)]

theorem dictOf_long {checksum : Bytes} (h : checksum.length = 4) :
    dictOf longEnv (checksum ++ zeros 8190) = some (stamped longMetadata checksum) := by
  have hloads : longEnv.loads (checksum ++ zeros 8190) = some (.dict (stamped longMetadata checksum)) := by
    rw [longEnv]
    dsimp only
    rw [List.drop_left' h, List.take_left' h, if_pos (Eq.refl _)]
  rw [dictOf, hloads]

/-- An entry of 8194 bytes of metadata is looked up, and no listing has it. -/
theorem long_entry_not_listed :
    ¬(plainBackend.listEntries longEnv (plainBackend.run longEnv longDumps longWrites)).map plainBackend.sourced =
      (plainBackend.storedKeys (plainBackend.run longEnv longDumps longWrites)).filterMap
        (plainBackend.getMetadata longEnv (plainBackend.run longEnv longDumps longWrites)) := by
  have hchecksum : (checksumOf [[]]).length = 4 := rfl
  have hlength : (longDumps (stamped longMetadata (checksumOf [[]]))).length = 8194 := by
    rw [longDumps_eq, List.length_append, length_zeros, hchecksum]
  have hcap : metaCap (longDumps (stamped longMetadata (checksumOf [[]]))).length false < 256 ^ 4 := by
    rw [hlength, metaCap]
    norm_num [metaSlack]
  obtain ⟨e, he⟩ := exists_packEntryParts hcap
  have hpack : packEntry longDumps longMetadata [] none = some (e.head ++ []) := by
    rw [packEntry, he, Option.map_some]
  have hset : setDefault ((Backend.initMetadata [] (str "k") (.int 0)).with (str "size") (.int (0 : Nat))) (str "storage")
      (.list [.str plainBackend.sourceLabel]) = longMetadata := rfl
  have hrun : plainBackend.run longEnv longDumps longWrites = [(plainBackend.getKey (str "k"), e.head ++ [])] := by
    rw [Backend.run, longWrites, List.foldl_cons, List.foldl_nil, Backend.write, Backend.set]
    dsimp only [List.length_nil]
    rw [hset, hpack]
    rfl
  obtain ⟨hpacked, hslice⟩ := packed_of_packEntry hpack
  rw [(written_run longWrites).listing_iff, hrun]
  intro hall
  apply hall _ List.mem_cons_self
  rw [Overlong, hpacked.header]
  dsimp only
  rw [hslice, hlength, longDumps_eq]
  refine ⟨by norm_num [metadataPrefetchBytes, headerSize], ?_⟩
  rw [dictOf_long hchecksum, Option.isSome_some]

end Cash.S3
