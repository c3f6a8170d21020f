import Cash.Bulk.Hasher

/-!
# Tree digests of raw bytes
-/

namespace Cash.Bulk

/-! ## Leaves in pieces, at once and on threads -/

section

open Blocks

variable {env : Env} {t : Threads}

theorem leafBytes_pos : 0 < leafBytes := by simp [leafBytes]

/-! ### Threads -/

theorem bound_mono (count threads : Nat) : Monotone (bound count threads) := fun _ _ h =>
  Nat.div_le_div_right (Nat.mul_le_mul_left count h)

theorem ranges_eq (count : Nat) {threads : Nat} (h : 0 < threads) : ranges count threads = List.range count := by
  have hzero : bound count threads 0 = 0 := by simp [bound]
  have hlast : bound count threads threads = count := Nat.mul_div_cancel count h
  rw [ranges, flatMap_ranges (bound_mono count threads) hzero, hlast]

/-- Whichever threads hash the leaves, they are the leaves' digests in order. -/
theorem leafDigests_eq (view : Bytes) (count : Nat) :
    leafDigests env t view count = (blocksUpTo leafBytes count view).map fun leaf => some (env.leafHash leaf) := by
  simp only [leafDigests, blocksUpTo, List.map_map]
  split
  · rfl
  · have hperm := t.perm (ranges count (min t.count (count * leafBytes / parallelMinBytes)))
    rw [ranges_eq count (by omega)] at hperm ⊢
    exact foldl_set_perm _ hperm List.length_replicate

/-! ### One piece after the other -/

namespace Hasher

/-- The hasher that has taken the bytes. -/
def holding (env : Env) (b : Bytes) : Hasher :=
  ⟨(blocks leafBytes b).map fun leaf => some (env.leafHash leaf), leftover leafBytes b, b.length⟩

/-- The leaves go on where they stopped. -/
theorem updateWhole_eq (h : Hasher) (view : Bytes) (start : Nat) :
    updateWhole env h t view start =
      { h with leaves := h.leaves ++ (blocks leafBytes (view.drop start)).map fun leaf => some (env.leafHash leaf)
               part := leftover leafBytes (view.drop start) } := by
  have hlen : (view.drop start).length = view.length - start := List.length_drop
  have hleaves : (if (view.length - start) / leafBytes = 0 then h.leaves
      else h.leaves ++ leafDigests env t (view.drop start) ((view.length - start) / leafBytes)) =
      h.leaves ++ (blocks leafBytes (view.drop start)).map fun leaf => some (env.leafHash leaf) := by
    rw [leafDigests_eq, ← hlen]
    split
    · next hzero => rw [blocks, hzero, blocksUpTo, List.range_zero, List.map_nil, List.map_nil, List.append_nil]
    · rfl
  have hrest : (if start + (view.length - start) / leafBytes * leafBytes < view.length then
      view.drop (start + (view.length - start) / leafBytes * leafBytes) else []) =
      leftover leafBytes (view.drop start) := by
    rw [leftover, hlen, List.drop_drop]
    split
    · rfl
    · exact (List.drop_eq_nil_of_le (by omega)).symm
  simp only [updateWhole, hleaves, hrest]

theorem update_holding (a view : Bytes) : update env (holding env a) t view = holding env (a ++ view) := by
  obtain ⟨hblocks, hleft⟩ := append_cut leafBytes_pos a view
  have hlt := leftover_lt leafBytes_pos a
  by_cases hview : view = []
  · simp [update, hview]
  have hlen : view.length ≠ 0 := fun h => hview (List.length_eq_zero_iff.mp h)
  simp only [update, holding, hlen, if_false, List.length_append, List.length_take]
  by_cases hpart : leftover leafBytes a = []
  · rw [if_pos hpart, updateWhole_eq]
    simp [hblocks, hleft, hpart]
  rw [if_neg hpart]
  by_cases hshort : (leftover leafBytes a).length + view.length < leafBytes
  · have hstart : min view.length (leafBytes - (leftover leafBytes a).length) = view.length := by omega
    have hcut : (leftover leafBytes a ++ view).length < leafBytes := by rwa [List.length_append]
    rw [hstart, if_pos (by omega), hblocks, hleft, blocks_of_short hcut, leftover_of_short hcut]
    simp
  · -- The partial leaf is filled, and the rest of the piece starts a leaf.
    have hstart : min view.length (leafBytes - (leftover leafBytes a).length) =
      leafBytes - (leftover leafBytes a).length := by omega
    generalize hk : leafBytes - (leftover leafBytes a).length = k at hstart ⊢
    have hfull : (leftover leafBytes a ++ view.take k).length = leafBytes := by
      rw [List.length_append, List.length_take]
      omega
    have hcut : leftover leafBytes a ++ view = leftover leafBytes a ++ view.take k ++ view.drop k := by
      rw [List.append_assoc, List.take_append_drop]
    have hdvd : leafBytes ∣ (leftover leafBytes a ++ view.take k).length := ⟨1, by rw [hfull, Nat.mul_one]⟩
    rw [hstart, if_neg (by omega), updateWhole_eq, hblocks, hleft, hcut,
      blocks_append _ leafBytes_pos hdvd, leftover_append _ leafBytes_pos hdvd, blocks_of_length leafBytes_pos hfull]
    simp

theorem feed_eq (pieces : List (Threads × Bytes)) : feed env pieces = holding env (pieces.flatMap (·.2)) := by
  have hfrom : ∀ a, pieces.foldl (fun h piece => h.update env piece.1 piece.2) (holding env a) =
      holding env (a ++ pieces.flatMap (·.2)) := by
    induction pieces with
    | nil => simp
    | cons piece pieces ih =>
      intro a
      rw [List.foldl_cons, update_holding, ih, List.flatMap_cons, List.append_assoc]
  have hempty : holding env [] = empty := by simp [holding, empty]
  rw [feed, ← hempty, hfrom, List.nil_append]

end Hasher

/-! ### The digest -/

theorem mapM_some {α β : Type} (f : α → β) (xs : List α) : (xs.map fun x => some (f x)).mapM id = some (xs.map f) := by
  induction xs with
  | nil => rfl
  | cons x xs ih => simp [ih]

theorem Hasher.digest_holding (b : Bytes) : (holding env b).digest env = treeDigest env b := by
  cases hn : toBytes b.length with
  | none => simp [digest, treeDigest, holding, hn]
  | some total =>
    have htotal : total = Bytes.le 8 b.length := by
      unfold toBytes at hn
      split at hn
      · exact (Option.some.inj hn).symm
      · cases hn
    have hleaves := mapM_some env.leafHash (blocks leafBytes b)
    by_cases hleft : leftover leafBytes b = []
    · simp [digest, treeDigest, holding, hn, hleaves, rootInput, Bulk.leaves, hleft, htotal, List.flatMap]
    · simp [digest, treeDigest, holding, hn, hleaves, rootInput, Bulk.leaves, hleft, htotal, List.flatMap]

theorem bulkDigest_eq (b : Bytes) : bulkDigest env t b = treeDigest env b := by
  rw [← Hasher.digest_holding]
  have hleaves : (if b.length / leafBytes = 0 then [] else leafDigests env t b (b.length / leafBytes)) =
      (Hasher.holding env b).leaves := by
    rw [leafDigests_eq]
    split
    · next hzero => simp [Hasher.holding, blocks, hzero, blocksUpTo]
    · rfl
  have hlast : (if b.length > b.length / leafBytes * leafBytes then
      env.leafHash (b.drop (b.length / leafBytes * leafBytes)) else []) =
      if (Hasher.holding env b).part = [] then [] else env.leafHash (Hasher.holding env b).part := by
    simp only [Hasher.holding, leftover, List.drop_eq_nil_iff]
    split <;> split <;> first | rfl | omega
  simp only [bulkDigest, Hasher.digest, hleaves, hlast]
  rfl

end

/-! ## The bytes told from their digest, the buffers from their stream -/

section

open Blocks

variable {env : Env} {t t' : Threads} {a b : Bytes}

theorem toBytes_eq_some {n : Nat} {bytes : Bytes} (h : toBytes n = some bytes) : n < 2 ^ 64 ∧ bytes = Bytes.le 8 n := by
  unfold toBytes at h
  split at h
  · exact ⟨‹_›, (Option.some.inj h).symm⟩
  · cases h

theorem le_inj {m n : Nat} (hm : m < 2 ^ 64) (hn : n < 2 ^ 64) (h : Bytes.le 8 m = Bytes.le 8 n) : m = n := by
  have hunle := congrArg Bytes.unle h
  rwa [Bytes.unle_le (n := 8) (by simpa using hm), Bytes.unle_le (n := 8) (by simpa using hn)] at hunle

theorem length_leafHash (leaf : Bytes) : (env.leafHash leaf).length = 32 := by
  cases h : env.algorithm with
  | blake3 => simpa [Env.leafHash, h] using env.length_blake3 leaf
  | sha256 => simpa [Env.leafHash, h] using env.length_sha256 leaf

theorem flatten_leaves (b : Bytes) : (leaves b).flatten = b := by
  have hb := flatten_blocks (n := leafBytes) b
  unfold leaves
  split
  · next hleft => simpa [hleft] using hb
  · simpa using hb

/-! ### One digest -/

theorem rootInput_inj (ha : a.length < 2 ^ 64) (hb : b.length < 2 ^ 64) (h : rootInput env a = rootInput env b) :
    a.length = b.length ∧ (leaves a).map env.leafHash = (leaves b).map env.leafHash := by
  simp only [rootInput, List.append_assoc] at h
  obtain ⟨hlen, hdigests⟩ := List.append_inj (List.append_cancel_left h) (by simp)
  refine ⟨le_inj ha hb hlen, flatten_inj (n := 32) (by decide) ?_ ?_ hdigests⟩
  · intro d hd
    obtain ⟨leaf, -, rfl⟩ := List.mem_map.mp hd
    exact length_leafHash leaf
  · intro d hd
    obtain ⟨leaf, -, rfl⟩ := List.mem_map.mp hd
    exact length_leafHash leaf

theorem treeDigest_inj {bs : List Bytes} (hc : env.NoCollision bs) (ha : a ∈ bs) (hb : b ∈ bs) {d : Bytes}
    (hda : treeDigest env a = some d) (hdb : treeDigest env b = some d) : a = b := by
  simp only [treeDigest, Option.map_eq_some_iff] at hda hdb
  obtain ⟨la, hla, rfl⟩ := hda
  obtain ⟨lb, hlb, hroots⟩ := hdb
  have hroot := hc.root ⟨a, ha, rfl⟩ ⟨b, hb, rfl⟩ hroots.symm
  obtain ⟨-, hleaves⟩ := rootInput_inj (toBytes_eq_some hla).1 (toBytes_eq_some hlb).1 hroot
  have heq : leaves a = leaves b :=
    map_inj_of_injOn hc.leaf (fun l hl => ⟨a, ha, hl⟩) (fun l hl => ⟨b, hb, hl⟩) hleaves
  rw [← flatten_leaves a, heq, flatten_leaves]

theorem length_treeDigest {d : Bytes} (h : treeDigest env b = some d) : d.length = 32 := by
  simp only [treeDigest, Option.map_eq_some_iff] at h
  obtain ⟨-, -, rfl⟩ := h
  exact env.length_sha256 _

/-! ### A sequence of buffers -/

/-- What one buffer adds to the stream. -/
inductive Folds (env : Env) (b : Bytes) : Bytes → Prop
  | raw : b.length < 2 ^ 64 → b.length ≤ env.algorithm.directMaxBytes → Folds env b (114 :: Bytes.le 8 b.length ++ b)
  | tree {d : Bytes} : b.length < 2 ^ 64 → ¬b.length ≤ env.algorithm.directMaxBytes → treeDigest env b = some d →
      Folds env b (116 :: Bytes.le 8 b.length ++ d)

theorem foldBuffer_eq_some {stream stream' : Bytes} (h : foldBuffer env stream t b = some stream') :
    ∃ piece, Folds env b piece ∧ stream' = stream ++ piece := by
  simp only [foldBuffer, bulkDigest_eq, Option.bind_eq_bind, Option.bind_eq_some_iff] at h
  obtain ⟨len, hlen, h⟩ := h
  obtain ⟨hlt, rfl⟩ := toBytes_eq_some hlen
  split at h
  · next hle =>
    cases h
    exact ⟨_, .raw hlt hle, by simp⟩
  · next hgt =>
    simp only [Option.bind_eq_some_iff] at h
    obtain ⟨d, hd, hs⟩ := h
    cases hs
    exact ⟨_, .tree hlt hgt hd, by simp⟩

/-- A buffer and what follows it are told from the stream. -/
theorem Folds.inj {bs : List Bytes} (hc : env.NoCollision bs) (ha : a ∈ bs) (hb : b ∈ bs) {p q r s : Bytes}
    (hp : Folds env a p) (hq : Folds env b q) (h : p ++ r = q ++ s) : a = b ∧ r = s := by
  cases hp with
  | raw halt hale =>
    cases hq with
    | raw hblt hble =>
      simp only [List.cons_append, List.append_assoc, List.cons.injEq, true_and] at h
      obtain ⟨hlen, hrest⟩ := List.append_inj h (by simp)
      exact List.append_inj hrest (le_inj halt hblt hlen)
    | tree => simp at h
  | tree halt hagt hda =>
    cases hq with
    | raw => simp at h
    | tree hblt hbgt hdb =>
      simp only [List.cons_append, List.append_assoc, List.cons.injEq, true_and] at h
      obtain ⟨-, hrest⟩ := List.append_inj h (by simp)
      obtain ⟨hd, hrs⟩ := List.append_inj hrest (by rw [length_treeDigest hda, length_treeDigest hdb])
      exact ⟨treeDigest_inj hc ha hb hda (hd ▸ hdb), hrs⟩

theorem Folds.ne_nil {p : Bytes} (h : Folds env b p) : p ≠ [] := by
  cases h <;> simp

theorem foldBuffers_eq_some {bs : List (Threads × Bytes)} {stream stream' : Bytes}
    (h : foldBuffers env stream bs = some stream') :
    ∃ pieces, List.Forall₂ (Folds env) (bs.map (·.2)) pieces ∧ stream' = stream ++ pieces.flatten := by
  induction bs generalizing stream with
  | nil =>
    cases h
    exact ⟨[], .nil, by simp⟩
  | cons b bs ih =>
    simp only [foldBuffers, List.foldlM_cons, Option.bind_eq_bind, Option.bind_eq_some_iff] at h
    obtain ⟨next, hnext, hrest⟩ := h
    obtain ⟨piece, hpiece, rfl⟩ := foldBuffer_eq_some hnext
    obtain ⟨pieces, hpieces, rfl⟩ := ih hrest
    exact ⟨piece :: pieces, .cons hpiece hpieces, by simp⟩

theorem folds_inj {bs as as' : List Bytes} (hc : env.NoCollision bs) (has : ∀ a ∈ as, a ∈ bs)
    (has' : ∀ a ∈ as', a ∈ bs) {ps ps' : List Bytes} (hp : List.Forall₂ (Folds env) as ps)
    (hp' : List.Forall₂ (Folds env) as' ps') (h : ps.flatten = ps'.flatten) : as = as' := by
  induction hp generalizing as' ps' with
  | nil =>
    cases hp' with
    | nil => rfl
    | cons hq _ =>
      simp only [List.flatten_nil, List.flatten_cons, List.nil_eq_append_iff] at h
      exact absurd h.1 hq.ne_nil
  | cons hq _ ih =>
    cases hp' with
    | nil =>
      simp only [List.flatten_nil, List.flatten_cons, List.append_eq_nil_iff] at h
      exact absurd h.1 hq.ne_nil
    | cons hq' hrest =>
      simp only [List.flatten_cons] at h
      obtain ⟨rfl, hflat⟩ := hq.inj hc (has _ (by simp)) (has' _ (by simp)) hq' h
      rw [ih (fun x hx => has x (by simp [hx])) (fun x hx => has' x (by simp [hx])) hrest hflat]

end

/-! ## The tree digest depends on the bytes alone -/

/-- Bytes fed in any pieces have the digest of the bytes taken at once, on any threads; a digest tells the bytes, and a
stream of folded buffers the buffers. -/
theorem bulkDigest_faithful (env : Env) :
    (∀ (pieces : List (Threads × Bytes)) (t : Threads),
      (Hasher.feed env pieces).digest env = bulkDigest env t (pieces.flatMap (·.2))) ∧
    (∀ (t t' : Threads) (a b d : Bytes), env.NoCollision [a, b] → bulkDigest env t a = some d →
      bulkDigest env t' b = some d → a = b) ∧
    ∀ (as bs : List (Threads × Bytes)) (stream : Bytes), env.NoCollision (as.map (·.2) ++ bs.map (·.2)) →
      foldBuffers env [] as = some stream → foldBuffers env [] bs = some stream → as.map (·.2) = bs.map (·.2) := by
  refine ⟨fun pieces t => ?_, fun t t' a b d hc ha hb => ?_, fun as bs stream hc has hbs => ?_⟩
  · rw [Hasher.feed_eq, Hasher.digest_holding, bulkDigest_eq]
  · rw [bulkDigest_eq] at ha hb
    exact treeDigest_inj hc (by simp) (by simp) ha hb
  · obtain ⟨ps, hps, rfl⟩ := foldBuffers_eq_some has
    obtain ⟨qs, hqs, hflat⟩ := foldBuffers_eq_some hbs
    exact folds_inj hc (fun x hx => List.mem_append_left _ hx) (fun x hx => List.mem_append_right _ hx) hps hqs
      (by simpa using hflat)

/-- Hashes that keep the ends of what they hash. -/
def endsEnv : Env where
  algorithm := .blake3
  blake3 b := (b ++ Bytes.zeros 32).take 32
  sha256 b := (b.reverse ++ Bytes.zeros 32).take 32
  length_blake3 b := by simp [Bytes.zeros]
  length_sha256 b := by simp [Bytes.zeros]

def oneThread : Threads := ⟨1, id, fun _ => .rfl⟩

/-- Four threads that write last leaf first. -/
def fourThreads : Threads := ⟨4, List.reverse, List.reverse_perm⟩

/-- A whole leaf, and one byte more. -/
def long : Bytes := List.replicate leafBytes 2 ++ [2]

theorem leaves_one (x : UInt8) : leaves [x] = [[x]] := by
  have hshort : [x].length < leafBytes := by
    rw [List.length_singleton]
    decide
  simp [leaves, Blocks.blocks_of_short hshort, Blocks.leftover_of_short hshort]

theorem leaves_long : leaves long = [List.replicate leafBytes 2, [2]] := by
  have hleaf : (List.replicate leafBytes (2 : UInt8)).length = leafBytes := List.length_replicate
  have hshort : [(2 : UInt8)].length < leafBytes := by decide
  have hdvd : leafBytes ∣ (List.replicate leafBytes (2 : UInt8)).length := ⟨1, by rw [hleaf, Nat.mul_one]⟩
  rw [leaves, long, Blocks.blocks_append _ (by decide) hdvd, Blocks.leftover_append _ (by decide) hdvd,
    Blocks.blocks_of_length (by decide) hleaf, Blocks.blocks_of_short hshort, Blocks.leftover_of_short hshort]
  rfl

theorem leafHash_endsEnv (b : Bytes) : endsEnv.leafHash b = (b ++ Bytes.zeros 32).take 32 := rfl

/-- The last leaf is what the root's hash keeps. -/
theorem sha256_endsEnv {p l : Bytes} (h : l.length = 32) : endsEnv.sha256 (p ++ l) = l.reverse := by
  change ((p ++ l).reverse ++ Bytes.zeros 32).take 32 = l.reverse
  rw [List.reverse_append, List.append_assoc, List.take_left' (by rw [List.length_reverse, h])]

theorem sha256_rootInput_one (x : UInt8) : endsEnv.sha256 (rootInput endsEnv [x]) = (endsEnv.leafHash [x]).reverse := by
  rw [rootInput, leaves_one, List.flatMap_singleton]
  exact sha256_endsEnv (endsEnv.length_blake3 _)

theorem sha256_rootInput_long : endsEnv.sha256 (rootInput endsEnv long) = (endsEnv.leafHash [2]).reverse := by
  rw [rootInput, leaves_long, List.flatMap_cons, List.flatMap_singleton, ← List.append_assoc]
  exact sha256_endsEnv (endsEnv.length_blake3 _)

theorem endsEnv_noCollision : endsEnv.NoCollision [[1], long] := by
  have hleaf : (endsEnv.leafHash (List.replicate leafBytes 2)) = List.replicate 32 2 := by
    rw [leafHash_endsEnv, List.take_append_of_le_length (by rw [List.length_replicate]; decide), List.take_replicate]
    rfl
  constructor
  · have hmem : ∀ l, (∃ b ∈ [[1], long], l ∈ leaves b) → l = [1] ∨ l = [2] ∨ l = List.replicate leafBytes 2 := by
      rintro l ⟨b, hb, hl⟩
      rcases List.mem_pair.mp hb with rfl | rfl
      · rw [leaves_one, List.mem_singleton] at hl
        exact .inl hl
      · rw [leaves_long, List.mem_pair] at hl
        exact .inr hl.symm
    intro l hl l' hl' h
    rcases hmem l hl with rfl | rfl | rfl <;> rcases hmem l' hl' with rfl | rfl | rfl
    all_goals first
      | rfl
      | (rw [hleaf] at h; exact absurd h (by decide))
      | exact absurd h (by decide)
  · have hmem : ∀ r, (∃ b ∈ [[1], long], r = rootInput endsEnv b) → r = rootInput endsEnv [1] ∨ r = rootInput endsEnv long := by
      rintro r ⟨b, hb, rfl⟩
      rcases List.mem_pair.mp hb with rfl | rfl
      · exact .inl rfl
      · exact .inr rfl
    intro r hr r' hr' h
    have hne : endsEnv.sha256 (rootInput endsEnv [1]) ≠ endsEnv.sha256 (rootInput endsEnv long) := by
      rw [sha256_rootInput_one, sha256_rootInput_long]
      decide
    rcases hmem r hr with rfl | rfl
    · rcases hmem r' hr' with rfl | rfl
      · rfl
      · exact absurd h hne
    · rcases hmem r' hr' with rfl | rfl
      · exact absurd h.symm hne
      · rfl

theorem toBytes_length_long : toBytes long.length = some (Bytes.le 8 (leafBytes + 1)) := by
  rw [long, List.length_append, List.length_replicate]
  rfl

theorem bulkDigest_long (t : Threads) : bulkDigest endsEnv t long = some (endsEnv.sha256 (rootInput endsEnv long)) := by
  rw [bulkDigest_eq, treeDigest, toBytes_length_long]
  rfl

/-- The long buffer is folded by its digest. -/
theorem foldBuffer_long (stream : Bytes) (t : Threads) : foldBuffer endsEnv stream t long =
    some (stream ++ 116 :: Bytes.le 8 (leafBytes + 1) ++ endsEnv.sha256 (rootInput endsEnv long)) := by
  have hlong : ¬long.length ≤ endsEnv.algorithm.directMaxBytes := by
    rw [long, List.length_append, List.length_replicate]
    decide
  simp only [foldBuffer, toBytes_length_long, Option.bind_eq_bind, Option.bind_some, if_neg hlong, bulkDigest_long,
    Option.pure_def]

theorem bulkDigest_faithful_long :
    (Hasher.feed endsEnv [(oneThread, long), (fourThreads, [2, 3])]).digest endsEnv =
      bulkDigest endsEnv fourThreads (long ++ [2, 3]) ∧
    long = long ∧ [long, [1]] = [long, [1]] := by
  obtain ⟨hpieces, hdigest, hstream⟩ := bulkDigest_faithful endsEnv
  have hone : endsEnv.NoCollision [long, long] := endsEnv_noCollision.mono (by simp)
  have htwo : endsEnv.NoCollision [long, [1], long, [1]] := endsEnv_noCollision.mono (by simp)
  refine ⟨?_, hdigest oneThread fourThreads long long _ hone (bulkDigest_long _) (bulkDigest_long _), ?_⟩
  · rw [hpieces, List.flatMap_cons, List.flatMap_singleton]
  · have hfold (t : Threads) : foldBuffers endsEnv [] [(t, long), (t, [1])] = foldBuffer endsEnv
        ([] ++ 116 :: Bytes.le 8 (leafBytes + 1) ++ endsEnv.sha256 (rootInput endsEnv long)) oneThread [1] := by
      rw [foldBuffers, List.foldlM_cons, foldBuffer_long]
      rfl
    exact hstream [(oneThread, long), (oneThread, [1])] [(fourThreads, long), (fourThreads, [1])] _ htwo (hfold _) (hfold _)

end Cash.Bulk
