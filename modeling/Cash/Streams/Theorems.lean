import Cash.Streams.Refusal
import Cash.Streams.Stream
import Mathlib.Algebra.GroupWithZero.Nat
import Mathlib.Data.List.Induction
import Cash.Streams.Lemmas.Replay

/-!
# Stored streams
-/

namespace Cash.Streams

variable {α β : Type} {spec : Spec α}

/-! ## The chunks of a stream in each of its phases -/

section

open Dict

variable {s s' : World α β} {chunks chunks' : Chunks α} {c : ChunkStream α} {st st' : Stream α β} {i j k n : Nat}
  {xs : List α}

theorem readChunks_congr (h : ∀ k, k < n → chunks'.lookup (i, k) = chunks.lookup (i, k)) :
    readChunks chunks' i n = readChunks chunks i n := by
  induction n with
  | zero => rfl
  | succ n ih =>
    simp only [readChunks]
    rw [ih fun k hk => h k (Nat.lt_succ_of_lt hk), h n (Nat.lt_succ_self n)]

/-- The first `n` chunks of the stream are there and hold `xs`, and there is no other. -/
def Kept (chunks : Chunks α) (i n : Nat) (xs : List α) : Prop :=
  readChunks chunks i n = some xs ∧ ∀ k, n ≤ k → chunks.lookup (i, k) = none

theorem Kept.congr (h : Kept chunks i n xs) (hsame : ∀ k, chunks'.lookup (i, k) = chunks.lookup (i, k)) :
    Kept chunks' i n xs := by
  refine ⟨(readChunks_congr fun k _ => hsame k).trans h.1, ?_⟩
  intro k hk
  rw [hsame]
  exact h.2 k hk

theorem Kept.insert (h : Kept chunks i n xs) (chunk : List α) :
    Kept (chunks.insert (i, n) chunk) i (n + 1) (xs ++ chunk) := by
  have hbefore : readChunks (chunks.insert (i, n) chunk) i n = some xs := by
    rw [← h.1]
    apply readChunks_congr
    intro k hk
    rw [lookup_insert', if_neg (by simp [hk.ne])]
  refine ⟨by simp [readChunks, hbefore], ?_⟩
  intro k hk
  rw [lookup_insert', if_neg (by simp; omega)]
  exact h.2 k (by omega)

theorem Kept.none (h : ∀ k, chunks.lookup (i, k) = none) : Kept chunks i 0 [] :=
  ⟨rfl, fun k _ => h k⟩

/-- What a stream that has not run to its end has kept: the chunks written, and the open one. -/
def Stream.Open (chunks : Chunks α) (i : Nat) (st : Stream α β) : Prop :=
  st.chunks.totalItems = st.produced.length ∧
    ∃ xs, Kept chunks i st.chunks.written xs ∧ xs ++ st.chunks.buffer = st.produced

/-- The stream has written its manifest. -/
def Phase.committed : Phase → Bool
  | .cleaning _ _ _ | .stored => true
  | _ => false

/-- What the chunks of a stream are in each of its phases. -/
def Stream.Holds (chunks : Chunks α) (i : Nat) (st : Stream α β) : Prop :=
  match st.phase with
  | .producing | .flushing => st.Open chunks i
  | .exhausted => st.returned.isSome ∧ st.Open chunks i
  | .finished n | .replacing n _ =>
    st.returned.isSome ∧ st.chunks.totalItems = st.produced.length ∧ Kept chunks i n st.produced
  | .dropping next => ∀ k, k < next ∨ st.chunks.written ≤ k → chunks.lookup (i, k) = none
  | .dropped | .refused => ∀ k, chunks.lookup (i, k) = none
  | .cleaning _ _ _ | .stored => True

theorem Stream.Open.congr (h : st.Open chunks i) (hsame : ∀ k, chunks'.lookup (i, k) = chunks.lookup (i, k)) :
    st.Open chunks' i := by
  obtain ⟨htotal, xs, hkept, hxs⟩ := h
  exact ⟨htotal, xs, hkept.congr hsame, hxs⟩

theorem Stream.Holds.congr (h : st.Holds chunks i) (hsame : ∀ k, chunks'.lookup (i, k) = chunks.lookup (i, k)) :
    st.Holds chunks' i := by
  unfold Stream.Holds at h ⊢
  split at h
  · exact h.congr hsame
  · exact h.congr hsame
  · exact ⟨h.1, h.2.congr hsame⟩
  · exact ⟨h.1, h.2.1, h.2.2.congr hsame⟩
  · exact ⟨h.1, h.2.1, h.2.2.congr hsame⟩
  · intro k hk
    rw [hsame]
    exact h k hk
  · intro k
    rw [hsame]
    exact h k
  · intro k
    rw [hsame]
    exact h k
  · trivial
  · trivial

/-! ### The steps of one stream -/

theorem Stream.open_begin (h : ∀ k, chunks.lookup (i, k) = none) : (Stream.begin : Stream α β).Open chunks i :=
  ⟨rfl, [], .none h, rfl⟩

theorem Stream.Open.item (h : st.Open chunks i) (x : α) (phase : Phase) :
    Stream.Open chunks i { st with
      chunks := st.chunks.bufferItem spec x, produced := st.produced ++ [x], phase := phase } := by
  obtain ⟨htotal, xs, hkept, hxs⟩ := h
  refine ⟨by simp [ChunkStream.bufferItem, htotal], xs, hkept, ?_⟩
  simp [ChunkStream.bufferItem, ← hxs]

theorem flushChunk_none (h : c.notPersisted = none) (verdict : Option Reason) :
    flushChunk chunks i c verdict = (chunks.insert (i, c.written) c.buffer,
      { c with notPersisted := verdict, buffer := [], bufferBytes := 0, written := c.written + 1 }) := by
  rw [flushChunk, h]

theorem Stream.Open.flush (h : st.Open chunks i) (hp : st.chunks.notPersisted = none) (verdict : Option Reason)
    (phase : Phase) : Stream.Open (flushChunk chunks i st.chunks verdict).1 i
      { st with chunks := (flushChunk chunks i st.chunks verdict).2, phase := phase } := by
  obtain ⟨htotal, xs, hkept, hxs⟩ := h
  rw [flushChunk_none hp]
  exact ⟨htotal, xs ++ st.chunks.buffer, hkept.insert st.chunks.buffer, by simp [hxs]⟩

/-- The last chunk makes the stream's chunks its items, however many were written before. -/
theorem Stream.Open.last (h : st.Open chunks i)
    (hp : ¬ (st.chunks.written = 0 ∨ st.chunks.buffer = []) → st.chunks.notPersisted = none)
    (verdict : Option Reason) :
    (lastChunk chunks i st.chunks verdict).2.1.totalItems = st.produced.length ∧
      Kept (lastChunk chunks i st.chunks verdict).1 i (lastChunk chunks i st.chunks verdict).2.2 st.produced := by
  obtain ⟨htotal, xs, hkept, hxs⟩ := h
  unfold lastChunk
  by_cases hw : st.chunks.written = 0
  · rw [hw] at hkept
    have hnil : xs = [] := by
      have hread := hkept.1
      simp only [readChunks, Option.some.injEq] at hread
      exact hread.symm
    subst hnil
    by_cases hb : st.chunks.buffer = []
    · rw [if_pos hw, if_pos hb]
      rw [hb, List.append_nil] at hxs
      rw [← hxs] at htotal ⊢
      exact ⟨htotal, hkept⟩
    · rw [if_pos hw, if_neg hb]
      rw [← hxs] at htotal ⊢
      exact ⟨htotal, hkept.insert st.chunks.buffer⟩
  · by_cases hb : st.chunks.buffer = []
    · rw [if_neg hw, if_pos hb]
      rw [hb, List.append_nil] at hxs
      rw [← hxs] at htotal ⊢
      exact ⟨htotal, hkept⟩
    · rw [if_neg hw, if_neg hb, flushChunk_none (hp (by simp [hw, hb]))]
      rw [← hxs] at htotal ⊢
      exact ⟨htotal, hkept.insert st.chunks.buffer⟩

theorem flushChunk_other (hj : j ≠ i) (verdict : Option Reason) (k : Nat) :
    (flushChunk chunks i c verdict).1.lookup (j, k) = chunks.lookup (j, k) := by
  unfold flushChunk
  split
  · rfl
  · rw [lookup_insert', if_neg (by simp [hj])]

theorem lastChunk_other (hj : j ≠ i) (verdict : Option Reason) (k : Nat) :
    (lastChunk chunks i c verdict).1.lookup (j, k) = chunks.lookup (j, k) := by
  unfold lastChunk
  split
  · split
    · rfl
    · rw [lookup_insert', if_neg (by simp [hj])]
  · split
    · rfl
    · exact flushChunk_other hj verdict k

end

/-! Whether a stream has flushed a chunk is read off its items. -/

section

variable {i : Nat} {verdicts : Nat → Option Reason} {chunks : Chunks α}

theorem written_flushChunk (c : ChunkStream α) (verdict : Option Reason) :
    (flushChunk chunks i c verdict).2.written = c.written + 1 := by
  unfold flushChunk
  split <;> rfl

theorem streamItems_concat (items : List α) (x : α) :
    streamItems spec i verdicts chunks (items ++ [x]) =
      streamItem spec i verdicts (streamItems spec i verdicts chunks items) x := by
  simp [streamItems, List.foldl_append]

theorem Fills.concat {items : List α} (h : Fills spec items) (x : α) : Fills spec (items ++ [x]) := by
  obtain ⟨_, hfull⟩ := h
  refine ⟨by simp, ?_⟩
  simp only [List.length_append, List.length_singleton, List.map_append, List.sum_append]
  rcases hfull with h | h
  · left
    omega
  · right
    omega

/-- While no chunk is flushed the open chunk holds all the items, with their sizes. -/
structure Open (spec : Spec α) (items : List α) (c : ChunkStream α) : Prop where
  buffer : c.buffer = items
  bufferBytes : c.bufferBytes = (items.map spec.estimateObjectSize).sum
  short : ¬ Fills spec items

theorem Open.isFull_iff {items : List α} {c : ChunkStream α} (h : Open spec items c) (x : α) :
    (c.bufferItem spec x).isFull spec ↔ Fills spec (items ++ [x]) := by
  have hne : items ++ [x] ≠ [] := by simp
  simp [ChunkStream.isFull, ChunkStream.bufferItem, Fills, h.buffer, h.bufferBytes]

theorem streamItem_open {items : List α} {s : Chunks α × ChunkStream α} (x : α) (hs : s.2.written = 0)
    (h : Open spec items s.2) :
    (streamItem spec i verdicts s x).2.written ≠ 0 ∧ Fills spec (items ++ [x]) ∨
      (streamItem spec i verdicts s x).2.written = 0 ∧ Open spec (items ++ [x]) (streamItem spec i verdicts s x).2 := by
  unfold streamItem
  split
  · rename_i hfull
    left
    rw [written_flushChunk]
    exact ⟨Nat.succ_ne_zero _, (h.isFull_iff x).mp hfull⟩
  · rename_i hshort
    right
    refine ⟨hs, ?_, ?_, ?_⟩
    · simp [ChunkStream.bufferItem, h.buffer]
    · simp [ChunkStream.bufferItem, h.bufferBytes]
    · exact fun hfills => hshort ((h.isFull_iff x).mpr hfills)

theorem written_streamItem {s : Chunks α × ChunkStream α} (x : α) (hs : s.2.written ≠ 0) :
    (streamItem spec i verdicts s x).2.written ≠ 0 := by
  unfold streamItem
  split
  · rw [written_flushChunk]
    exact Nat.succ_ne_zero _
  · exact hs

theorem streamItems_cases (spec : Spec α) (i : Nat) (verdicts : Nat → Option Reason) (chunks : Chunks α)
    (items : List α) :
    (streamItems spec i verdicts chunks items).2.written ≠ 0 ∧ Fills spec items ∨
      (streamItems spec i verdicts chunks items).2.written = 0 ∧
        Open spec items (streamItems spec i verdicts chunks items).2 := by
  induction items using List.reverseRecOn with
  | nil => exact .inr ⟨rfl, rfl, rfl, fun h => h.1 rfl⟩
  | append_singleton items x ih =>
      rw [streamItems_concat]
      rcases ih with ⟨hw, hfills⟩ | ⟨hw, hopen⟩
      · exact .inl ⟨written_streamItem x hw, hfills.concat x⟩
      · exact streamItem_open x hw hopen

/-- A stream is refused where nothing was flushed and there is a reason. -/
theorem stored_iff (cacheIf : Option (List α → Option Bool)) (run : BodyRun α) (items : List α) (returned : Option β) :
    (streamAndStore spec cacheIf i verdicts chunks run items returned).Stored ↔
      run.checksRaise = false ∧ (Fills spec items ∨ refusal cacheIf run items = none) := by
  unfold streamAndStore finishStream
  cases hraise : run.checksRaise with
  | true => simp [Outcome.Stored]
  | false =>
      rcases streamItems_cases spec i verdicts chunks items with ⟨hw, hfills⟩ | ⟨hw, hopen⟩
      · simp [hw, hfills, Outcome.Stored]
      · simp only [hw, hopen.buffer, hopen.short, false_or, true_and, if_true, Bool.false_eq_true, if_false]
        cases hwhy : refusal cacheIf run items with
        | none => simp [Outcome.Stored]
        | some why => simp [Outcome.Stored]

end

/-! ## What every step of the streams keeps -/

section

open Dict

variable {s s' : World α β} {chunks : Chunks α} {st st' : Stream α β} {i : Nat}

/-- Each stream's chunks are what its phase says, the manifest that stands is whole, and a manifest that is to be
replaced, or has been, is one that was written. -/
structure Inv (s : World α β) : Prop where
  unborn : ∀ i, s.streams.lookup i = none → ∀ k, s.chunks.lookup (i, k) = none
  holds : ∀ i st, s.streams.lookup i = some st → st.Holds s.chunks i
  manifest : ∀ m, s.manifest = some m → m.Whole s
  committed : ∀ m st, s.manifest = some m → s.streams.lookup m.chunkStream = some st → st.phase.committed = true
  replacing : ∀ i st n old k, s.streams.lookup i = some st → st.phase = .replacing n (some (old, k)) →
    ∃ so, s.streams.lookup old = some so ∧ so.phase.committed = true
  cleaning : ∀ i st old n k, s.streams.lookup i = some st → st.phase = .cleaning old n k →
    (∃ so, s.streams.lookup old = some so ∧ so.phase.committed = true) ∧
      ∀ m, s.manifest = some m → m.chunkStream ≠ old

theorem Inv.start : Inv (World.start : World α β) := by
  constructor <;> simp [World.start]

/-- The stream of the standing manifest is not one that has yet to write its own. -/
theorem Inv.manifest_ne (h : Inv s) (hst : ∀ st, s.streams.lookup i = some st → st.phase.committed = false)
    {m : Manifest β} (hm : s.manifest = some m) : m.chunkStream ≠ i := by
  rintro rfl
  obtain ⟨st, hlook, -⟩ := h.manifest m hm
  have htrue := h.committed m st hm hlook
  rw [hst st hlook] at htrue
  cases htrue

/-- A manifest stays whole where neither its stream nor its chunks change. -/
theorem Manifest.Whole.frame {m : Manifest β} (h : m.Whole s) (hi : m.chunkStream ≠ i)
    (hother : ∀ j, j ≠ i → ∀ k, chunks.lookup (j, k) = s.chunks.lookup (j, k)) :
    m.Whole ({ s with chunks := chunks }.setStream i st') := by
  obtain ⟨st, hlook, hret, hread, htotal, hend⟩ := h
  refine ⟨st, ?_, hret, ?_, htotal, ?_⟩
  · simp only [World.setStream]
    rw [lookup_insert', if_neg hi]
    exact hlook
  · exact (readChunks_congr fun k _ => hother _ hi k).trans hread
  · intro k hk
    exact (hother _ hi k).trans (hend k hk)

/-- A step of a stream that has not written its manifest, and touches no chunk but its own. -/
theorem Inv.own (h : Inv s) (hbefore : ∀ st, s.streams.lookup i = some st → st.phase.committed = false)
    (hother : ∀ j, j ≠ i → ∀ k, chunks.lookup (j, k) = s.chunks.lookup (j, k)) (hholds : st'.Holds chunks i)
    (hafter : st'.phase.committed = false)
    (hreplacing : ∀ n old k, st'.phase = .replacing n (some (old, k)) →
      ∃ so, s.streams.lookup old = some so ∧ so.phase.committed = true) :
    Inv ({ s with chunks := chunks }.setStream i st') := by
  have hold : ∀ old so, s.streams.lookup old = some so → so.phase.committed = true →
      ({ s with chunks := chunks }.setStream i st').streams.lookup old = some so := by
    intro old so hlook hc
    have hne : old ≠ i := by
      rintro rfl
      rw [hbefore so hlook] at hc
      cases hc
    simp only [World.setStream]
    rw [lookup_insert', if_neg hne]
    exact hlook
  refine ⟨?_, ?_, ?_, ?_, ?_, ?_⟩
  · intro j hj k
    simp only [World.setStream] at hj ⊢
    rw [lookup_insert'] at hj
    split at hj
    · cases hj
    · rename_i hne
      exact (hother j hne k).trans (h.unborn j hj k)
  · intro j st hj
    rcases lookup_insert_cases hj with ⟨rfl, rfl⟩ | ⟨hne, hj⟩
    · exact hholds
    · exact (h.holds j st hj).congr (hother j hne)
  · intro m hm
    exact (h.manifest m hm).frame (h.manifest_ne hbefore hm) hother
  · intro m st hm hlook
    rcases lookup_insert_cases hlook with ⟨heq, -⟩ | ⟨-, hlook⟩
    · exact absurd heq (h.manifest_ne hbefore hm)
    · exact h.committed m st hm hlook
  · intro j st n old k hlook hphase
    rcases lookup_insert_cases hlook with ⟨rfl, rfl⟩ | ⟨-, hlook⟩
    · obtain ⟨so, hso, hc⟩ := hreplacing n old k hphase
      exact ⟨so, hold old so hso hc, hc⟩
    · obtain ⟨so, hso, hc⟩ := h.replacing j st n old k hlook hphase
      exact ⟨so, hold old so hso hc, hc⟩
  · intro j st old n k hlook hphase
    rcases lookup_insert_cases hlook with ⟨rfl, rfl⟩ | ⟨-, hlook⟩
    · rw [hphase] at hafter
      cases hafter
    · obtain ⟨⟨so, hso, hc⟩, hne⟩ := h.cleaning j st old n k hlook hphase
      exact ⟨⟨so, hold old so hso hc, hc⟩, hne⟩

/-- A step of a stream after its manifest, which may delete chunks of another whose manifest was replaced. -/
theorem Inv.clean (h : Inv s) {old : Nat} (hlook : s.streams.lookup i = some st)
    (hold : ∃ so, s.streams.lookup old = some so ∧ so.phase.committed = true)
    (hmanifest : ∀ m, s.manifest = some m → m.chunkStream ≠ old)
    (hother : ∀ j, j ≠ old → ∀ k, chunks.lookup (j, k) = s.chunks.lookup (j, k)) {phase : Phase}
    (hphase : phase = .stored ∨ ∃ n k, phase = .cleaning old n k) :
    Inv ({ s with chunks := chunks }.setStream i { st with phase := phase }) := by
  have hafter : phase.committed = true := by
    rcases hphase with rfl | ⟨n, k, rfl⟩
    · rfl
    · rfl
  have hkeep : ∀ j so, s.streams.lookup j = some so → so.phase.committed = true →
      ∃ so', ({ s with chunks := chunks }.setStream i { st with phase := phase }).streams.lookup j = some so' ∧
        so'.phase.committed = true := by
    intro j so hj hc
    simp only [World.setStream]
    rw [lookup_insert']
    split
    · exact ⟨_, rfl, hafter⟩
    · exact ⟨so, hj, hc⟩
  refine ⟨?_, ?_, ?_, ?_, ?_, ?_⟩
  · intro j hj k
    simp only [World.setStream] at hj ⊢
    rw [lookup_insert'] at hj
    split at hj
    · cases hj
    · have hne : j ≠ old := by
        rintro rfl
        obtain ⟨so, hso, -⟩ := hold
        rw [hj] at hso
        cases hso
      exact (hother j hne k).trans (h.unborn j hj k)
  · intro j sj hj
    rcases lookup_insert_cases hj with ⟨rfl, rfl⟩ | ⟨-, hj⟩
    · rcases hphase with rfl | ⟨n, k, rfl⟩
      · trivial
      · trivial
    · by_cases hne : j = old
      · subst hne
        obtain ⟨so, hso, hc⟩ := hold
        rw [hj] at hso
        cases hso
        unfold Stream.Holds
        cases hp : sj.phase with
        | cleaning _ _ _ => trivial
        | stored => trivial
        | _ => simp [hp, Phase.committed] at hc
      · exact (h.holds j sj hj).congr (hother j hne)
  · intro m hm
    obtain ⟨sm, hsm, hret, hread, htotal, hend⟩ := h.manifest m hm
    have hne := hmanifest m hm
    have hread' := (readChunks_congr fun k _ => hother _ hne k).trans hread
    have hend' : ∀ k, m.nChunks ≤ k → chunks.lookup (m.chunkStream, k) = none :=
      fun k hk => (hother _ hne k).trans (hend k hk)
    by_cases hi : m.chunkStream = i
    · subst hi
      rw [hlook] at hsm
      cases hsm
      exact ⟨{ st with phase := phase }, by simp [World.setStream], hret, hread', htotal, hend'⟩
    · exact ⟨sm, by simpa [World.setStream, hi] using hsm, hret, hread', htotal, hend'⟩
  · intro m sm hm hsm
    rcases lookup_insert_cases hsm with ⟨-, rfl⟩ | ⟨-, hsm⟩
    · exact hafter
    · exact h.committed m sm hm hsm
  · intro j sj n old' k hj hp
    rcases lookup_insert_cases hj with ⟨rfl, rfl⟩ | ⟨-, hj⟩
    · rcases hphase with rfl | ⟨_, _, rfl⟩
      · cases hp
      · cases hp
    · obtain ⟨so, hso, hc⟩ := h.replacing j sj n old' k hj hp
      exact hkeep old' so hso hc
  · intro j sj old' n k hj hp
    rcases lookup_insert_cases hj with ⟨rfl, rfl⟩ | ⟨-, hj⟩
    · rcases hphase with rfl | ⟨_, _, rfl⟩
      · cases hp
      · cases hp
        obtain ⟨so, hso, hc⟩ := hold
        exact ⟨hkeep _ so hso hc, hmanifest⟩
    · obtain ⟨⟨so, hso, hc⟩, hne⟩ := h.cleaning j sj old' n k hj hp
      exact ⟨hkeep old' so hso hc, hne⟩

/-- The write of the manifest. -/
theorem Inv.writeManifest (h : Inv s) {n : Nat} {replaced : Option (Nat × Nat)} (hlook : s.streams.lookup i = some st)
    (hphase : st.phase = .replacing n replaced) :
    Inv ({ s with manifest := some ⟨i, n, st.chunks.totalItems, st.returned.join⟩ }.setStream i
      { st with phase := afterManifest replaced }) := by
  have hi := h.holds i st hlook
  simp only [Stream.Holds, hphase] at hi
  obtain ⟨hret, htotal, hkept⟩ := hi
  obtain ⟨r, hr⟩ := Option.isSome_iff_exists.mp hret
  have hafter : (afterManifest replaced).committed = true := by
    cases replaced with
    | none => rfl
    | some _ => rfl
  have hnot : st.phase.committed = false := by rw [hphase]; rfl
  have hkeep : ∀ j so, s.streams.lookup j = some so → so.phase.committed = true → j ≠ i := by
    rintro j so hj hc rfl
    rw [hlook] at hj
    cases hj
    rw [hnot] at hc
    cases hc
  refine ⟨?_, ?_, ?_, ?_, ?_, ?_⟩
  · intro j hj k
    simp only [World.setStream] at hj ⊢
    rw [lookup_insert'] at hj
    split at hj
    · cases hj
    · exact h.unborn j hj k
  · intro j sj hj
    rcases lookup_insert_cases hj with ⟨rfl, rfl⟩ | ⟨-, hj⟩
    · cases replaced with
      | none => trivial
      | some _ => trivial
    · exact h.holds j sj hj
  · intro m hm
    cases hm
    refine ⟨{ st with phase := afterManifest replaced }, by simp [World.setStream], by simp [hr], hkept.1, htotal, ?_⟩
    exact hkept.2
  · intro m sm hm hsm
    cases hm
    rcases lookup_insert_cases hsm with ⟨-, rfl⟩ | ⟨hne, -⟩
    · exact hafter
    · exact absurd rfl hne
  · intro j sj n' old k hj hp
    rcases lookup_insert_cases hj with ⟨rfl, rfl⟩ | ⟨-, hj⟩
    · have hnone : (afterManifest replaced).committed = false := by rw [show afterManifest replaced = _ from hp]; rfl
      rw [hafter] at hnone
      cases hnone
    · obtain ⟨so, hso, hc⟩ := h.replacing j sj n' old k hj hp
      exact ⟨so, by simpa [World.setStream, hkeep old so hso hc] using hso, hc⟩
  · intro j sj old n' k hj hp
    have hcommitted : ∃ so, s.streams.lookup old = some so ∧ so.phase.committed = true := by
      rcases lookup_insert_cases hj with ⟨rfl, rfl⟩ | ⟨-, hj⟩
      · cases replaced with
        | none => cases hp
        | some p =>
          obtain ⟨old', n''⟩ := p
          cases hp
          exact h.replacing j st n old n' hlook hphase
      · exact (h.cleaning j sj old n' k hj hp).1
    obtain ⟨so, hso, hc⟩ := hcommitted
    refine ⟨⟨so, by simpa [World.setStream, hkeep old so hso hc] using hso, hc⟩, ?_⟩
    intro m hm
    cases hm
    exact (hkeep old so hso hc).symm

theorem Inv.step (h : Inv s) {l : Label} (hs : persistedStep spec s l s') : Inv s' := by
  obtain ⟨hstep, hpersisted⟩ := hs
  have hone : ∀ {i : Nat} {st : Stream α β}, s.streams.lookup i = some st → st.phase.committed = false →
      ∀ st', s.streams.lookup i = some st' → st'.phase.committed = false := by
    intro i st hlook hc st' hlook'
    rw [hlook] at hlook'
    cases hlook'
    exact hc
  cases hstep with
  | start hlook =>
    refine h.own (by simp [hlook]) (fun _ _ _ => rfl) ?_ rfl nofun
    exact Stream.open_begin (h.unborn _ hlook)
  | @item i st x hlook hphase =>
    have hi := h.holds i st hlook
    simp only [Stream.Holds, hphase] at hi
    by_cases hfull : (st.chunks.bufferItem spec x).isFull spec
    · simp only [if_pos hfull]
      exact h.own (hone hlook (by rw [hphase]; rfl)) (fun _ _ _ => rfl) (hi.item x .flushing) rfl nofun
    · simp only [if_neg hfull]
      exact h.own (hone hlook (by rw [hphase]; rfl)) (fun _ _ _ => rfl) (hi.item x .producing) rfl nofun
  | @flush i st verdict hlook hphase =>
    have hi := h.holds i st hlook
    simp only [Stream.Holds, hphase] at hi
    refine h.own (hone hlook (by rw [hphase]; rfl)) (fun j hj k => flushChunk_other hj verdict k) ?_ rfl nofun
    exact hi.flush (hpersisted i st rfl hlook) verdict .producing
  | @exhaust i st returned hlook hphase =>
    have hi := h.holds i st hlook
    simp only [Stream.Holds, hphase] at hi
    exact h.own (hone hlook (by rw [hphase]; rfl)) (fun _ _ _ => rfl) ⟨rfl, hi⟩ rfl nofun
  | @fail i st hlook hphase =>
    have hopen : st.Open s.chunks i := by
      have hi := h.holds i st hlook
      rcases hphase with hphase | hphase
      · simpa only [Stream.Holds, hphase] using hi
      · simp only [Stream.Holds, hphase] at hi
        exact hi.2
    have hnot : st.phase.committed = false := by
      rcases hphase with hphase | hphase <;> rw [hphase] <;> rfl
    refine h.own (hone hlook hnot) (fun _ _ _ => rfl) ?_ rfl nofun
    intro k hk
    obtain ⟨-, xs, hkept, -⟩ := hopen
    exact hkept.2 k (hk.resolve_left (Nat.not_lt_zero k))
  | @dropOrphan i k st hlook hphase hk =>
    have hi := h.holds i st hlook
    simp only [Stream.Holds, hphase] at hi
    refine h.own (hone hlook (by rw [hphase]; rfl)) ?_ ?_ rfl nofun
    · intro j hj k'
      rw [lookup_erase', if_neg (by simp [hj])]
    · intro k' hk'
      rw [lookup_erase']
      split
      · rfl
      · rename_i hne
        refine hi k' ?_
        rcases hk' with hlt | hle
        · have hkk : k' ≠ k := by simpa using hne
          exact .inl (by omega)
        · exact .inr hle
  | @orphansDropped i k st hlook hphase hk =>
    have hi := h.holds i st hlook
    simp only [Stream.Holds, hphase] at hi
    refine h.own (hone hlook (by rw [hphase]; rfl)) (fun _ _ _ => rfl) ?_ rfl nofun
    intro k'
    exact hi k' (by omega)
  | @refuse i st hlook hphase hw =>
    have hi := h.holds i st hlook
    simp only [Stream.Holds, hphase] at hi
    refine h.own (hone hlook (by rw [hphase]; rfl)) (fun _ _ _ => rfl) ?_ rfl nofun
    intro k
    obtain ⟨-, -, xs, hkept, -⟩ := hi
    exact hkept.2 k (by omega)
  | @last i st verdict hlook hphase =>
    have hi := h.holds i st hlook
    simp only [Stream.Holds, hphase] at hi
    refine h.own (hone hlook (by rw [hphase]; rfl)) (fun j hj k => lastChunk_other hj verdict k) ?_ rfl nofun
    refine ⟨hi.1, hi.2.last ?_ verdict⟩
    intro hflush
    exact hpersisted i st (if_neg hflush) hlook
  | @replaced i n st hlook hphase =>
    have hi := h.holds i st hlook
    simp only [Stream.Holds, hphase] at hi
    refine h.own (hone hlook (by rw [hphase]; rfl)) (fun _ _ _ => rfl) hi rfl ?_
    intro n' old k hp
    simp only [Phase.replacing.injEq, replacedStream] at hp
    obtain ⟨-, hp⟩ := hp
    split at hp
    · rename_i m hm
      split at hp
      · cases hp
      · cases hp
        obtain ⟨sm, hsm, -⟩ := h.manifest m hm
        exact ⟨sm, hsm, h.committed m sm hm hsm⟩
    · cases hp
  | @noReplaced i n st hlook hphase =>
    have hi := h.holds i st hlook
    simp only [Stream.Holds, hphase] at hi
    exact h.own (hone hlook (by rw [hphase]; rfl)) (fun _ _ _ => rfl) hi rfl nofun
  | manifest hlook hphase => exact h.writeManifest hlook hphase
  | @dropReplaced i old n k st hlook hphase hk =>
    obtain ⟨hold, hmanifest⟩ := h.cleaning i st old n k hlook hphase
    refine h.clean hlook hold hmanifest ?_ (.inr ⟨n, k + 1, rfl⟩)
    intro j hj k'
    rw [lookup_erase', if_neg (by simp [hj])]
  | @replacedDropped i old n k st hlook hphase hk =>
    obtain ⟨hold, hmanifest⟩ := h.cleaning i st old n k hlook hphase
    exact h.clean hlook hold hmanifest (fun _ _ _ => rfl) (.inl rfl)

end

/-! ## A stored stream is whole -/

section

variable {s : World α β}

theorem Inv.whole (h : Inv s) : Whole s := by
  refine ⟨h.manifest, ?_, ?_⟩
  · intro i st hlook hphase
    have hi := h.holds i st hlook
    simpa only [Stream.Holds, hphase] using hi
  · rintro i st k m hlook hphase hm rfl
    have hcommitted := h.committed m st hm hlook
    rw [hphase] at hcommitted
    cases hcommitted

theorem reaches_inv (h : Reaches (persistedStep spec) s) : Inv s := by
  induction h with
  | refl => exact .start
  | tail _ hstep ih =>
    obtain ⟨l, hs⟩ := hstep
    exact ih.step hs

/-- Where no stream flushes a chunk after one that stayed in RAM: however the streams of a key interleave, the
manifest that stands names all the chunks of one that ran to exhaustion, and abandoned ones leave none. -/
theorem streams_whole (h : Reaches (persistedStep spec) s) : Whole s :=
  (reaches_inv h).whole

/-- Two chunks of one item each, and the manifest that names them. -/
theorem streams_whole_of_two : ∃ s : World Nat Nat, Reaches (persistedStep ⟨1, 100, id⟩) s ∧ Whole s ∧
    s.manifest.map (·.nChunks) = some 2 ∧ readChunks s.chunks 0 2 = some [7, 8] := by
  have hrun : ∃ s : World Nat Nat, Reaches (persistedStep ⟨1, 100, id⟩) s ∧ s.manifest.map (·.nChunks) = some 2 ∧
      readChunks s.chunks 0 2 = some [7, 8] := by
    have h : Reaches (persistedStep ⟨1, 100, id⟩) (World.start : World Nat Nat) := .refl
    replace h := h.tail ⟨_, .start (i := 0) rfl, nofun⟩
    replace h := h.tail ⟨_, .item (i := 0) 7 rfl rfl, nofun⟩
    replace h := h.tail ⟨_, .flush (i := 0) none rfl rfl, by rintro i st hi hst; cases hi; cases hst; rfl⟩
    replace h := h.tail ⟨_, .item (i := 0) 8 rfl rfl, nofun⟩
    replace h := h.tail ⟨_, .flush (i := 0) (some .size) rfl rfl, by rintro i st hi hst; cases hi; cases hst; rfl⟩
    replace h := h.tail ⟨_, .exhaust (i := 0) none rfl rfl, nofun⟩
    replace h := h.tail ⟨_, .last (i := 0) none rfl rfl, nofun⟩
    replace h := h.tail ⟨_, .replaced (i := 0) rfl rfl, nofun⟩
    replace h := h.tail ⟨_, .manifest (i := 0) rfl rfl, nofun⟩
    exact ⟨_, h, rfl, rfl⟩
  obtain ⟨s, hs, hn, hread⟩ := hrun
  exact ⟨s, hs, streams_whole hs, hn, hread⟩

/-- The first chunk stays in RAM: the second is counted and never written. -/
theorem second_chunk_not_written : ∃ s : World Nat Nat, Reaches (Step ⟨1, 100, id⟩) s ∧ ¬ Whole s := by
  have hrun : ∃ s : World Nat Nat, Reaches (Step ⟨1, 100, id⟩) s ∧ s.manifest = some ⟨0, 2, 2, none⟩ ∧
      readChunks s.chunks 0 2 = none := by
    have h : Reaches (Step ⟨1, 100, id⟩) (World.start : World Nat Nat) := .refl
    replace h := h.tail ⟨_, .start (i := 0) rfl⟩
    replace h := h.tail ⟨_, .item (i := 0) 7 rfl rfl⟩
    replace h := h.tail ⟨_, .flush (i := 0) (some .size) rfl rfl⟩
    replace h := h.tail ⟨_, .item (i := 0) 8 rfl rfl⟩
    replace h := h.tail ⟨_, .flush (i := 0) none rfl rfl⟩
    replace h := h.tail ⟨_, .exhaust (i := 0) none rfl rfl⟩
    replace h := h.tail ⟨_, .last (i := 0) none rfl rfl⟩
    replace h := h.tail ⟨_, .replaced (i := 0) rfl rfl⟩
    replace h := h.tail ⟨_, .manifest (i := 0) rfl rfl⟩
    exact ⟨_, h, rfl, rfl⟩
  obtain ⟨s, hs, hm, hread⟩ := hrun
  refine ⟨s, hs, ?_⟩
  intro hw
  obtain ⟨st, -, -, hsome, -⟩ := hw.manifest _ hm
  rw [hread] at hsome
  cases hsome

/-! ### How a stream is cut -/

/-- Without `cache_if`, two cuts of one run both store an entry or neither does exactly where the checks after the call
raise, nothing refuses the result, or both cuts fill a chunk or neither does. -/
theorem stored_alike_iff (run : BodyRun α) (items : List α) (returned : Option β) (estimate : α → Nat)
    (maxItems maxBytes maxItems' maxBytes' i i' : Nat) (verdicts verdicts' : Nat → Option Reason)
    (chunks chunks' : Chunks α) :
    ((streamAndStore ⟨maxItems, maxBytes, estimate⟩ none i verdicts chunks run items returned).Stored ↔
        (streamAndStore ⟨maxItems', maxBytes', estimate⟩ none i' verdicts' chunks' run items returned).Stored) ↔
      run.checksRaise = true ∨ refusal none run items = none ∨
        (Fills ⟨maxItems, maxBytes, estimate⟩ items ↔ Fills ⟨maxItems', maxBytes', estimate⟩ items) := by
  rw [stored_iff, stored_iff]
  cases run.checksRaise with
  | true => simp
  | false =>
      by_cases hwhy : refusal none run items = none
      · simp [hwhy]
      · simp [hwhy]

/-- A run in which a mock was called. -/
def mockedRun : BodyRun Nat where
  tracker := ⟨false, some [], [], [], none⟩
  observer := ⟨true, []⟩
  rngNew := false
  purityMode := .warn
  backend := .tieredOverMemory
  codeMovedSinceKeyed := false
  parts := ⟨fun _ => false, fun _ => none, fun _ => ⟨[], true⟩⟩
  checksRaise := false

/-- Three items under a mock: kept in one chunk they are refused, cut after each second item they are stored. -/
theorem mocked_stored_when_cut :
    ¬ (streamAndStore ⟨10, 1000, id⟩ none 0 (fun _ => none) ∅ mockedRun [1, 2, 3] (none : Option Nat)).Stored ∧
      (streamAndStore ⟨2, 1000, id⟩ none 0 (fun _ => none) ∅ mockedRun [1, 2, 3] (none : Option Nat)).Stored := by
  rw [stored_iff, stored_iff]
  simp [Fills, refusal, refuseIf, cacheIfRefusal, inputsMovedDuringCall, staleMemoRefusal, unresolvedRefusal, firstOf,
    unpicklableSourceRefusal, mockedRun]

/-! ### A replay -/

section Replay

variable {cacheKey : Py.Str} {chunks : List (List α)} {recompute : Option (List α)} {returned : Option β}
  {events : List Event} {r : Reading α β}

theorem follows_of_run (hfresh : recompute = some chunks.flatten ∨ recompute = none)
    (h : Run Reading.finalStep (Reading.start cacheKey chunks recompute returned) events r) :
    Follows chunks events r ∧ r.it.made = (cacheKey, recompute, returned) := by
  induction h with
  | nil => exact ⟨.start cacheKey recompute returned hfresh, rfl⟩
  | snoc _ hstep ih =>
      refine ⟨ih.1.step hstep, ?_⟩
      rw [hstep.1, ChunkedCachedIterator.made_step, ih.2]

theorem Follows.atLoss (h : Follows chunks events r) (hclosed : r.it.closed = false) (hok : ¬ r.Failed) :
    (r.step .next).Failed ↔ r.it.recompute = none ∧ r.it.MeetsLoss r.stored := by
  obtain ⟨n, m, hcalls, htold, hanswers⟩ := h.told
  have hm : m = 0 := Nat.eq_zero_of_not_pos fun hpos => hok ((failed_iff hanswers).mpr hpos)
  subst hm
  have hmem : .close ∉ events := fun hmem => by simp [h.closed.mpr hmem] at hclosed
  rw [callsClosed_of_not_mem hmem] at hanswers
  constructor
  · rintro ⟨message, hfailed⟩
    by_contra hloss
    have hdue : r.it.recompute = some chunks.flatten ∨ r.it.recompute = none ∧ ¬ r.it.MeetsLoss r.stored := by
      rcases h.fresh with hsome | hnone
      · exact .inl hsome
      · exact .inr ⟨hnone, fun hc => hloss ⟨hnone, hc⟩⟩
    rw [(h.next_due hclosed hdue hcalls htold (by simpa [answersOf] using hanswers)).2] at hfailed
    exact not_error_mem_replayed hfailed
  · rintro ⟨hnone, hloss⟩
    obtain ⟨c, hloop⟩ := ChunkedCachedIterator.loop_of_meetsLoss hnone hloss
    refine ⟨goneMessage r.it.cacheKey r.it.yielded, ?_⟩
    simp [Reading.step, ChunkedCachedIterator.next, hclosed, hloop]

/-- Chunks go at any moments, and after an error the caller takes the loss as final. With *recompute* the calls of `next`
give the items in order and then what the generator returned; without it the items before the first chunk that is gone
and then the error; and after `close` nothing. -/
theorem replay_gives (hfresh : recompute = some chunks.flatten ∨ recompute = none)
    (h : Run Reading.finalStep (Reading.start cacheKey chunks recompute returned) events r) :
    r.Gives cacheKey chunks recompute returned events := by
  obtain ⟨hfollows, hmade⟩ := follows_of_run hfresh h
  obtain ⟨hkey, hrec, hret⟩ : r.it.cacheKey = cacheKey ∧ r.it.recompute = recompute ∧ r.it.returned = returned := by
    simpa [ChunkedCachedIterator.made] using hmade
  obtain ⟨n, m, hcalls, htold, hanswers⟩ := hfollows.told
  rw [answersOf, hkey, hret] at hanswers
  refine ⟨?_, ?_, ?_⟩
  · intro hsome
    have hm : m = 0 := Nat.eq_zero_of_not_pos fun hpos => hsome (hrec ▸ (htold.failed hpos).1)
    subst hm
    rw [hanswers, ← hcalls]
    simp
  · intro hnone
    exact ⟨n, m, hcalls, fun hm => (htold.failed hm).2.1, hanswers⟩
  · intro hclosed hok
    rw [hfollows.atLoss hclosed hok, hrec]

/-- Two chunks of one item, and no way to compute them again. -/
def twoChunks : Reading Nat Nat := .start [] [[1], [2]] none (some 7)

/-- The first chunk goes, and the caller closes the iterator after the error. -/
theorem replay_gives_closed :
    (((twoChunks.step (.lose 0)).step .next).step .close).Gives [] [[1], [2]] none (some 7)
      [.lose 0, .next, .close] := by
  have h : Run Reading.finalStep twoChunks [] twoChunks := .nil
  have hlost := h.snoc (l := .lose 0) ⟨rfl, nofun⟩
  have hraised := hlost.snoc (l := .next) ⟨rfl, fun _ _ hfailed => by
    obtain ⟨_, hmem⟩ := hfailed
    cases hmem⟩
  exact replay_gives (.inr rfl) (hraised.snoc (l := .close) ⟨rfl, nofun⟩)

/-- The caller calls `next` again after the error: the second item comes, and then the end. -/
theorem replay_skips_lost_chunk :
    ((((twoChunks.step (.lose 0)).step .next).step .next).step .next).answers =
      [.cacheBackendError (goneMessage [] 0), .item 2, .stopIteration (some 7)] := by
  simp [twoChunks, Reading.step, Reading.start, ChunkedCachedIterator.make, ChunkedCachedIterator.next,
    ChunkedCachedIterator.loop]

end Replay

end

end Cash.Streams
