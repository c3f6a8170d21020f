import Cash.Streams.Replay

/-! The loop of `__next__` against the items that are left, and a caller's run against the calls made. -/

namespace Cash.Streams

variable {α β : Type}

namespace ChunkedCachedIterator

variable {stored : Stored α} {it : ChunkedCachedIterator α β} {chunks : List (List α)}

/-- What is left, of chunks that are all there. -/
def rest (chunks : List (List α)) (it : ChunkedCachedIterator α β) : List α :=
  it.currentChunkIter.getD [] ++ ((chunks.take it.nChunks).drop it.chunkIndex).flatten

/-- The chunk the loop comes to is gone: it raises, and comes to the next one when it is called again. -/
theorem loop_of_meetsLoss (hnone : it.recompute = none) (h : it.MeetsLoss stored) :
    ∃ c, it.loop stored = ({ it with currentChunkIter := none, chunkIndex := c },
      .cacheBackendError (goneMessage it.cacheKey it.yielded)) := by
  obtain ⟨hcur, c, hle, hlt, hgone, hempty⟩ := h
  induction hd : c - it.chunkIndex generalizing it with
  | zero =>
      have hc : it.chunkIndex = c := by omega
      refine ⟨c + 1, ?_⟩
      rw [loop]
      split
      · rename_i x xs hx
        rw [hx] at hcur
        cases hcur
      · rw [if_neg (by omega), hc, hgone]
        simp only [hnone]
  | succ d ih =>
      have hhere := hempty it.chunkIndex le_rfl (by omega)
      obtain ⟨c', hloop⟩ := @ih { it with currentChunkIter := some [], chunkIndex := it.chunkIndex + 1 } hnone rfl
        (show it.chunkIndex + 1 ≤ c by omega) hlt (fun k hk hkc => hempty k (by change it.chunkIndex + 1 ≤ k at hk; omega) hkc)
        (show c - (it.chunkIndex + 1) = d by omega)
      refine ⟨c', ?_⟩
      rw [loop]
      split
      · rename_i x xs hx
        rw [hx] at hcur
        cases hcur
      · rw [if_neg (by omega), hhere]
        exact hloop

/-- How the loop ends where no loss is in the way: with the next item, or at the end. -/
def Ends (chunks : List (List α)) (items : List α) (it : ChunkedCachedIterator α β)
    (r : ChunkedCachedIterator α β × Answer α β) : Prop :=
  (∃ x current c n, r = ({ it with
      currentChunkIter := current, chunkIndex := c, nChunks := n, yielded := it.yielded + 1 }, .item x) ∧
    items[it.yielded]? = some x ∧ r.1.rest chunks = items.drop (it.yielded + 1)) ∨
  ∃ c n, r = ({ it with currentChunkIter := none, chunkIndex := c, nChunks := n }, .stopIteration it.returned) ∧
    items.length ≤ it.yielded ∧ n ≤ c

theorem rest_of_open {current : List α} (h : it.currentChunkIter = some current) :
    it.rest chunks = current ++ ((chunks.take it.nChunks).drop it.chunkIndex).flatten := by
  rw [rest, h, Option.getD_some]

theorem rest_of_done (hcur : it.currentChunkIter.getD [] = []) (h : it.nChunks ≤ it.chunkIndex) :
    it.rest chunks = [] := by
  have hlen : (chunks.take it.nChunks).length ≤ it.chunkIndex := (List.length_take_le _ _).trans h
  rw [rest, hcur, List.drop_eq_nil_of_le hlen]
  rfl

/-- The next chunk is opened. -/
theorem rest_of_chunk {chunk : List α} (hcur : it.currentChunkIter.getD [] = []) (hlt : it.chunkIndex < it.nChunks)
    (h : chunks[it.chunkIndex]? = some chunk) :
    it.rest chunks = chunk ++ ((chunks.take it.nChunks).drop (it.chunkIndex + 1)).flatten := by
  have hget : (chunks.take it.nChunks)[it.chunkIndex]? = some chunk := by
    rw [List.getElem?_take_of_lt hlt, h]
  obtain ⟨hlen, hval⟩ := List.getElem?_eq_some_iff.mp hget
  rw [rest, hcur, List.drop_eq_getElem_cons hlen, hval]
  rfl

theorem loop_ends {items : List α} (hstored : ∀ k chunk, stored k = some chunk → chunks[k]? = some chunk)
    (hrest : it.rest chunks = items.drop it.yielded)
    (hok : it.recompute = some items ∨ it.recompute = none ∧ ¬ it.MeetsLoss stored) :
    Ends chunks items it (it.loop stored) := by
  induction hd : it.nChunks - it.chunkIndex using Nat.strong_induction_on generalizing it with
  | _ d ih =>
    rw [loop]
    split
    · rename_i x xs hx
      left
      rw [rest_of_open hx, List.cons_append] at hrest
      have hget : items[it.yielded]? = some x := by
        rw [← List.head?_drop, ← hrest, List.head?_cons]
      refine ⟨x, some xs, it.chunkIndex, it.nChunks, rfl, hget, ?_⟩
      rw [← List.tail_drop, ← hrest, List.tail_cons]
      rfl
    · rename_i hopen
      have hcur : it.currentChunkIter.getD [] = [] := by
        cases hcase : it.currentChunkIter with
        | none => rfl
        | some current =>
            cases current with
            | nil => rfl
            | cons x xs => exact absurd hcase (hopen x xs)
      by_cases hdone : it.nChunks ≤ it.chunkIndex
      · right
        rw [if_pos hdone]
        refine ⟨it.chunkIndex, it.nChunks, rfl, ?_, hdone⟩
        rw [rest_of_done hcur hdone] at hrest
        exact List.drop_eq_nil_iff.mp hrest.symm
      · rw [if_neg hdone]
        have hlt : it.chunkIndex < it.nChunks := Nat.lt_of_not_le hdone
        cases hget : stored it.chunkIndex with
        | some chunk =>
            rw [rest_of_chunk hcur hlt (hstored _ _ hget)] at hrest
            refine @ih _ ?_ { it with currentChunkIter := some chunk, chunkIndex := it.chunkIndex + 1 } hrest ?_ rfl
            · change it.nChunks - (it.chunkIndex + 1) < d
              omega
            · rcases hok with hsome | ⟨hnone, hno⟩
              · exact .inl hsome
              · refine .inr ⟨hnone, ?_⟩
                rintro ⟨hnil, c, hle, hltc, hgone, hempty⟩
                apply hno
                refine ⟨hcur, c, (Nat.le_succ _).trans hle, hltc, hgone, ?_⟩
                intro k hk hkc
                rcases Nat.lt_or_eq_of_le hk with hk | rfl
                · exact hempty k hk hkc
                · rw [hget]
                  exact congrArg some hnil
        | none =>
            rcases hok with hsome | ⟨hnone, hno⟩
            · dsimp only
              split
              · rename_i hnone
                rw [hsome] at hnone
                cases hnone
              rename_i fresh hfresh
              cases hsome.symm.trans hfresh
              refine @ih _ ?_ { it with
                currentChunkIter := some (items.drop it.yielded), chunkIndex := it.chunkIndex + 1, nChunks := 0 }
                ?_ (.inl hsome) rfl
              · change 0 - (it.chunkIndex + 1) < d
                omega
              · rw [rest_of_open rfl, List.take_zero, List.drop_nil, List.flatten_nil, List.append_nil]
            · exact absurd ⟨hcur, it.chunkIndex, le_rfl, hlt, hget, fun k hk hkc => absurd hkc (by omega)⟩ hno

/-- What the iterator was made with. -/
def made (it : ChunkedCachedIterator α β) : Py.Str × Option (List α) × Option β :=
  (it.cacheKey, it.recompute, it.returned)

theorem made_loop : (it.loop stored).1.made = it.made := by
  fun_induction loop stored it with
  | case1 => rfl
  | case2 => rfl
  | case3 it _ _ _ chunk ih => exact ih
  | case4 => rfl
  | case5 it _ _ _ fresh _ ih => exact ih

theorem made_step (r : Reading α β) (e : Event) : (r.step e).it.made = r.it.made := by
  cases e with
  | next =>
      change (r.it.next r.stored).1.made = r.it.made
      rw [next]
      split
      · rfl
      · exact made_loop
  | close => rfl
  | lose k => rfl

end ChunkedCachedIterator

/-! ## The calls made -/

theorem callsOpen_concat (events : List Event) (e : Event) :
    callsOpen (events ++ [e]) = if .close ∈ events then callsOpen events else callsOpen events + [e].count .next := by
  induction events with
  | nil => cases e <;> rfl
  | cons e' events ih =>
      cases e' with
      | next =>
          simp only [List.cons_append, callsOpen, ih, List.mem_cons, reduceCtorEq, false_or]
          split
          · rfl
          · omega
      | close => simp [callsOpen]
      | lose k => simp [callsOpen, ih]

theorem callsClosed_concat (events : List Event) (e : Event) :
    callsClosed (events ++ [e]) = if .close ∈ events then callsClosed events + [e].count .next else 0 := by
  induction events with
  | nil => cases e <;> rfl
  | cons e' events ih =>
      cases e' with
      | next => simp [callsClosed, ih]
      | close => simp [callsClosed]
      | lose k => simp [callsClosed, ih]

theorem callsClosed_of_not_mem {events : List Event} (h : .close ∉ events) : callsClosed events = 0 := by
  induction events with
  | nil => rfl
  | cons e events ih =>
      rw [List.mem_cons, not_or] at h
      cases e with
      | next => exact ih h.2
      | close => exact absurd rfl h.1
      | lose k => exact ih h.2

theorem callsClosed_of_ne {events : List Event} {e : Event} (h : e ≠ .next) :
    callsClosed (events ++ [e]) = callsClosed events := by
  rw [callsClosed_concat]
  split
  · rw [List.count_singleton, if_neg (by simpa using h), Nat.add_zero]
  · rename_i hmem
    exact (callsClosed_of_not_mem hmem).symm

theorem replayed_succ (items : List α) (returned : Option β) (n : Nat) :
    replayed items returned (n + 1) = replayed items returned n ++ [due items returned n] := by
  simp [replayed, List.range_succ]

theorem not_error_mem_replayed {items : List α} {returned : Option β} {n : Nat} {message : Py.Str} :
    Answer.cacheBackendError message ∉ replayed items returned n := by
  intro h
  obtain ⟨j, _, hj⟩ := List.mem_map.mp h
  unfold due at hj
  split at hj <;> cases hj

/-! ## A caller's run -/

/-- Where the iterator stands after `n` answers of the generator and `m` errors. -/
structure Told (chunks : List (List α)) (it : ChunkedCachedIterator α β) (n m : Nat) : Prop where
  failed : 0 < m → it.recompute = none ∧ n ≤ chunks.flatten.length ∧ it.yielded = n
  rest : m = 0 → it.closed = false → it.rest chunks = chunks.flatten.drop it.yielded
  yielded : m = 0 → it.closed = false → it.yielded = min n chunks.flatten.length
  ended : m = 0 → it.closed = false → chunks.flatten.length < n → it.nChunks ≤ it.chunkIndex

/-- The answers. -/
def answersOf (chunks : List (List α)) (it : ChunkedCachedIterator α β) (n m k : Nat) : List (Answer α β) :=
  replayed chunks.flatten it.returned n ++ List.replicate m (.cacheBackendError (goneMessage it.cacheKey n)) ++
    List.replicate k (.stopIteration none)

structure Follows (chunks : List (List α)) (events : List Event) (r : Reading α β) : Prop where
  stored : ∀ k chunk, r.stored k = some chunk → chunks[k]? = some chunk
  fresh : r.it.recompute = some chunks.flatten ∨ r.it.recompute = none
  closed : r.it.closed = true ↔ .close ∈ events
  told : ∃ n m, n + m = callsOpen events ∧ Told chunks r.it n m ∧
    r.answers = answersOf chunks r.it n m (callsClosed events)

variable {chunks : List (List α)} {events : List Event} {r : Reading α β} {it : ChunkedCachedIterator α β}

theorem error_mem_answersOf {n m k : Nat} :
    (∃ message, Answer.cacheBackendError message ∈ answersOf chunks it n m k) ↔ 0 < m := by
  unfold answersOf
  constructor
  · rintro ⟨message, hmem⟩
    rcases List.mem_append.mp hmem with hmem | hmem
    · rcases List.mem_append.mp hmem with hmem | hmem
      · exact absurd hmem not_error_mem_replayed
      · exact Nat.pos_of_ne_zero (List.mem_replicate.mp hmem).1
    · cases (List.mem_replicate.mp hmem).2
  · intro hm
    exact ⟨_, List.mem_append_left _ (List.mem_append_right _ (List.mem_replicate.mpr ⟨hm.ne', rfl⟩))⟩

theorem Follows.start (cacheKey : Py.Str) (recompute : Option (List α)) (returned : Option β)
    (h : recompute = some chunks.flatten ∨ recompute = none) :
    Follows chunks [] (Reading.start cacheKey chunks recompute returned) := by
  refine ⟨fun _ _ h => h, h, by simp [Reading.start, ChunkedCachedIterator.make], 0, 0, rfl, ?_, rfl⟩
  refine ⟨fun h => absurd h (lt_irrefl 0), fun _ _ => ?_, fun _ _ => ?_, fun _ _ h => absurd h (Nat.not_lt_zero _)⟩
  · simp [ChunkedCachedIterator.rest, Reading.start, ChunkedCachedIterator.make]
  · simp [Reading.start, ChunkedCachedIterator.make]

theorem Follows.close (h : Follows chunks events r) : Follows chunks (events ++ [.close]) (r.step .close) := by
  obtain ⟨n, m, hcalls, htold, hanswers⟩ := h.told
  refine ⟨h.stored, h.fresh, by simp [Reading.step, ChunkedCachedIterator.close], n, m, ?_, ?_, ?_⟩
  · rw [hcalls, callsOpen_concat]
    simp
  · exact ⟨htold.failed, nofun, nofun, nofun⟩
  · rw [callsClosed_of_ne (by simp)]
    exact hanswers

theorem Follows.lose (h : Follows chunks events r) (k : Nat) :
    Follows chunks (events ++ [.lose k]) (r.step (.lose k)) := by
  obtain ⟨n, m, hcalls, htold, hanswers⟩ := h.told
  refine ⟨?_, h.fresh, ?_, n, m, ?_, htold, ?_⟩
  · intro k' chunk hget
    simp only [Reading.step, Function.update_apply] at hget
    split at hget
    · cases hget
    · exact h.stored k' chunk hget
  · simpa [Reading.step] using h.closed
  · rw [hcalls, callsOpen_concat]
    simp
  · rw [callsClosed_of_ne (by simp)]
    exact hanswers

/-- After `close`. -/
theorem Follows.next_closed (h : Follows chunks events r) (hclosed : r.it.closed = true) :
    Follows chunks (events ++ [.next]) (r.step .next) := by
  obtain ⟨n, m, hcalls, htold, hanswers⟩ := h.told
  have hmem := h.closed.mp hclosed
  have hnext : r.it.next r.stored = (r.it, .stopIteration none) := by
    rw [ChunkedCachedIterator.next, if_pos hclosed]
  refine ⟨h.stored, ?_, ?_, n, m, ?_, ?_, ?_⟩
  · simpa [Reading.step, hnext] using h.fresh
  · simpa [Reading.step, hnext] using h.closed
  · rw [hcalls, callsOpen_concat, if_pos hmem]
  · simpa [Reading.step, hnext] using htold
  · rw [callsClosed_concat, if_pos hmem]
    simp [Reading.step, hnext, hanswers, answersOf, List.replicate_succ']

/-- The next chunk is gone, and there is no other way to its items. -/
theorem Follows.next_lost (h : Follows chunks events r) (hclosed : r.it.closed = false)
    (hnone : r.it.recompute = none) (hloss : r.it.MeetsLoss r.stored) :
    Follows chunks (events ++ [.next]) (r.step .next) := by
  obtain ⟨n, m, hcalls, htold, hanswers⟩ := h.told
  have hmem : .close ∉ events := fun hmem => by simp [h.closed.mpr hmem] at hclosed
  obtain ⟨c, hloop⟩ := ChunkedCachedIterator.loop_of_meetsLoss hnone hloss
  have hnext : r.it.next r.stored = ({ r.it with currentChunkIter := none, chunkIndex := c },
      .cacheBackendError (goneMessage r.it.cacheKey r.it.yielded)) := by
    rw [ChunkedCachedIterator.next, if_neg (by simp [hclosed]), hloop]
  have hyielded : n ≤ chunks.flatten.length ∧ r.it.yielded = n := by
    rcases Nat.eq_zero_or_pos m with rfl | hm
    · have hle : n ≤ chunks.flatten.length := by
        by_contra hlt
        obtain ⟨_, c', hc, hc', _⟩ := hloss
        have := htold.ended rfl hclosed (Nat.lt_of_not_le hlt)
        omega
      exact ⟨hle, by rw [htold.yielded rfl hclosed, Nat.min_eq_left hle]⟩
    · exact (htold.failed hm).2
  refine ⟨h.stored, ?_, ?_, n, m + 1, ?_, ?_, ?_⟩
  · simpa [Reading.step, hnext] using h.fresh
  · simpa [Reading.step, hnext] using h.closed
  · rw [callsOpen_concat, if_neg hmem, ← hcalls]
    rfl
  · simp only [Reading.step, hnext]
    exact ⟨fun _ => ⟨hnone, hyielded⟩, nofun, nofun, nofun⟩
  · rw [callsClosed_concat, if_neg hmem]
    rw [callsClosed_of_not_mem hmem] at hanswers
    simp [Reading.step, hnext, hanswers, answersOf, List.replicate_succ', hyielded.2]

/-- The generator's next answer. -/
theorem Follows.next_due {n : Nat} (h : Follows chunks events r) (hclosed : r.it.closed = false)
    (hok : r.it.recompute = some chunks.flatten ∨ r.it.recompute = none ∧ ¬ r.it.MeetsLoss r.stored)
    (hcalls : n = callsOpen events) (htold : Told chunks r.it n 0)
    (hanswers : r.answers = replayed chunks.flatten r.it.returned n) :
    Follows chunks (events ++ [.next]) (r.step .next) ∧
      (r.step .next).answers = replayed chunks.flatten r.it.returned (n + 1) := by
  have hmem : .close ∉ events := fun hmem => by simp [h.closed.mpr hmem] at hclosed
  have hnext : r.it.next r.stored = r.it.loop r.stored := by
    rw [ChunkedCachedIterator.next, if_neg (by simp [hclosed])]
  have hy := htold.yielded rfl hclosed
  have hopen : callsOpen (events ++ [.next]) = n + 1 := by
    rw [callsOpen_concat, if_neg hmem, ← hcalls]
    rfl
  have hshut : callsClosed (events ++ [.next]) = 0 := by
    rw [callsClosed_concat, if_neg hmem]
  rcases ChunkedCachedIterator.loop_ends h.stored (htold.rest rfl hclosed) hok with
    ⟨x, current, c, k, hloop, hget, hrest⟩ | ⟨c, k, hloop, hlen, hle⟩
  · have hlt : r.it.yielded < chunks.flatten.length := (List.getElem?_eq_some_iff.mp hget).1
    have hn : r.it.yielded = n := by omega
    have hdue : due chunks.flatten r.it.returned n = .item x := by
      rw [due, ← hn, hget]
    have hstep : (r.step .next).answers = replayed chunks.flatten r.it.returned (n + 1) := by
      simp [Reading.step, hnext, hloop, hanswers, replayed_succ, hdue]
    rw [hloop] at hrest
    refine ⟨⟨h.stored, ?_, ?_, n + 1, 0, hopen.symm, ?_, ?_⟩, hstep⟩
    · simpa [Reading.step, hnext, hloop] using h.fresh
    · simpa [Reading.step, hnext, hloop] using h.closed
    · simp only [Reading.step, hnext, hloop]
      refine ⟨fun hpos => absurd hpos (lt_irrefl 0), fun _ _ => hrest, fun _ _ => ?_, fun _ _ hlt' => ?_⟩
      · change r.it.yielded + 1 = _
        omega
      · omega
    · rw [hstep, hshut]
      simp [answersOf, Reading.step, hnext, hloop]
  · have hdue : due chunks.flatten r.it.returned n = .stopIteration r.it.returned := by
      rw [due, List.getElem?_eq_none (by omega)]
    have hstep : (r.step .next).answers = replayed chunks.flatten r.it.returned (n + 1) := by
      simp [Reading.step, hnext, hloop, hanswers, replayed_succ, hdue]
    refine ⟨⟨h.stored, ?_, ?_, n + 1, 0, hopen.symm, ?_, ?_⟩, hstep⟩
    · simpa [Reading.step, hnext, hloop] using h.fresh
    · simpa [Reading.step, hnext, hloop] using h.closed
    · simp only [Reading.step, hnext, hloop]
      refine ⟨fun hpos => absurd hpos (lt_irrefl 0), fun _ _ => ?_, fun _ _ => ?_, fun _ _ _ => hle⟩
      · rw [ChunkedCachedIterator.rest_of_done rfl hle]
        exact (List.drop_eq_nil_of_le hlen).symm
      · change r.it.yielded = _
        omega
    · rw [hstep, hshut]
      simp [answersOf, Reading.step, hnext, hloop]

theorem failed_iff {n m : Nat}
    (hanswers : r.answers = answersOf chunks r.it n m (callsClosed events)) : r.Failed ↔ 0 < m := by
  rw [Reading.Failed, hanswers, error_mem_answersOf]

theorem Follows.step (h : Follows chunks events r) {e : Event} {r' : Reading α β} (hstep : r.finalStep e r') :
    Follows chunks (events ++ [e]) r' := by
  obtain ⟨rfl, hfinal⟩ := hstep
  cases e with
  | close => exact h.close
  | lose k => exact h.lose k
  | next =>
      cases hclosed : r.it.closed with
      | true => exact h.next_closed hclosed
      | false =>
          by_cases hloss : r.it.recompute = none ∧ r.it.MeetsLoss r.stored
          · exact h.next_lost hclosed hloss.1 hloss.2
          · obtain ⟨n, m, hcalls, htold, hanswers⟩ := h.told
            have hm : m = 0 := by
              by_contra hne
              have hpos := Nat.pos_of_ne_zero hne
              have hnone := (htold.failed hpos).1
              rcases hfinal hnone rfl ((failed_iff hanswers).mpr hpos) with hc | hc
              · rw [hclosed] at hc
                cases hc
              · exact hloss ⟨hnone, hc⟩
            subst hm
            have hmem : .close ∉ events := fun hmem => by simp [h.closed.mpr hmem] at hclosed
            rw [callsClosed_of_not_mem hmem] at hanswers
            refine (h.next_due hclosed ?_ hcalls htold (by simpa [answersOf] using hanswers)).1
            rcases h.fresh with hsome | hnone
            · exact .inl hsome
            · exact .inr ⟨hnone, fun hc => hloss ⟨hnone, hc⟩⟩

end Cash.Streams
