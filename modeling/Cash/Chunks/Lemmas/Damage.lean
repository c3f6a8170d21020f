import Cash.Chunks.Read

/-!
# When reading chunks raises a `ChunkError` and nothing else

The places an entry records are values of any type. Reading raises an error of the language exactly when a
place is malformed, or a pack has a name or an offset the platform cannot handle, and nothing before it in
the entry has failed with a `ChunkError`.
-/

namespace Cash.Chunks

open Bytes Py

/-- A `ChunkError` may be raised, an error of the language not. -/
def IsChunkError : ReadErr → Prop
  | .chunk _ => True
  | .py _ => False

/-! ## What can be read -/

/-- A place `read_chunks` can look at: three items, the last two numbers; a name of type `str` where the
length is the one wanted; and a `repr` where it is refused. -/
def PlaceReadable (env : Env) (nbytes : Nat) (place : Val) : Prop :=
  ∃ name offset n, place.item 0 = .ok name ∧ (place.item 1).bind (·.toInt env.parseInt) = .ok offset ∧
    (place.item 2).bind (·.toInt env.parseInt) = .ok n ∧
    ((n = nbytes ∧ ∃ s, name = .str s ∧ s.endsWith packSuffix = true ∧ 47 ∉ s) ∨
      ((n ≠ nbytes ∨ ∃ s, name = .str s) ∧ env.reprReturns place = true))

/-- A chunk whose turn comes without a failure: its own file is there, of the right size and matching its
crc32, or its place names a pack and the length wanted. -/
def ChunkUsable (env : Env) (dir : ChunkDir) (places : Option Items) (w : Wanted) : Prop :=
  match placeOf places w.digest with
  | none => ∃ data, dir (chunkName w.digest) = some data ∧ data.length = w.nbytes + trailer ∧
      crcOf (data.take w.nbytes) = w.crc
  | some place => ∃ found, (parsePlace env w.digest w.nbytes place).result = .ok found

/-- A member that is not where the pack's file could hold it. -/
def Misplaced (size : Nat) (m : Member) : Prop :=
  m.offset < 0 ∨ m.offset % packAlign ≠ 0 ∨ (size : Int) < m.offset + m.nbytes + trailer

/-- A pack `_read_pack` can look at: its name can be encoded, and the offset of its first misplaced member
can be shown. -/
def PackReadable (env : Env) (dir : ChunkDir) (g : Str × List Member) : Prop :=
  env.encodes g.1 = true ∧ ∀ file, dir g.1 = some file →
    Io.UpTo (fun m => ¬Misplaced file.length m)
      (fun m => Misplaced file.length m → env.reprReturns (.int m.offset) = true) g.2

/-- A pack whose turn comes without a failure. -/
def PackUsable (env : Env) (dir : ChunkDir) (g : Str × List Member) : Prop :=
  ∃ out, (readPack env dir g.1 g.2).result = .ok out

/-- The chunks wanted that are in packs, sorted by pack in the order of the table. -/
def byPack (env : Env) (places : Option Items) : List (Str × List Member) → List Wanted → List (Str × List Member)
  | byFile, [] => byFile
  | byFile, w :: rest =>
      match placeOf places w.digest with
      | none => byPack env places byFile rest
      | some place =>
          match (parsePlace env w.digest w.nbytes place).result with
          | .ok (name, offset) => byPack env places (addMember name ⟨w.index, offset, w.nbytes, w.crc⟩ byFile) rest
          | .error _ => byPack env places byFile rest

/-- Chunks that can be looked at:

* the place of each chunk that comes after usable chunks only is readable;
* when all chunks are usable, each pack that comes after usable packs only is readable. -/
def ChunksReadable (env : Env) (dir : ChunkDir) (places : Option Items) (ws : List Wanted) : Prop :=
  Io.UpTo (ChunkUsable env dir places)
    (fun w => ∀ place, placeOf places w.digest = some place → PlaceReadable env w.nbytes place) ws ∧
  ((∀ w ∈ ws, ChunkUsable env dir places w) →
    Io.UpTo (PackUsable env dir) (PackReadable env dir) (byPack env places [] ws))

/-! ## One place -/

variable {env : Env} {dir : ChunkDir} {places : Option Items}

/-- An operation of the language, then the rest. -/
theorem safe_lift {α β : Type} (r : Except Err α) (f : α → Io ReadErr β) :
    Io.Safe IsChunkError (Io.ofExcept (r.mapError .py) >>= f) ↔ ∃ a, r = .ok a ∧ Io.Safe IsChunkError (f a) := by
  rw [Io.safe_bind, Io.safe_ofExcept]
  cases r with
  | ok a =>
      simp only [Except.mapError, Io.result_ofExcept]
      constructor
      · rintro ⟨_, h⟩; exact ⟨a, rfl, h a rfl⟩
      · rintro ⟨a', ha, h⟩; cases ha; exact ⟨by simp, fun a' ha' => by cases ha'; exact h⟩
  | error e =>
      simp only [Except.mapError, Io.result_ofExcept]
      constructor
      · rintro ⟨h, _⟩; exact (h (.py e) rfl).elim
      · rintro ⟨a, ha, _⟩; cases ha

theorem parsePlace_safe (digest : Digest) (nbytes : Nat) (place : Val) :
    Io.Safe IsChunkError (parsePlace env digest nbytes place) ↔ PlaceReadable env nbytes place := by
  have hrefused : ∀ α : Type, Io.Safe IsChunkError (if env.reprReturns place then
      .throw (.chunk (.place digest place)) else .throw (.py .valueError) : Io ReadErr α) ↔
      env.reprReturns place = true := by
    intro α
    cases env.reprReturns place <;> simp [IsChunkError]
  unfold parsePlace PlaceReadable
  simp only [safe_lift]
  constructor
  · rintro ⟨name, h0, offset, h1, n, h2, bad, hbad, hsafe⟩
    refine ⟨name, offset, n, h0, h1, h2, ?_⟩
    by_cases hn : n = nbytes
    · rw [if_neg (not_not.mpr hn)] at hbad
      cases name with
      | str s =>
          simp only [badName, Except.ok.injEq] at hbad
          cases bad with
          | true => exact .inr ⟨.inr ⟨s, rfl⟩, (hrefused _).mp hsafe⟩
          | false => refine .inl ⟨hn, s, rfl, ?_⟩; simpa using hbad
      | _ => simp [badName] at hbad
    · rw [if_pos hn, Except.ok.injEq] at hbad
      subst hbad
      exact .inr ⟨.inl hn, (hrefused _).mp hsafe⟩
  · rintro ⟨name, offset, n, h0, h1, h2, hcase⟩
    refine ⟨name, h0, offset, h1, n, h2, ?_⟩
    rcases hcase with ⟨hn, s, rfl, hs, hslash⟩ | ⟨hcase, hrepr⟩
    · exact ⟨false, by simp [hn, badName, hs, hslash], by simp⟩
    · by_cases hn : n = nbytes
      · obtain ⟨s, rfl⟩ : ∃ s, name = .str s := hcase.resolve_left (not_not.mpr hn)
        refine ⟨!s.endsWith packSuffix || s.contains 47, by rw [if_neg (not_not.mpr hn)]; rfl, ?_⟩
        cases !s.endsWith packSuffix || s.contains 47 with
        | true => exact (hrefused _).mpr hrepr
        | false => simp
      · exact ⟨true, by rw [if_pos hn], (hrefused _).mpr hrepr⟩

/-! ## The first loop -/

theorem allocUnless_safe {mapped : Bool} {n bound : Nat} (h : n ≤ bound) :
    Io.Safe IsChunkError (allocUnless mapped n bound) := by
  cases mapped with
  | true => exact Io.safe_pure ()
  | false => exact (Io.safe_alloc n bound).mpr h

theorem readChunk_safe (digest : Digest) (nbytes : Nat) (crc : Bytes) :
    Io.Safe IsChunkError (readChunk env dir digest nbytes crc) := by
  unfold readChunk
  dsimp only
  split
  · simp [IsChunkError]
  · rename_i file _
    split
    · simp [IsChunkError]
    · rename_i hsize
      rw [Io.safe_bind]
      refine ⟨allocUnless_safe (by omega), fun _ _ => ?_⟩
      split
      · simp [IsChunkError]
      · simp

theorem readChunk_ok {digest : Digest} {nbytes : Nat} {crc : Bytes} :
    (∃ data, (readChunk env dir digest nbytes crc).result = .ok data) ↔
      ∃ data, dir (chunkName digest) = some data ∧ data.length = nbytes + trailer ∧ crcOf (data.take nbytes) = crc := by
  cases hdir : dir (chunkName digest) with
  | none => simp [readChunk, hdir]
  | some file =>
      by_cases hsize : file.length = nbytes + trailer
      · have halloc : ∀ mapped, (allocUnless mapped nbytes file.length).result = .ok () := by
          intro mapped
          cases mapped <;> rfl
        simp only [readChunk, hdir, hsize, ne_eq, not_true_eq_false, if_false]
        rw [hsize] at halloc
        rw [Io.result_bind_ok (halloc _)]
        by_cases hcrc : crcOf (file.take nbytes) = crc
        · simp [hcrc, hsize]
        · simp [hcrc]
      · simp [readChunk, hdir, hsize]

theorem sortWanted_safe (byFile : List (Str × List Member)) (out : List (Nat × Bytes)) (ws : List Wanted) :
    Io.Safe IsChunkError (sortWanted env dir places byFile out ws) ↔ Io.UpTo (ChunkUsable env dir places)
      (fun w => ∀ place, placeOf places w.digest = some place → PlaceReadable env w.nbytes place) ws := by
  induction ws generalizing byFile out with
  | nil => simp [sortWanted]
  | cons w rest ih =>
      rw [Io.upTo_cons]
      unfold sortWanted
      cases hp : placeOf places w.digest with
      | none =>
          have husable : ChunkUsable env dir places w ↔
              ∃ data, (readChunk env dir w.digest w.nbytes w.crc).result = .ok data := by
            rw [readChunk_ok]
            simp only [ChunkUsable, hp]
          rw [husable]
          simp only [Io.safe_bind, readChunk_safe, ih, true_and]
          simp
      | some place =>
          simp only [Io.safe_bind, parsePlace_safe, ih, ChunkUsable, hp]
          simp

/-- What the first loop leaves when it returns: every chunk was usable. -/
theorem sortWanted_ok {byFile : List (Str × List Member)} {out : List (Nat × Bytes)} {ws : List Wanted}
    {found : List (Str × List Member) × List (Nat × Bytes)}
    (h : (sortWanted env dir places byFile out ws).result = .ok found) :
    (∀ w ∈ ws, ChunkUsable env dir places w) ∧ found.1 = byPack env places byFile ws := by
  induction ws generalizing byFile out with
  | nil =>
      simp only [sortWanted, Io.result_pure, Except.ok.injEq] at h
      subst h
      exact ⟨by simp, rfl⟩
  | cons w rest ih =>
      unfold sortWanted at h
      cases hp : placeOf places w.digest with
      | none =>
          simp only [hp, Io.result_bind_eq_ok] at h
          obtain ⟨data, hdata, h⟩ := h
          obtain ⟨hall, heq⟩ := ih h
          refine ⟨fun w' hw' => ?_, by rw [heq, byPack, hp]⟩
          rcases List.mem_cons.mp hw' with rfl | hw'
          · simp only [ChunkUsable, hp]
            exact readChunk_ok.mp ⟨data, hdata⟩
          · exact hall w' hw'
      | some place =>
          simp only [hp, Io.result_bind_eq_ok] at h
          obtain ⟨⟨name, offset⟩, hplace, h⟩ := h
          obtain ⟨hall, heq⟩ := ih h
          refine ⟨fun w' hw' => ?_, by rw [heq, byPack, hp]; simp only [hplace]⟩
          rcases List.mem_cons.mp hw' with rfl | hw'
          · simp only [ChunkUsable, hp]
            exact ⟨_, hplace⟩
          · exact hall w' hw'

/-- Where every chunk is usable the first loop returns. -/
theorem sortWanted_returns {byFile : List (Str × List Member)} {out : List (Nat × Bytes)} {ws : List Wanted}
    (h : ∀ w ∈ ws, ChunkUsable env dir places w) :
    ∃ found, (sortWanted env dir places byFile out ws).result = .ok found := by
  induction ws generalizing byFile out with
  | nil => exact ⟨_, rfl⟩
  | cons w rest ih =>
      have hw := h w (by simp)
      have hrest : ∀ w ∈ rest, ChunkUsable env dir places w := fun w hw => h w (by simp [hw])
      unfold sortWanted
      cases hp : placeOf places w.digest with
      | none =>
          simp only [ChunkUsable, hp] at hw
          obtain ⟨data, hdata⟩ : ∃ data, (readChunk env dir w.digest w.nbytes w.crc).result = .ok data :=
            readChunk_ok.mpr hw
          simp only [Io.result_bind_ok hdata]
          exact ih hrest
      | some place =>
          simp only [ChunkUsable, hp] at hw
          obtain ⟨⟨name, offset⟩, hplace⟩ := hw
          simp only [Io.result_bind_ok hplace]
          exact ih hrest

/-! ## The packs -/

theorem checkMembers_safe (name : Str) (size : Nat) (ms : List Member) :
    Io.Safe IsChunkError (checkMembers env name size ms) ↔ Io.UpTo (fun m => ¬Misplaced size m)
      (fun m => Misplaced size m → env.reprReturns (.int m.offset) = true) ms := by
  induction ms with
  | nil => simp [checkMembers]
  | cons m rest ih =>
      rw [Io.upTo_cons]
      unfold checkMembers
      by_cases hm : Misplaced size m
      · have hm' := hm
        unfold Misplaced at hm'
        rw [if_pos hm']
        cases hr : env.reprReturns (.int m.offset) <;> simp [IsChunkError, hm]
      · have hm' := hm
        unfold Misplaced at hm'
        rw [if_neg hm', ih]
        simp [hm]

theorem checkMembers_ok {name : Str} {size : Nat} {ms : List Member}
    (h : (checkMembers env name size ms).result = .ok ()) : ∀ m ∈ ms, ¬Misplaced size m := by
  induction ms with
  | nil => simp
  | cons m rest ih =>
      unfold checkMembers at h
      split at h
      · split at h <;> cases h
      · rename_i hm
        intro m' hm'
        rcases List.mem_cons.mp hm' with rfl | hm'
        · exact hm
        · exact ih h m' hm'

theorem readMembers_safe {file : Bytes} {name : Str} {mapped : Bool} {first ms : List Member}
    {out : List (Nat × Bytes)} (hms : ∀ m ∈ ms, ¬Misplaced file.length m)
    (hout : ∀ p ∈ out, p.2.length ≤ file.length) :
    Io.Safe IsChunkError (readMembers file name mapped first out ms) := by
  induction ms generalizing first out with
  | nil => exact Io.safe_pure _
  | cons m rest ih =>
      have hrest : ∀ m ∈ rest, ¬Misplaced file.length m := fun m hm => hms m (by simp [hm])
      have hm := hms m (by simp)
      have happend : ∀ data : Bytes, data.length ≤ file.length →
          ∀ p ∈ out ++ [(m.index, data)], p.2.length ≤ file.length := by
        intro data hdata p hp
        rcases List.mem_append.mp hp with hp | hp
        · exact hout p hp
        · rw [List.mem_singleton.mp hp]; exact hdata
      unfold readMembers
      split
      · rename_i f _
        split
        · simp [IsChunkError]
        · have hdata : (((out.find? fun p => p.1 = f.index).map (·.2)).getD []).length ≤ file.length := by
            cases hfind : out.find? (fun p => p.1 = f.index) with
            | none => simp
            | some p => exact hout p (List.mem_of_find?_eq_some hfind)
          rw [Io.safe_bind, Io.safe_alloc]
          exact ⟨hdata, fun _ _ => ih hrest (happend _ hdata)⟩
      · rw [Io.safe_bind]
        refine ⟨allocUnless_safe ?_, fun _ _ => ?_⟩
        · simp only [Misplaced, not_or] at hm
          omega
        · dsimp only
          split
          · simp [IsChunkError]
          · refine ih hrest (happend _ ?_)
            rw [length_slice]
            omega

theorem readPack_safe (name : Str) (ms : List Member) :
    Io.Safe IsChunkError (readPack env dir name ms) ↔ PackReadable env dir (name, ms) := by
  unfold readPack PackReadable
  cases henc : env.encodes name with
  | false => simp [IsChunkError]
  | true =>
      simp only [Bool.true_eq_false, if_false, true_and]
      cases hdir : dir name with
      | none => simp [IsChunkError]
      | some file =>
          simp only [Io.safe_bind, checkMembers_safe, Option.some.injEq, forall_eq']
          constructor
          · exact fun h => h.1
          · exact fun h => ⟨h, fun _ hok => readMembers_safe (checkMembers_ok hok) (by simp)⟩

theorem readPacks_safe (out : List (Nat × Bytes)) (byFile : List (Str × List Member)) :
    Io.Safe IsChunkError (readPacks env dir out byFile) ↔
      Io.UpTo (PackUsable env dir) (PackReadable env dir) byFile := by
  induction byFile generalizing out with
  | nil => simp [readPacks]
  | cons g rest ih =>
      rw [Io.upTo_cons]
      unfold readPacks
      simp only [Io.safe_bind, readPack_safe, ih, PackUsable]
      simp

/-- `read_chunks` raises nothing but a `ChunkError`, and allocates within the files, exactly when its chunks
can be looked at. -/
theorem readChunks_safe (ws : List Wanted) :
    Io.Safe IsChunkError (readChunks env dir ws places) ↔ ChunksReadable env dir places ws := by
  unfold readChunks ChunksReadable
  rw [Io.safe_bind, sortWanted_safe]
  refine and_congr Iff.rfl ⟨fun h hall => ?_, fun h found hfound => ?_⟩
  · obtain ⟨found, hfound⟩ := sortWanted_returns hall
    have hpacks := h found hfound
    rw [← (sortWanted_ok hfound).2]
    exact (readPacks_safe _ _).mp hpacks
  · obtain ⟨hall, heq⟩ := sortWanted_ok hfound
    have hpacks := h hall
    rw [← heq] at hpacks
    exact (readPacks_safe _ _).mpr hpacks

/-! ## A chunk found damaged -/

/-- The bytes where the member says its chunk is match its crc32. -/
def Matches (file : Bytes) (m : Member) : Prop := crcOf (slice file m.offset.toNat m.nbytes) = m.crc

/-- The members at the offset of `m` are the same chunk. -/
def Agrees (ms : List Member) (m : Member) : Prop :=
  ∀ x ∈ ms, x.offset = m.offset → x.nbytes = m.nbytes ∧ x.crc = m.crc

/-- After the members `first`, the first of `ms` that does not match its crc32 is at `offset`, and no two before it
place different chunks at one offset. -/
def FirstDamaged (file : Bytes) (first ms : List Member) (offset : Nat) : Prop :=
  ∃ before m after, ms = before ++ m :: after ∧ (∀ x ∈ before, Matches file x ∧ Agrees (first ++ before) x) ∧
    (∀ x ∈ first ++ before, x.offset ≠ m.offset) ∧ ¬Matches file m ∧ offset = m.offset.toNat

/-- A pack whose members lie within its file, with the first damaged one at `offset`. -/
def PackDamaged (env : Env) (dir : ChunkDir) (g : Str × List Member) (offset : Nat) : Prop :=
  env.encodes g.1 = true ∧ ∃ file, dir g.1 = some file ∧ (∀ m ∈ g.2, ¬Misplaced file.length m) ∧
    FirstDamaged file [] g.2 offset

/-- All chunks are usable, and the first pack that is not is damaged at `offset`. -/
def ChunkDamaged (env : Env) (dir : ChunkDir) (places : Option Items) (ws : List Wanted) (pack : Str) (offset : Nat) :
    Prop :=
  (∀ w ∈ ws, ChunkUsable env dir places w) ∧ ∃ before ms after, byPack env places [] ws = before ++ (pack, ms) :: after ∧
    (∀ g ∈ before, PackUsable env dir g) ∧ PackDamaged env dir (pack, ms) offset

section Members

variable {file : Bytes} {first rest : List Member} {m f : Member} {offset : Nat}

theorem not_firstDamaged_nil : ¬FirstDamaged file first [] offset := by
  rintro ⟨before, m, after, hms, _⟩
  cases before <;> cases hms

/-- A member that places another chunk where one was read: the read ends there. -/
theorem not_firstDamaged_differs (hf : f ∈ first) (hoff : f.offset = m.offset)
    (hdiff : f.nbytes ≠ m.nbytes ∨ f.crc ≠ m.crc) : ¬FirstDamaged file first (m :: rest) offset := by
  rintro ⟨before, d, after, hms, hbefore, hnew, _⟩
  cases before with
  | nil =>
      cases hms
      exact hnew f (by simp [hf]) hoff
  | cons x before =>
      cases hms
      obtain ⟨hn, hc⟩ := (hbefore m (by simp)).2 f (by simp [hf]) hoff
      exact hdiff.elim (fun h => h hn) fun h => h hc

/-- The same chunk again changes nothing. -/
theorem firstDamaged_cons_again (hfirst : ∀ f ∈ first, Matches file f ∧ Agrees first f) (hf : f ∈ first)
    (hoff : f.offset = m.offset) (hn : f.nbytes = m.nbytes) (hc : f.crc = m.crc) :
    FirstDamaged file first (m :: rest) offset ↔ FirstDamaged file first rest offset := by
  have hmatch : Matches file m := by
    have hmf := (hfirst f hf).1
    unfold Matches at hmf ⊢
    rwa [← hoff, ← hn, ← hc]
  constructor
  · rintro ⟨before, d, after, hms, hbefore, hnew, hd⟩
    cases before with
    | nil =>
        cases hms
        exact absurd hoff (hnew f (by simp [hf]))
    | cons x before =>
        cases hms
        refine ⟨before, d, after, rfl, fun x hx => ⟨(hbefore x (by simp [hx])).1, fun y hy => ?_⟩,
          fun x hx => hnew x ?_, hd⟩
        · refine (hbefore x (by simp [hx])).2 y ?_
          rcases List.mem_append.mp hy with hy | hy
          · simp [hy]
          · simp [hy]
        · rcases List.mem_append.mp hx with hx | hx
          · simp [hx]
          · simp [hx]
  · rintro ⟨before, d, after, rfl, hbefore, hnew, hd⟩
    refine ⟨m :: before, d, after, rfl, fun x hx => ?_, fun x hx => ?_, hd⟩
    · -- What agrees with `f` agrees with `m`.
      have hmid : ∀ x, Agrees (first ++ before) x → Agrees (first ++ m :: before) x := by
        intro x hx y hy hxy
        rcases List.mem_append.mp hy with hy | hy
        · exact hx y (by simp [hy]) hxy
        · rcases List.mem_cons.mp hy with hym | hy
          · rw [hym, ← hn, ← hc]
            exact hx f (by simp [hf]) (hoff.trans (hym ▸ hxy))
          · exact hx y (by simp [hy]) hxy
      rcases List.mem_cons.mp hx with rfl | hx
      · refine ⟨hmatch, hmid x fun y hy hyx => ?_⟩
        rcases List.mem_append.mp hy with hy | hy
        · obtain ⟨hn', hc'⟩ := (hfirst f hf).2 y hy (hyx.trans hoff.symm)
          exact ⟨hn'.trans hn, hc'.trans hc⟩
        · obtain ⟨hn', hc'⟩ := (hbefore y hy).2 f (by simp [hf]) (hoff.trans hyx.symm)
          exact ⟨hn'.symm.trans hn, hc'.symm.trans hc⟩
      · exact ⟨(hbefore x hx).1, hmid x (hbefore x hx).2⟩
    · rcases List.mem_append.mp hx with hx | hx
      · exact hnew x (by simp [hx])
      · rcases List.mem_cons.mp hx with rfl | hx
        · rw [← hoff]
          exact hnew f (by simp [hf])
        · exact hnew x (by simp [hx])

theorem firstDamaged_cons_bad (hnew : ∀ f ∈ first, f.offset ≠ m.offset) (hm : ¬Matches file m) :
    FirstDamaged file first (m :: rest) offset ↔ offset = m.offset.toNat := by
  constructor
  · rintro ⟨before, d, after, hms, hbefore, _, _, hoff⟩
    cases before with
    | nil =>
        cases hms
        exact hoff
    | cons x before =>
        cases hms
        exact absurd (hbefore m (by simp)).1 hm
  · rintro rfl
    exact ⟨[], m, rest, rfl, by simp, by simpa using hnew, hm, rfl⟩

theorem firstDamaged_cons_good (hnew : ∀ f ∈ first, f.offset ≠ m.offset) (hm : Matches file m) :
    FirstDamaged file first (m :: rest) offset ↔ FirstDamaged file (first ++ [m]) rest offset := by
  constructor
  · rintro ⟨before, d, after, hms, hbefore, hd⟩
    cases before with
    | nil =>
        cases hms
        exact absurd hm hd.2.1
    | cons x before =>
        cases hms
        refine ⟨before, d, after, rfl, fun x hx => ?_, ?_⟩
        · rw [List.append_assoc]
          exact hbefore x (by simp [hx])
        · rw [List.append_assoc]
          exact hd
  · rintro ⟨before, d, after, rfl, hbefore, hd⟩
    rw [List.append_assoc] at hbefore hd
    refine ⟨m :: before, d, after, rfl, fun x hx => ?_, hd⟩
    rcases List.mem_cons.mp hx with rfl | hx
    · refine ⟨hm, fun y hy hyx => ?_⟩
      rcases List.mem_append.mp hy with hy | hy
      · exact absurd hyx (hnew y hy)
      · rcases List.mem_cons.mp hy with rfl | hy
        · exact ⟨rfl, rfl⟩
        · obtain ⟨hn, hc⟩ := (hbefore y hy).2 x (by simp) hyx.symm
          exact ⟨hn.symm, hc.symm⟩
    · exact hbefore x hx

end Members

/-- A pack's loop finds its first damaged member. -/
theorem readMembers_damaged {file : Bytes} {name pack : Str} {mapped : Bool} {first ms : List Member}
    {out : List (Nat × Bytes)} {offset : Nat} (hfirst : ∀ f ∈ first, Matches file f ∧ Agrees first f) :
    (readMembers file name mapped first out ms).result = .error (.chunk (.damaged pack offset)) ↔
      pack = name ∧ FirstDamaged file first ms offset := by
  induction ms generalizing first out with
  | nil => simp [readMembers, not_firstDamaged_nil]
  | cons m rest ih =>
      unfold readMembers
      cases hfind : first.find? (fun f => f.offset = m.offset) with
      | some f =>
          have hf := List.mem_of_find?_eq_some hfind
          have hoff : f.offset = m.offset := by simpa using List.find?_some hfind
          by_cases hdiff : f.nbytes ≠ m.nbytes ∨ f.crc ≠ m.crc
          · simp only [if_pos hdiff, Io.result_throw, not_firstDamaged_differs hf hoff hdiff, and_false, iff_false]
            simp
          · rw [not_or, not_not, not_not] at hdiff
            rw [firstDamaged_cons_again hfirst hf hoff hdiff.1 hdiff.2]
            simp only [hdiff.1, hdiff.2, ne_eq, not_true_eq_false, or_self, if_false]
            rw [Io.result_bind_ok (Io.result_alloc _ _)]
            exact ih hfirst
      | none =>
          have hnew : ∀ f ∈ first, f.offset ≠ m.offset := by simpa using List.find?_eq_none.mp hfind
          have halloc : (allocUnless mapped m.nbytes file.length).result = .ok () := by cases mapped <;> rfl
          simp only [Io.result_bind_ok halloc]
          by_cases hm : Matches file m
          · have hcrc : crcOf (slice file m.offset.toNat m.nbytes) = m.crc := hm
            rw [if_neg (not_not.mpr hcrc), firstDamaged_cons_good hnew hm]
            refine ih fun f hf => ?_
            rcases List.mem_append.mp hf with hf | hf
            · refine ⟨(hfirst f hf).1, fun x hx hxf => ?_⟩
              rcases List.mem_append.mp hx with hx | hx
              · exact (hfirst f hf).2 x hx hxf
              · rw [List.mem_singleton.mp hx] at hxf
                exact absurd hxf.symm (hnew f hf)
            · rw [List.mem_singleton.mp hf]
              refine ⟨hm, fun x hx hxm => ?_⟩
              rcases List.mem_append.mp hx with hx | hx
              · exact absurd hxm (hnew x hx)
              · rw [List.mem_singleton.mp hx]
                exact ⟨rfl, rfl⟩
          · have hcrc : crcOf (slice file m.offset.toNat m.nbytes) ≠ m.crc := hm
            rw [if_pos hcrc, firstDamaged_cons_bad hnew hm]
            simp only [Io.result_throw, Except.error.injEq, ReadErr.chunk.injEq, ChunkError.damaged.injEq]
            constructor
            · rintro ⟨rfl, rfl⟩; exact ⟨rfl, rfl⟩
            · rintro ⟨rfl, rfl⟩; exact ⟨rfl, rfl⟩

theorem checkMembers_of {name : Str} {size : Nat} {ms : List Member} (h : ∀ m ∈ ms, ¬Misplaced size m) :
    (checkMembers env name size ms).result = .ok () := by
  induction ms with
  | nil => rfl
  | cons m rest ih =>
      have hm := h m (by simp)
      unfold Misplaced at hm
      rw [checkMembers, if_neg hm]
      exact ih fun m hm => h m (by simp [hm])

theorem checkMembers_ne_damaged {name pack : Str} {size offset : Nat} {ms : List Member} :
    (checkMembers env name size ms).result ≠ .error (.chunk (.damaged pack offset)) := by
  induction ms with
  | nil => simp [checkMembers]
  | cons m rest ih =>
      unfold checkMembers
      split
      · split <;> simp
      · exact ih

theorem readPack_damaged {name pack : Str} {ms : List Member} {offset : Nat} :
    (readPack env dir name ms).result = .error (.chunk (.damaged pack offset)) ↔
      pack = name ∧ PackDamaged env dir (name, ms) offset := by
  unfold readPack PackDamaged
  cases henc : env.encodes name with
  | false => simp
  | true =>
      cases hdir : dir name with
      | none => simp
      | some file =>
          simp only [Bool.true_eq_false, if_false, Io.result_bind_eq_error, checkMembers_ne_damaged, false_or,
            readMembers_damaged (List.forall_mem_nil _), true_and, Option.some.injEq, exists_eq_left']
          constructor
          · rintro ⟨_, hok, rfl, hd⟩; exact ⟨rfl, checkMembers_ok hok, hd⟩
          · rintro ⟨rfl, hms, hd⟩; exact ⟨(), checkMembers_of hms, rfl, hd⟩

theorem readPacks_damaged {out : List (Nat × Bytes)} {gs : List (Str × List Member)} {pack : Str} {offset : Nat} :
    (readPacks env dir out gs).result = .error (.chunk (.damaged pack offset)) ↔
      ∃ before ms after, gs = before ++ (pack, ms) :: after ∧ (∀ g ∈ before, PackUsable env dir g) ∧
        PackDamaged env dir (pack, ms) offset := by
  induction gs generalizing out with
  | nil => simp [readPacks]
  | cons g rest ih =>
      obtain ⟨name, members⟩ := g
      simp only [readPacks, Io.result_bind_eq_error, readPack_damaged, ih]
      constructor
      · rintro (⟨rfl, hd⟩ | ⟨found, hfound, before, ms, after, rfl, hbefore, hd⟩)
        · exact ⟨[], members, rest, rfl, by simp, hd⟩
        · refine ⟨(name, members) :: before, ms, after, rfl, fun g hg => ?_, hd⟩
          rcases List.mem_cons.mp hg with rfl | hg
          · exact ⟨found, hfound⟩
          · exact hbefore g hg
      · rintro ⟨before, ms, after, hgs, hbefore, hd⟩
        cases before with
        | nil =>
            cases hgs
            exact .inl ⟨rfl, hd⟩
        | cons g before =>
            cases hgs
            obtain ⟨found, hfound⟩ := hbefore (name, members) (by simp)
            exact .inr ⟨found, hfound, before, ms, after, rfl, fun g hg => hbefore g (by simp [hg]), hd⟩

theorem parsePlace_ne_damaged {digest : Digest} {nbytes : Nat} {place : Val} {pack : Str} {offset : Nat} :
    (parsePlace env digest nbytes place).result ≠ .error (.chunk (.damaged pack offset)) := by
  have hpy : ∀ {α : Type} (r : Except Err α), r.mapError ReadErr.py ≠ .error (.chunk (.damaged pack offset)) := by
    intro α r
    cases r <;> simp [Except.mapError]
  simp only [parsePlace, ne_eq, Io.result_bind_eq_error, Io.result_ofExcept, hpy, false_or, not_exists, not_and]
  intro name _ offset _ n _ bad _
  split
  · split <;> simp
  · split <;> simp

theorem readChunk_ne_damaged {digest : Digest} {nbytes : Nat} {crc : Bytes} {pack : Str} {offset : Nat} :
    (readChunk env dir digest nbytes crc).result ≠ .error (.chunk (.damaged pack offset)) := by
  unfold readChunk
  dsimp only
  split
  · simp
  · rename_i file _
    split
    · simp
    · generalize (env.canMap && decide (mapMinBytes ≤ nbytes) && env.mapsChunk (chunkName digest)) = mapped
      have halloc : (allocUnless mapped nbytes file.length).result = .ok () := by cases mapped <;> rfl
      rw [Io.result_bind_ok halloc]
      split <;> simp

theorem sortWanted_ne_damaged {byFile : List (Str × List Member)} {out : List (Nat × Bytes)} {ws : List Wanted}
    {pack : Str} {offset : Nat} :
    (sortWanted env dir places byFile out ws).result ≠ .error (.chunk (.damaged pack offset)) := by
  induction ws generalizing byFile out with
  | nil => simp [sortWanted]
  | cons w rest ih =>
      unfold sortWanted
      split
      · simp only [ne_eq, Io.result_bind_eq_error, readChunk_ne_damaged, false_or, not_exists, not_and]
        exact fun _ _ => ih
      · simp only [ne_eq, Io.result_bind_eq_error, parsePlace_ne_damaged, false_or, not_exists, not_and]
        exact fun _ _ => ih

/-- `read_chunks` raises `DamagedChunk` exactly where a pack is the first to be found damaged. -/
theorem readChunks_damaged {ws : List Wanted} {pack : Str} {offset : Nat} :
    (readChunks env dir ws places).result = .error (.chunk (.damaged pack offset)) ↔
      ChunkDamaged env dir places ws pack offset := by
  unfold readChunks ChunkDamaged
  rw [Io.result_bind_eq_error]
  simp only [sortWanted_ne_damaged, false_or, readPacks_damaged]
  constructor
  · rintro ⟨found, hfound, hd⟩
    obtain ⟨hall, heq⟩ := sortWanted_ok hfound
    exact ⟨hall, heq ▸ hd⟩
  · rintro ⟨hall, hd⟩
    obtain ⟨found, hfound⟩ := sortWanted_returns hall
    exact ⟨found, hfound, (sortWanted_ok hfound).2 ▸ hd⟩

end Cash.Chunks
