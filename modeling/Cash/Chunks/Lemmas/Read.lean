import Cash.Chunks.Read

/-!
# Reads of chunks
-/

namespace Cash.Chunks

open Bytes Py

/-!
## Where the chunks of a pack are

The bytes at a chunk's offset are the chunk, the offset is a multiple of 64, and no two chunks of a pack
have one offset: each is followed by its crc32.
-/

@[simp] theorem length_crcOf (data : Bytes) : (crcOf data).length = 4 := length_crcBytes _

/-- What the offset of a chunk says. -/
structure At (file : Bytes) (offset : Nat) (view : Bytes) : Prop where
  aligned : offset % packAlign = 0
  bytes : slice file offset view.length = view
  fits : offset + view.length + trailer ≤ file.length

/-- The chunk of index `k`, at its offset. -/
theorem packOffsets_at {pre : Bytes} {views : List Bytes} {k offset : Nat} {view : Bytes}
    (hv : views[k]? = some view) (ho : (packOffsets pre.length (views.map List.length))[k]? = some offset) :
    At (pre ++ packBytes pre.length views) offset view ∧ pre.length ≤ offset := by
  induction views generalizing pre k with
  | nil => simp at hv
  | cons v rest ih =>
      have hpre : (pre ++ (zeros (aligned pre.length) ++ v ++ crcOf v)).length =
          pre.length + aligned pre.length + v.length + trailer := by
        simp [trailer]
        omega
      have hfile : pre ++ packBytes pre.length (v :: rest) = pre ++ (zeros (aligned pre.length) ++ v ++ crcOf v) ++
          packBytes (pre.length + aligned pre.length + v.length + trailer) rest := by
        simp [packBytes]
      cases k with
      | zero =>
          simp only [List.getElem?_cons_zero, Option.some.injEq] at hv
          simp only [List.map_cons, packOffsets, List.getElem?_cons_zero, Option.some.injEq] at ho
          subst hv ho
          refine ⟨⟨add_padding_mod (by decide) _, ?_, ?_⟩, by omega⟩
          · refine slice_of_eq (a := pre ++ zeros (aligned pre.length)) (c := crcOf v ++
              packBytes (pre.length + aligned pre.length + v.length + trailer) rest) ?_ (by simp) rfl
            simp [packBytes]
          · rw [hfile, List.length_append, hpre]
            omega
      | succ k =>
          simp only [List.getElem?_cons_succ] at hv
          simp only [List.map_cons, packOffsets, List.getElem?_cons_succ] at ho
          rw [← hpre] at ho
          obtain ⟨hat, hle⟩ := ih hv ho
          rw [hfile, ← hpre]
          refine ⟨hat, Nat.le_trans ?_ hle⟩
          rw [hpre]
          omega

/-- The offsets of the chunks after the first are past it. -/
theorem lt_packOffsets {offset n o : Nat} {lengths : List Nat} {k : Nat}
    (h : (packOffsets (offset + aligned offset + n + trailer) lengths)[k]? = some o) : offset + aligned offset < o := by
  induction lengths generalizing offset n k with
  | nil => simp [packOffsets] at h
  | cons m rest ih =>
      cases k with
      | zero =>
          simp only [packOffsets, List.getElem?_cons_zero, Option.some.injEq] at h
          subst h
          simp only [trailer]
          omega
      | succ k =>
          simp only [packOffsets, List.getElem?_cons_succ] at h
          have := ih h
          simp only [trailer] at this
          omega

/-- One offset, one chunk. -/
theorem packOffsets_inj {offset o : Nat} {lengths : List Nat} {j k : Nat}
    (hj : (packOffsets offset lengths)[j]? = some o) (hk : (packOffsets offset lengths)[k]? = some o) : j = k := by
  induction lengths generalizing offset j k with
  | nil => simp [packOffsets] at hj
  | cons n rest ih =>
      cases j with
      | zero =>
          cases k with
          | zero => rfl
          | succ k =>
              simp only [packOffsets, List.getElem?_cons_zero, List.getElem?_cons_succ, Option.some.injEq] at hj hk
              have := lt_packOffsets hk
              omega
      | succ j =>
          cases k with
          | zero =>
              simp only [packOffsets, List.getElem?_cons_zero, List.getElem?_cons_succ, Option.some.injEq] at hj hk
              have := lt_packOffsets hj
              omega
          | succ k =>
              simp only [packOffsets, List.getElem?_cons_succ] at hj hk
              rw [ih hj hk]

/-!
## A read of a pack is right

A chunk read from where it is in a pack is that chunk; the only other outcome is a `ChunkError`, whatever
checksums the reader was told.
-/

section

variable {env : Env} {D : Nat → Bytes} {name : Str} {bufs : List Bytes}

theorem allocUnless_result (mapped : Bool) (n bound : Nat) : (allocUnless mapped n bound).result = .ok () := by
  cases mapped <;> rfl

/-- The member is where the chunk of its index is in the pack of these buffers. -/
structure Placed (bufs : List Bytes) (D : Nat → Bytes) (m : Member) : Prop where
  chunk : ∃ (k offset : Nat), bufs[k]? = some (D m.index) ∧ (packOffsets 0 (bufs.map List.length))[k]? = some offset ∧
    m.offset = (offset : Int)
  nbytes : m.nbytes = (D m.index).length

theorem Placed.at {m : Member} (h : Placed bufs D m) :
    ∃ offset : Nat, m.offset = (offset : Int) ∧ At (packBytes 0 bufs) offset (D m.index) := by
  obtain ⟨k, offset, hb, ho, hm⟩ := h.chunk
  exact ⟨offset, hm, (@packOffsets_at [] _ k offset _ hb ho).1⟩

theorem Placed.eq_of_offset {m m' : Member} (h : Placed bufs D m) (h' : Placed bufs D m')
    (ho : m.offset = m'.offset) : D m.index = D m'.index := by
  obtain ⟨k, o, hb, hk, hm⟩ := h.chunk
  obtain ⟨k', o', hb', hk', hm'⟩ := h'.chunk
  have hoo : o = o' := by
    rw [hm, hm'] at ho
    exact Int.ofNat_inj.mp ho
  rw [← hoo] at hk'
  rw [packOffsets_inj hk hk', hb'] at hb
  exact (Option.some.inj hb).symm

theorem checkMembers_placed {ms : List Member} (h : ∀ m ∈ ms, Placed bufs D m) :
    (checkMembers env name (packBytes 0 bufs).length ms).result = .ok () := by
  induction ms with
  | nil => rfl
  | cons m rest ih =>
      obtain ⟨o, hm, hat⟩ := (h m (by simp)).at
      have hn := (h m (by simp)).nbytes
      have hal := hat.aligned
      have hfits := hat.fits
      have hok : ¬(m.offset < 0 ∨ m.offset % (packAlign : Int) ≠ 0 ∨
          ((packBytes 0 bufs).length : Int) < m.offset + m.nbytes + trailer) := by
        rw [hm, hn]
        omega
      unfold checkMembers
      rw [if_neg hok]
      exact ih fun m hm => h m (by simp [hm])

/-- Right, or a `ChunkError`. -/
def RightOr (found : List (Nat × Bytes)) (r : Except ReadErr (List (Nat × Bytes))) : Prop :=
  r = .ok found ∨ ∃ e, r = .error (.chunk e)

theorem readMembers_right {mapped : Bool} {first ms : List Member} {out : List (Nat × Bytes)}
    (h : ∀ m ∈ ms, Placed bufs D m) (hfirst : ∀ m ∈ first, Placed bufs D m ∧ ∃ p ∈ out, p.1 = m.index)
    (hout : ∀ p ∈ out, p.2 = D p.1) :
    RightOr (out ++ ms.map fun m => (m.index, D m.index)) (readMembers (packBytes 0 bufs) name mapped first out ms).result := by
  induction ms generalizing first out with
  | nil => exact .inl (by simp [readMembers])
  | cons m rest ih =>
      have hm := h m (by simp)
      have hrest : ∀ m ∈ rest, Placed bufs D m := fun m hm => h m (by simp [hm])
      have hout' : ∀ p ∈ out ++ [(m.index, D m.index)], p.2 = D p.1 := by
        intro p hp
        rcases List.mem_append.mp hp with hp | hp
        · exact hout p hp
        · rw [List.mem_singleton.mp hp]
      have hkeep : ∀ f ∈ first, Placed bufs D f ∧ ∃ p ∈ out ++ [(m.index, D m.index)], p.1 = f.index := by
        intro f hf
        obtain ⟨hfits, p, hp, heq⟩ := hfirst f hf
        exact ⟨hfits, p, by simp [hp], heq⟩
      have happend : out ++ (m :: rest).map (fun m => (m.index, D m.index)) =
          out ++ [(m.index, D m.index)] ++ rest.map fun m => (m.index, D m.index) := by simp
      unfold readMembers
      cases hfind : first.find? (fun f => f.offset = m.offset) with
      | some f =>
          have hf := List.mem_of_find?_eq_some hfind
          have hoff : f.offset = m.offset := by simpa using List.find?_some hfind
          obtain ⟨hffits, p, hp, hpidx⟩ := hfirst f hf
          have hD : D f.index = D m.index := hffits.eq_of_offset hm hoff
          have hdata : ((out.find? fun p => p.1 = f.index).map (·.2)).getD [] = D m.index := by
            cases hfind' : out.find? (fun p => p.1 = f.index) with
            | none =>
                have := List.find?_eq_none.mp hfind' p hp
                simp [hpidx] at this
            | some q =>
                have hq := List.mem_of_find?_eq_some hfind'
                have hqidx : q.1 = f.index := by simpa using List.find?_some hfind'
                simp [hout q hq, hqidx, hD]
          by_cases hsame : f.nbytes ≠ m.nbytes ∨ f.crc ≠ m.crc
          · simp only [hsame, if_true]
            exact .inr ⟨_, rfl⟩
          · simp only [hsame, if_false, hdata]
            rw [Io.result_bind_ok (Io.result_alloc ..), happend]
            exact ih hrest hkeep hout'
      | none =>
          obtain ⟨o, hmo, hat⟩ := hm.at
          have hdata : slice (packBytes 0 bufs) m.offset.toNat m.nbytes = D m.index := by
            rw [hmo, hm.nbytes]
            exact hat.bytes
          simp only [hdata]
          rw [Io.result_bind_ok (allocUnless_result ..)]
          by_cases hcrc : crcOf (D m.index) ≠ m.crc
          · rw [if_pos hcrc]
            exact .inr ⟨_, rfl⟩
          · rw [if_neg hcrc, happend]
            refine ih hrest ?_ hout'
            intro f hf
            rcases List.mem_append.mp hf with hf | hf
            · exact hkeep f hf
            · rw [List.mem_singleton.mp hf]
              exact ⟨hm, (m.index, D m.index), by simp, rfl⟩

/-- A read of a pack that is whole or gone. -/
theorem readPack_right {file : Option Bytes} {ms : List Member} (henc : env.encodes name = true)
    (hfile : ∀ data, file = some data → data = packBytes 0 bufs) (h : ∀ m ∈ ms, Placed bufs D m) :
    RightOr (ms.map fun m => (m.index, D m.index)) (readPack env (fun _ => file) name ms).result := by
  simp only [readPack, henc, Bool.true_eq_false, if_false]
  cases hf : file with
  | none => exact .inr ⟨_, rfl⟩
  | some data =>
      rw [hfile data hf]
      simp only
      rw [Io.result_bind_ok (checkMembers_placed h)]
      have hright := @readMembers_right D name bufs
        (env.canMap && decide (mapMinBytes ≤ (ms.map (·.nbytes)).sum) && env.mapsChunk name) [] ms [] h (by simp) (by simp)
      simpa using hright

end

/-!
## Chunks that are in the folder are found

`Holds`: the folder holds these bytes for a chunk an entry wants, in a file of its own or in a pack at the
place the entry records. When it does for every chunk wanted, `read_chunks` returns all of them.
-/

section

variable {env : Env} {dir : ChunkDir} {packs : Str → List Bytes} {places : Option Items}

/-- The chunk of index `k` of the pack `name`. -/
structure InPack (env : Env) (dir : ChunkDir) (packs : Str → List Bytes) (name : Str) (offset : Nat)
    (data : Bytes) : Prop where
  encodes : env.encodes name = true
  file : dir name = some (packBytes 0 (packs name))
  member : ∃ k : Nat, (packs name)[k]? = some data ∧ (packOffsets 0 ((packs name).map List.length))[k]? = some offset

/-- The folder holds `data` for the chunk wanted. -/
inductive Holds (env : Env) (dir : ChunkDir) (packs : Str → List Bytes) (places : Option Items) (w : Wanted)
    (data : Bytes) : Prop
  /-- In a file of its own. -/
  | file : placeOf places w.digest = none → dir (chunkName w.digest) = some (data ++ crcOf data) →
      Holds env dir packs places w data
  /-- In a pack, at the place the entry records. -/
  | pack {name : Str} {offset : Nat} {crc : Val} :
      placeOf places w.digest = some (.list [.str name, .int offset, .int data.length, crc]) →
      name.endsWith packSuffix = true → 47 ∉ name → InPack env dir packs name offset data →
      Holds env dir packs places w data

/-- A chunk wanted with its length and checksum. -/
structure Wants (w : Wanted) (data : Bytes) : Prop where
  nbytes : w.nbytes = data.length
  crc : w.crc = crcOf data

/-! ### One chunk -/

theorem readChunk_result {digest : Digest} {data : Bytes}
    (h : dir (chunkName digest) = some (data ++ crcOf data)) :
    (readChunk env dir digest data.length (crcOf data)).result = .ok data := by
  have hsize : ¬((data ++ crcOf data).length ≠ data.length + trailer) := by simp [trailer]
  simp only [readChunk, h]
  rw [if_neg hsize, Io.result_bind_ok (allocUnless_result ..)]
  simp

theorem parsePlace_result {digest : Digest} {name : Str} {offset : Int} {n : Nat} {crc : Val}
    (hs : name.endsWith packSuffix = true) (hslash : 47 ∉ name) :
    (parsePlace env digest n (.list [.str name, .int offset, .int n, crc])).result = .ok (name, offset) := by
  simp [parsePlace, Io.result_bind, Val.item, Val.toInt, badName, hs, hslash, Except.bind, Except.mapError]

/-! ### One pack -/

/-- A member of the pack `name` that is where it is said to be. -/
structure Fits (env : Env) (dir : ChunkDir) (packs : Str → List Bytes) (D : Nat → Bytes) (name : Str)
    (m : Member) : Prop where
  inPack : ∃ offset : Nat, m.offset = (offset : Int) ∧ InPack env dir packs name offset (D m.index)
  nbytes : m.nbytes = (D m.index).length
  crc : m.crc = crcOf (D m.index)

variable {D : Nat → Bytes} {name : Str}

theorem Fits.placed {m : Member} (h : Fits env dir packs D name m) : Placed (packs name) D m := by
  obtain ⟨offset, hm, hin⟩ := h.inPack
  obtain ⟨k, hb, ho⟩ := hin.member
  exact ⟨⟨k, offset, hb, ho, hm⟩, h.nbytes⟩

/-- The members of a pack, all found. -/
theorem readMembers_result {mapped : Bool} {first ms : List Member} {out : List (Nat × Bytes)}
    (h : ∀ m ∈ ms, Fits env dir packs D name m)
    (hfirst : ∀ m ∈ first, Fits env dir packs D name m ∧ ∃ p ∈ out, p.1 = m.index)
    (hout : ∀ p ∈ out, p.2 = D p.1) :
    (readMembers (packBytes 0 (packs name)) name mapped first out ms).result =
      .ok (out ++ ms.map fun m => (m.index, D m.index)) := by
  induction ms generalizing first out with
  | nil => simp [readMembers]
  | cons m rest ih =>
      have hm := h m (by simp)
      have hrest : ∀ m ∈ rest, Fits env dir packs D name m := fun m hm => h m (by simp [hm])
      have hout' : ∀ p ∈ out ++ [(m.index, D m.index)], p.2 = D p.1 := by
        intro p hp
        rcases List.mem_append.mp hp with hp | hp
        · exact hout p hp
        · rw [List.mem_singleton.mp hp]
      have hkeep : ∀ f ∈ first, Fits env dir packs D name f ∧ ∃ p ∈ out ++ [(m.index, D m.index)], p.1 = f.index := by
        intro f hf
        obtain ⟨hfits, p, hp, heq⟩ := hfirst f hf
        exact ⟨hfits, p, by simp [hp], heq⟩
      unfold readMembers
      cases hfind : first.find? (fun f => f.offset = m.offset) with
      | some f =>
          -- Read before at this offset: a copy.
          have hf := List.mem_of_find?_eq_some hfind
          have hoff : f.offset = m.offset := by simpa using List.find?_some hfind
          obtain ⟨hffits, p, hp, hpidx⟩ := hfirst f hf
          have hD : D f.index = D m.index := hffits.placed.eq_of_offset hm.placed hoff
          have hdata : ((out.find? fun p => p.1 = f.index).map (·.2)).getD [] = D m.index := by
            cases hfind' : out.find? (fun p => p.1 = f.index) with
            | none =>
                have := List.find?_eq_none.mp hfind' p hp
                simp [hpidx] at this
            | some q =>
                have hq := List.mem_of_find?_eq_some hfind'
                have hqidx : q.1 = f.index := by simpa using List.find?_some hfind'
                simp [hout q hq, hqidx, hD]
          have hsame : ¬(f.nbytes ≠ m.nbytes ∨ f.crc ≠ m.crc) := by
            rw [hffits.nbytes, hm.nbytes, hffits.crc, hm.crc, hD]
            simp
          simp only [hsame, if_false, hdata]
          rw [Io.result_bind_ok (Io.result_alloc ..), ih hrest hkeep hout']
          simp
      | none =>
          obtain ⟨o, hmo, hat⟩ := hm.placed.at
          have hdata : slice (packBytes 0 (packs name)) m.offset.toNat m.nbytes = D m.index := by
            rw [hmo, hm.nbytes]
            exact hat.bytes
          have hcrc : ¬(crcOf (D m.index) ≠ m.crc) := by rw [hm.crc]; simp
          simp only [hdata]
          rw [Io.result_bind_ok (allocUnless_result ..), if_neg hcrc, ih hrest ?_ hout']
          · simp
          · intro f hf
            rcases List.mem_append.mp hf with hf | hf
            · exact hkeep f hf
            · rw [List.mem_singleton.mp hf]
              exact ⟨hm, (m.index, D m.index), by simp, rfl⟩

theorem readPack_result {ms : List Member} (hne : ms ≠ []) (h : ∀ m ∈ ms, Fits env dir packs D name m) :
    (readPack env dir name ms).result = .ok (ms.map fun m => (m.index, D m.index)) := by
  obtain ⟨m, rest, rfl⟩ := List.exists_cons_of_ne_nil hne
  obtain ⟨_, _, hin⟩ := (h m (by simp)).inPack
  simp only [readPack, hin.encodes, hin.file, Bool.true_eq_false, if_false]
  rw [Io.result_bind_ok (checkMembers_placed fun m hm => (h m hm).placed), readMembers_result h (by simp) (by simp)]
  simp

/-! ### Many packs -/

/-- The chunks sorted by their pack: each group fits its pack. -/
def Sorted (env : Env) (dir : ChunkDir) (packs : Str → List Bytes) (D : Nat → Bytes)
    (byFile : List (Str × List Member)) : Prop :=
  ∀ g ∈ byFile, g.2 ≠ [] ∧ ∀ m ∈ g.2, Fits env dir packs D g.1 m

/-- The indices in the groups. -/
def groupIndices (byFile : List (Str × List Member)) : List Nat := byFile.flatMap fun g => g.2.map (·.index)

theorem addMember_sorted {byFile : List (Str × List Member)} {m : Member} (h : Sorted env dir packs D byFile)
    (hm : Fits env dir packs D name m) : Sorted env dir packs D (addMember name m byFile) := by
  induction byFile with
  | nil =>
      intro g hg
      simp only [addMember, List.mem_singleton] at hg
      subst hg
      exact ⟨by simp, fun m' hm' => by rw [List.mem_singleton.mp hm']; exact hm⟩
  | cons g rest ih =>
      obtain ⟨name', ms⟩ := g
      have hrest : Sorted env dir packs D rest := fun g hg => h g (by simp [hg])
      unfold addMember
      split
      · rename_i heq
        intro g hg
        rcases List.mem_cons.mp hg with rfl | hg
        · refine ⟨by simp, fun m' hm' => ?_⟩
          rcases List.mem_append.mp hm' with hm' | hm'
          · exact (h (name', ms) (by simp)).2 m' hm'
          · rw [List.mem_singleton.mp hm', heq]
            exact hm
        · exact hrest g hg
      · intro g hg
        rcases List.mem_cons.mp hg with rfl | hg
        · exact h _ (by simp)
        · exact ih hrest g hg

theorem mem_groupIndices_addMember {byFile : List (Str × List Member)} {m : Member} {i : Nat} :
    i ∈ groupIndices (addMember name m byFile) ↔ i = m.index ∨ i ∈ groupIndices byFile := by
  induction byFile with
  | nil => simp [addMember, groupIndices]
  | cons g rest ih =>
      obtain ⟨name', ms⟩ := g
      unfold addMember
      split
      · simp only [groupIndices, List.flatMap_cons, List.mem_append, List.map_append, List.map_cons, List.map_nil,
          List.mem_singleton]
        tauto
      · simp only [groupIndices, List.flatMap_cons, List.mem_append] at ih ⊢
        rw [ih]
        tauto

/-- The first loop: every chunk wanted is read, or sorted under its pack. -/
theorem sortWanted_result {ws : List Wanted} {byFile : List (Str × List Member)} {out : List (Nat × Bytes)}
    (hw : ∀ w ∈ ws, Wants w (D w.index)) (hh : ∀ w ∈ ws, Holds env dir packs places w (D w.index))
    (hsorted : Sorted env dir packs D byFile) (hout : ∀ p ∈ out, p.2 = D p.1) :
    ∃ byFile' out', (sortWanted env dir places byFile out ws).result = .ok (byFile', out') ∧
      Sorted env dir packs D byFile' ∧ (∀ p ∈ out', p.2 = D p.1) ∧
      ∀ i, (i ∈ groupIndices byFile' ∨ i ∈ out'.map (·.1)) ↔
        (i ∈ groupIndices byFile ∨ i ∈ out.map (·.1)) ∨ i ∈ ws.map (·.index) := by
  induction ws generalizing byFile out with
  | nil => exact ⟨byFile, out, rfl, hsorted, hout, by simp⟩
  | cons w rest ih =>
      have hw' : ∀ w ∈ rest, Wants w (D w.index) := fun w h => hw w (by simp [h])
      have hh' : ∀ w ∈ rest, Holds env dir packs places w (D w.index) := fun w h => hh w (by simp [h])
      obtain ⟨hn, hc⟩ := hw w (by simp)
      cases hh w (by simp) with
      | file hplace hfile =>
          have hout' : ∀ p ∈ out ++ [(w.index, D w.index)], p.2 = D p.1 := by
            intro p hp
            rcases List.mem_append.mp hp with hp | hp
            · exact hout p hp
            · rw [List.mem_singleton.mp hp]
          obtain ⟨byFile', out', hr, hs, ho, hi⟩ := ih hw' hh' hsorted hout'
          refine ⟨byFile', out', ?_, hs, ho, fun i => ?_⟩
          · simp only [sortWanted, hplace, hn, hc]
            rw [Io.result_bind_ok (readChunk_result hfile)]
            exact hr
          · rw [hi i]
            simp only [List.map_append, List.map_cons, List.map_nil, List.mem_append, List.mem_cons]
            tauto
      | pack hplace hs hslash hin =>
          rename_i name offset crc
          have hm : Fits env dir packs D name ⟨w.index, offset, w.nbytes, w.crc⟩ := ⟨⟨offset, rfl, hin⟩, hn, hc⟩
          obtain ⟨byFile', out', hr, hs', ho, hi⟩ := ih hw' hh' (addMember_sorted hsorted hm) hout
          refine ⟨byFile', out', ?_, hs', ho, fun i => ?_⟩
          · rw [← hn] at hplace
            simp only [sortWanted, hplace]
            rw [Io.result_bind_ok (parsePlace_result hs hslash)]
            exact hr
          · rw [hi i, mem_groupIndices_addMember]
            simp only [List.map_cons, List.mem_cons]
            tauto

/-- The second loop: every group is read. -/
theorem readPacks_result {byFile : List (Str × List Member)} {out : List (Nat × Bytes)}
    (hs : Sorted env dir packs D byFile) (hout : ∀ p ∈ out, p.2 = D p.1) :
    ∃ found, (readPacks env dir out byFile).result = .ok found ∧ (∀ p ∈ found, p.2 = D p.1) ∧
      ∀ i, i ∈ found.map (·.1) ↔ i ∈ groupIndices byFile ∨ i ∈ out.map (·.1) := by
  induction byFile generalizing out with
  | nil => exact ⟨out, rfl, hout, by simp [groupIndices]⟩
  | cons g rest ih =>
      obtain ⟨name, ms⟩ := g
      obtain ⟨hne, hms⟩ := hs (name, ms) (by simp)
      have hout' : ∀ p ∈ out ++ ms.map (fun m => (m.index, D m.index)), p.2 = D p.1 := by
        intro p hp
        rcases List.mem_append.mp hp with hp | hp
        · exact hout p hp
        · obtain ⟨m, _, rfl⟩ := List.mem_map.mp hp
          rfl
      obtain ⟨found, hr, hf, hi⟩ := ih (fun g hg => hs g (by simp [hg])) hout'
      refine ⟨found, ?_, hf, fun i => ?_⟩
      · simp only [readPacks]
        rw [Io.result_bind_ok (readPack_result hne hms)]
        exact hr
      · rw [hi i]
        simp only [groupIndices, List.flatMap_cons, List.mem_append, List.map_append, List.map_map,
          Function.comp_def]
        tauto

/-- Chunks the folder holds are all found. -/
theorem readChunks_result {ws : List Wanted} (hw : ∀ w ∈ ws, Wants w (D w.index))
    (hh : ∀ w ∈ ws, Holds env dir packs places w (D w.index)) :
    ∃ found, (readChunks env dir ws places).result = .ok found ∧ (∀ p ∈ found, p.2 = D p.1) ∧
      ∀ i, i ∈ found.map (·.1) ↔ i ∈ ws.map (·.index) := by
  have hnone : Sorted env dir packs D [] := fun g hg => by cases hg
  obtain ⟨byFile, out, hr, hs, ho, hi⟩ := sortWanted_result hw hh hnone fun p (hp : p ∈ []) => by cases hp
  obtain ⟨found, hr', hf, hi'⟩ := readPacks_result hs ho
  refine ⟨found, ?_, hf, fun i => ?_⟩
  · unfold readChunks
    rw [Io.result_bind_ok hr]
    exact hr'
  · rw [hi' i, hi i]
    simp [groupIndices]

end

end Cash.Chunks
