import Cash.Sets.Lemmas.LayOut

/-!
# Layout records and the sets they name
-/

namespace Cash.Sets

/-! ## A path leads to what the value reaches -/

section

variable {heap : Heap} {left : List Id} {b : Bytes} {n : Nat}

/-! ### Cursors -/

/-- What a cursor at entry `k` of a dict holds. -/
def Cursor.InDict (entries : List (Id × Id)) (c : Cursor) : Prop :=
  -1 ≤ c.k ∧ (0 ≤ c.k → ∃ e ∈ entries, c.key = some e.1 ∧ c.value = some e.2)

/-- What a cursor at element `k` of a set holds. -/
def Cursor.InSet (t : Table) (c : Cursor) : Prop :=
  -1 ≤ c.k ∧ (0 ≤ c.k → ∃ key ∈ t.elems.map (·.2), c.key = some key)

/-- A cursor in an object holds something of it. -/
def Cursor.Ok (heap : Heap) (c : Cursor) : Prop :=
  ∀ o, c.o = some o → match heap o with
    | .dict entries => c.InDict entries
    | .set _ table => c.InSet table
    | _ => True

theorem Cursor.ok_zero : Cursor.zero.Ok heap := by
  intro o ho
  cases ho

theorem Cursor.ok_dict {c : Cursor} {o : Id} {entries : List (Id × Id)} (ho : c.o = some o)
    (hobj : heap o = .dict entries) (h : c.InDict entries) : c.Ok heap := by
  intro o' ho'
  cases ho.symm.trans ho'
  rwa [hobj]

theorem Cursor.ok_set {c : Cursor} {o : Id} {frozen : Bool} {table : Table} (ho : c.o = some o)
    (hobj : heap o = .set frozen table) (h : c.InSet table) : c.Ok heap := by
  intro o' ho'
  cases ho.symm.trans ho'
  rwa [hobj]

theorem Cursor.startAt_o (c : Cursor) (o : Id) (k : Int) : (c.startAt o k).o = some o := by
  unfold startAt
  split
  · rfl
  · next h =>
    rw [not_or, not_ne_iff] at h
    exact h.1

theorem Cursor.startAt_le (c : Cursor) (o : Id) {k : Int} (hk : 0 ≤ k) : (c.startAt o k).k ≤ k := by
  unfold startAt
  split
  · simp only
    omega
  · next h =>
    rw [not_or] at h
    omega

theorem Cursor.startAt_ok {c : Cursor} (h : c.Ok heap) (o : Id) (k : Int) : (c.startAt o k).Ok heap := by
  unfold startAt
  split
  · rintro _ ⟨⟩
    split
    · constructor <;> simp
    · constructor <;> simp
    · trivial
  · exact h

theorem Cursor.inDict_spec {entries : List (Id × Id)} {c : Cursor} (h : c.InDict entries) :
    (c.inDict entries n).2.InDict entries ∧ (c.inDict entries n).2.o = c.o ∧
      ((c.inDict entries n).1 = true → (c.inDict entries n).2.k = c.k + n) := by
  induction n generalizing c with
  | zero => exact ⟨h, rfl, by simp [inDict]⟩
  | succ n ih =>
    rw [inDict]
    split
    · exact ⟨h, rfl, by simp⟩
    · next key value he =>
      have hmem : (key, value) ∈ entries := List.mem_of_getElem? he
      obtain ⟨hin, ho, hk⟩ := ih (c := { c with key := some key, value := some value, pos := c.pos + 1, k := c.k + 1 })
        ⟨by have := h.1; simp only; omega, fun _ => ⟨_, hmem, rfl, rfl⟩⟩
      refine ⟨hin, ho, fun htrue => ?_⟩
      rw [hk htrue]
      simp only
      push_cast
      omega

theorem Cursor.seek_spec {t : Table} {pos : Nat} (hlen : pos + n ≤ t.slots.length) :
    ∃ r, seek t.slots n pos = some r ∧ ∀ key, r.2 = some key → key ∈ t.elems.map (·.2) := by
  induction n generalizing pos with
  | zero => exact ⟨(pos, none), rfl, by simp⟩
  | succ n ih =>
    have hlt : pos < t.slots.length := by omega
    rw [seek, List.getElem?_eq_getElem hlt]
    simp only [Option.bind_eq_bind, Option.bind_some]
    split
    · next hash key hslot =>
      refine ⟨_, rfl, ?_⟩
      rintro _ ⟨⟩
      refine List.mem_map.mpr ⟨(hash, key), List.mem_filterMap.mpr ⟨_, List.getElem_mem hlt, ?_⟩, rfl⟩
      rw [hslot]
      rfl
    · exact ih (by omega)

theorem Cursor.inSet_spec {t : Table} {c : Cursor} (hlen : t.slots.length = t.mask + 1) (h : c.InSet t) :
    ∃ r, c.inSet t n = some r ∧ r.2.InSet t ∧ r.2.o = c.o ∧ (r.1 = true → r.2.k = c.k + n) := by
  induction n generalizing c with
  | zero => exact ⟨(true, c), rfl, h, rfl, by simp⟩
  | succ n ih =>
    have hseek : ∃ r, seek t.slots (t.mask + 1 - c.pos) c.pos = some r ∧ ∀ key, r.2 = some key →
        key ∈ t.elems.map (·.2) := by
      rcases Nat.le_total c.pos t.slots.length with hpos | hpos
      · exact seek_spec (by omega)
      · rw [show t.mask + 1 - c.pos = 0 by omega]
        exact ⟨_, rfl, by simp⟩
    obtain ⟨⟨pos, key⟩, hseek, hmem⟩ := hseek
    rw [inSet, hseek]
    simp only [Option.bind_eq_bind, Option.bind_some]
    cases key with
    | none => exact ⟨_, rfl, h, rfl, by simp⟩
    | some key =>
      obtain ⟨r, hr, hin, ho, hk⟩ := ih (c := { c with key := some key, pos := pos + 1, k := c.k + 1 })
        ⟨by have := h.1; simp only; omega, fun _ => ⟨key, hmem key rfl, rfl⟩⟩
      refine ⟨r, hr, hin, ho, fun htrue => ?_⟩
      rw [hk htrue]
      simp only
      push_cast
      omega

/-! ### Steps -/

theorem followStep_spec {o : Id} {c : Cursor} (left : List Id) (t : Nat) (hlen : ∀ table, (heap o).table? = some table →
      table.slots.length = table.mask + 1) (hc : c.Ok heap) :
    ∃ r, followStep heap left o t c = some r ∧ r.2.Ok heap ∧ ∀ o', r.1 = some o' → o' ∈ (heap o).children := by
  unfold followStep
  cases hobj : heap o with
  | list items => exact ⟨_, rfl, hc, fun o' ho => List.mem_of_getElem? ho⟩
  | tuple items => exact ⟨_, rfl, hc, fun o' ho => List.mem_of_getElem? ho⟩
  | other => exact ⟨_, rfl, hc, by simp⟩
  | dict entries =>
    have hin : (c.startAt o (t / 2 : Nat)).InDict entries := by
      have hok := Cursor.startAt_ok hc o (t / 2 : Nat) o (Cursor.startAt_o ..)
      rwa [hobj] at hok
    have hle := Cursor.startAt_le c o (k := (t / 2 : Nat)) (by omega)
    have ho := Cursor.startAt_o c o (t / 2 : Nat)
    simp only
    generalize c.startAt o (t / 2 : Nat) = c1 at hin hle ho ⊢
    obtain ⟨hin2, ho2, hk⟩ := Cursor.inDict_spec (n := ((t / 2 : Nat) - c1.k).toNat) hin
    split
    · next c2 heq =>
      rw [heq] at hin2 ho2
      exact ⟨_, rfl, Cursor.ok_dict (ho2.trans ho) hobj hin2, by simp⟩
    · next c2 heq =>
      rw [heq] at hin2 ho2 hk
      obtain ⟨e, he, hkey, hvalue⟩ := hin2.2 (by rw [hk rfl]; omega)
      have hmem : e.1 ∈ (Obj.dict entries).children ∧ e.2 ∈ (Obj.dict entries).children :=
        ⟨List.mem_flatMap.mpr ⟨e, he, by simp⟩, List.mem_flatMap.mpr ⟨e, he, by simp⟩⟩
      have hok := Cursor.ok_dict (ho2.trans ho) hobj hin2
      simp only at hkey hvalue
      split
      · exact ⟨(some e.2, c2), by simp [hvalue], hok, by rintro _ ⟨⟩; exact hmem.2⟩
      · exact ⟨(some e.1, c2), by simp [hkey], hok, by rintro _ ⟨⟩; exact hmem.1⟩
  | set frozen table =>
    simp only
    split
    · exact ⟨_, rfl, hc, by simp⟩
    have hin : (c.startAt o t).InSet table := by
      have hok := Cursor.startAt_ok hc o t o (Cursor.startAt_o ..)
      rwa [hobj] at hok
    have hle := Cursor.startAt_le c o (k := t) (by omega)
    have ho := Cursor.startAt_o c o t
    generalize c.startAt o t = c1 at hin hle ho ⊢
    obtain ⟨⟨found, c2⟩, hr, hin2, ho2, hk⟩ := Cursor.inSet_spec (n := ((t : Int) - c1.k).toNat)
      (hlen table (by rw [hobj]; rfl)) hin
    have hok := Cursor.ok_set (ho2.trans ho) hobj hin2
    simp only [hr, Option.bind_eq_bind, Option.bind_some]
    cases found with
    | false => exact ⟨_, rfl, hok, by simp⟩
    | true =>
      obtain ⟨key, hmem, hkey⟩ := hin2.2 (by rw [hk rfl]; omega)
      simp only at hkey
      exact ⟨(some key, c2), by simp [hkey], hok, by rintro _ ⟨⟩; exact hmem⟩

/-- The cursors, and an object the value reaches where the path leads to one. -/
theorem follow_spec {root o : Id} {cur : List Cursor} (left : List Id) (path n j : Nat)
    (hlen : ∀ o table, Reachable heap root o → (heap o).table? = some table → table.slots.length = table.mask + 1)
    (hcur : ∀ c ∈ cur, c.Ok heap) (hj : j + n ≤ cur.length) (hb : path + 4 * (j + n) ≤ b.length)
    (ho : Reachable heap root o) :
    ∃ r, follow b heap left path n j o cur = some r ∧ (∀ c ∈ r.2, c.Ok heap) ∧
      ∀ o', r.1 = some o' → Reachable heap root o' := by
  induction n generalizing j o cur with
  | zero => exact ⟨_, rfl, hcur, by rintro _ ⟨⟩; exact ho⟩
  | succ n ih =>
    obtain ⟨t, ht⟩ := Option.isSome_iff_exists.mp (getU32_isSome (b := b) (p := path + 4 * j) (by omega))
    have hlt : j < cur.length := by omega
    obtain ⟨⟨o', c⟩, hstep, hok, hchild⟩ := followStep_spec left t (fun table => hlen o table ho)
      (hcur cur[j] (List.getElem_mem hlt))
    have hset : ∀ c' ∈ cur.set j c, c'.Ok heap := by
      intro c' hc'
      rcases List.mem_or_eq_of_mem_set hc' with hc' | rfl
      · exact hcur c' hc'
      · exact hok
    rw [follow, ht, List.getElem?_eq_getElem hlt]
    simp only [Option.bind_eq_bind, Option.bind_some, hstep]
    cases o' with
    | none => exact ⟨_, rfl, hset, by simp⟩
    | some o' =>
      exact ih _ hset (by rw [List.length_set]; omega) (by rwa [show j + 1 + n = j + (n + 1) by omega])
        (.child ho (hchild o' rfl))

end

/-! ## What every record preserves -/

section

variable {heap heap' : Heap} {b : Bytes} {root o : Id}

/-! ### Objects that are kept -/

theorem Kept.mem_children {a a' : Obj} (h : Kept a a') (c : Id) : c ∈ a'.children ↔ c ∈ a.children := by
  cases h with
  | same => rfl
  | laid ha hperm _ =>
    subst ha
    exact (hperm.map _).mem_iff

theorem Kept.sound {a a' : Obj} (h : Kept a a') (ha : ∀ t, a.table? = some t → t.Sound) :
    ∀ t, a'.table? = some t → t.Sound := by
  cases h with
  | same => exact ha
  | laid _ _ hsound =>
    rintro t ⟨⟩
    exact hsound

theorem Kept.lay {a : Obj} {frozen : Bool} {t t' : Table} (h : Kept a (.set frozen t)) (hperm : t'.elems.Perm t.elems)
    (hsound : t'.Sound) : Kept a (.set frozen t') := by
  cases h with
  | same => exact .laid rfl hperm hsound
  | laid ha hperm' _ => exact .laid ha (hperm.trans hperm') hsound

theorem Kept.isSet {a : Obj} {frozen : Bool} {t : Table} (h : Kept a (.set frozen t)) : a.table?.isSome := by
  cases h with
  | same => rfl
  | laid ha _ _ =>
    subst ha
    rfl

theorem Kept.table {a : Obj} {frozen : Bool} {t : Table} (h : Kept (.set frozen t) a) (hsound : t.Sound) :
    ∃ t', a = .set frozen t' ∧ t'.elems.Perm t.elems ∧ t'.Sound := by
  cases h with
  | same => exact ⟨t, rfl, .rfl, hsound⟩
  | laid ha hperm hsound' =>
    cases ha
    exact ⟨_, rfl, hperm, hsound'⟩

theorem reachable_iff (h : ∀ o, Kept (heap o) (heap' o)) : Reachable heap' root o ↔ Reachable heap root o := by
  constructor
  · intro ho
    induction ho with
    | root => exact .root
    | @child o c _ hc ih => exact .child ih (((h o).mem_children c).mp hc)
  · intro ho
    induction ho with
    | root => exact .root
    | @child o c _ hc ih => exact .child ih (((h o).mem_children c).mpr hc)

/-! ### The loop -/

/-- Every set a value reaches is sound. -/
def SoundSets (heap : Heap) (root : Id) : Prop :=
  ∀ o t, Reachable heap root o → (heap o).table? = some t → t.Sound

/-- What holds before each record, of the heap it began with. -/
structure Inv (heap : Heap) (stop : Nat) (st : State) : Prop where
  kept : ∀ o, Kept (heap o) (st.heap o)
  named : ∀ o, st.heap o ≠ heap o → o ∈ st.named ∧ (heap o).table?.isSome
  cur : ∀ c ∈ st.cur, c.Ok st.heap
  le : st.p ≤ stop

variable {stop maxDepth : Nat} {st : State}

theorem Inv.soundSets (h : Inv heap stop st) (hsound : SoundSets heap root) : SoundSets st.heap root := by
  intro o t ho ht
  exact (h.kept o).sound (fun t => hsound o t ((reachable_iff h.kept).mp ho)) t ht

theorem Obj.eq_set_of_table? {a : Obj} {t : Table} (h : a.table? = some t) : ∃ frozen, a = .set frozen t := by
  cases a with
  | set frozen table =>
    cases h
    exact ⟨frozen, rfl⟩
  | _ => cases h

theorem layObject_spec (o : Option Id) (used mask nd check slots : Nat) (h : Inv heap stop st)
    (hsound : SoundSets heap root) (ho : ∀ o', o = some o' → Reachable st.heap root o')
    (hb : slots + 4 * (used + nd) ≤ b.length) :
    ∃ st', layObject b st o used mask nd check slots = some (.ok st') ∧ Inv heap stop st' ∧ st'.p = st.p := by
  unfold layObject
  split
  · exact ⟨_, rfl, ⟨h.kept, h.named, h.cur, h.le⟩, rfl⟩
  next o so hobj =>
  simp only [Option.bind_eq_some_iff, Option.map_eq_some_iff, Prod.mk.injEq] at hobj
  obtain ⟨o', rfl, t, ht, rfl, rfl⟩ := hobj
  obtain ⟨frozen, hset⟩ := Obj.eq_set_of_table? ht
  obtain ⟨r, hr, hfailed, hlaid⟩ := layOut_spec mask check
    (h.soundSets hsound o' t (ho o' rfl) ht) hb
  simp only [hr, Option.bind_eq_bind, Option.bind_some]
  cases r with
  | failed => exact absurd rfl hfailed
  | left =>
    exact ⟨_, rfl, ⟨h.kept, fun o ho => ⟨List.mem_cons_of_mem _ (h.named o ho).1, (h.named o ho).2⟩, h.cur, h.le⟩, rfl⟩
  | inOrder =>
    exact ⟨_, rfl, ⟨h.kept, fun o ho => ⟨List.mem_cons_of_mem _ (h.named o ho).1, (h.named o ho).2⟩, h.cur, h.le⟩, rfl⟩
  | laid t' =>
    obtain ⟨hperm, hsound'⟩ := hlaid t' rfl
    refine ⟨_, rfl, ⟨fun o => ?_, fun o hne => ?_, fun c hc => ?_, h.le⟩, rfl⟩
    · by_cases hoo : o = o'
      · subst hoo
        have hkept := h.kept o
        rw [hset] at hkept
        simpa [hset, Obj.setTable] using hkept.lay hperm hsound'
      · simpa [Function.update_of_ne hoo] using h.kept o
    · by_cases hoo : o = o'
      · subst hoo
        refine ⟨List.mem_cons_self .., ?_⟩
        exact (hset ▸ h.kept o).isSet
      · simp only [Function.update_of_ne hoo] at hne
        exact ⟨List.mem_cons_of_mem _ (h.named o hne).1, (h.named o hne).2⟩
    · obtain ⟨c', hc', rfl⟩ := List.mem_map.mp hc
      intro o ho
      split at ho
      · cases ho
      · next hne =>
        have hoo : o ≠ o' := fun heq => hne (heq ▸ ho)
        simp only [Function.update_of_ne hoo]
        rw [if_neg hne]
        exact h.cur c' hc' o ho

theorem getU64_isSome {p : Nat} (h : p + 8 ≤ b.length) : (getU64 b p).isSome := by
  simp [getU64, h]

/-- A record ends the call with a `ValueError`, or leaves the invariant and is behind. -/
theorem record_spec (maxDepth : Nat) (h : Inv heap stop st) (hsound : SoundSets heap root) (hstop : stop + 8 = b.length) :
    ∃ r, record b stop root maxDepth st = some r ∧
      (r = .error .valueError ∨ ∃ st', r = .ok st' ∧ Inv heap stop st' ∧ st.p < st'.p) := by
  have hle := h.le
  unfold record
  split
  · exact ⟨_, rfl, .inl rfl⟩
  next hfour =>
  obtain ⟨depth, hdepth⟩ := Option.isSome_iff_exists.mp (getU32_isSome (b := b) (p := st.p) (by omega))
  simp only [hdepth, Option.bind_eq_bind, Option.bind_some]
  split
  · exact ⟨_, rfl, .inl rfl⟩
  next hdeep =>
  rw [not_or, Nat.not_lt] at hdeep
  have hpath : st.p + 4 + 4 * depth ≤ stop := by omega
  generalize hhead : st.p + 4 + 4 * depth = head at hpath ⊢
  split
  · exact ⟨_, rfl, .inl rfl⟩
  next hroom =>
  have hbytes : setBytes = 24 := rfl
  obtain ⟨used, hused⟩ := Option.isSome_iff_exists.mp (getU32_isSome (b := b) (p := head) (by omega))
  obtain ⟨nd, hnd⟩ := Option.isSome_iff_exists.mp (getU32_isSome (b := b) (p := head + 12) (by omega))
  obtain ⟨mask, hmask⟩ := Option.isSome_iff_exists.mp (getU64_isSome (b := b) (p := head + 4) (by omega))
  obtain ⟨check, hcheck⟩ := Option.isSome_iff_exists.mp (getU64_isSome (b := b) (p := head + 16) (by omega))
  simp only [hused, hnd, hmask, hcheck, Option.bind_some]
  split
  · exact ⟨_, rfl, .inl rfl⟩
  next hslots =>
  have hgrown : ∀ c ∈ st.cur ++ List.replicate (depth - st.cur.length) .zero, c.Ok st.heap := by
    intro c hc
    rcases List.mem_append.mp hc with hc | hc
    · exact h.cur c hc
    · rw [(List.mem_replicate.mp hc).2]
      exact Cursor.ok_zero
  obtain ⟨⟨o, cur⟩, hfollow, hcur, ho⟩ := follow_spec (b := b) st.left (st.p + 4) depth 0
    (fun o t hr ht => (h.soundSets hsound o t hr ht).length) hgrown (by rw [List.length_append, List.length_replicate]; omega) (by omega) .root
  simp only [hfollow, Option.bind_some]
  have hend : head + setBytes + 4 * (used + nd) ≤ stop := by omega
  have hafter : Inv heap stop { st with p := head + setBytes + 4 * (used + nd), cur := cur } :=
    ⟨h.kept, h.named, hcur, hend⟩
  obtain ⟨st', hst', hinv, hp⟩ := layObject_spec (b := b) o used mask nd check (head + setBytes) hafter hsound ho
    (by omega)
  exact ⟨_, hst', .inr ⟨st', rfl, hinv, by rw [hp]; simp only; omega⟩⟩

theorem records_spec {fuel : Nat} (h : Inv heap stop st) (hsound : SoundSets heap root) (hstop : stop + 8 = b.length)
    (hfuel : stop - st.p < fuel) :
    ∃ e, records b stop root maxDepth fuel st = some e ∧
      (e.outcome = .valueError ∨ ∃ laid inOrder kept, e.outcome = .returned laid inOrder kept) ∧
      (∀ o, Kept (heap o) (e.heap o)) ∧ ∀ o, e.heap o ≠ heap o → o ∈ e.named ∧ (heap o).table?.isSome := by
  induction fuel generalizing st with
  | zero => omega
  | succ fuel ih =>
    unfold records
    split
    · obtain ⟨r, hr, hcases⟩ := record_spec maxDepth h hsound hstop
      simp only [hr, Option.bind_eq_bind, Option.bind_some]
      rcases hcases with rfl | ⟨st', rfl, hinv, hp⟩
      · exact ⟨_, rfl, .inl rfl, h.kept, h.named⟩
      · exact ih hinv (by omega)
    · exact ⟨_, rfl, .inr ⟨_, _, _, rfl⟩, h.kept, h.named⟩

/-! ### The checksum -/

theorem blobWords_isSome {n i : Nat} {h : UInt64} (hb : i + 8 * n ≤ b.length) : (blobWords b n i h).isSome := by
  induction n generalizing i h with
  | zero => rfl
  | succ n ih =>
    obtain ⟨word, hword⟩ := Option.isSome_iff_exists.mp (getU64_isSome (b := b) (p := i) (by omega))
    simp only [blobWords, hword, Option.bind_eq_bind, Option.bind_some]
    exact ih (by omega)

theorem blobCheck_isSome {n : Nat} (h : n ≤ b.length) : (blobCheck b n).isSome := by
  obtain ⟨words, hwords⟩ := Option.isSome_iff_exists.mp (blobWords_isSome (b := b) (n := n / 8) (i := 0)
    (h := 0x6a09e667f3bcc908 ^^^ UInt64.ofNat n) (by omega))
  simp [blobCheck, hwords, h]

end

/-! ## No layout record can break a set -/

/-- Any bytes given as layouts: the call ends within bounds, with a count or a `ValueError`. Every set the value reaches
still holds the same elements and hashes in a sound table, and nothing changed but sets the records name. -/
theorem applySetLayouts_safe (heap : Heap) (root : Id) (layouts : Bytes) (maxDepth : Nat)
    (h : ∀ o t, Reachable heap root o → (heap o).table? = some t → t.Sound) :
    ∃ e, applySetLayouts heap root layouts maxDepth = some e ∧
      (e.outcome = .valueError ∨ ∃ laid inOrder kept, e.outcome = .returned laid inOrder kept) ∧
      (∀ o, Reachable e.heap root o ↔ Reachable heap root o) ∧
      (∀ o frozen t, Reachable heap root o → heap o = .set frozen t →
        ∃ t', e.heap o = .set frozen t' ∧ t'.elems.Perm t.elems ∧ t'.Sound) ∧
      ∀ o, e.heap o ≠ heap o → o ∈ e.named ∧ (heap o).table?.isSome := by
  suffices hkept : ∃ e, applySetLayouts heap root layouts maxDepth = some e ∧
      (e.outcome = .valueError ∨ ∃ laid inOrder kept, e.outcome = .returned laid inOrder kept) ∧
      (∀ o, Kept (heap o) (e.heap o)) ∧ ∀ o, e.heap o ≠ heap o → o ∈ e.named ∧ (heap o).table?.isSome by
    obtain ⟨e, he, houtcome, hkept, hnamed⟩ := hkept
    refine ⟨e, he, houtcome, fun o => reachable_iff hkept, fun o frozen t ho ht => ?_, hnamed⟩
    exact (ht ▸ hkept o).table (h o t ho (by rw [ht]; rfl))
  unfold applySetLayouts
  simp only
  split
  · exact ⟨_, rfl, .inl rfl, fun _ => .same, fun o ho => absurd rfl ho⟩
  next htotal =>
  obtain ⟨word, hword⟩ := Option.isSome_iff_exists.mp (getU32_isSome (b := layouts) (p := 0) (by omega))
  obtain ⟨sum, hsum⟩ := Option.isSome_iff_exists.mp (blobCheck_isSome (b := layouts) (n := layouts.length - 8) (by omega))
  obtain ⟨check, hcheck⟩ := Option.isSome_iff_exists.mp (getU64_isSome (b := layouts) (p := layouts.length - 8) (by omega))
  simp only [hword, hsum, hcheck, Option.bind_eq_bind, Option.bind_some]
  split
  · exact ⟨_, rfl, .inl rfl, fun _ => .same, fun o ho => absurd rfl ho⟩
  split
  · exact ⟨_, rfl, .inl rfl, fun _ => .same, fun o ho => absurd rfl ho⟩
  have hstart : Inv heap (layouts.length - 8) ⟨heap, 4, [], [], 0, 0, 0, []⟩ :=
    ⟨fun _ => .same, fun o ho => absurd rfl ho, by simp, by simp only; omega⟩
  exact records_spec hstart h (by omega) (by simp only; omega)

/-! ### A set of two elements -/

/-- Two elements whose lookups begin at one slot, in a table of eight. -/
def pairTable (a b : Slot) : Table := ⟨7, [a, b] ++ List.replicate 6 .empty, 2, 2⟩

def pairHeap (a b : Slot) : Heap := fun o => if o = 0 then .set false (pairTable a b) else .other

theorem pairTable_sound : (pairTable (.elem 8 2) (.elem 0 1)).Sound where
  length := rfl
  size := by decide
  used := rfl
  fill := rfl
  empty := by decide
  found i hash key hi := by
    match i with
    | 0 =>
      cases hi
      exact .here (i := 0) (by decide) rfl (by simp)
    | 1 =>
      cases hi
      refine .later (fun k hk => ?_) (.here (i := 0) (by decide) rfl (by simp))
      obtain rfl : k = 0 := Nat.le_zero.mp hk
      exact ⟨_, rfl, by simp⟩
    | i + 2 =>
      have hmem : Slot.elem hash key ∈ List.replicate 6 Slot.empty := List.mem_of_getElem? (i := i) hi
      cases (List.mem_replicate.mp hmem).2

/-- The record of the set built in the other order. -/
def pairLayouts : Bytes :=
  [67, 83, 76, 50, 0, 0, 0, 0, 2, 0, 0, 0, 7, 0, 0, 0, 0, 0, 0, 0, 0, 0, 0, 0, 74, 35, 71, 209, 35, 14, 137, 179, 0, 0,
    0, 0, 1, 0, 0, 0, 45, 71, 65, 76, 240, 227, 226, 215]

theorem applySetLayouts_pair :
    ∃ e, applySetLayouts (pairHeap (.elem 8 2) (.elem 0 1)) 0 pairLayouts 10 = some e ∧
      ∃ t', e.heap 0 = .set false t' ∧ t'.elems.Perm [(8, 2), (0, 1)] ∧ t'.Sound := by
  obtain ⟨e, he, -, -, hsets, -⟩ := applySetLayouts_safe (pairHeap (.elem 8 2) (.elem 0 1)) 0 pairLayouts 10
    fun o t ho ht => by
      unfold pairHeap at ht
      split at ht
      · cases ht
        exact pairTable_sound
      · cases ht
  exact ⟨e, he, hsets 0 false _ .root rfl⟩

end Cash.Sets
