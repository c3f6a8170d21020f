import Cash.Sets.Apply
import Mathlib.Data.List.Nodup
import Mathlib.Data.List.Perm.Basic

/-!
# Records checked and laid out
-/

namespace Cash.Sets

/-! ## A record that passes `table_is_sound` -/

section

variable {taken taken' : List Bool} {slotAt : Nat → Option Nat} {mask want n i j : Nat} {t : Turn}

/-! ### The slots of a turn -/

theorem Turn.start_first (mask : Nat) (hash : UInt64) : (Turn.first mask hash).start ≤ mask := Nat.and_le_right

theorem Turn.start_next (mask : Nat) (t : Turn) : (t.next mask).start ≤ mask := Nat.and_le_right

theorem Turn.add_probes_le (h : t.start ≤ mask) : t.start + t.probes mask ≤ mask := by
  unfold Turn.probes
  split <;> omega

theorem scanTurn_isSome (h : j + n ≤ taken.length) : (scanTurn taken want n j).isSome := by
  induction n generalizing j with
  | zero => rfl
  | succ n ih =>
    unfold scanTurn
    have hj : taken[j]? = some taken[j] := List.getElem?_eq_getElem (by omega)
    split
    · rfl
    · simp only [hj, Option.bind_eq_bind, Option.bind_some]
      split
      · exact ih (by omega)
      · rfl

/-- A turn in the table reads the table only. -/
theorem exists_scanTurn (want : Nat) (hlen : taken.length = mask + 1) (h : t.start ≤ mask) :
    ∃ r, scanTurn taken want (t.probes mask + 1) t.start = some r := by
  have hle := Turn.add_probes_le h
  exact Option.isSome_iff_exists.mp (scanTurn_isSome (by omega))

theorem scanTurn_eq_some_some (h : scanTurn taken want n j = some (some true)) :
    ∃ i < n, j + i = want ∧ ∀ k < i, taken[j + k]? = some true := by
  induction n generalizing j with
  | zero => cases h
  | succ n ih =>
    unfold scanTurn at h
    split at h
    · next hj => exact ⟨0, Nat.succ_pos n, hj, by simp⟩
    · simp only [Option.bind_eq_bind, Option.bind_eq_some_iff] at h
      obtain ⟨b, hb, h⟩ := h
      cases b with
      | false => simp at h
      | true =>
        obtain ⟨i, hi, hwant, htaken⟩ := ih h
        refine ⟨i + 1, by omega, by omega, fun k hk => ?_⟩
        cases k with
        | zero => exact hb
        | succ k =>
          have hk := htaken k (by omega)
          rwa [show j + 1 + k = j + (k + 1) by omega] at hk

theorem scanTurn_eq_some_none (h : scanTurn taken want n j = some none) : ∀ k < n, taken[j + k]? = some true := by
  induction n generalizing j with
  | zero => simp
  | succ n ih =>
    unfold scanTurn at h
    split at h
    · cases h
    · simp only [Option.bind_eq_bind, Option.bind_eq_some_iff] at h
      obtain ⟨b, hb, h⟩ := h
      cases b with
      | false => simp at h
      | true =>
        intro k hk
        cases k with
        | zero => exact hb
        | succ k =>
          have hk := ih h k (by omega)
          rwa [show j + 1 + k = j + (k + 1) by omega] at hk

/-! ### The turns -/

theorem onPath_isSome (want turns : Nat) (hlen : taken.length = mask + 1) (h : t.start ≤ mask) :
    (onPath taken mask want turns t).isSome := by
  induction turns generalizing t with
  | zero =>
    unfold onPath
    obtain ⟨r, hr⟩ := exists_scanTurn want hlen h
    cases r <;> simp [hr]
  | succ turns ih =>
    unfold onPath
    obtain ⟨r, hr⟩ := exists_scanTurn want hlen h
    cases r with
    | none => simpa [hr] using ih (Turn.start_next mask t)
    | some found => simp [hr]

theorem finds_of_onPath {turns : Nat} (h : onPath taken mask want turns t = some true) :
    Finds (fun k => taken[k]? = some true) mask want t := by
  induction turns generalizing t with
  | zero =>
    unfold onPath at h
    simp only [Option.bind_eq_bind, Option.bind_eq_some_iff] at h
    obtain ⟨r, hr, h⟩ := h
    cases r with
    | none => simp at h
    | some found =>
      cases h
      obtain ⟨i, hi, hwant, htaken⟩ := scanTurn_eq_some_some hr
      exact .here (by omega) hwant htaken
  | succ turns ih =>
    unfold onPath at h
    simp only [Option.bind_eq_bind, Option.bind_eq_some_iff] at h
    obtain ⟨r, hr, h⟩ := h
    cases r with
    | none => exact .later (fun k hk => scanTurn_eq_some_none hr k (by omega)) (ih h)
    | some found =>
      cases h
      obtain ⟨i, hi, hwant, htaken⟩ := scanTurn_eq_some_some hr
      exact .here (by omega) hwant htaken

theorem Finds.mono {p q : Nat → Prop} (hpq : ∀ k, p k → q k) (h : Finds p mask want t) : Finds q mask want t := by
  induction h with
  | here hi hwant htaken => exact .here hi hwant fun k hk => hpq _ (htaken k hk)
  | later htaken _ ih => exact .later (fun k hk => hpq _ (htaken k hk)) ih

end

/-! ## The slots of a record, marked and written -/

section

variable {taken : List Bool} {slotAt : Nat → Option Nat} {mask n i : Nat} {ss : List Nat} {items : List Item}

/-- The slots `slotAt` gives from index `i` on. -/
def Reads (slotAt : Nat → Option Nat) (i : Nat) (ss : List Nat) : Prop := ∀ k < ss.length, slotAt (i + k) = ss[k]?

theorem reads_cons {s : Nat} : Reads slotAt i (s :: ss) ↔ slotAt i = some s ∧ Reads slotAt (i + 1) ss := by
  constructor
  · intro h
    refine ⟨by simpa using h 0 (by simp), fun k hk => ?_⟩
    have hk := h (k + 1) (by simpa using hk)
    rwa [show i + (k + 1) = i + 1 + k by omega, List.getElem?_cons_succ] at hk
  · rintro ⟨h0, h⟩ k hk
    cases k with
    | zero => simpa using h0
    | succ k =>
      rw [show i + (k + 1) = i + 1 + k by omega, List.getElem?_cons_succ]
      exact h k (by simpa using hk)

theorem reads_append {ss' : List Nat} :
    Reads slotAt i (ss ++ ss') ↔ Reads slotAt i ss ∧ Reads slotAt (i + ss.length) ss' := by
  induction ss generalizing i with
  | nil => simp [Reads]
  | cons s ss ih => simp only [List.cons_append, reads_cons, ih, and_assoc, List.length_cons,
    show i + 1 + ss.length = i + (ss.length + 1) by omega]

/-- Any slots that can be read are those of a list. -/
theorem exists_reads (slotAt : Nat → Option Nat) (i n : Nat) (h : ∀ k < n, (slotAt (i + k)).isSome) : ∃ ss : List Nat, ss.length = n ∧ Reads slotAt i ss := by
  induction n generalizing i with
  | zero => exact ⟨[], rfl, by simp [Reads]⟩
  | succ n ih =>
    obtain ⟨s, hs⟩ := Option.isSome_iff_exists.mp (h 0 (by omega))
    obtain ⟨ss, hlen, hss⟩ := ih (i + 1) fun k hk => by
      have hk := h (k + 1) (by omega)
      rwa [show i + (k + 1) = i + 1 + k by omega] at hk
    exact ⟨s :: ss, by simp [hlen], reads_cons.mpr ⟨hs, hss⟩⟩

/-! ### `table_is_sound` -/

theorem markTaken_spec (taken : List Bool) (h : Reads slotAt i ss) (hlen : taken.length = mask + 1) :
    ∃ r, markTaken slotAt mask ss.length i taken = some r ∧ ∀ taken', r = some taken' →
      taken'.length = mask + 1 ∧ ss.Nodup ∧ (∀ s ∈ ss, s ≤ mask ∧ taken[s]? = some false) ∧
      ∀ j, taken'[j]? = some true ↔ taken[j]? = some true ∨ j ∈ ss := by
  induction ss generalizing i taken with
  | nil => exact ⟨some taken, rfl, by rintro _ ⟨⟩; simp [hlen]⟩
  | cons s ss ih =>
    obtain ⟨hs, hrest⟩ := reads_cons.mp h
    rw [List.length_cons, markTaken]
    simp only [hs, Option.bind_eq_bind, Option.bind_some]
    split
    · exact ⟨none, rfl, by simp⟩
    next hle =>
    have hlt : s < taken.length := by omega
    rw [List.getElem?_eq_getElem hlt, Option.bind_some]
    split
    · exact ⟨none, rfl, by simp⟩
    next hfalse =>
    have hget : taken[s]? = some false := by rw [List.getElem?_eq_getElem hlt, eq_false_of_ne_true hfalse]
    obtain ⟨r, hr, hspec⟩ := ih (taken.set s true) hrest (by simpa using hlen)
    refine ⟨r, hr, fun taken' htaken' => ?_⟩
    obtain ⟨hlen', hnodup, hfree, htrue⟩ := hspec taken' htaken'
    have hnot : s ∉ ss := by
      intro hmem
      have hset := (hfree s hmem).2
      rw [List.getElem?_set_self hlt] at hset
      cases hset
    refine ⟨hlen', List.nodup_cons.mpr ⟨hnot, hnodup⟩, fun s' hs' => ?_, fun j => ?_⟩
    · rcases List.mem_cons.mp hs' with rfl | hs'
      · exact ⟨by omega, hget⟩
      · have hne : s ≠ s' := fun heq => hnot (heq ▸ hs')
        exact ⟨(hfree s' hs').1, by simpa [List.getElem?_set_ne hne] using (hfree s' hs').2⟩
    · rw [htrue, List.mem_cons]
      by_cases hj : s = j
      · subst hj
        simp [List.getElem?_set_self hlt]
      · rw [List.getElem?_set_ne hj]
        constructor
        · rintro (h | h)
          · exact .inl h
          · exact .inr (.inr h)
        · rintro (h | h | h)
          · exact .inl h
          · exact absurd h.symm hj
          · exact .inr h

theorem allOnPath_spec (turns : Nat) (h : Reads slotAt i ss) (hitems : ss.length = items.length)
    (hlen : taken.length = mask + 1) :
    ∃ r, allOnPath taken slotAt mask turns items i = some r ∧
      (r = true → ∀ e ∈ ss.zip items, Finds (fun k => taken[k]? = some true) mask e.1 (.first mask e.2.hash)) := by
  induction items generalizing i ss with
  | nil => exact ⟨true, rfl, by simp⟩
  | cons item items ih =>
    cases ss with
    | nil => simp at hitems
    | cons s ss =>
      obtain ⟨hs, hrest⟩ := reads_cons.mp h
      obtain ⟨found, hfound⟩ := Option.isSome_iff_exists.mp
        (onPath_isSome s turns hlen (Turn.start_first mask item.hash))
      obtain ⟨r, hr, hspec⟩ := ih hrest (by simpa using hitems)
      unfold allOnPath
      simp only [hs, hfound, Option.bind_eq_bind, Option.bind_some]
      cases found with
      | false => exact ⟨false, rfl, by simp⟩
      | true =>
        refine ⟨r, by simpa using hr, fun htrue e he => ?_⟩
        rw [List.zip_cons_cons, List.mem_cons] at he
        rcases he with rfl | he
        · exact finds_of_onPath hfound
        · exact hspec htrue e he

/-! ### The writes -/

/-- The writes, one after the other. -/
def putAll (writes : List (Nat × Slot)) (table : List Slot) : Option (List Slot) :=
  writes.foldlM (fun table w => put table w.1 w.2) table

theorem putItems_eq {b : Bytes} {slots : Nat} {table : List Slot} (h : Reads (fun i => getU32 b (slots + 4 * i)) i ss)
    (hitems : ss.length = items.length) :
    putItems b slots items i table = putAll (ss.zip (items.map fun item => .elem item.hash item.key)) table := by
  induction items generalizing i ss table with
  | nil => simp [putItems, putAll]
  | cons item items ih =>
    cases ss with
    | nil => simp at hitems
    | cons s ss =>
      obtain ⟨hs, hrest⟩ := reads_cons.mp h
      simp only [putItems, hs, Option.bind_eq_bind, Option.bind_some, putAll, List.map_cons, List.zip_cons_cons,
        List.foldlM_cons]
      congr 1
      funext table
      exact ih hrest (by simpa using hitems)

theorem putDummies_eq {b : Bytes} {dslots : Nat} {table : List Slot}
    (h : Reads (fun i => getU32 b (dslots + 4 * i)) i ss) :
    putDummies b dslots ss.length i table = putAll (ss.map (·, .dummy)) table := by
  induction ss generalizing i table with
  | nil => simp [putDummies, putAll]
  | cons s ss ih =>
    obtain ⟨hs, hrest⟩ := reads_cons.mp h
    simp only [List.length_cons, putDummies, hs, Option.bind_eq_bind, Option.bind_some, putAll, List.map_cons,
      List.foldlM_cons]
    congr 1
    funext table
    exact ih hrest

/-- Distinct empty slots written: each holds what it was given, the others what they held, and as many are no longer
empty. -/
theorem putAll_spec (writes : List (Nat × Slot)) (table : List Slot) (hnodup : (writes.map (·.1)).Nodup)
    (hempty : ∀ w ∈ writes, table[w.1]? = some .empty) :
    ∃ table', putAll writes table = some table' ∧ table'.length = table.length ∧
      (∀ w ∈ writes, table'[w.1]? = some w.2) ∧ (∀ j, j ∉ writes.map (·.1) → table'[j]? = table[j]?) ∧
      ∀ rest, table.Perm (List.replicate writes.length .empty ++ rest) → table'.Perm (writes.map (·.2) ++ rest) := by
  induction writes generalizing table with
  | nil => exact ⟨table, rfl, rfl, by simp, by simp, fun rest h => h⟩
  | cons w writes ih =>
    obtain ⟨hnot, hnodup⟩ := List.nodup_cons.mp hnodup
    have hw := hempty w (List.mem_cons_self ..)
    obtain ⟨hlt, hget⟩ := List.getElem?_eq_some_iff.mp hw
    have hset : ∀ v ∈ writes, (table.set w.1 w.2)[v.1]? = some .empty := by
      intro v hv
      have hne : w.1 ≠ v.1 := fun heq => hnot (List.mem_map.mpr ⟨v, hv, heq.symm⟩)
      rw [List.getElem?_set_ne hne]
      exact hempty v (List.mem_cons_of_mem _ hv)
    obtain ⟨table', hput, hlen, hwrote, hother, hperm⟩ := ih _ hnodup hset
    refine ⟨table', ?_, by simpa using hlen, ?_, ?_, ?_⟩
    · simp only [putAll, List.foldlM_cons, put, hlt, if_true, Option.bind_eq_bind, Option.bind_some]
      exact hput
    · intro v hv
      rcases List.mem_cons.mp hv with rfl | hv
      · rw [hother _ hnot, List.getElem?_set_self hlt]
      · exact hwrote v hv
    · intro j hj
      rw [List.map_cons, List.mem_cons, not_or] at hj
      rw [hother j hj.2, List.getElem?_set_ne (Ne.symm hj.1)]
    · intro rest hrest
      have herase : (table.eraseIdx w.1).Perm (List.replicate writes.length .empty ++ rest) := by
        apply List.Perm.cons_inv (a := .empty)
        have hcons := List.getElem_cons_eraseIdx_perm hlt
        rw [hget] at hcons
        exact hcons.trans hrest
      have hset : (table.set w.1 w.2).Perm (List.replicate writes.length .empty ++ w.2 :: rest) :=
        (List.set_perm_cons_eraseIdx hlt _).trans ((herase.cons _).trans List.perm_middle.symm)
      exact (hperm _ hset).trans List.perm_middle

end

/-! ## A table laid out is sound and holds what it held -/

section

variable {b : Bytes} {items : List Item} {mask nd slots dslots : Nat}

theorem getU32_isSome {p : Nat} (h : p + 4 ≤ b.length) : (getU32 b p).isSome := by
  simp [getU32, h]

/-! ### `read_table` -/

def Item.pair (item : Item) : UInt64 × Id := (item.hash, item.key)

theorem scan_spec (table : List Slot) (n i : Nat) (h : i + n = table.length) :
    ∃ items dummies, scan table n i = some (items, dummies) ∧
      items.map Item.pair = (table.drop i).filterMap Slot.elem? ∧
      dummies.length = (table.drop i).countP Slot.isDummy := by
  induction n generalizing i with
  | zero =>
    refine ⟨[], [], rfl, ?_⟩
    rw [List.drop_eq_nil_of_le (by omega)]
    simp
  | succ n ih =>
    have hlt : i < table.length := by omega
    obtain ⟨items, dummies, hscan, hitems, hdummies⟩ := ih (i + 1) (by omega)
    rw [scan, List.getElem?_eq_getElem hlt, List.drop_eq_getElem_cons hlt]
    simp only [Option.bind_eq_bind, Option.bind_some, hscan]
    cases table[i] with
    | empty => exact ⟨items, dummies, rfl, by simp [List.filterMap_cons, hitems], by simp [hdummies]⟩
    | dummy => exact ⟨items, i :: dummies, rfl, by simp [List.filterMap_cons, hitems], by simp [hdummies]⟩
    | elem hash key => exact ⟨⟨hash, key, i⟩ :: items, dummies, rfl, by simp [Item.pair, ← hitems], by simp [hdummies]⟩

theorem sortItems_perm (items : List Item) : (sortItems items).Perm items := by
  suffices h : ∀ (passes : List Nat) (l : List Item),
      (passes.foldl (fun items pass => items.mergeSort fun a b => digit pass a ≤ digit pass b) l).Perm l from h _ _
  intro passes
  induction passes with
  | nil => exact fun l => .rfl
  | cons pass passes ih => exact fun l => (ih _).trans (List.mergeSort_perm ..)

/-- A sound table is read, with its own elements. -/
theorem readTable_spec {t : Table} (h : t.Sound) :
    ∃ items dummies, readTable t = some (some (items, dummies)) ∧ items.length = t.used ∧
      (items.map Item.pair).Perm t.elems := by
  obtain ⟨items, dummies, hscan, hitems, -⟩ := scan_spec t.slots (t.mask + 1) 0
    (by rw [h.length, Nat.zero_add])
  have helems : items.map Item.pair = t.elems := by simpa [Table.elems] using hitems
  have hused : items.length = t.used := by rw [h.used, ← helems, List.length_map]
  refine ⟨sortItems items, dummies.take (t.fill - t.used), ?_, ?_, ?_⟩
  · simp [readTable, hscan, hused]
  · rw [(sortItems_perm items).length_eq, hused]
  · rw [← helems]
    exact (sortItems_perm items).map _

/-! ### `table_is_sound` -/

/-- The slots of a record that makes a sound table. -/
structure SoundSlots (items : List Item) (mask nd : Nat) (si sd : List Nat) : Prop where
  length : si.length = items.length
  dummies : sd.length = nd
  size : minSize ≤ mask + 1 ∧ (mask + 1) &&& mask = 0
  room : si.length + sd.length < mask + 1
  nodup : (si ++ sd).Nodup
  inTable : ∀ s ∈ si ++ sd, s ≤ mask
  found : ∀ e ∈ si.zip items, Finds (· ∈ si ++ sd) mask e.1 (.first mask e.2.hash)

theorem exists_slots (items : List Item) (nd : Nat) (h : slots + 4 * (items.length + nd) ≤ b.length)
    (hd : dslots = slots + 4 * items.length) :
    ∃ si sd : List Nat, si.length = items.length ∧ sd.length = nd ∧ Reads (fun i => getU32 b (slots + 4 * i)) 0 si ∧
      Reads (fun i => getU32 b (dslots + 4 * i)) 0 sd := by
  obtain ⟨si, hsi, hreads⟩ := exists_reads (fun i => getU32 b (slots + 4 * i)) 0 items.length
    fun k hk => getU32_isSome (by omega)
  obtain ⟨sd, hsd, hreadsd⟩ := exists_reads (fun i => getU32 b (dslots + 4 * i)) 0 nd
    fun k hk => getU32_isSome (by omega)
  exact ⟨si, sd, hsi, hsd, hreads, hreadsd⟩

theorem tableIsSound_spec {si sd : List Nat} (mask : Nat) (hsi : si.length = items.length) (hsd : sd.length = nd)
    (hreads : Reads (fun i => getU32 b (slots + 4 * i)) 0 si)
    (hreadsd : Reads (fun i => getU32 b (dslots + 4 * i)) 0 sd) :
    ∃ r, tableIsSound b items mask nd slots dslots = some r ∧ (r = true → SoundSlots items mask nd si sd) := by
  unfold tableIsSound
  simp only
  split
  · exact ⟨false, rfl, by simp⟩
  next hsize =>
  split
  · exact ⟨false, rfl, by simp⟩
  next hroom =>
  simp only [not_or, Nat.not_lt, ne_eq, not_not, ge_iff_le, Nat.not_le] at hsize hroom
  obtain ⟨hmin, hpow, hmask⟩ := hsize
  have hmod : (mask + 1) % 2 ^ 64 = mask + 1 := Nat.mod_eq_of_lt (by unfold uint32Max at hmask; omega)
  rw [hmod] at hmin hpow hroom ⊢
  have hall : Reads (fun i => if i < items.length then getU32 b (slots + 4 * i)
      else getU32 b (dslots + 4 * (i - items.length))) 0 (si ++ sd) := by
    rw [reads_append]
    constructor
    · intro k hk
      simp only [Nat.zero_add, show k < items.length by omega, if_true]
      simpa using hreads k hk
    · intro k hk
      have hnot : ¬0 + si.length + k < items.length := by omega
      have hsub : 0 + si.length + k - items.length = k := by omega
      simp only [hnot, if_false, hsub]
      simpa using hreadsd k hk
  obtain ⟨marked, hmarked, hspec⟩ := markTaken_spec (List.replicate (mask + 1) false) hall List.length_replicate
  rw [show items.length + nd = (si ++ sd).length by simp [hsi, hsd], hmarked]
  simp only [Option.bind_eq_bind, Option.bind_some]
  cases marked with
  | none => exact ⟨false, rfl, by simp⟩
  | some taken =>
    obtain ⟨hlen, hnodup, hle, htrue⟩ := hspec taken rfl
    obtain ⟨r, hr, hfound⟩ := allOnPath_spec (64 + (mask + 1)) (reads_append.mp hall).1 hsi hlen
    refine ⟨r, hr, fun h => ⟨hsi, hsd, ⟨hmin, hpow⟩, by omega, hnodup, fun s hs => (hle s hs).1, fun e he => ?_⟩⟩
    refine (hfound h e he).mono fun k hk => ?_
    rcases (htrue k).mp hk with hk | hk
    · rw [List.getElem?_replicate] at hk
      split at hk <;> simp at hk
    · exact hk

/-! ### The new table -/

/-- The writes of a record: the elements to their slots, and the dummies. -/
def writes (items : List Item) (si sd : List Nat) : List (Nat × Slot) :=
  si.zip (items.map fun item => .elem item.hash item.key) ++ sd.map (·, .dummy)

theorem map_fst_writes {si : List Nat} (sd : List Nat) (h : si.length = items.length) :
    (writes items si sd).map (·.1) = si ++ sd := by
  simp [writes, Function.comp_def, List.map_fst_zip, h]

theorem map_snd_writes {si sd : List Nat} (h : si.length = items.length) :
    (writes items si sd).map (·.2) =
      (items.map fun item => Slot.elem item.hash item.key) ++ List.replicate sd.length .dummy := by
  simp [writes, Function.comp_def, List.map_snd_zip, h]

theorem ne_empty_of_writes {si sd : List Nat} {w : Nat × Slot} (h : w ∈ writes items si sd) : w.2 ≠ .empty := by
  rcases List.mem_append.mp h with h | h
  · obtain ⟨item, -, heq⟩ := List.mem_map.mp (List.of_mem_zip h).2
    rw [← heq]
    simp
  · obtain ⟨s, -, rfl⟩ := List.mem_map.mp h
    simp

/-- What the sound slots of a record make of an empty table. -/
theorem SoundSlots.written {si sd : List Nat} (h : SoundSlots items mask nd si sd) :
    ∃ table', putAll (writes items si sd) (List.replicate (mask + 1) .empty) = some table' ∧
      Table.Sound ⟨mask, table', items.length + nd, items.length⟩ ∧
      (table'.filterMap Slot.elem?).Perm (items.map Item.pair) := by
  have hfst := map_fst_writes sd h.length
  have hlen : (writes items si sd).length = si.length + sd.length := by
    rw [← List.length_map (f := (·.1)), hfst, List.length_append]
  obtain ⟨table', hput, hlen', hwrote, hother, hperm⟩ := putAll_spec (writes items si sd)
    (List.replicate (mask + 1) .empty) (by rw [hfst]; exact h.nodup) fun w hw => by
      have hmem : w.1 ∈ si ++ sd := hfst ▸ List.mem_map_of_mem hw
      have hle := h.inTable w.1 hmem
      rw [List.getElem?_replicate, if_pos (by omega)]
  have hroom := h.room
  have hperm : table'.Perm (((items.map fun item => Slot.elem item.hash item.key) ++ List.replicate nd .dummy) ++
      List.replicate (mask + 1 - (si.length + sd.length)) .empty) := by
    rw [← h.dummies, ← map_snd_writes h.length]
    apply hperm
    rw [hlen, List.replicate_append_replicate, show si.length + sd.length + (mask + 1 - (si.length + sd.length)) =
      mask + 1 by omega]
  have helems : (table'.filterMap Slot.elem?).Perm (items.map Item.pair) := by
    apply (hperm.filterMap _).trans
    rw [List.filterMap_append, List.filterMap_append, List.filterMap_replicate_of_none rfl,
      List.filterMap_replicate_of_none rfl, List.append_nil, List.append_nil, List.filterMap_map]
    exact List.Perm.of_eq (congrFun List.filterMap_eq_map items)
  refine ⟨table', hput, ⟨by simpa using hlen', h.size, ?_, ?_, ?_, ?_⟩, helems⟩
  · rw [Table.elems, helems.length_eq, List.length_map]
  · rw [Table.elems, helems.length_eq, List.length_map, Table.dummies, hperm.countP_eq]
    simp [List.countP_replicate, Function.comp_def]
  · apply hperm.symm.subset
    exact List.mem_append_right _ (List.mem_replicate.mpr ⟨by omega, rfl⟩)
  · intro i hash key hi
    have hmem : i ∈ (writes items si sd).map (·.1) := by
      by_contra hnot
      rw [hother i hnot, List.getElem?_replicate] at hi
      split at hi <;> cases hi
    obtain ⟨w, hw, rfl⟩ := List.mem_map.mp hmem
    have hslot : w.2 = .elem hash key := Option.some.inj ((hwrote w hw).symm.trans hi)
    have htaken : ∀ k, k ∈ si ++ sd → Table.Taken table' k := by
      intro k hk
      rw [← hfst] at hk
      obtain ⟨v, hv, rfl⟩ := List.mem_map.mp hk
      exact ⟨v.2, hwrote v hv, ne_empty_of_writes hv⟩
    rcases List.mem_append.mp hw with hw | hw
    · rw [List.zip_map_right] at hw
      obtain ⟨e, he, rfl⟩ := List.mem_map.mp hw
      cases hslot
      exact (h.found e he).mono htaken
    · obtain ⟨s, -, rfl⟩ := List.mem_map.mp hw
      cases hslot

theorem putItems_putDummies_eq {si sd : List Nat} (hsi : si.length = items.length)
    (hreads : Reads (fun i => getU32 b (slots + 4 * i)) 0 si)
    (hreadsd : Reads (fun i => getU32 b (dslots + 4 * i)) 0 sd) (table : List Slot) :
    (putItems b slots items 0 table).bind (putDummies b dslots sd.length 0) = putAll (writes items si sd) table := by
  rw [putItems_eq hreads hsi, writes, putAll, putAll, List.foldlM_append]
  congr 1
  funext table
  exact putDummies_eq hreadsd

theorem sameSlots_isSome {i : Nat} (h : slots + 4 * (i + items.length) ≤ b.length) :
    (sameSlots b slots items i).isSome := by
  induction items generalizing i with
  | nil => rfl
  | cons item items ih =>
    rw [List.length_cons] at h
    obtain ⟨s, hs⟩ := Option.isSome_iff_exists.mp (getU32_isSome (b := b) (p := slots + 4 * i) (by omega))
    rw [sameSlots, hs]
    simp only [Option.bind_eq_bind, Option.bind_some]
    split
    · exact ih (by omega)
    · rfl

/-- `lay_out` of a sound table ends, reads and writes in bounds, and a table it lays out holds the same elements and is
sound. -/
theorem layOut_spec {so : Table} {used : Nat} (mask check : Nat) (h : so.Sound) (hb : slots + 4 * (used + nd) ≤ b.length) :
    ∃ r, layOut b so used mask nd check slots = some r ∧ r ≠ .failed ∧
      ∀ t, r = .laid t → t.elems.Perm so.elems ∧ t.Sound := by
  unfold layOut
  split
  · exact ⟨.left, rfl, by simp, by simp⟩
  next hused =>
  rw [ne_eq, not_not] at hused
  obtain ⟨items, dummies, hread, hlen, hperm⟩ := readTable_spec h
  have hitems : items.length = used := hlen.trans hused
  simp only [hread, Option.bind_eq_bind, Option.bind_some]
  split
  · exact ⟨.left, rfl, by simp, by simp⟩
  have hreadable : (if so.mask = mask ∧ so.fill - so.used = nd then sameSlots b slots items 0
      else some false).isSome := by
    split
    · exact sameSlots_isSome (by omega)
    · rfl
  obtain ⟨same, hsame⟩ := Option.isSome_iff_exists.mp hreadable
  simp only [hsame, Option.bind_some]
  cases same with
  | true => exact ⟨.inOrder, rfl, by simp, by simp⟩
  | false =>
    obtain ⟨si, sd, hsi, hsd, hreads, hreadsd⟩ := exists_slots items nd
      (hitems.symm ▸ hb) (congrArg (slots + 4 * ·) hitems.symm)
    obtain ⟨sound, hsound, hslots⟩ := tableIsSound_spec mask hsi hsd hreads hreadsd
    simp only [hsound, Option.bind_some, Bool.false_eq_true, if_false]
    cases sound with
    | false => exact ⟨.left, rfl, by simp, by simp⟩
    | true =>
      obtain ⟨table', hput, hnew, helems⟩ := (hslots rfl).written
      rw [← putItems_putDummies_eq hsi hreads hreadsd, Option.bind_eq_some_iff, hsd] at hput
      obtain ⟨table, htable, htable'⟩ := hput
      simp only [if_true, htable, htable', Option.bind_some]
      refine ⟨_, rfl, by simp, ?_⟩
      rintro t ⟨⟩
      exact ⟨helems.trans hperm, hnew⟩

end

end Cash.Sets
