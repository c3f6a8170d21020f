import Cash.Tiered.Abstract
import Cash.Tiered.Lemmas.Freshness

/-!
# What comes off the RAM tier's total is what was added

`RamExact`: the total is the sum of the sizes added, and the dict of every entry held still says the size
that was added for it. `Owned`: every dict in use belongs to one key, so a dict handed out for one key is
held under no other.
-/

namespace Cash.Tiered

variable {K V : Type} [DecidableEq K]

/-! ## The RAM tier -/

structure RamExact (h : Heap K) (r : Ram K V) : Prop where
  total : r.currentSizeBytes = r.addedBytes
  size : ∀ key e, r.store.lookup key = some e → h.size e.metadata = e.added

namespace RamExact

variable {h h' : Heap K} {r : Ram K V}

/-- Only the sizes of the dicts held matter. -/
theorem congr (hr : RamExact h r)
    (hsize : ∀ key e, r.store.lookup key = some e → h'.size e.metadata = h.size e.metadata) : RamExact h' r where
  total := hr.total
  size key e he := (hsize key e he).trans (hr.size key e he)

theorem drop (hr : RamExact h r) (key : K) : RamExact h (r.drop h key) := by
  refine ⟨?_, fun key' e he => ?_⟩
  · unfold Ram.drop
    split
    · exact hr.total
    · rename_i e he
      have herase : ({ r with
          store := r.store.erase key
          currentSizeBytes := r.currentSizeBytes - h.size e.metadata } : Ram K V).addedBytes =
          r.addedBytes - e.added := by
        simp [Ram.addedBytes, Dict.sumBy_erase, he]
      rw [herase, hr.total, hr.size key e he]
  · rw [Ram.drop_lookup] at he
    split at he
    · cases he
    · exact hr.size key' e he

/-- The bookkeeping of `_set`: what comes off is what was added for the old entry. -/
theorem put {key : K} {value : V} {m : Ref} {size : Nat} (hr : RamExact h r) (hm : h.size m = size) :
    RamExact h (r.put h key value m size) := by
  refine ⟨?_, fun key' e he => ?_⟩
  · have hadded : (r.put h key value m size).addedBytes =
        r.addedBytes - ((r.store.lookup key).map fun e => (e.added : Int)).getD 0 + size := by
      simp [Ram.put, Ram.addedBytes, Dict.sumBy_insert]
    rw [hadded, ← hr.total]
    cases he : r.store.lookup key with
    | none => simp [Ram.put, he]
    | some e => simp [Ram.put, he, hr.size key e he]
  · rw [Ram.put_lookup] at he
    split at he
    · cases he; exact hm
    · exact hr.size key' e he

/-- `set` with a dict that the tier holds, if at all, under this key and with this size. -/
theorem set {key : K} {value : V} {m : Ref} {w : RamWrite K} (hr : RamExact h r)
    (hm : ∀ key' e, r.store.lookup key' = some e → e.metadata = m → r.ends w = .stored → e.added = w.size) :
    RamExact (r.set h key value m w).2.1 (r.set h key value m w).2.2 := by
  have hk : RamExact (h.setKey m key) r := hr.congr fun _ _ _ => Heap.setKey_size ..
  rcases Ram.set_cases h r key value m w with ⟨_, he⟩ | ⟨b, _, he⟩ | ⟨hs, he⟩ <;> rw [he]
  · exact hk.drop key
  · exact hk
  · have hsized : RamExact ((h.setKey m key).setSize m w.size) r := by
      refine hk.congr fun key' e hl => ?_
      rw [Heap.setSize_size]
      split
      · rename_i hem
        rw [hk.size key' e hl, hm key' e hl hem hs]
      · rfl
    refine Ram.enforce_keeps (P := fun r => RamExact _ r) (fun r key hr => hr.drop key) w (hsized.put ?_)
    rw [Heap.setSize_size, if_pos rfl]

theorem nonneg (hr : RamExact h r) : 0 ≤ r.currentSizeBytes := by
  rw [hr.total]
  exact Dict.sumBy_nonneg fun _ e => Int.natCast_nonneg e.added

end RamExact

/-- What the RAM tier holds after a `set` is the new entry or was there before. -/
theorem Ram.set_lookup {h : Heap K} {r : Ram K V} {key key' : K} {value : V} {m : Ref} {w : RamWrite K}
    {e : RamEntry V} (he : (r.set h key value m w).2.2.store.lookup key' = some e) :
    (key' = key ∧ e.metadata = m ∧ r.ends w = .stored) ∨ r.store.lookup key' = some e := by
  have hdrop : ∀ (h : Heap K) (P : RamEntry V → K → Prop) (r : Ram K V) (key : K),
      (∀ key e, r.store.lookup key = some e → P e key) →
      ∀ key' e, (r.drop h key).store.lookup key' = some e → P e key' := by
    intro h P r key hr key' e he
    rw [Ram.drop_lookup] at he
    split at he
    · cases he
    · exact hr key' e he
  rcases Ram.set_cases h r key value m w with ⟨_, heq⟩ | ⟨b, _, heq⟩ | ⟨hs, heq⟩ <;> rw [heq] at he
  · exact hdrop _ (fun e key' => _ ∨ r.store.lookup key' = some e) r key (fun _ _ h => .inr h) key' e he
  · exact .inr he
  · refine Ram.enforce_keeps (P := fun r' => ∀ key' e, r'.store.lookup key' = some e →
      (key' = key ∧ e.metadata = m ∧ r.ends w = .stored) ∨ r.store.lookup key' = some e)
      (fun r' key hr => hdrop _ (fun e key' => _ ∨ _) r' key hr) w (fun key' e he => ?_) key' e he
    rw [Ram.put_lookup] at he
    split at he
    · rename_i hk; cases he; exact .inl ⟨hk, rfl, hs⟩
    · exact .inr he

/-- What a `set` of the slower tier does to the sizes. -/
theorem Slow.set_size (h : Heap K) (s : Slow K V) (key : K) (value : V) (m r : Ref) (how : How) (w : SlowWrite) :
    (s.set h key value m how w).2.1.size r =
      if r = m ∧ w.unusable = false ∧ w.raises = false ∧ s.kind.assignsSize how w = true then w.nbytes
      else h.size r := by
  unfold Slow.set
  cases w.unusable <;> cases s.kind.assignsSize how w <;> cases w.raises <;>
    simp [Heap.setKey_size, Heap.setSize_size]

/-! ## Who owns a dict -/

/-- Every dict the tiers keep belongs to the key they keep it under. -/
structure Owned (s : State K V) (owner : Ref → Option K) : Prop where
  ram : ∀ key e, s.ram.store.lookup key = some e → e.metadata < s.heap.next ∧ owner e.metadata = some key
  touched : ∀ key r, s.slow.touched.lookup key = some r → r < s.heap.next ∧ owner r = some key

namespace Owned

variable {s s' : State K V} {owner : Ref → Option K}

theorem mono (h : Owned s owner) (hram : ∀ key e, s'.ram.store.lookup key = some e → s.ram.store.lookup key = some e)
    (htouched : ∀ key r, s'.slow.touched.lookup key = some r → s.slow.touched.lookup key = some r)
    (hnext : s.heap.next ≤ s'.heap.next) : Owned s' owner where
  ram key e he := ⟨Nat.lt_of_lt_of_le (h.ram key e (hram key e he)).1 hnext, (h.ram key e (hram key e he)).2⟩
  touched key r hr :=
    ⟨Nat.lt_of_lt_of_le (h.touched key r (htouched key r hr)).1 hnext, (h.touched key r (htouched key r hr)).2⟩

/-- A new dict for the key. -/
theorem alloc (h : Owned s owner) (key : K) (m : Meta K) :
    Owned { s with heap := s.heap.alloc m } (Function.update owner s.heap.next (some key)) where
  ram key' e he := by
    obtain ⟨hlt, ho⟩ := h.ram key' e he
    exact ⟨Nat.lt_succ_of_lt hlt, by rw [Function.update_of_ne (Nat.ne_of_lt hlt)]; exact ho⟩
  touched key' r hr := by
    obtain ⟨hlt, ho⟩ := h.touched key' r hr
    exact ⟨Nat.lt_succ_of_lt hlt, by rw [Function.update_of_ne (Nat.ne_of_lt hlt)]; exact ho⟩

/-- The RAM tier is given a dict of the key. -/
theorem writeFirstTier {key : K} {value : V} {m : Ref} {w : RamWrite K} (h : Owned s owner)
    (hm : m < s.heap.next) (ho : owner m = some key) : Owned (s.writeFirstTier key value m w).2 owner where
  ram key' e he := by
    simp only [State.writeFirstTier, Ram.set_next] at he ⊢
    rcases Ram.set_lookup he with ⟨hk, hem, _⟩ | hold
    · rw [hem, hk]; exact ⟨hm, ho⟩
    · exact h.ram key' e hold
  touched key' r hr := by
    simp only [State.writeFirstTier, Ram.set_next]
    exact h.touched key' r hr

end Owned

/-- The byte accounting of the RAM tier is exact, and every dict has one owner. -/
def Exact (s : State K V) : Prop := RamExact s.heap s.ram ∧ ∃ owner, Owned s owner

namespace Exact

variable {s : State K V} {key : K}

theorem dropRam (h : Exact s) (key : K) : Exact { s with ram := s.ram.drop s.heap key } := by
  obtain ⟨hr, owner, ho⟩ := h
  refine ⟨hr.drop key, owner, ho.mono (fun key' e he => ?_) (fun _ _ hr => hr) (Nat.le_refl _)⟩
  rw [Ram.drop_lookup] at he
  split at he
  · cases he
  · exact he

theorem readOnce (h : Exact s) (keys : List K) : Exact { s with readOnce := keys } :=
  ⟨h.1, h.2.elim fun owner ho => ⟨owner, ho.ram, ho.touched⟩⟩

theorem removeSlow (h : Exact s) (key : K) (fails : Bool) : Exact { s with slow := s.slow.remove key fails } := by
  obtain ⟨hr, owner, ho⟩ := h
  exact ⟨hr, owner, ho.mono (fun _ _ he => he) (fun _ _ hr => Slow.remove_touched hr) (Nat.le_refl _)⟩

/-- A dict the RAM tier does not hold is changed, and new ones are made. -/
theorem ofHeap {s' : State K V} (h : Exact s) (hram : s'.ram = s.ram)
    (htouched : ∀ key r, s'.slow.touched.lookup key = some r → s.slow.touched.lookup key = some r)
    (hnext : s.heap.next ≤ s'.heap.next)
    (hsize : ∀ key e, s.ram.store.lookup key = some e → s'.heap.size e.metadata = s.heap.size e.metadata) :
    Exact s' := by
  obtain ⟨hr, owner, ho⟩ := h
  refine ⟨?_, owner, ho.mono (fun key e he => by rwa [hram] at he) htouched hnext⟩
  rw [hram]
  exact hr.congr hsize

theorem writeFromMemory {w : SlowWrite} (h : Exact s) : Exact (s.writeFromMemory key w) := by
  unfold State.writeFromMemory
  split
  · exact h
  · have ⟨_, owner, ho⟩ := h
    refine h.ofHeap rfl (fun key r hr => ?_) ?_ fun key e he => ?_
    · rwa [(Slow.set_kind ..).2.2] at hr
    · simp [Slow.set_next]
    · have hlt := (ho.ram key e he).1
      rw [Heap.size, Slow.set_dict_of_ne _ _ _ _ _ _ _ _ (Nat.ne_of_lt hlt), Heap.alloc_dict_of_lt hlt, Heap.size]

theorem settleCallRefs {inp : SetInput K V} (h : Exact s) : Exact (s.settleCallRefs inp) := by
  have hs : Settles s (s.settleCallRefs inp) (fun _ => none) inp.key := .settleCallRefs inp
  have ⟨_, owner, ho⟩ := h
  refine h.ofHeap hs.ram hs.touched hs.next fun key e he => ?_
  rw [Heap.size, hs.dict _ (ho.ram key e he).1, Heap.size]

/-- `_write_persistent_tiers` with a dict whose size it assigns, if the RAM tier holds it, as it is. -/
theorem writePersistentTiers {m : Ref} {serialized isPrivate : Bool} {inp : SetInput K V} (h : Exact s)
    (hm : ∀ key e, s.ram.store.lookup key = some e → e.metadata = m →
      ((State.handOver s.slow (if s.heap.size m = 0 then inp.costModelSize else s.heap.size m) serialized isPrivate
        inp).any fun how => inp.taken s how && s.slow.kind.assignsSize how inp.slow) = true →
      e.added = inp.slow.nbytes) :
    Exact (s.writePersistentTiers m serialized isPrivate inp).2 := by
  unfold State.writePersistentTiers
  dsimp only
  split
  · exact h
  · rename_i how hhow
    refine h.ofHeap rfl (fun key r hr => ?_) ?_ fun key e he => ?_
    · rwa [(Slow.set_kind ..).2.2] at hr
    · simp [Slow.set_next]
    · rw [Slow.set_size]
      split
      · rename_i hassign
        obtain ⟨hem, hu, hr, ha⟩ := hassign
        rw [← hm key e he hem (by simp [hhow, SetInput.taken, hu, hr, ha]), h.1.size key e he]
      · rfl

theorem setDiskAlone (h : Exact s) (m : Ref) (b : Bool) : Exact { s with heap := s.heap.setDiskAlone m b } :=
  h.ofHeap rfl (fun _ _ hr => hr) (Nat.le_refl _) fun _ _ _ => Heap.setDiskAlone_size ..

/-- `write_first_tier` with a dict of the key. -/
theorem writeFirstTier {value : V} {m : Ref} {w : RamWrite K} {owner : Ref → Option K} (h : Exact s)
    (ho : Owned s owner) (hlt : m < s.heap.next) (hown : owner m = some key)
    (hm : ∀ key' e, s.ram.store.lookup key' = some e → e.metadata = m → s.ram.ends w = .stored → e.added = w.size) :
    Exact (s.writeFirstTier key value m w).2 :=
  ⟨h.1.set hm, owner, ho.writeFirstTier hlt hown⟩

end Exact

/-! ## `set` -/

section Set

variable {s : State K V} {inp : SetInput K V}

theorem Exact.persistPart {s₁ : State K V} (h : Exact s₁) (hat : AtWrite s s₁ inp) (hbig : inp.big = false)
    (hnew : ∀ key e, s₁.ram.store.lookup key = some e → e.metadata = s.heap.next → inp.assigns s = true →
      e.added = inp.slow.nbytes) :
    Exact (s₁.persistPart s.heap.next false inp) := by
  have hset : Settles s₁ (s₁.settleCallRefs inp) (fun _ => none) inp.key := .settleCallRefs inp
  have hat₂ := hat.settleCallRefs
  have heq := hat₂.handOver_eq
  unfold State.persistPart
  simp only [Bool.false_eq_true, if_false]
  split
  · rename_i hp
    refine h.settleCallRefs.writePersistentTiers fun key e he hem hassign => ?_
    rw [hset.ram] at he
    refine hnew key e he hem ?_
    simp only [hbig, Bool.not_false, Bool.true_and] at heq
    rw [heq, hat₂.taken_eq, hat₂.kind] at hassign
    simp only [SetInput.assigns, hp, Bool.true_and]
    exact hassign
  · exact h.settleCallRefs

/-- The new dict, before any tier has it. -/
theorem Exact.alloc (h : Exact s) (m : Meta K) : Exact { s with heap := s.heap.alloc m } := by
  have ⟨_, owner, ho⟩ := h
  refine h.ofHeap rfl (fun _ _ h => h) (Nat.le_succ _) fun key e he => ?_
  rw [Heap.size, Heap.alloc_dict_of_lt (ho.ram key e he).1, Heap.size]

theorem Exact.set_small (h : Exact s) (hbig : inp.big = false) (hc : SizesAgree s (.set inp)) :
    Exact (s.set inp) := by
  have ⟨_, owner, ho⟩ := h
  have hfresh : ∀ key e, s.ram.store.lookup key = some e → e.metadata ≠ s.heap.next := fun key e he =>
    Nat.ne_of_lt (ho.ram key e he).1
  have h₁ : Exact (({ s with heap := s.heap.alloc inp.metadata } : State K V).writeFirstTier inp.key inp.value
      s.heap.next inp.ram).2 :=
    (h.alloc inp.metadata).writeFirstTier (ho.alloc inp.key inp.metadata) (Nat.lt_succ_self _)
      (Function.update_self ..) fun key e he hem => absurd hem (hfresh key e he)
  have hat := AtWrite.ofWriteFirstTier s hbig
  unfold State.set
  simp only [hbig, Bool.false_eq_true, if_false]
  split
  · exact h₁
  · refine h₁.persistPart hat hbig fun key e he hem hassigns => ?_
    rcases Ram.set_lookup he with ⟨hkey, -, hstored⟩ | hold
    · -- The RAM tier holds the new dict: under this key, with the size it measured.
      have hkept : inp.keptInRam s = true := by
        rw [hkey] at he
        simp only [State.writeFirstTier] at he
        simp [SetInput.keptInRam, hbig, he, hem]
      rw [hc hkept hassigns, ← h₁.1.size key e he, hem, hat.size]
      simp [SetInput.sizeSeen, hbig, show s.ram.ends inp.ram = .stored from hstored]
    · exact absurd hem (hfresh key e hold)

theorem writePersistentTiers_owned {s₁ : State K V} {m : Ref} {serialized isPrivate : Bool}
    {owner : Ref → Option K} (h : Owned s₁ owner) :
    Owned (s₁.writePersistentTiers m serialized isPrivate inp).2 owner := by
  unfold State.writePersistentTiers
  dsimp only
  split
  · exact h
  · exact h.mono (fun _ _ he => he) (fun _ _ hr => by rwa [(Slow.set_kind ..).2.2] at hr) (by simp [Slow.set_next])

theorem writePersistentTiers_next (s₁ : State K V) (m : Ref) (serialized isPrivate : Bool) :
    (s₁.writePersistentTiers m serialized isPrivate inp).2.heap.next = s₁.heap.next := by
  unfold State.writePersistentTiers
  dsimp only
  split
  · rfl
  · exact Slow.set_next ..

/-- The first tier gets the value the slower one did not take. -/
theorem Exact.fallBack {s₁ : State K V} {m : Ref} {serialized isPrivate : Bool} {owner : Ref → Option K}
    (h : Exact s₁) (ho : Owned s₁ owner) (hlt : m < s₁.heap.next) (hown : owner m = some inp.key)
    (hfresh : ∀ key e, s₁.ram.store.lookup key = some e → e.metadata ≠ m) :
    Exact (({ (s₁.writePersistentTiers m serialized isPrivate inp).2 with
      heap := (s₁.writePersistentTiers m serialized isPrivate inp).2.heap.setDiskAlone m false } :
      State K V).writeFirstTier inp.key inp.value m inp.ram).2 := by
  have h₂ : Exact (s₁.writePersistentTiers m serialized isPrivate inp).2 :=
    h.writePersistentTiers fun key e he hem _ => absurd hem (hfresh key e he)
  have ho₂ : Owned (s₁.writePersistentTiers m serialized isPrivate inp).2 owner := writePersistentTiers_owned ho
  have hlt₂ : m < (s₁.writePersistentTiers m serialized isPrivate inp).2.heap.next := by
    rw [writePersistentTiers_next]; exact hlt
  have hram₂ : (s₁.writePersistentTiers m serialized isPrivate inp).2.ram = s₁.ram := writePersistentTiers_ram ..
  rw [← hram₂] at hfresh
  generalize (s₁.writePersistentTiers m serialized isPrivate inp).2 = s₂ at h₂ ho₂ hlt₂ hfresh ⊢
  exact (h₂.setDiskAlone m false).writeFirstTier (ho₂.mono (fun _ _ he => he) (fun _ _ hr => hr) (Nat.le_refl _))
    hlt₂ hown fun key e he hem => absurd hem (hfresh key e he)

/-- The slower tier's part of `set` when the first tier was passed over: the RAM tier does not hold the
new dict. -/
theorem Exact.persistPart_alone {s₁ : State K V} {m : Ref} {owner : Ref → Option K} (h : Exact s₁)
    (ho : Owned s₁ owner) (hlt : m < s₁.heap.next) (hown : owner m = some inp.key)
    (hfresh : ∀ key e, s₁.ram.store.lookup key = some e → e.metadata ≠ m) :
    Exact (s₁.persistPart m true inp) := by
  have hset : Settles s₁ (s₁.settleCallRefs inp) (fun _ => none) inp.key := .settleCallRefs inp
  have h₂ : Exact (s₁.settleCallRefs inp) := h.settleCallRefs
  have ho₂ : Owned (s₁.settleCallRefs inp) owner :=
    ho.mono (fun _ _ he => by rwa [hset.ram] at he) hset.touched hset.next
  have hlt₂ := Nat.lt_of_lt_of_le hlt hset.next
  rw [← hset.ram] at hfresh
  unfold State.persistPart
  simp only [if_true]
  generalize s₁.settleCallRefs inp = s₂ at h₂ ho₂ hlt₂ hfresh ⊢
  split
  · have hsub : ∀ key e, (s₂.ram.drop (s₂.heap.setDiskAlone m true) inp.key).store.lookup key = some e →
        s₂.ram.store.lookup key = some e := by
      intro key e he
      rw [Ram.drop_lookup] at he
      split at he
      · cases he
      · exact he
    have h₃ := (h₂.setDiskAlone m true).dropRam inp.key
    have ho₃ : Owned { s₂ with
        heap := s₂.heap.setDiskAlone m true
        ram := s₂.ram.drop (s₂.heap.setDiskAlone m true) inp.key } owner :=
      ho₂.mono hsub (fun _ _ hr => hr) (Nat.le_refl _)
    have hfresh₃ : ∀ key e, (s₂.ram.drop (s₂.heap.setDiskAlone m true) inp.key).store.lookup key = some e →
        e.metadata ≠ m := fun key e he => hfresh key e (hsub key e he)
    split
    · exact h₃.writePersistentTiers fun key e he hem _ => absurd hem (hfresh₃ key e he)
    · exact h₃.fallBack ho₃ hlt₂ hown hfresh₃
  · exact h₂.writeFirstTier ho₂ hlt₂ hown fun key e he hem => absurd hem (hfresh key e he)

theorem Exact.set_big (h : Exact s) (hbig : inp.big = true) : Exact (s.set inp) := by
  have ⟨_, owner, ho⟩ := h
  have hfresh : ∀ key e, s.ram.store.lookup key = some e → e.metadata ≠ s.heap.next := fun key e he =>
    Nat.ne_of_lt (ho.ram key e he).1
  have ho₀ := ho.alloc inp.key inp.metadata
  unfold State.set
  simp only [hbig, if_true]
  split
  · refine Exact.persistPart_alone ?_ (ho₀.mono (fun _ _ he => he) (fun _ _ hr => hr) (Nat.le_refl _))
      (Nat.lt_succ_self _) (Function.update_self ..) hfresh
    refine (h.alloc inp.metadata).ofHeap rfl (fun _ _ hr => hr) (Nat.le_refl _) fun key e he => ?_
    rw [Heap.setSize_size, if_neg (hfresh key e he)]
  · exact Exact.persistPart_alone (h.alloc inp.metadata) ho₀ (Nat.lt_succ_self _) (Function.update_self ..) hfresh

theorem Exact.set (h : Exact s) (hc : SizesAgree s (.set inp)) : Exact (s.set inp) := by
  cases hbig : inp.big with
  | false => exact h.set_small hbig hc
  | true => exact h.set_big hbig

end Set

/-! ## `get` -/

section Get

variable {s : State K V} {key : K} {inp : GetInput K}

/-- The RAM tier that still holds the key after a miss raised. -/
theorem State.readRam_none (hmiss : (s.readRam key inp).1 = none) (e : RamEntry V)
    (he : (s.readRam key inp).2.ram.store.lookup key = some e) :
    inp.ramRaises = true ∧ (s.readRam key inp).2 = s := by
  have hdropped : (s.ram.drop s.heap key).store.lookup key = none := by simp [Ram.drop_lookup]
  unfold State.readRam at hmiss he ⊢
  split at hmiss
  · rename_i hnone; simp [hnone] at he
  · rename_i e' hsome
    simp only [hsome] at he ⊢
    split at hmiss
    · rename_i hraises; exact ⟨hraises, by simp [hraises]⟩
    · rename_i hraises
      simp only [hraises, Bool.false_eq_true, if_false] at he
      split at hmiss
      · rename_i hu; simp [hu, hdropped] at he
      · rename_i hu
        split at hmiss
        · rename_i hx; simp [hu, hx, hdropped] at he
        · cases hmiss

theorem Exact.readRam (h : Exact s) : Exact (s.readRam key inp).2 := by
  unfold State.readRam
  split
  · exact h
  · split
    · exact h
    · split
      · exact h.dropRam key
      · split
        · exact h.dropRam key
        · dsimp only
          split
          · exact (h.dropRam key).readOnce _
          · exact h.readOnce _

/-- Everything the slower tier's `get` can hand out: the dict it remembers, or a new one. -/
theorem Slow.get_cases {h h' : Heap K} {slow slow' : Slow K V} {entry : SlowEntry K V} {m : Ref}
    (hg : slow.get h key = (some (entry, m), h', slow')) :
    (slow.entries.lookup key).isSome ∧
    ((slow.kind = .file ∧ slow.touched.lookup key = some m ∧ h' = h ∧ slow' = slow) ∨
    (m = h.next ∧ h' = h.alloc entry.metadata ∧
      (slow' = slow ∨ slow' = { slow with touched := slow.touched.insert key h.next }))) := by
  unfold Slow.get at hg
  split at hg
  · cases hg
  · rename_i e he
    refine ⟨by simp [he], ?_⟩
    split at hg
    · rename_i hkind ht; cases hg; exact .inl ⟨hkind, ht, rfl, rfl⟩
    · cases hg; exact .inr ⟨rfl, rfl, .inr rfl⟩
    · cases hg; exact .inr ⟨rfl, rfl, .inl rfl⟩

theorem Exact.promote {value : V} {m : Ref} {owner : Ref → Option K} (h : Exact s) (ho : Owned s owner)
    (hlt : m < s.heap.next) (hown : owner m = some key)
    (hm : ∀ key' e, s.ram.store.lookup key' = some e → e.metadata = m →
      (decide (key ∈ s.readOnce) || inp.cheap) = true → (s.heap.dict m).diskAlone = false →
      s.ram.ends inp.ram = .stored → e.added = inp.ram.size) :
    Exact (s.promote key value m inp) := by
  have h' := h.readOnce (s.readOnce.erase key)
  have ho' : Owned { s with readOnce := s.readOnce.erase key } owner := ⟨ho.ram, ho.touched⟩
  unfold State.promote
  dsimp only
  split
  · exact h'
  · rename_i halone
    split
    · rename_i hread
      exact h'.writeFirstTier ho' hlt hown fun key' e he hem => hm key' e he hem (by simp [hread]) (by simpa using halone)
    · split
      · exact h.readOnce _
      · rename_i hcheap
        have hw : Exact (({ s with readOnce := s.readOnce.erase key } : State K V).writeFirstTier key value m
            inp.ram).2 :=
          h'.writeFirstTier ho' hlt hown fun key' e he hem =>
            hm key' e he hem (by simp at hcheap; simp [hcheap]) (by simpa using halone)
        split
        · exact hw.readOnce _
        · exact hw

theorem Exact.readSlow (h : Exact s)
    (hm : (inp.slowRaises || inp.slowUnreadable) = false → inp.slowExpired = false →
      (s.slow.entries.lookup key).isSome = true → (decide (key ∈ s.readOnce) || inp.cheap) = true →
      s.ram.ends inp.ram = .stored → ∀ e, s.ram.store.lookup key = some e → s.slow.kind = .file →
      s.slow.touched.lookup key = some e.metadata → (s.heap.dict e.metadata).diskAlone = false →
      inp.ram.size = e.added) :
    Exact (s.readSlow key inp).2 := by
  unfold State.readSlow
  split
  · exact h
  · rename_i hreads
    split
    · rename_i heap slow hg
      have heq : heap = s.heap ∧ slow = s.slow := by
        unfold Slow.get at hg
        split at hg
        · cases hg; exact ⟨rfl, rfl⟩
        · split at hg <;> cases hg
      obtain ⟨rfl, rfl⟩ := heq
      exact h
    · rename_i entry m heap slow hg
      obtain ⟨hsome, hcases⟩ := Slow.get_cases hg
      have ⟨_, owner, ho⟩ := h
      obtain ⟨owner', h', ho', hlt, hown, hheld⟩ : ∃ owner', Exact { s with heap, slow } ∧
          Owned { s with heap, slow } owner' ∧ m < heap.next ∧ owner' m = some key ∧
          ∀ key' e, s.ram.store.lookup key' = some e → e.metadata = m →
            key' = key ∧ s.slow.kind = .file ∧ s.slow.touched.lookup key = some m ∧ heap = s.heap := by
        rcases hcases with ⟨hkind, ht, rfl, rfl⟩ | ⟨rfl, rfl, hslow⟩
        · have ⟨hlt, hown⟩ := ho.touched key m ht
          refine ⟨owner, h, ho, hlt, hown, fun key' e he hem => ⟨?_, hkind, ht, rfl⟩⟩
          have hkey := (ho.ram key' e he).2
          rw [hem, hown] at hkey
          exact (Option.some.inj hkey).symm
        · have ho₁ := ho.alloc key entry.metadata
          have ho₂ : Owned { s with heap := s.heap.alloc entry.metadata, slow }
              (Function.update owner s.heap.next (some key)) := by
            rcases hslow with rfl | rfl
            · exact ho₁
            · refine ⟨ho₁.ram, fun key' r hr => ?_⟩
              rw [Dict.lookup_insert'] at hr
              split at hr
              · rename_i hk; cases hr; rw [hk]; exact ⟨Nat.lt_succ_self _, Function.update_self ..⟩
              · exact ho₁.touched key' r hr
          exact ⟨_, ⟨(h.alloc entry.metadata).1, _, ho₂⟩, ho₂, Nat.lt_succ_self _, Function.update_self ..,
            fun key' e he hem => absurd hem (Nat.ne_of_lt (ho.ram key' e he).1)⟩
      split
      · exact h'.removeSlow key inp.removeFails
      · rename_i hexp
        have hprom : ∀ slow', (∀ key r, slow'.touched.lookup key = some r → slow.touched.lookup key = some r) →
            Exact (({ s with heap, slow := slow' } : State K V).promote key entry.value m inp) := by
          intro slow' htouched
          have ho₂ : Owned { s with heap, slow := slow' } owner' :=
            ho'.mono (fun _ _ he => he) htouched (Nat.le_refl _)
          refine Exact.promote (h'.ofHeap rfl htouched (Nat.le_refl _) fun _ _ _ => rfl) ho₂ hlt hown
            fun key' e he hem hprom halone hends => ?_
          obtain ⟨rfl, hkind, ht, rfl⟩ := hheld key' e he hem
          subst hem
          exact (hm (by simpa using hreads) (by simpa using hexp) hsome hprom hends e he hkind ht halone).symm
        dsimp only
        split
        · exact hprom _ fun _ _ hr => Slow.remove_touched hr
        · exact hprom _ fun _ _ hr => hr

theorem Exact.get (h : Exact s) (hc : SizesAgree s (.get key inp)) : Exact (s.get key inp).2 := by
  have hr : Exact (s.readRam key inp).2 := h.readRam
  have hheld := @State.readRam_none _ _ _ s key inp
  unfold State.get
  split
  · rename_i v s' hg
    rw [hg] at hr
    exact hr
  · rename_i s' hg
    rw [hg] at hr hheld
    refine hr.readSlow fun hreads hexp hsome hprom hends e he hkind ht halone => ?_
    obtain ⟨hraises, rfl⟩ := hheld rfl e he
    refine hc ?_ e he hkind ht halone
    simp only [GetInput.promotesAgain, hraises, hreads, hexp, hsome, hprom, hends, Bool.not_false, Bool.and_self,
      decide_true]

end Get

/-! ## One step -/

theorem Exact.land {s : State K V} {ok : Bool} (h : Exact s) :
    Exact { s with heap := (s.slow.land s.heap ok).1, slow := (s.slow.land s.heap ok).2 } := by
  have ⟨_, owner, ho⟩ := h
  unfold Slow.land
  split
  · exact h
  · rename_i key entry rest hq
    split
    · split
      · have ho₁ := ho.alloc key entry.metadata
        refine ⟨(h.alloc entry.metadata).1, _, ho₁.ram, fun key' r hr => ?_⟩
        rw [Dict.lookup_insert'] at hr
        split at hr
        · rename_i hk; cases hr; rw [hk]; exact ⟨Nat.lt_succ_self _, Function.update_self ..⟩
        · exact ho₁.touched key' r hr
      · exact h.ofHeap rfl (fun _ _ hr => hr) (Nat.le_refl _) fun _ _ _ => rfl
    · exact h.ofHeap rfl (fun _ _ hr => hr) (Nat.le_refl _) fun _ _ _ => rfl

/-- A step that assigns no other size keeps the accounting exact. -/
theorem Exact.step {s s' : State K V} {op : Op K V} (h : Exact s) (hs : SizedSteps s op s') : Exact s' := by
  obtain ⟨hc, out, hs⟩ := hs
  cases op with
  | set inp =>
      simp only [Tiered.step] at hs
      split at hs <;> cases hs
      exact h.set hc
  | get key inp =>
      simp only [Tiered.step] at hs
      split at hs <;> cases hs
      exact h.get hc
  | delete key fails =>
      simp only [Tiered.step] at hs
      split at hs <;> cases hs
      exact (h.dropRam key).removeSlow key fails
  | persist key w => cases hs; exact h.writeFromMemory
  | evictRam key => cases hs; exact h.dropRam key
  | evictSlow key =>
      simp only [Tiered.step] at hs
      split at hs <;> cases hs
      exact h.removeSlow key false
  | land ok => cases hs; exact h.land

theorem Exact.empty (kind : SlowKind) (cap maxEntries maxSizeBytes : Option Nat) :
    Exact (State.empty kind cap maxEntries maxSizeBytes : State K V) :=
  ⟨⟨rfl, fun key e he => by simp [State.empty] at he⟩, fun _ => none,
    fun key e he => by simp [State.empty] at he, fun key r hr => by simp [State.empty] at hr⟩

end Cash.Tiered
