import Cash.Tiered.Ram
import Cash.Tiered.Abstract

/-!
# The tiers and what they hold
-/

namespace Cash.Tiered

variable {K V : Type}

/-!
## What the RAM tier's operations do to its entries

Every eviction is a sequence of `drop`s. A property that `drop` keeps is kept by all of them
(`evictLru_keeps`, `evictToByteCap_keeps`, `shed_keeps`).
-/

/-! ### The heap -/

namespace Heap

@[simp] theorem alloc_next (h : Heap K) (m : Meta K) : (h.alloc m).next = h.next + 1 := rfl

@[simp] theorem alloc_dict_next (h : Heap K) (m : Meta K) : (h.alloc m).dict h.next = m := by simp [alloc]

theorem alloc_dict_of_lt {h : Heap K} {m : Meta K} {r : Ref} (hr : r < h.next) : (h.alloc m).dict r = h.dict r := by
  have : r ≠ h.next := Nat.ne_of_lt hr
  simp [alloc, this]

@[simp] theorem update_next (h : Heap K) (r : Ref) (f : Meta K → Meta K) : (h.update r f).next = h.next := rfl

theorem update_dict (h : Heap K) (r r' : Ref) (f : Meta K → Meta K) :
    (h.update r f).dict r' = if r' = r then f (h.dict r) else h.dict r' := rfl

theorem setKey_size (h : Heap K) (r r' : Ref) (key : K) : (h.setKey r key).size r' = h.size r' := by
  simp only [size, setKey, update_dict]
  split <;> simp_all

theorem setDiskAlone_size (h : Heap K) (r r' : Ref) (b : Bool) : (h.setDiskAlone r b).size r' = h.size r' := by
  simp only [size, setDiskAlone, update_dict]
  split <;> simp_all

theorem setSize_size (h : Heap K) (r r' : Ref) (n : Nat) :
    (h.setSize r n).size r' = if r' = r then n else h.size r' := by
  simp only [size, setSize, update_dict]
  split <;> simp

end Heap

/-! ### Evictions -/

namespace Ram

variable [DecidableEq K]

theorem drop_lookup (h : Heap K) (r : Ram K V) (key key' : K) :
    (r.drop h key).store.lookup key' = if key' = key then none else r.store.lookup key' := by
  unfold drop
  split
  · rename_i hn
    split
    · subst_vars; exact hn
    · rfl
  · simp [Dict.lookup_erase']

section Keeps

variable {h : Heap K} {P : Ram K V → Prop}

theorem foldl_drop_keeps (hP : ∀ r key, P r → P (r.drop h key)) (keys : List K) {r : Ram K V} (hr : P r) :
    P (keys.foldl (drop h) r) := by
  induction keys generalizing r with
  | nil => exact hr
  | cons key rest ih => exact ih (hP _ _ hr)

theorem evictLru_keeps (hP : ∀ r key, P r → P (r.drop h key)) (count : Nat) (order : List K) {r : Ram K V}
    (hr : P r) : P (r.evictLru h count order) :=
  foldl_drop_keeps hP _ hr

theorem evictToByteCap_keeps (hP : ∀ r key, P r → P (r.drop h key)) (cap : Nat) (order : List K) {r : Ram K V}
    (hr : P r) : P (r.evictToByteCap h cap order) := by
  induction order generalizing r with
  | nil => exact hr
  | cons key rest ih =>
      unfold evictToByteCap
      split
      · exact hr
      · exact ih (hP _ _ hr)

theorem shed_keeps (hP : ∀ r key, P r → P (r.drop h key)) (nbytes freed : Nat) (order : List K) {r : Ram K V}
    (hr : P r) : P (shed h nbytes freed r order) := by
  induction order generalizing freed r with
  | nil => exact hr
  | cons key rest ih =>
      unfold shed
      split
      · exact hr
      · split
        · exact ih _ hr
        · exact ih _ (hP _ _ hr)

theorem enforceEntries_keeps (hP : ∀ r key, P r → P (r.drop h key)) (order : List K) {r : Ram K V} (hr : P r) :
    P (r.enforceEntries h order) := by
  unfold enforceEntries
  split
  · exact hr
  · exact evictLru_keeps hP _ _ hr

theorem enforceBytes_keeps (hP : ∀ r key, P r → P (r.drop h key)) (order : List K) {r : Ram K V} (hr : P r) :
    P (r.enforceBytes h order) := by
  unfold enforceBytes
  split
  · exact hr
  · split
    · exact evictToByteCap_keeps hP _ _ hr
    · exact hr

theorem enforcePressure_keeps (hP : ∀ r key, P r → P (r.drop h key)) (w : Option (Nat × List K)) {r : Ram K V}
    (hr : P r) : P (r.enforcePressure h w) := by
  unfold enforcePressure
  split
  · exact hr
  · exact shed_keeps hP _ _ _ hr

theorem enforce_keeps (hP : ∀ r key, P r → P (r.drop h key)) (w : RamWrite K) {r : Ram K V} (hr : P r) :
    P (r.enforce h w) :=
  enforcePressure_keeps hP _ (enforceBytes_keeps hP _ (enforceEntries_keeps hP _ hr))

end Keeps

/-! ### What `set` leaves -/

theorem put_lookup (h : Heap K) (r : Ram K V) (key key' : K) (value : V) (m : Ref) (size : Nat) :
    (r.put h key value m size).store.lookup key' =
      if key' = key then some ⟨m, value, size⟩ else r.store.lookup key' := by
  simp [put, Dict.lookup_insert']

theorem set_fst (h : Heap K) (r : Ram K V) (key : K) (value : V) (m : Ref) (w : RamWrite K) :
    (r.set h key value m w).1 = r.ends w := by
  unfold set
  cases r.ends w <;> rfl

/-- Everything a `set` can do: refuse and drop the key, raise and leave the tier as it was, or store the
entry and drop some entries. -/
theorem set_cases (h : Heap K) (r : Ram K V) (key : K) (value : V) (m : Ref) (w : RamWrite K) :
    (r.ends w = .refused ∧ (r.set h key value m w).2 = (h.setKey m key, r.drop (h.setKey m key) key)) ∨
    (∃ b, r.ends w = .raised b ∧ (r.set h key value m w).2 = (h.setKey m key, r)) ∨
    (r.ends w = .stored ∧ (r.set h key value m w).2 =
      ((h.setKey m key).setSize m w.size,
        (r.put ((h.setKey m key).setSize m w.size) key value m w.size).enforce
          ((h.setKey m key).setSize m w.size) w)) := by
  unfold set
  cases r.ends w with
  | refused => exact .inl ⟨rfl, rfl⟩
  | raised b => exact .inr (.inl ⟨b, rfl, rfl⟩)
  | stored => exact .inr (.inr ⟨rfl, rfl⟩)

end Ram

/-!
## Every tier holds the latest version or none

`Fresh s f`: what the RAM tier holds, and what the slower tier will hold once its queued writes have
landed, is what the abstract store `f` says. Each operation of the tiered backend keeps it.
-/

section

variable [DecidableEq K]

/-! ### The slower tier -/

namespace Slow

theorem settled_queue_append (s : Slow K V) (key key' : K) (e : SlowEntry K V) :
    ({ s with queue := s.queue ++ [(key, e)] } : Slow K V).settled key' =
      if key = key' then some e.value else s.settled key' := by
  simp [settled, List.foldl_append]

private theorem foldl_found_of_not_mem {q : List (K × SlowEntry K V)} {key : K} (hq : ∀ p ∈ q, p.1 ≠ key)
    (found : Option V) : q.foldl (fun found p => if p.1 = key then some p.2.value else found) found = found := by
  induction q generalizing found with
  | nil => rfl
  | cons p q ih =>
      have hp : p.1 ≠ key := hq p (by simp)
      simp only [List.foldl_cons, hp, if_false]
      exact ih (fun p hp => hq p (by simp [hp])) found

private theorem foldl_found_of_mem {q : List (K × SlowEntry K V)} {key : K} (hq : ∃ p ∈ q, p.1 = key)
    (a b : Option V) :
    q.foldl (fun found p => if p.1 = key then some p.2.value else found) a =
      q.foldl (fun found p => if p.1 = key then some p.2.value else found) b := by
  induction q generalizing a b with
  | nil => obtain ⟨p, hp, _⟩ := hq; cases hp
  | cons p q ih =>
      simp only [List.foldl_cons]
      by_cases hp : p.1 = key
      · simp [hp]
      · obtain ⟨p', hp', hk⟩ := hq
        rcases List.mem_cons.mp hp' with rfl | hmem
        · exact absurd hk hp
        · exact ih ⟨p', hmem, hk⟩ _ _

/-- With nothing queued for the key, what is on disk is what will be there. -/
theorem settled_of_not_pending {s : Slow K V} {key : K} (h : s.pending key = false) :
    s.settled key = (s.entries.lookup key).map (·.value) := by
  refine foldl_found_of_not_mem (fun p hp hk => ?_) _
  simp only [pending, List.any_eq_false, decide_eq_true_eq] at h
  exact h p hp hk

theorem settled_remove {s : Slow K V} {key key' : K} {fails : Bool} {v : V}
    (h : (s.remove key fails).settled key' = some v) : s.settled key' = some v := by
  unfold remove at h
  split at h
  · exact h
  · by_cases hq : ∃ p ∈ s.queue, p.1 = key'
    · simpa only [settled, foldl_found_of_mem hq _ ((s.entries.lookup key').map (·.value))] using h
    · have hq' : ∀ p ∈ s.queue, p.1 ≠ key' := fun p hp hk => hq ⟨p, hp, hk⟩
      simp only [settled, foldl_found_of_not_mem hq', Dict.lookup_erase'] at h ⊢
      split at h
      · cases h
      · exact h

/-- A removal that succeeds, with nothing queued for the key, leaves nothing. -/
theorem settled_remove_self {s : Slow K V} {key : K} (h : s.pending key = false) :
    (s.remove key false).settled key = none := by
  have hp : (s.remove key false).pending key = false := h
  rw [settled_of_not_pending hp]
  simp [remove]

/-- A queued write that lands changes nothing about what will be there. -/
theorem settled_land_ok (h : Heap K) (s : Slow K V) (key : K) : (s.land h true).2.settled key = s.settled key := by
  unfold land
  split
  · rfl
  · rename_i key' e rest hq
    have : ∀ touched, ({ s with entries := s.entries.insert key' e, touched := touched, queue := rest } :
        Slow K V).settled key = s.settled key := by
      intro touched
      simp only [settled, hq, List.foldl_cons, Dict.lookup_insert']
      by_cases hk : key = key'
      · subst hk; simp
      · simp [hk, Ne.symm hk]
    simp only [if_true]
    split
    · exact this _
    · exact this s.touched

/-- A queued write that fails leaves what was there before, unless a later one is queued. -/
theorem settled_land_fail {h : Heap K} {s : Slow K V} {key : K} {v : V}
    (hc : ∀ key entry rest, s.queue = (key, entry) :: rest → s.entries.lookup key = none ∨ ∃ p ∈ rest, p.1 = key)
    (hv : (s.land h false).2.settled key = some v) : s.settled key = some v := by
  unfold land at hv
  split at hv
  · exact hv
  · rename_i key' e rest hq
    simp only [Bool.false_eq_true, if_false, settled] at hv
    simp only [settled, hq, List.foldl_cons]
    by_cases hk : key' = key
    · subst hk
      rcases hc key' e rest hq with hnone | hmem
      · by_cases hr : ∃ p ∈ rest, p.1 = key'
        · rw [← hv]; exact foldl_found_of_mem hr _ _
        · rw [foldl_found_of_not_mem (fun p hp hk => hr ⟨p, hp, hk⟩), hnone] at hv
          cases hv
      · rw [← hv]; exact foldl_found_of_mem hmem _ _
    · simpa [hk] using hv

theorem get_settled (h : Heap K) (s : Slow K V) (key key' : K) :
    (s.get h key).2.2.settled key' = s.settled key' := by
  unfold get
  split
  · rfl
  · split <;> rfl

theorem get_some {h : Heap K} {s : Slow K V} {key : K} {e : SlowEntry K V} {m : Ref}
    (hg : (s.get h key).1 = some (e, m)) : s.entries.lookup key = some e := by
  unfold get at hg
  split at hg
  · cases hg
  · rename_i entry he
    split at hg <;> (simp only [Option.some.injEq, Prod.mk.injEq] at hg; rw [he, hg.1])

/-- What a `set` of the slower tier does to what it will hold. -/
theorem set_settled (h : Heap K) (s : Slow K V) (key key' : K) (value : V) (m : Ref) (how : How) (w : SlowWrite) :
    (s.set h key value m how w).2.2.settled key' =
      if key = key' ∧ w.unusable = false ∧ (s.kind.assignsSize how w && w.raises) = false then some value
      else s.settled key' := by
  unfold set
  by_cases hu : w.unusable = true
  · simp [hu]
  · by_cases hr : (s.kind.assignsSize how w && w.raises) = true
    · simp [hu, hr]
    · have hu' : w.unusable = false := by simpa using hu
      have hr' : (s.kind.assignsSize how w && w.raises) = false := by simpa using hr
      simp only [hu', hr', Bool.false_eq_true, if_false, settled_queue_append, and_true]

theorem set_kind (h : Heap K) (s : Slow K V) (key : K) (value : V) (m : Ref) (how : How) (w : SlowWrite) :
    (s.set h key value m how w).2.2.kind = s.kind ∧ (s.set h key value m how w).2.2.cap = s.cap ∧
      (s.set h key value m how w).2.2.touched = s.touched := by
  unfold set
  split
  · exact ⟨rfl, rfl, rfl⟩
  · dsimp only
    split <;> exact ⟨rfl, rfl, rfl⟩

theorem set_dict_of_ne (h : Heap K) (s : Slow K V) (key : K) (value : V) (m r : Ref) (how : How)
    (w : SlowWrite) (hr : r ≠ m) : (s.set h key value m how w).2.1.dict r = h.dict r := by
  unfold Slow.set
  cases w.unusable <;> cases s.kind.assignsSize how w <;> cases w.raises <;>
    simp [Heap.setKey, Heap.setSize, Heap.update_dict, hr]

theorem set_next (h : Heap K) (s : Slow K V) (key : K) (value : V) (m : Ref) (how : How) (w : SlowWrite) :
    (s.set h key value m how w).2.1.next = h.next := by
  unfold Slow.set
  cases w.unusable <;> cases s.kind.assignsSize how w <;> cases w.raises <;> rfl

theorem remove_touched {s : Slow K V} {key key' : K} {fails : Bool} {r : Ref}
    (h : (s.remove key fails).touched.lookup key' = some r) : s.touched.lookup key' = some r := by
  unfold remove at h
  split at h
  · exact h
  · rw [Dict.lookup_erase'] at h
    split at h
    · cases h
    · exact h

end Slow

/-! ### The RAM tier -/

/-- What the RAM tier holds is what `f` says. -/
def RamFresh (r : Ram K V) (f : K → Option V) : Prop := ∀ key e, r.store.lookup key = some e → f key = some e.value

theorem RamFresh.drop {r : Ram K V} {f : K → Option V} (h : Heap K) (key : K) (hr : RamFresh r f) :
    RamFresh (r.drop h key) f := by
  intro key' e he
  rw [Ram.drop_lookup] at he
  split at he
  · cases he
  · exact hr key' e he

/-- `set` leaves the RAM tier fresh when it was so at every other key and a `set` that raises finds no
copy of the key. -/
theorem RamFresh.set {r : Ram K V} {f : K → Option V} {h : Heap K} {key : K} {value : V} {m : Ref}
    {w : RamWrite K} (hf : f key = some value)
    (hother : ∀ key' e, key' ≠ key → r.store.lookup key' = some e → f key' = some e.value)
    (hraise : ∀ b, r.ends w = .raised b → ∀ e, r.store.lookup key = some e → f key = some e.value) :
    RamFresh (r.set h key value m w).2.2 f := by
  rcases Ram.set_cases h r key value m w with ⟨_, he⟩ | ⟨b, hb, he⟩ | ⟨_, he⟩ <;> rw [he]
  · intro key' e hl
    rw [Ram.drop_lookup] at hl
    split at hl
    · cases hl
    · rename_i hne; exact hother key' e hne hl
  · intro key' e hl
    by_cases hk : key' = key
    · subst hk; exact hraise b hb e hl
    · exact hother key' e hk hl
  · refine Ram.enforce_keeps (P := fun r => RamFresh r f) (fun r key hr => hr.drop _ key) w ?_
    intro key' e hl
    rw [Ram.put_lookup] at hl
    split at hl
    · rename_i hk; cases hl; rw [hk]; exact hf
    · rename_i hk; exact hother key' e hk hl

/-! ### Both tiers -/

/-- Both tiers hold what `f` says, or nothing. -/
structure Fresh (s : State K V) (f : K → Option V) : Prop where
  ram : RamFresh s.ram f
  slow : ∀ key v, s.slow.settled key = some v → f key = some v

namespace Fresh

variable {s : State K V} {f : K → Option V}

theorem writeFirstTier {key : K} {value : V} {m : Ref} {w : RamWrite K} (h : Fresh s f) (hf : f key = some value) :
    Fresh (s.writeFirstTier key value m w).2 f where
  ram := RamFresh.set hf (fun key' e _ he => h.ram key' e he) (fun _ _ e he => h.ram key e he)
  slow := h.slow

/-- Persisting what the RAM tier holds keeps both tiers fresh. -/
theorem writeFromMemory {key : K} {w : SlowWrite} (h : Fresh s f) : Fresh (s.writeFromMemory key w) f := by
  unfold State.writeFromMemory
  split
  · exact h
  · rename_i e he
    refine ⟨h.ram, fun key' v hv => ?_⟩
    rw [Slow.set_settled] at hv
    split at hv
    · rename_i hk; cases hv; rw [← hk.1]; exact h.ram key e he
    · exact h.slow key' v hv

theorem promote {key : K} {value : V} {m : Ref} {inp : GetInput K} (h : Fresh s f) (hf : f key = some value) :
    Fresh (s.promote key value m inp) f := by
  have h' : Fresh { s with readOnce := s.readOnce.erase key } f := ⟨h.ram, h.slow⟩
  unfold State.promote
  dsimp only
  split
  · exact h'
  · split
    · exact h'.writeFirstTier hf
    · split
      · exact ⟨h.ram, h.slow⟩
      · split
        · have h₁ := h'.writeFirstTier (m := m) (w := inp.ram) hf
          exact ⟨h₁.ram, h₁.slow⟩
        · exact h'.writeFirstTier hf

theorem readRam {key : K} {inp : GetInput K} (h : Fresh s f) :
    Fresh (s.readRam key inp).2 f ∧ ∀ v, (s.readRam key inp).1 = some v → f key = some v := by
  unfold State.readRam
  split
  · exact ⟨h, fun v hv => by cases hv⟩
  · rename_i e he
    have hd : Fresh { s with ram := s.ram.drop s.heap key } f := ⟨h.ram.drop _ _, h.slow⟩
    split
    · exact ⟨h, fun v hv => by cases hv⟩
    · split
      · exact ⟨hd, fun v hv => by cases hv⟩
      · split
        · exact ⟨hd, fun v hv => by cases hv⟩
        · refine ⟨?_, fun v hv => ?_⟩
          · dsimp only
            split
            · exact ⟨hd.ram, hd.slow⟩
            · exact ⟨h.ram, h.slow⟩
          · cases hv; exact h.ram key e he

theorem readSlow {key : K} {inp : GetInput K} (h : Fresh s f) (hp : s.slow.pending key = false) :
    Fresh (s.readSlow key inp).2 f ∧ ∀ v, (s.readSlow key inp).1 = some v → f key = some v := by
  unfold State.readSlow
  split
  · exact ⟨h, fun v hv => by cases hv⟩
  · have hall : ∀ key' v, (s.slow.get s.heap key).2.2.settled key' = some v → f key' = some v := fun key' v hv =>
      h.slow key' v (by rwa [Slow.get_settled] at hv)
    split
    · rename_i heap slow hg
      rw [hg] at hall
      exact ⟨⟨h.ram, hall⟩, fun v hv => by cases hv⟩
    · rename_i entry m heap slow hg
      have hval : f key = some entry.value := by
        have he : s.slow.entries.lookup key = some entry := Slow.get_some (by rw [hg])
        refine h.slow key _ ?_
        rw [Slow.settled_of_not_pending hp, he]
        rfl
      rw [hg] at hall
      have hrem : ∀ fails key' v, (slow.remove key fails).settled key' = some v → f key' = some v :=
        fun fails key' v hv => hall key' v (Slow.settled_remove hv)
      split
      · exact ⟨⟨h.ram, hrem _⟩, fun v hv => by cases hv⟩
      · refine ⟨promote ⟨h.ram, ?_⟩ hval, fun v hv => by cases hv; exact hval⟩
        dsimp only
        split
        · exact hrem _
        · exact hall

theorem get {key : K} {inp : GetInput K} (h : Fresh s f)
    (hp : ((s.readRam key inp).1.isNone && s.slow.pending key) = false) :
    Fresh (s.get key inp).2 f ∧ ∀ v, (s.get key inp).1 = some v → f key = some v := by
  have hr : Fresh (s.readRam key inp).2 f ∧ ∀ v, (s.readRam key inp).1 = some v → f key = some v := h.readRam
  have hslow : (s.readRam key inp).2.slow = s.slow := by
    unfold State.readRam
    split
    · rfl
    · split
      · rfl
      · split
        · rfl
        · split
          · rfl
          · dsimp only; split <;> rfl
  unfold State.get
  split
  · rename_i v s' hg
    rw [hg] at hr
    exact hr
  · rename_i s' hg
    rw [hg] at hr hslow hp
    exact hr.1.readSlow (by rw [hslow]; exact hp)

end Fresh

/-! ### `set` -/

/-- Both tiers hold what `f` says at every key but `key`. -/
structure FreshOff (s : State K V) (f : K → Option V) (key : K) : Prop where
  ram : ∀ key' e, key' ≠ key → s.ram.store.lookup key' = some e → f key' = some e.value
  slow : ∀ key' v, key' ≠ key → s.slow.settled key' = some v → f key' = some v

theorem Fresh.off {s : State K V} {f : K → Option V} (h : Fresh s f) (key : K) (v : Option V) :
    FreshOff s (Function.update f key v) key where
  ram key' e hne he := by rw [Function.update_of_ne hne]; exact h.ram key' e he
  slow key' w hne hw := by rw [Function.update_of_ne hne]; exact h.slow key' w hw

/-- What `settleCallRefs` keeps: the RAM tier, the slower tier's configuration, the dicts that exist, and
what the slower tier will hold for a key that is no call reference. It remembers no new dict. -/
structure Settles (s s' : State K V) (f : K → Option V) (key : K) : Prop where
  ram : s'.ram = s.ram
  kind : s'.slow.kind = s.slow.kind
  cap : s'.slow.cap = s.slow.cap
  next : s.heap.next ≤ s'.heap.next
  dict : ∀ r, r < s.heap.next → s'.heap.dict r = s.heap.dict r
  touched : ∀ key' r, s'.slow.touched.lookup key' = some r → s.slow.touched.lookup key' = some r
  settled : s'.slow.settled key = s.slow.settled key
  off : FreshOff s f key → FreshOff s' f key

namespace Settles

variable {s s₁ s₂ : State K V} {f : K → Option V} {key : K}

theorem refl : Settles s s f key :=
  ⟨rfl, rfl, rfl, Nat.le_refl _, fun _ _ => rfl, fun _ _ h => h, rfl, id⟩

theorem trans (h₁ : Settles s s₁ f key) (h₂ : Settles s₁ s₂ f key) : Settles s s₂ f key where
  ram := h₂.ram.trans h₁.ram
  kind := h₂.kind.trans h₁.kind
  cap := h₂.cap.trans h₁.cap
  next := Nat.le_trans h₁.next h₂.next
  dict r hr := (h₂.dict r (Nat.lt_of_lt_of_le hr h₁.next)).trans (h₁.dict r hr)
  touched key' r h := h₁.touched key' r (h₂.touched key' r h)
  settled := h₂.settled.trans h₁.settled
  off h := h₂.off (h₁.off h)

theorem remove {key' : K} (hne : key' ≠ key) : Settles s { s with slow := s.slow.remove key' false } f key where
  ram := rfl
  kind := rfl
  cap := rfl
  next := Nat.le_refl _
  dict _ _ := rfl
  touched key'' r h := Slow.remove_touched h
  settled := by simp [Slow.remove, Slow.settled, Ne.symm hne]
  off h := ⟨h.ram, fun key' v hk hv => h.slow key' v hk (Slow.settled_remove hv)⟩

theorem writeFromMemory {key' : K} {w : SlowWrite} (hne : key' ≠ key) :
    Settles s (s.writeFromMemory key' w) f key := by
  unfold State.writeFromMemory
  split
  · exact refl
  · rename_i e he
    refine ⟨rfl, (Slow.set_kind ..).1, (Slow.set_kind ..).2.1, ?_, ?_, ?_, ?_, fun h => ⟨h.ram, ?_⟩⟩
    · simp [Slow.set_next]
    · intro r hr
      rw [Slow.set_dict_of_ne _ _ _ _ _ _ _ _ (Nat.ne_of_lt hr), Heap.alloc_dict_of_lt hr]
    · intro key'' r h
      rwa [(Slow.set_kind ..).2.2] at h
    · simp only [Slow.set_settled, hne, false_and, if_false]
    · intro key'' v hk hv
      rw [Slow.set_settled] at hv
      split at hv
      · rename_i hq; cases hv; rw [← hq.1]; exact h.ram key' e hne he
      · exact h.slow key'' v hk hv

theorem dropCallRefs {refs : List (K × SlowWrite)} (hne : ∀ p ∈ refs, p.1 ≠ key) :
    Settles s (s.dropCallRefs refs) f key := by
  induction refs generalizing s with
  | nil => exact refl
  | cons p refs ih =>
      have h₁ : Settles s { s with slow := s.slow.remove p.1 false } f key := remove (hne p (by simp))
      exact h₁.trans (ih fun q hq => hne q (by simp [hq]))

theorem persistCallRefs {refs : List (K × SlowWrite)} (hne : ∀ p ∈ refs, p.1 ≠ key) :
    Settles s (s.persistCallRefs refs) f key := by
  induction refs generalizing s with
  | nil => exact refl
  | cons p refs ih =>
      exact (writeFromMemory (hne p (by simp))).trans (ih fun q hq => hne q (by simp [hq]))

theorem settleCallRefs (inp : SetInput K V) : Settles s (s.settleCallRefs inp) f inp.key := by
  unfold State.settleCallRefs
  have hd : Settles s (s.dropCallRefs inp.callRefs) f inp.key := dropCallRefs inp.callRefs_ne
  cases inp.bytesSkipped <;> cases inp.persist
  · exact refl
  · exact persistCallRefs inp.callRefs_ne
  · exact hd
  · exact hd.trans (persistCallRefs inp.callRefs_ne)

end Settles

/-- What `_write_persistent_tiers` does to what the slower tier will hold. -/
theorem writePersistentTiers_settled (s : State K V) (m : Ref) (serialized isPrivate : Bool) (inp : SetInput K V)
    (key' : K) :
    (s.writePersistentTiers m serialized isPrivate inp).2.slow.settled key' =
      if inp.key = key' ∧
        (State.handOver s.slow (if s.heap.size m = 0 then inp.costModelSize else s.heap.size m) serialized
          isPrivate inp).any (inp.taken s) = true
      then some inp.value else s.slow.settled key' := by
  unfold State.writePersistentTiers
  dsimp only
  split
  · rename_i hn; simp [hn]
  · rename_i how hs
    simp only [Slow.set_settled, hs, Option.any_some, SetInput.taken, Bool.and_eq_true, Bool.not_eq_true',
      Bool.and_eq_false_imp]

theorem writePersistentTiers_ram (s : State K V) (m : Ref) (serialized isPrivate : Bool) (inp : SetInput K V) :
    (s.writePersistentTiers m serialized isPrivate inp).2.ram = s.ram := by
  unfold State.writePersistentTiers
  dsimp only
  split <;> rfl

/-- How a value is handed over depends on the slower tier's kind and cap alone. -/
theorem handOver_congr {slow slow' : Slow K V} (hk : slow'.kind = slow.kind) (hc : slow'.cap = slow.cap)
    (capSize : Nat) (serialized isPrivate : Bool) (inp : SetInput K V) :
    State.handOver slow' capSize serialized isPrivate inp = State.handOver slow capSize serialized isPrivate inp := by
  unfold State.handOver
  rw [hk, hc]

section Set

variable {s s₁ : State K V} {f : K → Option V} {inp : SetInput K V}

/-- A state reached inside one `set`, the slower tier's part still to come: the slower tier is as it was at
the key, and the new dict has the size the tier will be told. -/
structure AtWrite (s s₁ : State K V) (inp : SetInput K V) : Prop where
  kind : s₁.slow.kind = s.slow.kind
  cap : s₁.slow.cap = s.slow.cap
  settled : s₁.slow.settled inp.key = s.slow.settled inp.key
  next : s.heap.next < s₁.heap.next
  size : s₁.heap.size s.heap.next = inp.sizeSeen s

namespace AtWrite

theorem settleCallRefs (h : AtWrite s s₁ inp) : AtWrite s (s₁.settleCallRefs inp) inp := by
  have hs : Settles s₁ (s₁.settleCallRefs inp) (fun _ => none) inp.key := .settleCallRefs inp
  refine ⟨hs.kind.trans h.kind, hs.cap.trans h.cap, hs.settled.trans h.settled,
    Nat.lt_of_lt_of_le h.next hs.next, ?_⟩
  rw [Heap.size, hs.dict _ h.next]
  exact h.size

/-- The value is handed over as the state before the `set` says. -/
theorem handOver_eq (h : AtWrite s s₁ inp) :
    State.handOver s₁.slow (if s₁.heap.size s.heap.next = 0 then inp.costModelSize else s₁.heap.size s.heap.next)
      (!inp.big && inp.serialized) (!inp.big && inp.private) inp = inp.how s := by
  rw [h.size, handOver_congr h.kind h.cap]
  rfl

theorem taken_eq (h : AtWrite s s₁ inp) : inp.taken s₁ = inp.taken s := by
  funext how
  simp only [SetInput.taken, h.kind]

/-- When nothing is queued, the slower tier holds no copy of the key to begin with. -/
theorem slow_of_not_queued (h : AtWrite s s₁ inp) (hoff : FreshOff s₁ f inp.key)
    (hno : s.slow.settled inp.key = none) :
    ∀ key' v, s₁.slow.settled key' = some v → f key' = some v := by
  intro key' v hv
  by_cases hk : key' = inp.key
  · rw [hk, h.settled, hno] at hv; cases hv
  · exact hoff.slow key' v hk hv

/-- The slower tier's `set` leaves the new value there, or nothing. -/
theorem slow_of_write (h : AtWrite s s₁ inp) (hoff : FreshOff s₁ f inp.key) (hnew : f inp.key = some inp.value)
    (hc : inp.queues s = false → s.slow.settled inp.key = none) :
    ∀ key' v, (s₁.writePersistentTiers s.heap.next (!inp.big && inp.serialized) (!inp.big && inp.private)
      inp).2.slow.settled key' = some v → f key' = some v := by
  intro key' v hv
  rw [writePersistentTiers_settled, h.handOver_eq, h.taken_eq] at hv
  split at hv
  · rename_i hk; cases hv; rw [← hk.1]; exact hnew
  · rename_i hk
    by_cases hkey : inp.key = key'
    · -- Not queued: there was no copy.
      have hany : (inp.how s).any (inp.taken s) = false := by
        rw [Bool.eq_false_iff]
        exact fun hany => hk ⟨hkey, hany⟩
      exact h.slow_of_not_queued hoff (hc (by simp [SetInput.queues, hany])) key' v hv
    · exact hoff.slow key' v (Ne.symm hkey) hv

/-- The slower tier's part of `set` after the first tier's. -/
theorem persistPart (h : AtWrite s s₁ inp) (hoff : FreshOff s₁ f inp.key) (hnew : f inp.key = some inp.value)
    (hram : RamFresh s₁.ram f) (hbig : inp.big = false)
    (hc : inp.queues s = false → s.slow.settled inp.key = none) :
    Fresh (s₁.persistPart s.heap.next false inp) f := by
  have hset : Settles s₁ (s₁.settleCallRefs inp) f inp.key := .settleCallRefs inp
  have hram₂ : RamFresh (s₁.settleCallRefs inp).ram f := by rw [hset.ram]; exact hram
  unfold State.persistPart
  simp only [Bool.false_eq_true, if_false]
  split
  · refine ⟨by rw [writePersistentTiers_ram]; exact hram₂, ?_⟩
    have hslow := h.settleCallRefs.slow_of_write (hset.off hoff) hnew hc
    simpa only [hbig, Bool.not_false, Bool.true_and] using hslow
  · rename_i hp
    exact ⟨hram₂, h.settleCallRefs.slow_of_not_queued (hset.off hoff) (hc (by simp [SetInput.queues, hp]))⟩

/-- The slower tier's part of `set` when the first tier was passed over. -/
theorem persistPart_alone (h : AtWrite s s₁ inp) (hoff : FreshOff s₁ f inp.key)
    (hnew : f inp.key = some inp.value) (hram : s₁.ram = s.ram) (hbig : inp.big = true)
    (hc : LeavesNoOldCopy s (.set inp)) : Fresh (s₁.persistPart s.heap.next true inp) f := by
  obtain ⟨hcram, hcslow⟩ := hc
  have hset : Settles s₁ (s₁.settleCallRefs inp) f inp.key := .settleCallRefs inp
  have h₂ := h.settleCallRefs
  have hoff₂ := hset.off hoff
  unfold State.persistPart
  simp only [if_true]
  generalize s₁.settleCallRefs inp = s₂ at hset h₂ hoff₂ ⊢
  have hends : s₂.ram.ends inp.ram = s.ram.ends inp.ram := by rw [hset.ram, hram]
  split
  · -- The RAM copy is dropped before the slower tier is asked.
    have hdrop : RamFresh (s₂.ram.drop (s₂.heap.setDiskAlone s.heap.next true) inp.key) f := by
      intro key' e he
      rw [Ram.drop_lookup] at he
      split at he
      · cases he
      · rename_i hk; exact hoff₂.ram key' e hk he
    have h₃ : AtWrite s { s₂ with
        heap := s₂.heap.setDiskAlone s.heap.next true
        ram := s₂.ram.drop (s₂.heap.setDiskAlone s.heap.next true) inp.key } inp :=
      ⟨h₂.kind, h₂.cap, h₂.settled, h₂.next, (Heap.setDiskAlone_size ..).trans h₂.size⟩
    have hslow := h₃.slow_of_write ⟨fun key' e _ he => hdrop key' e he, hoff₂.slow⟩ hnew hcslow
    simp only [hbig, Bool.not_true, Bool.false_and] at hslow
    have hfresh : Fresh (State.writePersistentTiers { s₂ with
        heap := s₂.heap.setDiskAlone s.heap.next true
        ram := s₂.ram.drop (s₂.heap.setDiskAlone s.heap.next true) inp.key } s.heap.next false false inp).2 f :=
      ⟨by rw [writePersistentTiers_ram]; exact hdrop, hslow⟩
    split
    · exact hfresh
    · exact Fresh.writeFirstTier ⟨hfresh.ram, hfresh.slow⟩ hnew
  · rename_i hp
    refine ⟨RamFresh.set hnew hoff₂.ram fun b hb e he => ?_,
      h₂.slow_of_not_queued hoff₂ (hcslow (by simp [SetInput.queues, hp]))⟩
    rw [hset.ram, hram, hcram ⟨b, hends ▸ hb⟩ (by simp [hp])] at he
    cases he

end AtWrite

/-- The size the slower tier reads once the first tier had its turn. -/
theorem writeFirstTier_size (s : State K V) (inp : SetInput K V) (hbig : inp.big = false) :
    (s.ram.set (s.heap.alloc inp.metadata) inp.key inp.value s.heap.next inp.ram).2.1.size s.heap.next =
      inp.sizeSeen s := by
  have hsize : (s.heap.alloc inp.metadata).size s.heap.next = inp.metadata.size.getD 0 := by
    rw [Heap.size, Heap.alloc_dict_next]
  unfold SetInput.sizeSeen
  rcases Ram.set_cases (s.heap.alloc inp.metadata) s.ram inp.key inp.value s.heap.next inp.ram with
    ⟨hr, he⟩ | ⟨b, hr, he⟩ | ⟨hr, he⟩
  · simp [he, hr, hbig, Heap.setKey_size, hsize]
  · simp [he, hr, hbig, Heap.setKey_size, hsize]
  · simp [he, hr, hbig, Heap.setSize_size]

theorem Ram.set_next (h : Heap K) (r : Ram K V) (key : K) (value : V) (m : Ref) (w : RamWrite K) :
    (r.set h key value m w).2.1.next = h.next := by
  rcases Ram.set_cases h r key value m w with ⟨_, he⟩ | ⟨b, _, he⟩ | ⟨_, he⟩ <;> rw [he] <;> rfl

theorem AtWrite.ofWriteFirstTier (s : State K V) (hbig : inp.big = false) :
    AtWrite s (({ s with heap := s.heap.alloc inp.metadata } : State K V).writeFirstTier inp.key inp.value
      s.heap.next inp.ram).2 inp :=
  ⟨rfl, rfl, rfl, by simp [State.writeFirstTier, Ram.set_next], writeFirstTier_size s inp hbig⟩

/-- `set` when the first tier has its turn first. -/
theorem Fresh.set_small (h : Fresh s f) (hbig : inp.big = false) (hc : LeavesNoOldCopy s (.set inp)) :
    Fresh (s.set inp) (Function.update f inp.key (some inp.value)) := by
  obtain ⟨hcram, hcslow⟩ := hc
  have hoff := h.off inp.key (some inp.value)
  have hnew : Function.update f inp.key (some inp.value) inp.key = some inp.value := Function.update_self ..
  have hram : RamFresh (s.ram.set (s.heap.alloc inp.metadata) inp.key inp.value s.heap.next inp.ram).2.2
      (Function.update f inp.key (some inp.value)) := by
    refine RamFresh.set hnew hoff.ram fun b hb e he => ?_
    rw [hcram ⟨b, hb⟩ (by simp [hbig])] at he
    cases he
  have hat := AtWrite.ofWriteFirstTier s hbig
  have hoff₁ : FreshOff (({ s with heap := s.heap.alloc inp.metadata } : State K V).writeFirstTier inp.key inp.value
      s.heap.next inp.ram).2 (Function.update f inp.key (some inp.value)) inp.key :=
    ⟨fun key' e _ he => hram key' e he, hoff.slow⟩
  unfold State.set
  simp only [hbig, Bool.false_eq_true, if_false]
  split
  · -- Refused everywhere.
    rename_i hraised
    have hends : s.ram.ends inp.ram = .raised true := by rw [← hraised]; exact (Ram.set_fst ..).symm
    have hq : inp.queues s = false := by simp [SetInput.queues, SetInput.wouldWriteAFile, hbig, hends]
    exact ⟨hram, hat.slow_of_not_queued hoff₁ (hcslow hq)⟩
  · exact hat.persistPart hoff₁ hnew hram hbig hcslow

/-- The state the slower tier is asked in when the first tier is passed over. -/
theorem AtWrite.ofBig (s : State K V) (hbig : inp.big = true) :
    AtWrite s (if (s.heap.alloc inp.metadata).size s.heap.next = 0 then
      { s with heap := (s.heap.alloc inp.metadata).setSize s.heap.next inp.footprint }
      else { s with heap := s.heap.alloc inp.metadata }) inp := by
  have hsize : (s.heap.alloc inp.metadata).size s.heap.next = inp.metadata.size.getD 0 := by
    rw [Heap.size, Heap.alloc_dict_next]
  split
  · rename_i hzero
    rw [hsize] at hzero
    exact ⟨rfl, rfl, rfl, Nat.lt_succ_self _, by simp [Heap.setSize_size, SetInput.sizeSeen, hbig, hzero]⟩
  · rename_i hzero
    rw [hsize] at hzero
    exact ⟨rfl, rfl, rfl, Nat.lt_succ_self _, by simp [SetInput.sizeSeen, hbig, hsize, hzero]⟩

/-- `set` when the first tier is passed over. -/
theorem Fresh.set_big (h : Fresh s f) (hbig : inp.big = true) (hc : LeavesNoOldCopy s (.set inp)) :
    Fresh (s.set inp) (Function.update f inp.key (some inp.value)) := by
  have hoff := h.off inp.key (some inp.value)
  unfold State.set
  simp only [hbig, if_true]
  refine (AtWrite.ofBig s hbig).persistPart_alone ?_ (Function.update_self ..) (by split <;> rfl) hbig hc
  split <;> exact ⟨hoff.ram, hoff.slow⟩

theorem Fresh.set (h : Fresh s f) (hc : LeavesNoOldCopy s (.set inp)) :
    Fresh (s.set inp) (Function.update f inp.key (some inp.value)) := by
  cases hbig : inp.big with
  | false => exact h.set_small hbig hc
  | true => exact h.set_big hbig hc

end Set

/-! ### One step -/

theorem Fresh.delete {s : State K V} {f : K → Option V} {key : K} {fails : Bool} (h : Fresh s f)
    (hp : s.slow.pending key = false) (hc : fails = true → s.slow.entries.lookup key = none) :
    Fresh (s.delete key fails) (Function.update f key none) := by
  have hgone : (s.slow.remove key fails).settled key = none := by
    cases fails with
    | false => exact Slow.settled_remove_self hp
    | true =>
        have hsame : s.slow.remove key true = s.slow := rfl
        rw [hsame, Slow.settled_of_not_pending hp, hc rfl]
        rfl
  have hoff := h.off key none
  refine ⟨fun key' e he => ?_, fun key' v hv => ?_⟩
  · simp only [State.delete, Ram.drop_lookup] at he
    split at he
    · cases he
    · rename_i hk; exact hoff.ram key' e hk he
  · simp only [State.delete] at hv
    by_cases hk : key' = key
    · rw [hk, hgone] at hv; cases hv
    · exact hoff.slow key' v hk (Slow.settled_remove hv)

/-- A step that leaves no older copy keeps both tiers fresh. -/
theorem Fresh.step {s s' : State K V} {f : K → Option V} {op : Op K V} (h : Fresh s f) (hs : CleanSteps s op s') :
    Fresh s' (op.note f) := by
  obtain ⟨hc, out, hs⟩ := hs
  cases op with
  | set inp =>
      simp only [Tiered.step] at hs
      split at hs <;> cases hs
      exact h.set hc
  | get key inp =>
      simp only [Tiered.step] at hs
      split at hs <;> cases hs
      rename_i hp
      exact (h.get (Bool.eq_false_iff.mpr hp)).1
  | delete key fails =>
      simp only [Tiered.step] at hs
      split at hs <;> cases hs
      rename_i hp
      exact h.delete (by simpa using hp) hc
  | persist key w => cases hs; exact h.writeFromMemory
  | evictRam key => cases hs; exact ⟨h.ram.drop _ _, h.slow⟩
  | evictSlow key =>
      simp only [Tiered.step] at hs
      split at hs <;> cases hs
      exact ⟨h.ram, fun key' v hv => h.slow key' v (Slow.settled_remove hv)⟩
  | land ok =>
      cases hs
      refine ⟨h.ram, fun key' v hv => h.slow key' v ?_⟩
      cases ok with
      | true => rw [← Slow.settled_land_ok s.heap s.slow key']; exact hv
      | false => exact Slow.settled_land_fail (hc rfl) hv

theorem Fresh.empty (kind : SlowKind) (cap maxEntries maxSizeBytes : Option Nat) :
    Fresh (State.empty kind cap maxEntries maxSizeBytes : State K V) fun _ => none where
  ram key e he := by simp [State.empty] at he
  slow key v hv := by simp [State.empty, Slow.settled] at hv

end

end Cash.Tiered
