import Cash.Tiered.Lemmas.Accounting

/-!
# Theorems about the tiered backend

1. A read returns the latest version of its key, in every run whose steps leave no older copy in a tier
   they do not write; and the run in which one step does.
2. The RAM tier's byte total is exact, in every run whose steps assign no dict it holds another size; and
   the run in which one step does.
-/

namespace Cash.Tiered

variable {K V : Type} [DecidableEq K]

/-! ## Plain inputs -/

/-- A small value of a pickled size of 20 bytes, which the RAM tier counts as 10. -/
def plainSet (key value : Nat) (persist : Bool) : SetInput Nat Nat where
  key := key
  value := value
  metadata := ⟨none, none, false⟩
  big := false
  footprint := 10
  ram := ⟨10, false, none, [], [], none⟩
  persist := persist
  bytesSkipped := false
  callRefs := []
  callRefs_ne := by simp
  costModelSize := 0
  «private» := false
  serialized := false
  probed := false
  trueSize := none
  slow := ⟨false, false, false, 20, 20⟩

/-- A read at which nothing goes wrong, of a value cheap to keep. -/
def plainGet : GetInput Nat where
  ramRaises := false
  ramUnservable := false
  ramSlow := false
  ramExpired := false
  slowRaises := false
  slowUnreadable := false
  slowExpired := false
  slowSlow := false
  removeFails := false
  cheap := true
  ram := ⟨10, false, none, [], [], none⟩

/-! ## No stale read -/

/-- In every run whose steps leave no older copy in a tier they do not write, `get` returns a miss or the
value of the latest `set` of the key since its last `delete`. -/
theorem get_returns_latest {kind : SlowKind} {cap maxEntries maxSizeBytes : Option Nat} {ops : List (Op K V)}
    {s s' : State K V} {key : K} {inp : GetInput K} {v : V}
    (hrun : Run CleanSteps (State.empty kind cap maxEntries maxSizeBytes) ops s)
    (hget : step s (.get key inp) = some (s', some v)) : latest ops key = some v := by
  have hfresh : Fresh s (latest ops) := by
    refine hrun.invariant (I := fun ops s => Fresh s (latest ops)) (Fresh.empty ..) fun ops op t t' h hst => ?_
    rw [latest, List.foldl_append]
    exact h.step hst
  simp only [step] at hget
  split at hget
  · cases hget
  · rename_i hp
    have hv : (s.get key inp).1 = some v := (Prod.mk.inj (Option.some.inj hget)).2
    exact (hfresh.get (Bool.eq_false_iff.mpr hp)).2 v hv

/-- A run with a persisted value, evicted from RAM and read back from disk. -/
theorem get_returns_latest_from_disk :
    ∃ ops s s', Run CleanSteps (State.empty .file none none none : State Nat Nat) ops s ∧
      step s (.get 0 plainGet) = some (s', some 7) ∧ latest ops 0 = some 7 := by
  have c₁ : LeavesNoOldCopy (State.empty .file none none none : State Nat Nat) (.set (plainSet 0 7 true)) :=
    ⟨fun ⟨_, hb⟩ => (by cases hb), fun hq => absurd hq (by decide)⟩
  have h₁ : Run CleanSteps _ ([] ++ [.set (plainSet 0 7 true)]) _ := .snoc .nil ⟨c₁, none, rfl⟩
  have c₂ : LeavesNoOldCopy ((State.empty .file none none none).set (plainSet 0 7 true)) (.land true) :=
    fun hf => by cases hf
  have h₂ := Run.snoc h₁ ⟨c₂, none, rfl⟩
  have c₃ : ∀ t : State Nat Nat, LeavesNoOldCopy t (.evictRam 0) := fun _ => trivial
  have h₃ := Run.snoc h₂ ⟨c₃ _, none, rfl⟩
  obtain ⟨ops, s, s', hrun, hget⟩ : ∃ ops s s', Run CleanSteps (State.empty .file none none none : State Nat Nat) ops s ∧
      step s (.get 0 plainGet) = some (s', some 7) := ⟨_, _, _, h₃, rfl⟩
  exact ⟨ops, s, s', hrun, hget, get_returns_latest hrun hget⟩

/-- A write that the policy does not persist leaves the older version on disk: once the RAM tier gives up
the new one, a read returns the old one. -/
theorem get_returns_stale :
    ∃ ops s s', Run Steps (State.empty .file none none none : State Nat Nat) ops s ∧
      step s (.get 0 plainGet) = some (s', some 1) ∧ latest ops 0 = some 2 := by
  have h₁ : Run Steps (State.empty .file none none none : State Nat Nat) ([] ++ [.set (plainSet 0 1 true)]) _ :=
    .snoc .nil ⟨none, rfl⟩
  have h₂ := Run.snoc (l := .land true) h₁ ⟨none, rfl⟩
  have h₃ := Run.snoc (l := .set (plainSet 0 2 false)) h₂ ⟨none, rfl⟩
  have h₄ := Run.snoc (l := .evictRam 0) h₃ ⟨none, rfl⟩
  exact ⟨_, _, _, h₄, rfl, rfl⟩

/-! ## Byte accounting -/

/-- In every run whose steps assign no dict the RAM tier holds another size, the tier's total is the sum of
the sizes added for the entries it holds; so it is 0 for an empty store, and never negative. -/
theorem currentSizeBytes_exact {kind : SlowKind} {cap maxEntries maxSizeBytes : Option Nat} {ops : List (Op K V)}
    {s : State K V} (hrun : Run SizedSteps (State.empty kind cap maxEntries maxSizeBytes) ops s) :
    s.ram.currentSizeBytes = s.ram.addedBytes ∧ (s.ram.store = ∅ → s.ram.currentSizeBytes = 0) ∧
      0 ≤ s.ram.currentSizeBytes := by
  have hexact : Exact s :=
    hrun.invariant (I := fun _ s => Exact s) (Exact.empty ..) fun ops op t t' h hst => h.step hst
  refine ⟨hexact.1.total, fun hempty => ?_, hexact.1.nonneg⟩
  rw [hexact.1.total, Ram.addedBytes, hempty, Dict.sumBy_empty]

/-- A run with an entry that is not persisted and one that is, of the size the RAM tier measured. -/
theorem currentSizeBytes_exact_of_two :
    ∃ ops s, Run SizedSteps (State.empty .sqlite none none none : State Nat Nat) ops s ∧
      s.ram.currentSizeBytes = 30 ∧ s.ram.currentSizeBytes = s.ram.addedBytes := by
  have c₁ : SizesAgree (State.empty .sqlite none none none : State Nat Nat) (.set (plainSet 0 1 false)) :=
    fun _ ha => by cases ha
  have h₁ : Run SizedSteps _ ([] ++ [.set (plainSet 0 1 false)]) _ := .snoc .nil ⟨c₁, none, rfl⟩
  have c₂ : SizesAgree ((State.empty .sqlite none none none).set (plainSet 0 1 false))
      (.set { plainSet 1 2 true with ram := ⟨20, false, none, [], [], none⟩ }) := fun _ _ => rfl
  have h₂ := Run.snoc h₁ ⟨c₂, none, rfl⟩
  exact ⟨_, _, h₂, rfl, (currentSizeBytes_exact h₂).1⟩

/-- A write that a SQLite tier persists gives the RAM tier's dict the size of the pickle: evicting the
entry takes 20 bytes off for the 10 that were added, and the empty tier counts -10. -/
theorem currentSizeBytes_negative :
    ∃ ops s, Run Steps (State.empty .sqlite none none none : State Nat Nat) ops s ∧
      s.ram.store = ∅ ∧ s.ram.currentSizeBytes = -10 ∧ s.ram.currentSizeBytes ≠ s.ram.addedBytes := by
  have h₁ : Run Steps (State.empty .sqlite none none none : State Nat Nat) ([] ++ [.set (plainSet 0 1 true)]) _ :=
    .snoc .nil ⟨none, rfl⟩
  have h₂ := Run.snoc (l := .evictRam 0) h₁ ⟨none, rfl⟩
  exact ⟨_, _, h₂, rfl, rfl, by decide⟩

end Cash.Tiered
