import Cash.Calls.Runner
import Mathlib.Data.List.Basic

/-!
# What a step does to the calls in progress and their locks
-/

namespace Cash.Calls

variable {K V E ω : Type} [DecidableEq K] {W : World K V E ω} {s s' : State K V E ω} {e : Event K V E ω} {c c' : Ongoing K V}
  {f : Frame K V} {key : K} {lock thread : Nat}

/-- The call has gone for the lock. -/
def Frame.needs (f : Frame K V) : Bool :=
  match f.place with
  | .missed | .body false => false
  | _ => true

/-- The body runs under the lock. -/
def Frame.computes (f : Frame K V) : Bool :=
  match f.place with
  | .body locked => locked
  | _ => false

/-- The thread whose body is over. -/
def Event.ends : Event K V E ω → Option Nat
  | .returns thread _ _ | .raises thread => some thread
  | _ => none

/-- The steps, less what they do to the store, and the thread whose body is over. -/
inductive Move (c : Ongoing K V) : Option Nat → Ongoing K V → Prop
  | stay : Move c none c
  | push {thread : Nat} (key : K) : c.mayCall thread = true →
      Move c none { c.put thread (⟨key, none, .missed⟩ :: c.frames thread) with threads := max c.threads (thread + 1) }
  /-- The innermost call goes on, and holds the lock if it did. -/
  | goOn {thread : Nat} {f f' : Frame K V} {rest : List (Frame K V)} : c.frames thread = f :: rest → f'.key = f.key →
      f'.lock = f.lock → f'.holds = f.holds → (f'.needs = true → f.needs = true) → f.computes = false →
      Move c none (c.put thread (f' :: rest))
  | finish {thread : Nat} {key : K} {lock : Option Nat} {locked : Bool} {rest : List (Frame K V)} (out : Option V) :
      c.frames thread = ⟨key, lock, .body locked⟩ :: rest →
      Move c (some thread) (c.put thread (ended ⟨key, lock, .body locked⟩ rest out locked))
  | interrupt {thread : Nat} {key : K} {lock : Option Nat} {rest : List (Frame K V)} :
      c.frames thread = ⟨key, lock, .waiting⟩ :: rest → Move c none (c.put thread rest)
  | find {thread lock : Nat} {key : K} {old : Option Nat} {rest : List (Frame K V)} :
      c.frames thread = ⟨key, old, .missed⟩ :: rest → c.locks key = some lock →
      Move c none (c.put thread (⟨key, some lock, .waiting⟩ :: rest))
  | make {thread : Nat} {key : K} {old : Option Nat} {rest : List (Frame K V)} :
      c.frames thread = ⟨key, old, .missed⟩ :: rest → c.locks key = none →
      Move c none { c.put thread (⟨key, some c.made, .waiting⟩ :: rest) with
        locks := Function.update c.locks key (some c.made), made := c.made + 1 }
  | acquire {thread lock : Nat} {key : K} {rest : List (Frame K V)} {owner : Nat × Nat} :
      c.frames thread = ⟨key, some lock, .waiting⟩ :: rest → acquired thread (c.owner lock) = some owner →
      Move c none { c.put thread (⟨key, some lock, .holding⟩ :: rest) with
        owner := Function.update c.owner lock (some owner) }
  | release {thread lock : Nat} {key : K} {out : Option V} {rest : List (Frame K V)} :
      c.frames thread = ⟨key, some lock, .leaving out⟩ :: rest →
      Move c none { c.put thread rest with owner := Function.update c.owner lock (released thread (c.owner lock)) }
  | collect {key : K} : (∀ thread < c.threads, ∀ f ∈ c.frames thread, f.lock = none ∨ f.lock ≠ c.locks key) →
      Move c none { c with locks := Function.update c.locks key none }

/-- What a step can do. -/
theorem next_move (h : next W s e = some s') : Move s.calls e.ends s'.calls := by
  cases e with
  | call thread key =>
      rw [next] at h
      split at h
      · rename_i hmay
        split at h
        · cases h
          exact .stay
        · cases h
          exact .push key hmay
      · cases h
  | unlocked thread =>
      rw [next] at h
      split at h
      · rename_i htop
        cases h
        exact .goOn htop rfl rfl rfl id rfl
      · rename_i htop
        cases h
        exact .goOn htop rfl rfl rfl (fun _ => rfl) rfl
      · cases h
  | lock thread =>
      rw [next] at h
      split at h
      · split at h
        · cases h
          exact .find ‹_› ‹_›
        · cases h
          exact .make ‹_› ‹_›
      · cases h
  | acquire thread =>
      rw [next] at h
      split at h
      · obtain ⟨owner, hacquired, rfl⟩ := Option.map_eq_some_iff.1 h
        exact .acquire ‹_› hacquired
      · cases h
  | interrupt thread =>
      rw [next] at h
      split at h
      · cases h
        exact .interrupt ‹_›
      · cases h
  | reread thread =>
      rw [next] at h
      split at h
      · rename_i htop
        split at h
        · cases h
          exact .goOn htop rfl rfl rfl id rfl
        · cases h
          exact .goOn htop rfl rfl rfl id rfl
      · cases h
  | returns thread value stored =>
      rw [next] at h
      split at h
      · cases h
        exact .finish _ ‹_›
      · cases h
  | raises thread =>
      rw [next] at h
      split at h
      · cases h
        exact .finish _ ‹_›
      · cases h
  | release thread =>
      rw [next] at h
      split at h
      · cases h
        exact .release ‹_›
      · cases h
  | collect key =>
      rw [next] at h
      split at h
      · rename_i hunused
        cases h
        exact .collect hunused
      · cases h
  | outside env store =>
      rw [next] at h
      cases h
      exact .stay

/-! ## The invariant -/

/-- How many of a thread's calls hold a lock. -/
def held (lock : Nat) (frames : List (Frame K V)) : Nat := frames.countP fun f => f.holds && f.lock = some lock

/-- How many times a thread has acquired a lock. -/
def owned (thread : Nat) : Option (Nat × Nat) → Nat
  | some (thread', count) => if thread' = thread then count else 0
  | none => 0

/-- What the calls and their locks keep. -/
structure Locked (c : Ongoing K V) : Prop where
  /-- A call's lock is the one that the key's next caller finds. -/
  found : ∀ thread, ∀ f ∈ c.frames thread, ∀ lock, f.lock = some lock → c.locks f.key = some lock
  old : ∀ key lock, c.locks key = some lock → lock < c.made
  apart : ∀ key key' lock, c.locks key = some lock → c.locks key' = some lock → key = key'
  needs : ∀ thread, ∀ f ∈ c.frames thread, f.needs = true → f.lock.isSome
  /-- A lock is owned by the calls that hold it. -/
  counted : ∀ thread lock, owned thread (c.owner lock) = held lock (c.frames thread)
  positive : ∀ lock thread count, c.owner lock = some (thread, count) → 0 < count
  none_made : ∀ thread, c.threads ≤ thread → c.frames thread = []

omit [DecidableEq K] in
theorem locked_initial (env : ω) : Locked (State.initial env : State K V E ω).calls where
  found _ _ h := by cases h
  old _ _ h := by cases h
  apart _ _ _ h := by cases h
  needs _ _ h := by cases h
  counted _ _ := rfl
  positive _ _ _ h := by cases h
  none_made _ _ := rfl

/-! ## It is kept -/

omit [DecidableEq K] in
@[simp] theorem stacks_put (c : Ongoing K V) (thread thread' : Nat) (frames : List (Frame K V)) :
    (c.put thread frames).frames thread' = if thread' = thread then frames else c.frames thread' := Function.update_apply ..

theorem owned_acquired {owner : Option (Nat × Nat)} {o : Nat × Nat} (h : acquired thread owner = some o) (thread' : Nat) :
    owned thread' (some o) = owned thread' owner + if thread' = thread then 1 else 0 := by
  match owner with
  | none =>
      cases h
      simp [owned, eq_comm]
  | some (holder, count) =>
      rw [acquired] at h
      split at h
      · rename_i heq
        cases h
        subst heq
        simp only [owned]
        split
        · simp_all
        · simp_all [eq_comm]
      · cases h

theorem owned_released {owner : Option (Nat × Nat)} (hpos : 0 < owned thread owner) (thread' : Nat) :
    owned thread' (released thread owner) + (if thread' = thread then 1 else 0) = owned thread' owner := by
  match owner with
  | none => cases hpos
  | some (holder, 0) => simp [owned] at hpos
  | some (holder, count + 1) =>
      have heq : holder = thread := by
        by_contra hne
        simp [owned, hne] at hpos
      subst heq
      rw [released, if_pos rfl]
      cases count with
      | zero => simp [owned, eq_comm]
      | succ count =>
          simp only [owned, Nat.add_one_ne_zero, if_false]
          split
          · simp_all
          · simp_all [eq_comm]

omit [DecidableEq K] in
theorem held_cons (lock : Nat) (f : Frame K V) (rest : List (Frame K V)) :
    held lock (f :: rest) = held lock rest + if f.holds && f.lock = some lock then 1 else 0 := List.countP_cons

/-- A call in progress, by itself. -/
def Frame.Fine (f : Frame K V) (c : Ongoing K V) : Prop :=
  (∀ lock, f.lock = some lock → c.locks f.key = some lock) ∧ (f.needs = true → f.lock.isSome)

omit [DecidableEq K] in
theorem Locked.fine (h : Locked c) (hf : f ∈ c.frames thread) : f.Fine c := ⟨h.found _ _ hf, h.needs _ _ hf⟩

omit [DecidableEq K] in
/-- A thread's calls change, and what it owns with them. -/
theorem Locked.put (h : Locked c) {frames : List (Frame K V)} {owner : Nat → Option (Nat × Nat)} {threads : Nat}
    (hframes : ∀ f ∈ frames, f.Fine c)
    (hothers : ∀ thread' ≠ thread, ∀ lock, owned thread' (owner lock) = owned thread' (c.owner lock))
    (hown : ∀ lock, owned thread (owner lock) = held lock frames)
    (hpositive : ∀ lock thread count, owner lock = some (thread, count) → 0 < count)
    (hthreads : c.threads ≤ threads) (hin : frames = [] ∨ thread < threads) :
    Locked { c.put thread frames with owner := owner, threads := threads } where
  found thread' f hf := by
    rw [stacks_put] at hf
    split at hf
    · exact (hframes f hf).1
    · exact h.found thread' f hf
  old := h.old
  apart := h.apart
  needs thread' f hf := by
    rw [stacks_put] at hf
    split at hf
    · exact (hframes f hf).2
    · exact h.needs thread' f hf
  counted thread' lock := by
    rw [stacks_put]
    split
    · rename_i heq
      rw [heq]
      exact hown lock
    · rename_i hne
      rw [← h.counted thread' lock]
      exact hothers thread' hne lock
  positive := hpositive
  none_made thread' hle := by
    rw [stacks_put]
    split
    · rename_i heq
      rcases hin with hnil | hlt
      · exact hnil
      · exact absurd hlt (Nat.not_lt.2 (heq ▸ hle))
    · exact h.none_made thread' (Nat.le_trans hthreads hle)

omit [DecidableEq K] in
/-- A thread's calls change, and the locks stay as they are. -/
theorem Locked.keep (h : Locked c) {frames : List (Frame K V)} (hframes : ∀ f ∈ frames, f.Fine c)
    (hheld : ∀ lock, held lock frames = held lock (c.frames thread)) (hin : frames = [] ∨ thread < c.threads) :
    Locked (c.put thread frames) :=
  h.put hframes (fun _ _ _ => rfl) (fun lock => (h.counted thread lock).trans (hheld lock).symm) h.positive (Nat.le_refl _) hin

omit [DecidableEq K] in
/-- A thread with a call in progress. -/
theorem Locked.lt_threads (h : Locked c) {rest : List (Frame K V)} (htop : c.frames thread = f :: rest) : thread < c.threads := by
  refine Nat.lt_of_not_le fun hle => ?_
  rw [h.none_made thread hle] at htop
  cases htop

omit [DecidableEq K] in
theorem Locked.top (h : Locked c) {rest : List (Frame K V)} (htop : c.frames thread = f :: rest) :
    f.Fine c ∧ ∀ g ∈ rest, g.Fine c :=
  ⟨h.fine (htop ▸ List.mem_cons_self), fun _ hg => h.fine (htop ▸ List.mem_cons_of_mem _ hg)⟩

omit [DecidableEq K] in
theorem Locked.goOn (h : Locked c) {f' : Frame K V} {rest : List (Frame K V)} (htop : c.frames thread = f :: rest)
    (hkey : f'.key = f.key) (hlock : f'.lock = f.lock) (hholds : f'.holds = f.holds)
    (hneeds : f'.needs = true → f.needs = true) : Locked (c.put thread (f' :: rest)) := by
  obtain ⟨hf, hrest⟩ := h.top htop
  refine h.keep ?_ (fun lock => ?_) (.inr (h.lt_threads htop))
  · intro g hg
    rcases List.mem_cons.1 hg with rfl | hg
    · rw [Frame.Fine, hkey, hlock]
      exact ⟨hf.1, fun h' => hf.2 (hneeds h')⟩
    · exact hrest g hg
  · rw [htop, held_cons, held_cons, hholds, hlock]

omit [DecidableEq K] in
theorem Locked.drop (h : Locked c) {rest : List (Frame K V)} (htop : c.frames thread = f :: rest) (hholds : f.holds = false) :
    Locked (c.put thread rest) := by
  refine h.keep (h.top htop).2 (fun lock => ?_) (.inr (h.lt_threads htop))
  rw [htop, held_cons, hholds]
  rfl

theorem Locked.make (h : Locked c) (hnone : c.locks key = none) :
    Locked { c with locks := Function.update c.locks key (some c.made), made := c.made + 1 } where
  found thread f hf lock hlock := by
    have hfound := h.found thread f hf lock hlock
    have hne : f.key ≠ key := by
      rintro rfl
      rw [hnone] at hfound
      cases hfound
    rw [← hfound]
    exact Function.update_of_ne hne _ _
  old key' lock hlock := by
    simp only [Function.update_apply] at hlock
    split at hlock
    · cases hlock
      exact Nat.lt_succ_self _
    · exact Nat.lt_succ_of_lt (h.old _ _ hlock)
  apart key₁ key₂ lock h₁ h₂ := by
    simp only [Function.update_apply] at h₁ h₂
    split at h₁ <;> split at h₂
    · simp_all
    · cases h₁
      exact absurd (h.old _ _ h₂) (Nat.lt_irrefl _)
    · cases h₂
      exact absurd (h.old _ _ h₁) (Nat.lt_irrefl _)
    · exact h.apart _ _ _ h₁ h₂
  needs := h.needs
  counted := h.counted
  positive := h.positive
  none_made := h.none_made

theorem Locked.collect (h : Locked c)
    (hunused : ∀ thread < c.threads, ∀ f ∈ c.frames thread, f.lock = none ∨ f.lock ≠ c.locks key) :
    Locked { c with locks := Function.update c.locks key none } where
  found thread f hf lock hlock := by
    have hfound := h.found thread f hf lock hlock
    have hlt : thread < c.threads := by
      refine Nat.lt_of_not_le fun hle => ?_
      rw [h.none_made thread hle] at hf
      cases hf
    have hne : f.key ≠ key := by
      rintro rfl
      rcases hunused thread hlt f hf with hnone | hdiff
      · rw [hnone] at hlock
        cases hlock
      · exact hdiff (hlock.trans hfound.symm)
    rw [← hfound]
    exact Function.update_of_ne hne _ _
  old key' lock hlock := by
    simp only [Function.update_apply] at hlock
    split at hlock
    · cases hlock
    · exact h.old _ _ hlock
  apart key₁ key₂ lock h₁ h₂ := by
    simp only [Function.update_apply] at h₁ h₂
    split at h₁
    · cases h₁
    · split at h₂
      · cases h₂
      · exact h.apart _ _ _ h₁ h₂
  needs := h.needs
  counted := h.counted
  positive := h.positive
  none_made := h.none_made

theorem acquired_positive {owner : Option (Nat × Nat)} {o : Nat × Nat} (h : acquired thread owner = some o) : 0 < o.2 := by
  match owner with
  | none =>
      cases h
      exact Nat.one_pos
  | some (holder, count) =>
      rw [acquired] at h
      split at h
      · cases h
        exact Nat.succ_pos _
      · cases h

theorem released_positive {owner : Option (Nat × Nat)} (hpositive : ∀ holder count, owner = some (holder, count) → 0 < count)
    {holder count : Nat} (h : released thread owner = some (holder, count)) : 0 < count := by
  match owner with
  | none => cases h
  | some (other, 0) => exact absurd (hpositive other 0 rfl) (Nat.lt_irrefl 0)
  | some (other, n + 1) =>
      rw [released] at h
      split at h
      · split at h
        · cases h
        · cases h
          exact Nat.pos_of_ne_zero ‹_›
      · cases h
        exact Nat.succ_pos _

/-- What a step does to the calls keeps the invariant. -/
theorem Move.locked {ends : Option Nat} (hmove : Move c ends c') (h : Locked c) : Locked c' := by
  cases hmove with
  | stay => exact h
  | @push thread key hmay =>
      refine h.put ?_ (fun _ _ _ => rfl) (fun lock => ?_) h.positive (Nat.le_max_left _ _)
        (.inr (Nat.lt_of_lt_of_le (Nat.lt_succ_self _) (Nat.le_max_right _ _)))
      · intro f hf
        rcases List.mem_cons.1 hf with rfl | hf
        · exact ⟨fun _ hlock => (by cases hlock), fun hneeds => (by cases hneeds)⟩
        · exact h.fine hf
      · rw [held_cons]
        exact h.counted thread lock
  | goOn htop hkey hlock hholds hneeds _ => exact h.goOn htop hkey hlock hholds hneeds
  | @finish thread key lock locked rest out htop =>
      cases locked with
      | true => exact h.goOn htop rfl rfl rfl id
      | false => exact h.drop htop rfl
  | interrupt htop => exact h.drop htop rfl
  | @find thread lock key old rest htop hfound =>
      refine h.keep ?_ (fun lock' => ?_) (.inr (h.lt_threads htop))
      · intro g hg
        rcases List.mem_cons.1 hg with rfl | hg
        · exact ⟨fun _ hlock => hlock ▸ hfound, fun _ => rfl⟩
        · exact (h.top htop).2 g hg
      · rw [htop, held_cons, held_cons]
        rfl
  | @make thread key old rest htop hnone =>
      have hmade := h.make hnone
      have hframes : ∀ g ∈ (⟨key, some c.made, .waiting⟩ :: rest : List (Frame K V)),
          g.Fine { c with locks := Function.update c.locks key (some c.made), made := c.made + 1 } := by
        intro g hg
        rcases List.mem_cons.1 hg with rfl | hg
        · exact ⟨fun _ hlock => hlock ▸ Function.update_self _ _ _, fun _ => rfl⟩
        · exact (hmade.top htop).2 g hg
      refine hmade.keep hframes (fun lock' => ?_) (.inr (h.lt_threads htop))
      rw [held_cons]
      exact (congrArg (held lock') htop).symm ▸ (held_cons lock' _ rest).symm
  | @acquire thread lock key rest owner htop hacquired =>
      obtain ⟨hf, hrest⟩ := h.top htop
      refine h.put ?_ (fun thread' hne lock' => ?_) (fun lock' => ?_) (fun lock' t n howner => ?_) (Nat.le_refl c.threads)
        (.inr (h.lt_threads htop))
      · intro g hg
        rcases List.mem_cons.1 hg with rfl | hg
        · exact ⟨hf.1, fun _ => rfl⟩
        · exact hrest g hg
      · rw [Function.update_apply]
        split
        · rename_i heq
          rw [owned_acquired hacquired, heq, if_neg hne, Nat.add_zero]
        · rfl
      · have hcount := h.counted thread lock'
        rw [htop, held_cons] at hcount
        rw [held_cons, Function.update_apply]
        split
        · rename_i heq
          subst heq
          rw [owned_acquired hacquired, hcount]
          simp [Frame.holds]
        · rename_i hne
          rw [hcount]
          simp [Frame.holds, Ne.symm hne]
      · rw [Function.update_apply] at howner
        split at howner
        · cases howner
          exact acquired_positive hacquired
        · exact h.positive _ _ _ howner
  | @release thread lock key out rest htop =>
      have hpos : 0 < owned thread (c.owner lock) := by
        rw [h.counted, htop, held_cons]
        simp [Frame.holds]
      refine h.put (h.top htop).2 (fun thread' hne lock' => ?_) (fun lock' => ?_)
        (fun lock' t n howner => ?_) (Nat.le_refl c.threads) (.inr (h.lt_threads htop))
      · rw [Function.update_apply]
        split
        · rename_i heq
          have hreleased := owned_released hpos thread'
          rw [if_neg hne, Nat.add_zero] at hreleased
          rw [heq, hreleased]
        · rfl
      · have hcount := h.counted thread lock'
        rw [htop, held_cons] at hcount
        rw [Function.update_apply]
        split
        · rename_i heq
          subst heq
          have hreleased := owned_released hpos thread
          rw [if_pos rfl, hcount] at hreleased
          simpa [Frame.holds] using hreleased
        · rename_i hne
          rw [hcount]
          simp [Frame.holds, Ne.symm hne]
      · rw [Function.update_apply] at howner
        split at howner
        · exact released_positive (h.positive lock) howner
        · exact h.positive _ _ _ howner
  | @collect key hunused => exact h.collect hunused

end Cash.Calls
