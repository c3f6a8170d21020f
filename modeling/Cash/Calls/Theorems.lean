import Cash.Calls.Lemmas

/-!
# The lock of a key

Whatever the threads do, a key's lock is held by one thread, by calls that are in progress (`lock_of_one`). Of the bodies
that begin under it there is one more, at most, than there are entries lost, results not served and calls of the key within
the key's own body (`bodies_le`). Where a body calls smaller keys only, some thread can always go on (`goes_on`).
-/

namespace Cash.Calls

open Machine

variable {K V E ω : Type} [DecidableEq K] {W : World K V E ω} {s s' : State K V E ω} {e : Event K V E ω}
  {es : List (Event K V E ω)} {env : ω} {c c' : Ongoing K V} {f : Frame K V} {key : K} {thread : Nat}

theorem locked_of_run (hrun : run (next W) (.initial env) es = some s) : Locked s.calls :=
  run_keeps (I := fun s : State K V E ω => Locked s.calls) (fun _ _ _ h hnext => (next_move hnext).locked h)
    (locked_initial env) hrun

omit [DecidableEq K] in
theorem Frame.needs_of_holds (h : f.holds = true) : f.needs = true := by
  obtain ⟨key, lock, place⟩ := f
  cases place with
  | missed => cases h
  | waiting => cases h
  | holding => rfl
  | body locked =>
      cases locked with
      | true => rfl
      | false => cases h
  | leaving out => rfl

omit [DecidableEq K] in
/-- The thread of a call that holds its lock. -/
theorem Locked.owner (h : Locked c) (hf : f ∈ c.frames thread) (hholds : f.holds = true) :
    ∃ lock count, c.locks f.key = some lock ∧ c.owner lock = some (thread, count) := by
  obtain ⟨lock, hlock⟩ := Option.isSome_iff_exists.1 (h.needs _ _ hf (Frame.needs_of_holds hholds))
  have hpos : 0 < held lock (c.frames thread) := List.countP_pos_iff.2 ⟨f, hf, by simp [hholds, hlock]⟩
  rw [← h.counted] at hpos
  cases howner : c.owner lock with
  | none => rw [howner] at hpos; cases hpos
  | some o =>
      obtain ⟨holder, count⟩ := o
      have heq : holder = thread := by
        by_contra hne
        simp [howner, owned, hne] at hpos
      exact ⟨lock, count, h.found _ _ hf _ hlock, heq ▸ howner⟩

omit [DecidableEq K] in
theorem Locked.same_thread (h : Locked c) {thread' : Nat} {f' : Frame K V} (hf : f ∈ c.frames thread)
    (hf' : f' ∈ c.frames thread') (hholds : f.holds = true) (hholds' : f'.holds = true) (hkey : f.key = f'.key) :
    thread = thread' := by
  obtain ⟨lock, count, hlock, howner⟩ := h.owner hf hholds
  obtain ⟨lock', count', hlock', howner'⟩ := h.owner hf' hholds'
  rw [hkey, hlock'] at hlock
  cases hlock
  rw [howner] at howner'
  cases howner'
  rfl

/-- At any time, the calls that hold the lock of a key are of one thread; and a lock that a thread has was acquired by calls
that it has in progress, once for each. -/
theorem lock_of_one (hrun : run (next W) (.initial env) es = some s) :
    (∀ thread thread', ∀ f ∈ s.calls.frames thread, ∀ f' ∈ s.calls.frames thread', f.holds = true → f'.holds = true →
      f.key = f'.key → thread = thread') ∧
    ∀ lock thread count, s.calls.owner lock = some (thread, count) → 0 < count ∧
      ((s.calls.frames thread).countP fun f => f.holds && f.lock = some lock) = count := by
  have h := locked_of_run hrun
  refine ⟨fun thread thread' f hf f' hf' hholds hholds' hkey => h.same_thread hf hf' hholds hholds' hkey,
    fun lock thread count howner => ⟨h.positive _ _ _ howner, ?_⟩⟩
  have hcount := h.counted thread lock
  rw [howner, owned, if_pos rfl] at hcount
  exact hcount.symm

/-- Entries are results, and are always served. -/
def results : World Nat Nat Nat Unit := ⟨fun _ _ entry => some entry, fun _ _ value => value⟩

/-- Two threads call the same key, and the second waits while the first computes. -/
def together : List (Event Nat Nat Nat Unit) :=
  [.call 0 1, .call 1 1, .lock 0, .lock 1, .acquire 0, .reread 0, .call 0 0, .lock 0, .acquire 0, .reread 0]

theorem lock_of_one_together :
    ((((run (next results) (.initial ()) together).get rfl).calls.frames 0).countP fun f => f.holds && f.lock = some 0) = 1 := by
  have hrun : run (next results) (.initial ()) together = some ((run (next results) (.initial ()) together).get rfl) := rfl
  exact ((lock_of_one hrun).2 0 0 1 rfl).2

/-! ## How often a body runs -/

section

variable (W : World K V E ω) (key : K) (s : State K V E ω)

def State.top (thread : Nat) : Option (Frame K V) := (s.calls.frames thread).head?

/-- A body of the key begins, under the lock. -/
def State.begins : Event K V E ω → Bool
  | .reread thread => (s.top thread).any (fun f => f.key = key) && (s.served W key).isNone
  | _ => false

/-- It begins within another body of the key, on the same thread. -/
def State.again (e : Event K V E ω) : Bool :=
  s.begins W key e &&
    match e with
    | .reread thread => (s.calls.frames thread).tail.any fun f => f.key = key && f.computes
    | _ => false

/-- A body of the key ends, under the lock, and nothing can be served: it raised, or its result was refused or is not good. -/
def State.fails (e : Event K V E ω) (s' : State K V E ω) : Bool :=
  match e with
  | .returns thread _ _ | .raises thread =>
      (s.top thread).any (fun f => f.key = key && f.computes) && (s'.served W key).isNone
  | _ => false

/-- What could be served cannot be any more. -/
def State.loses (s' : State K V E ω) : Bool := (s.served W key).isSome && (s'.served W key).isNone

end

/-- Some thread runs a body of the key, under the lock. -/
def Computing (key : K) (c : Ongoing K V) : Prop := ∃ thread, ∃ f ∈ c.frames thread, f.key = key ∧ f.computes = true

omit [DecidableEq K] in
theorem Frame.holds_of_computes (h : f.computes = true) : f.holds = true := by
  obtain ⟨key, lock, place⟩ := f
  cases place with
  | body locked =>
      cases locked with
      | true => rfl
      | false => cases h
  | _ => cases h

omit [DecidableEq K] in
/-- A body that is not the innermost of the thread that goes on stays as it is. -/
theorem Computing.put {frames rest : List (Frame K V)} {g : Frame K V} (h : Computing key c) (htop : c.frames thread = g :: rest)
    (hg : g.key = key → g.computes = false) (hsub : rest ⊆ frames) : Computing key (c.put thread frames) := by
  obtain ⟨thread', f, hf, hkey, hcomputes⟩ := h
  refine ⟨thread', f, ?_, hkey, hcomputes⟩
  rw [stacks_put]
  split
  · rename_i heq
    rw [heq, htop] at hf
    rcases List.mem_cons.1 hf with rfl | hf
    · rw [hg hkey] at hcomputes
      cases hcomputes
    · exact hsub hf
  · exact hf

omit [DecidableEq K] in
theorem subset_ended {rest : List (Frame K V)} (out : Option V) (locked : Bool) : rest ⊆ ended f rest out locked := by
  cases locked with
  | true => exact List.subset_cons_self _ _
  | false => exact List.Subset.refl _

/-- A body goes on, unless it is over. -/
theorem Computing.move {ends : Option Nat} (h : Computing key c) (hmove : Move c ends c') : Computing key c' ∨
    ∃ thread f rest, ends = some thread ∧ c.frames thread = f :: rest ∧ f.key = key ∧ f.computes = true := by
  cases hmove with
  | stay => exact .inl h
  | @push thread key' hmay =>
      obtain ⟨thread', f, hf, hkey, hcomputes⟩ := h
      refine .inl ⟨thread', f, ?_, hkey, hcomputes⟩
      change f ∈ (c.put thread _).frames thread'
      rw [stacks_put]
      split
      · rename_i heq
        exact List.mem_cons_of_mem _ (heq ▸ hf)
      · exact hf
  | goOn htop _ _ _ _ hcomputes => exact .inl (h.put htop (fun _ => hcomputes) (List.subset_cons_self _ _))
  | @finish thread key' lock locked rest out htop =>
      by_cases hf : key' = key ∧ locked = true
      · exact .inr ⟨thread, _, rest, rfl, htop, hf.1, hf.2⟩
      · refine .inl (h.put htop (fun hkey => ?_) (subset_ended out locked))
        exact Bool.eq_false_iff.2 fun hcomputes => hf ⟨hkey, hcomputes⟩
  | interrupt htop => exact .inl (h.put htop (fun _ => rfl) (List.Subset.refl _))
  | find htop _ => exact .inl (h.put htop (fun _ => rfl) (List.subset_cons_self _ _))
  | make htop _ => exact .inl (h.put htop (fun _ => rfl) (List.subset_cons_self _ _))
  | acquire htop _ => exact .inl (h.put htop (fun _ => rfl) (List.subset_cons_self _ _))
  | release htop => exact .inl (h.put htop (fun _ => rfl) (List.Subset.refl _))
  | collect _ => exact .inl h

/-- Whatever the body of the key may still be paid from. -/
noncomputable def State.due (W : World K V E ω) (key : K) (s : State K V E ω) : Nat :=
  open Classical in if (s.served W key).isSome ∨ Computing key s.calls then 1 else 0

omit [DecidableEq K] in
theorem State.due_le (s : State K V E ω) : s.due W key ≤ 1 := by
  rw [State.due]
  split
  · exact Nat.le_refl 1
  · exact Nat.zero_le 1

/-- A body that begins is of a call that holds the lock, and is one that is computed. -/
theorem begins_next (hbegins : s.begins W key e = true) (hnext : next W s e = some s') :
    s.served W key = none ∧ Computing key s'.calls ∧ ∃ thread f rest, e = .reread thread ∧
      s.calls.frames thread = f :: rest ∧ f.key = key ∧ f.holds = true ∧ f.computes = false := by
  cases e with
  | reread thread =>
      rw [State.begins, Bool.and_eq_true, Option.isNone_iff_eq_none] at hbegins
      obtain ⟨htop, hserved⟩ := hbegins
      rw [next] at hnext
      split at hnext
      · rename_i key' lock rest hstack
        rw [State.top, hstack] at htop
        have hkey : key' = key := by simpa using htop
        subst hkey
        rw [hserved] at hnext
        cases hnext
        refine ⟨hserved, ⟨thread, ⟨key', lock, .body true⟩, ?_, rfl, rfl⟩, thread, _, rest, rfl, hstack, rfl, rfl, rfl⟩
        rw [stacks_put, if_pos rfl]
        exact List.mem_cons_self
      · cases hnext
  | _ => cases hbegins

/-- One step. -/
theorem due_next (h : Locked s.calls) (hnext : next W s e = some s') : (s.begins W key e).toNat + s.due W key ≤
    ((s.loses W key s').toNat + (s.fails W key e s').toNat + (s.again W key e).toNat) + s'.due W key := by
  cases hbegins : s.begins W key e with
  | true =>
      obtain ⟨hserved, hcomputing, thread, f, rest, rfl, hstack, hkey, hholds, hf⟩ := begins_next hbegins hnext
      have hdue' : s'.due W key = 1 := if_pos (.inr hcomputing)
      by_cases hdue : Computing key s.calls
      · -- The body that runs is one of the thread's own.
        obtain ⟨thread', g, hg, hkey', hcomputes⟩ := hdue
        have hsame : thread' = thread :=
          h.same_thread hg (hstack ▸ List.mem_cons_self) (Frame.holds_of_computes hcomputes) hholds (hkey'.trans hkey.symm)
        rw [hsame, hstack] at hg
        have hrest : g ∈ rest := by
          rcases List.mem_cons.1 hg with rfl | hg
          · rw [hf] at hcomputes
            cases hcomputes
          · exact hg
        have hagain : s.again W key (.reread thread) = true := by
          rw [State.again, hbegins, Bool.true_and, hstack]
          exact List.any_eq_true.2 ⟨g, hrest, by simp [hkey', hcomputes]⟩
        have hle : s.due W key ≤ 1 := s.due_le
        rw [hagain, hdue']
        simp only [Bool.toNat_true]
        omega
      · have hdue₀ : s.due W key = 0 := if_neg (by simp [hserved, hdue])
        rw [hdue₀, hdue']
        simp only [Bool.toNat_true]
        omega
  | false =>
      by_cases hdue' : (s'.served W key).isSome ∨ Computing key s'.calls
      · have hle : s.due W key ≤ 1 := s.due_le
        have hdue₁ : s'.due W key = 1 := if_pos hdue'
        rw [hdue₁]
        simp only [Bool.toNat_false]
        omega
      · rw [not_or, Bool.not_eq_true, Option.isSome_eq_false_iff] at hdue'
        obtain ⟨hserved', hcomputing'⟩ := hdue'
        by_cases hdue : (s.served W key).isSome ∨ Computing key s.calls
        · have hone : s.due W key = 1 := if_pos hdue
          rcases hdue with hserved | hcomputing
          · have hloses : s.loses W key s' = true := by rw [State.loses, hserved, hserved']; rfl
            rw [hone, hloses]
            simp only [Bool.toNat_true, Bool.toNat_false]
            omega
          · rcases hcomputing.move (next_move hnext) with hgo | ⟨thread, f, rest, hends, hstack, hkey, hcomputes⟩
            · exact absurd hgo hcomputing'
            · have hfails : s.fails W key e s' = true := by
                cases e with
                | returns thread' value stored =>
                    cases hends
                    simp [State.fails, State.top, hstack, hkey, hcomputes, hserved']
                | raises thread' =>
                    cases hends
                    simp [State.fails, State.top, hstack, hkey, hcomputes, hserved']
                | _ => cases hends
              rw [hone, hfails]
              simp only [Bool.toNat_true, Bool.toNat_false]
              omega
        · have hzero : s.due W key = 0 := if_neg hdue
          rw [hzero]
          simp only [Bool.toNat_false]
          omega

/-- The bodies of a key that begin under its lock are at most one more than the entries of the key that are lost, the bodies
after which nothing can be served, and the bodies of the key within its own. -/
theorem bodies_le (key : K) (hrun : run (next W) (.initial env) es = some s) :
    times (next W) (fun s e _ => s.begins W key e) (.initial env) es ≤
      times (next W) (fun s _ s' => s.loses W key s') (.initial env) es +
        times (next W) (fun s e s' => s.fails W key e s') (.initial env) es +
        times (next W) (fun s e _ => s.again W key e) (.initial env) es + 1 := by
  have hle : total (next W) (fun s e _ => (s.begins W key e).toNat) (.initial env) es + State.due W key (.initial env) ≤
      total (next W) (fun s e s' => (s.loses W key s').toNat + (s.fails W key e s').toNat + (s.again W key e).toNat)
        (.initial env) es + s.due W key :=
    total_le (I := fun s : State K V E ω => Locked s.calls) (fun _ _ _ h hnext => (next_move hnext).locked h)
      (fun _ _ _ h hnext => due_next h hnext) (locked_initial env) hrun
  rw [total_add, total_add] at hle
  have hdue : s.due W key ≤ 1 := s.due_le
  rw [times, times, times, times]
  omega

/-- The first stores what it computes, and the second is served. -/
def after : List (Event Nat Nat Nat Unit) :=
  together ++ [.returns 0 5 true, .release 0, .returns 0 7 true, .release 0, .collect 0, .acquire 1, .reread 1, .release 1]

theorem bodies_le_after : (run (next results) (.initial ()) after).isSome ∧
    times (next results) (fun s e _ => s.begins results 1 e) (.initial ()) after ≤ 1 := by
  have hrun : run (next results) (.initial ()) after = some ((run (next results) (.initial ()) after).get rfl) := rfl
  exact ⟨rfl, bodies_le 1 hrun⟩

/-! ## Going on -/

/-- A thread's call can go on by itself; a body is over some time. -/
def CanGoOn (W : World K V E ω) (s : State K V E ω) (thread : Nat) : Prop :=
  s.calls.frames thread ≠ [] ∧
    ∃ e ∈ [Event.lock thread, .acquire thread, .reread thread, .raises thread, .release thread], (next W s e).isSome

/-- A call goes on, unless it waits for the lock of a smaller key's holder. -/
theorem canGoOn_or {rest : List (Frame K V)} (h : Locked s.calls) (htop : s.calls.frames thread = f :: rest) :
    CanGoOn W s thread ∨ f.holds = false ∧ ∃ thread', ∃ g ∈ s.calls.frames thread', g.holds = true ∧ g.key = f.key := by
  obtain ⟨key, lock, place⟩ := f
  have hbusy : s.calls.frames thread ≠ [] := by rw [htop]; exact List.cons_ne_nil _ _
  have hneeds := (h.top htop).1.2
  cases place with
  | missed =>
      refine .inl ⟨hbusy, .lock thread, by simp, ?_⟩
      rw [next, htop]
      dsimp only
      split <;> rfl
  | waiting =>
      obtain ⟨l, rfl⟩ := Option.isSome_iff_exists.1 (hneeds rfl)
      cases hacquired : acquired thread (s.calls.owner l) with
      | some o =>
          refine .inl ⟨hbusy, .acquire thread, by simp, ?_⟩
          rw [next, htop]
          simp [hacquired]
      | none =>
          refine .inr ⟨rfl, ?_⟩
          cases howner : s.calls.owner l with
          | none =>
              rw [howner] at hacquired
              cases hacquired
          | some o =>
              obtain ⟨holder, count⟩ := o
              have hpos := h.positive l holder count howner
              have hcount := h.counted holder l
              rw [howner, owned, if_pos rfl] at hcount
              rw [hcount] at hpos
              obtain ⟨g, hg, hgood⟩ := List.countP_pos_iff.1 hpos
              rw [Bool.and_eq_true, decide_eq_true_eq] at hgood
              refine ⟨holder, g, hg, hgood.1, ?_⟩
              exact h.apart _ _ l (h.found _ _ hg l hgood.2) ((h.top htop).1.1 l rfl)
  | holding =>
      refine .inl ⟨hbusy, .reread thread, by simp, ?_⟩
      rw [next, htop]
      dsimp only
      split <;> rfl
  | body locked =>
      refine .inl ⟨hbusy, .raises thread, by simp, ?_⟩
      rw [next, htop]
      rfl
  | leaving out =>
      obtain ⟨l, rfl⟩ := Option.isSome_iff_exists.1 (hneeds rfl)
      refine .inl ⟨hbusy, .release thread, by simp, ?_⟩
      rw [next, htop]
      rfl

/-- Where a body calls smaller keys only, some thread with a call in progress can go on. -/
theorem goes_on (rank : K → Nat) (hrun : run (next W) (.initial env) es = some s)
    (hranked : ∀ thread, (s.calls.frames thread).Pairwise fun inner outer => rank inner.key < rank outer.key)
    (hbusy : s.calls.frames thread ≠ []) : ∃ thread', CanGoOn W s thread' := by
  have h := locked_of_run hrun
  obtain ⟨f, rest, htop⟩ := List.exists_cons_of_ne_nil hbusy
  -- A waiting call's lock is held by a call under a smaller one.
  induction hn : rank f.key using Nat.strongRecOn generalizing thread f rest with
  | _ n ih =>
      rcases canGoOn_or (W := W) h htop with hgo | ⟨-, holder, g, hg, hholds, hkey⟩
      · exact ⟨thread, hgo⟩
      · obtain ⟨f', rest', htop'⟩ := List.exists_cons_of_ne_nil (List.ne_nil_of_mem hg)
        rcases canGoOn_or (W := W) h htop' with hgo | ⟨hwaits, -⟩
        · exact ⟨holder, hgo⟩
        · have hranked' := hranked holder
          rw [htop', List.pairwise_cons] at hranked'
          rw [htop'] at hg
          have hin : g ∈ rest' := by
            rcases List.mem_cons.1 hg with rfl | hg
            · rw [hwaits] at hholds
              cases hholds
            · exact hg
          have hlt := hranked'.1 g hin
          rw [hkey, hn] at hlt
          exact ih _ hlt (htop' ▸ List.cons_ne_nil _ _) f' rest' htop' rfl

theorem goes_on_together : ∃ thread, CanGoOn results ((run (next results) (.initial ()) together).get rfl) thread := by
  have hrun : run (next results) (.initial ()) together = some ((run (next results) (.initial ()) together).get rfl) := rfl
  have hbusy : ((run (next results) (.initial ()) together).get rfl).calls.frames 1 ≠ [] := List.cons_ne_nil _ _
  refine goes_on id hrun (fun thread => ?_) hbusy
  match thread with
  | 0 => exact .cons (by decide) (.cons (by decide) .nil)
  | 1 => exact .cons (by decide) .nil
  | _ + 2 => exact .nil

/-- Two threads whose bodies call the key of the other wait for ever. -/
example : (run (next results) (.initial ()) [.call 0 0, .lock 0, .acquire 0, .reread 0, .call 1 1, .lock 1, .acquire 1, .reread 1,
    .call 0 1, .lock 0, .call 1 0, .lock 1]).any (fun s => (next results s (.acquire 0)).isNone && (next results s (.acquire 1)).isNone) = true :=
  rfl

end Cash.Calls
