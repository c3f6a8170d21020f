import Cash.Calls.Runner

/-!
# Calls of one key that wait for the first of them

`decorator/runtime.py`: `CallRunner.single_flight`, with the `lookup`, `_reread` and `finish_miss` around it, in any number of
event loops and threads: between two steps of a call any others may come. A call is known by its number, which also stands
for the future that it publishes as the leader. A follower's wait is shielded, so that only the leader's own end sets it.

At any time a key has one leader, and no follower waits for a call that is over (`followers_wait`). Where nothing is lost and
every leader's body leaves an entry, the body of a key begins once there, but for the callers that looked the key up before
(`flights_le`).
-/

namespace Cash.Calls.Flight

open Machine

/-- Where a call is whose lookup found nothing to serve. -/
inductive Place
  | missed
  /-- Its future is the key's, and its body is awaited. -/
  | leading
  /-- In the `finally`. -/
  | ending
  /-- The key's slot is free, and the future is to be set. -/
  | freed
  | following (leader : Nat)
  | woken
  /-- Its body is awaited, and nobody waits for it. -/
  | body
deriving DecidableEq

structure State (K E ω : Type) where
  env : ω
  store : K → Option E
  /-- `_async_inflight`. -/
  inflight : K → Option Nat
  /-- The futures that are set. -/
  done : Nat → Bool
  made : Nat
  /-- The calls in progress. -/
  calls : Nat → Option (K × Place)

inductive Event (K V E ω : Type)
  | call (key : K)
  /-- `locking()` is false. -/
  | alone (call : Nat)
  | enter (call : Nat)
  | wake (call : Nat)
  | reread (call : Nat)
  | returns (call : Nat) (value : V) (stored : Bool)
  | raises (call : Nat)
  | free (call : Nat)
  | set (call : Nat)
  /-- A follower is cancelled. -/
  | cancel (call : Nat)
  | outside (env : ω) (store : K → Option E)

section

variable {K V E ω : Type} [DecidableEq K]

def State.served (W : World K V E ω) (s : State K E ω) (key : K) : Option V := (s.store key).bind (W.serves s.env key)

def State.put (s : State K E ω) (call : Nat) (now : Option (K × Place)) : State K E ω :=
  { s with calls := Function.update s.calls call now }

/-- A body is over; the leader has its followers to tell. -/
def ended (key : K) : Place → Option (Option (K × Place))
  | .leading => some (some (key, .ending))
  | .body => some none
  | _ => none

/-- One step, unless it cannot be made. -/
def next (W : World K V E ω) (s : State K E ω) : Event K V E ω → Option (State K E ω)
  | .call key =>
      match s.served W key with
      | some _ => some s
      | none => some { s.put s.made (some (key, .missed)) with made := s.made + 1 }
  | .alone call =>
      match s.calls call with
      | some (key, .missed) => some (s.put call (some (key, .body)))
      | _ => none
  | .enter call =>
      match s.calls call with
      | some (key, .missed) =>
          match s.inflight key with
          | none =>
              some { s.put call (some (key, .leading)) with inflight := Function.update s.inflight key (some call) }
          | some leader => some (s.put call (some (key, .following leader)))
      | _ => none
  | .wake call =>
      match s.calls call with
      | some (key, .following leader) => if s.done leader then some (s.put call (some (key, .woken))) else none
      | _ => none
  | .reread call =>
      match s.calls call with
      | some (key, .woken) =>
          match s.served W key with
          | some _ => some (s.put call none)
          | none => some (s.put call (some (key, .body)))
      | _ => none
  | .returns call value stored =>
      match s.calls call with
      | some (key, place) =>
          (ended key place).map fun now =>
            { s.put call now with
              store := if stored then Function.update s.store key (some (W.entry s.env key value)) else s.store }
      | none => none
  | .raises call =>
      match s.calls call with
      | some (key, place) => (ended key place).map (s.put call)
      | none => none
  | .free call =>
      match s.calls call with
      | some (key, .ending) =>
          some { s.put call (some (key, .freed)) with inflight := Function.update s.inflight key none }
      | _ => none
  | .set call =>
      match s.calls call with
      | some (_, .freed) => some { s.put call none with done := Function.update s.done call true }
      | _ => none
  | .cancel call =>
      match s.calls call with
      | some (_, .following _) => some (s.put call none)
      | _ => none
  | .outside env store => some { s with env := env, store := store }

/-- No call was made, and nothing was stored. -/
def State.initial (env : ω) : State K E ω := ⟨env, fun _ => none, fun _ => none, fun _ => false, 0, fun _ => none⟩

end

variable {K V E ω : Type} [DecidableEq K] {W : World K V E ω} {s s' : State K E ω} {e : Event K V E ω}
  {es : List (Event K V E ω)} {env : ω} {key : K} {call leader : Nat} {place : Place}

/-! ## What a step can do -/

/-- The call's future is the key's. -/
def Place.leads : Place → Bool
  | .leading | .ending => true
  | _ => false

/-- The call has a future to set. -/
def Place.owes : Place → Bool
  | .leading | .ending | .freed => true
  | _ => false

/-- The call whose body is over. -/
def Event.ends : Event K V E ω → Option Nat
  | .returns call _ _ | .raises call => some call
  | _ => none

/-- The steps, less what they do to the store, and the call whose body is over. -/
inductive Move (s : State K E ω) : Option Nat → State K E ω → Prop
  | stay {env : ω} {store : K → Option E} : Move s none { s with env := env, store := store }
  | call (key : K) : Move s none { s.put s.made (some (key, .missed)) with made := s.made + 1 }
  | compute {call : Nat} {key : K} {place : Place} : s.calls call = some (key, place) → place.owes = false →
      Move s none (s.put call (some (key, .body)))
  | lead {call : Nat} {key : K} : s.calls call = some (key, .missed) → s.inflight key = none →
      Move s none { s.put call (some (key, .leading)) with inflight := Function.update s.inflight key (some call) }
  | follow {call leader : Nat} {key : K} : s.calls call = some (key, .missed) → s.inflight key = some leader →
      Move s none (s.put call (some (key, .following leader)))
  | wake {call leader : Nat} {key : K} : s.calls call = some (key, .following leader) → s.done leader = true →
      Move s none (s.put call (some (key, .woken)))
  | leave {call : Nat} {key : K} {place : Place} {ends : Option Nat} {store : K → Option E} :
      s.calls call = some (key, place) → place.owes = false → Move s ends { s.put call none with store := store }
  | finish {call : Nat} {key : K} {store : K → Option E} : s.calls call = some (key, .leading) →
      Move s (some call) { s.put call (some (key, .ending)) with store := store }
  | free {call : Nat} {key : K} : s.calls call = some (key, .ending) →
      Move s none { s.put call (some (key, .freed)) with inflight := Function.update s.inflight key none }
  | set {call : Nat} {key : K} : s.calls call = some (key, .freed) →
      Move s none { s.put call none with done := Function.update s.done call true }

/-- A body is over. -/
theorem move_ended {now : Option (K × Place)} {store : K → Option E} (hcall : s.calls call = some (key, place))
    (hended : ended key place = some now) : Move s (some call) { s.put call now with store := store } := by
  cases place with
  | leading =>
      cases hended
      exact .finish hcall
  | body =>
      cases hended
      exact .leave hcall rfl
  | _ => cases hended

theorem next_move (h : next W s e = some s') : Move s e.ends s' := by
  cases e with
  | call key =>
      rw [next] at h
      split at h
      · cases h
        exact .stay
      · cases h
        exact .call key
  | alone call =>
      rw [next] at h
      split at h
      · rename_i hcall
        cases h
        exact .compute hcall rfl
      · cases h
  | enter call =>
      rw [next] at h
      split at h
      · rename_i hcall
        split at h
        · cases h
          exact .lead hcall ‹_›
        · cases h
          exact .follow hcall ‹_›
      · cases h
  | wake call =>
      rw [next] at h
      split at h
      · rename_i hcall
        split at h
        · cases h
          exact .wake hcall ‹_›
        · cases h
      · cases h
  | reread call =>
      rw [next] at h
      split at h
      · rename_i hcall
        split at h
        · cases h
          exact .leave hcall rfl
        · cases h
          exact .compute hcall rfl
      · cases h
  | returns call value stored =>
      rw [next] at h
      split at h
      · rename_i hcall
        obtain ⟨now, hended, rfl⟩ := Option.map_eq_some_iff.1 h
        exact move_ended hcall hended
      · cases h
  | raises call =>
      rw [next] at h
      split at h
      · rename_i hcall
        obtain ⟨now, hended, rfl⟩ := Option.map_eq_some_iff.1 h
        exact move_ended hcall hended
      · cases h
  | free call =>
      rw [next] at h
      split at h
      · rename_i hcall
        cases h
        exact .free hcall
      · cases h
  | set call =>
      rw [next] at h
      split at h
      · rename_i hcall
        cases h
        exact .set hcall
      · cases h
  | cancel call =>
      rw [next] at h
      split at h
      · rename_i hcall
        cases h
        exact .leave hcall rfl
      · cases h
  | outside env store =>
      rw [next] at h
      cases h
      exact .stay

/-! ## Leaders and followers -/

/-- What the calls and their futures keep. -/
structure Flying (s : State K E ω) : Prop where
  fresh : ∀ call, s.made ≤ call → s.calls call = none
  /-- The key's future is the one of the call that leads. -/
  leads : ∀ key call, s.inflight key = some call ↔ ∃ place, s.calls call = some (key, place) ∧ place.leads = true
  waits : ∀ call key leader, s.calls call = some (key, .following leader) →
    s.done leader = true ∨ ∃ place, s.calls leader = some (key, place) ∧ place.owes = true
  gone : ∀ call, s.done call = true → call < s.made ∧ s.calls call = none

omit [DecidableEq K] in
theorem flying_initial (env : ω) : Flying (.initial env : State K E ω) where
  fresh _ _ := rfl
  leads _ _ := ⟨fun h => (by cases h), fun ⟨_, h, _⟩ => (by cases h)⟩
  waits _ _ _ h := by cases h
  gone _ h := by cases h

omit [DecidableEq K] in
@[simp] theorem calls_put (s : State K E ω) (call call' : Nat) (now : Option (K × Place)) :
    (s.put call now).calls call' = if call' = call then now else s.calls call' := Function.update_apply ..

omit [DecidableEq K] in
theorem Flying.lt_made (h : Flying s) {now : K × Place} (hcall : s.calls call = some now) : call < s.made := by
  refine Nat.lt_of_not_le fun hle => ?_
  rw [h.fresh call hle] at hcall
  cases hcall

omit [DecidableEq K] in
theorem Flying.not_done (h : Flying s) {now : K × Place} (hcall : s.calls call = some now) : s.done call = false := by
  refine Bool.eq_false_iff.2 fun hdone => ?_
  rw [(h.gone call hdone).2] at hcall
  cases hcall

omit [DecidableEq K] in
theorem Flying.store (h : Flying s) (env : ω) (store : K → Option E) : Flying { s with env := env, store := store } :=
  ⟨h.fresh, h.leads, h.waits, h.gone⟩

omit [DecidableEq K] in
/-- One call changes, with what its key and its followers know of it. -/
theorem Flying.put (h : Flying s) (hcall : s.calls call = some (key, place)) {now : Option (K × Place)}
    {inflight : K → Option Nat} {done : Nat → Bool}
    (hothers : ∀ key' call', call' ≠ call → (inflight key' = some call' ↔ s.inflight key' = some call'))
    (hself : ∀ key', inflight key' = some call ↔ ∃ place, now = some (key', place) ∧ place.leads = true)
    (hfollows : ∀ key' leader, now = some (key', .following leader) →
      leader ≠ call ∧ ∃ place, s.calls leader = some (key', place) ∧ place.owes = true)
    (howes : place.owes = true → done call = true ∨ ∃ place', now = some (key, place') ∧ place'.owes = true)
    (hdone : ∀ call' ≠ call, done call' = s.done call') (hover : done call = true → now = none) :
    Flying { s.put call now with inflight := inflight, done := done } where
  fresh call' hle := by
    have hne : call' ≠ call := fun heq => Nat.lt_irrefl _ (Nat.lt_of_lt_of_le (h.lt_made hcall) (heq ▸ hle))
    rw [calls_put, if_neg hne]
    exact h.fresh call' hle
  leads key' call' := by
    rw [calls_put]
    split
    · rename_i heq
      rw [heq]
      exact hself key'
    · rename_i hne
      rw [← h.leads]
      exact hothers key' call' hne
  waits call' key' leader hcall' := by
    rw [calls_put] at hcall' ⊢
    split at hcall'
    · obtain ⟨hne, place', hleader, howes'⟩ := hfollows key' leader hcall'
      exact .inr ⟨place', by rw [if_neg hne]; exact hleader, howes'⟩
    · rcases h.waits call' key' leader hcall' with hset | ⟨place', hleader, howes'⟩
      · have hne : leader ≠ call := by
          rintro rfl
          rw [h.not_done hcall] at hset
          cases hset
        exact .inl ((hdone leader hne).trans hset)
      · by_cases heq : leader = call
        · rw [heq, hcall] at hleader
          cases hleader
          rw [heq, if_pos rfl]
          exact howes howes'
        · exact .inr ⟨place', by rw [if_neg heq]; exact hleader, howes'⟩
  gone call' hset := by
    rw [calls_put]
    split
    · rename_i heq
      subst heq
      exact ⟨h.lt_made hcall, hover hset⟩
    · rename_i hne
      exact h.gone call' ((hdone call' hne).symm.trans hset)

theorem Place.leads_of_not_owes (h : place.owes = false) : place.leads = false := by
  cases place with
  | leading => cases h
  | ending => cases h
  | _ => rfl

omit [DecidableEq K] in
/-- A call that neither leads nor owes its followers anything changes. -/
theorem Flying.keep (h : Flying s) (hcall : s.calls call = some (key, place)) {now : Option (K × Place)}
    (hplace : place.owes = false) (hnow : ∀ key' place', now = some (key', place') → place'.leads = false)
    (hfollows : ∀ key' leader, now = some (key', .following leader) →
      leader ≠ call ∧ ∃ place, s.calls leader = some (key', place) ∧ place.owes = true) : Flying (s.put call now) := by
  refine h.put hcall (fun _ _ _ => Iff.rfl) (fun key' => ⟨fun hin => ?_, fun ⟨place', hnow', hleads⟩ => ?_⟩) hfollows
    (fun howes => ?_) (fun _ _ => rfl) (fun hset => ?_)
  · obtain ⟨place', hcall', hleads⟩ := (h.leads key' call).1 hin
    rw [hcall] at hcall'
    cases hcall'
    rw [Place.leads_of_not_owes hplace] at hleads
    cases hleads
  · rw [hnow key' place' hnow'] at hleads
    cases hleads
  · rw [hplace] at howes
    cases howes
  · rw [h.not_done hcall] at hset
    cases hset

theorem Place.owes_of_leads (h : place.leads = true) : place.owes = true := by
  cases place with
  | leading => rfl
  | ending => rfl
  | _ => cases h

omit [DecidableEq K] in
/-- The key's leader is the one call whose future the key holds. -/
theorem Flying.inflight (h : Flying s) (hcall : s.calls call = some (key, place)) (hleads : place.leads = true) {key' : K} :
    s.inflight key' = some call ↔ key' = key := by
  rw [h.leads]
  constructor
  · rintro ⟨place', hcall', -⟩
    rw [hcall] at hcall'
    cases hcall'
    rfl
  · rintro rfl
    exact ⟨place, hcall, hleads⟩

omit [DecidableEq K] in
/-- A call begins. -/
theorem Flying.begins (h : Flying s) (key : K) : Flying { s.put s.made (some (key, .missed)) with made := s.made + 1 } := by
  have hnone := h.fresh s.made (Nat.le_refl _)
  refine ⟨fun call' hle => ?_, fun key' call' => ?_, fun call' key' leader hcall' => ?_, fun call' hset => ?_⟩
  · change (s.put s.made _).calls call' = none
    rw [calls_put, if_neg (fun heq => Nat.not_succ_le_self _ (heq ▸ hle))]
    exact h.fresh call' (Nat.le_of_succ_le hle)
  · change s.inflight key' = some call' ↔ ∃ place, (s.put s.made _).calls call' = some (key', place) ∧ place.leads = true
    rw [calls_put]
    split
    · rename_i heq
      rw [h.leads, heq, hnone]
      constructor
      · rintro ⟨_, hcall, -⟩
        cases hcall
      · rintro ⟨_, hcall, hleads⟩
        cases hcall
        cases hleads
    · exact h.leads key' call'
  · change (s.put s.made _).calls call' = _ at hcall'
    change s.done leader = true ∨ ∃ place, (s.put s.made _).calls leader = some (key', place) ∧ place.owes = true
    rw [calls_put] at hcall' ⊢
    split at hcall'
    · cases hcall'
    · rcases h.waits call' key' leader hcall' with hset | ⟨place, hleader, howes⟩
      · exact .inl hset
      · have hne : leader ≠ s.made := fun heq => by rw [heq, hnone] at hleader; cases hleader
        exact .inr ⟨place, by rw [if_neg hne]; exact hleader, howes⟩
  · obtain ⟨hlt, hover⟩ := h.gone call' hset
    refine ⟨Nat.lt_succ_of_lt hlt, ?_⟩
    change (s.put s.made _).calls call' = none
    rw [calls_put, if_neg (Nat.ne_of_lt hlt)]
    exact hover

/-- A call leads its key. -/
theorem Flying.lead (h : Flying s) (hcall : s.calls call = some (key, .missed)) (hfree : s.inflight key = none) :
    Flying { s.put call (some (key, .leading)) with inflight := Function.update s.inflight key (some call) } := by
  have hnot (key' : K) : s.inflight key' ≠ some call := fun hin => by
    obtain ⟨place', hcall', hleads⟩ := (h.leads key' call).1 hin
    rw [hcall] at hcall'
    cases hcall'
    cases hleads
  refine h.put hcall (fun key' call' hne => ?_) (fun key' => ?_) (fun _ _ hnow => ?_) (fun howes => ?_) (fun _ _ => rfl)
    (fun hset => ?_)
  · rw [Function.update_apply]
    split
    · rename_i heq
      rw [heq, hfree]
      exact ⟨fun hin => absurd (Option.some.inj hin).symm hne, fun hin => (by cases hin)⟩
    · exact Iff.rfl
  · rw [Function.update_apply]
    split
    · rename_i heq
      subst heq
      exact ⟨fun _ => ⟨_, rfl, rfl⟩, fun _ => rfl⟩
    · rename_i hne
      refine ⟨fun hin => absurd hin (hnot key'), ?_⟩
      rintro ⟨place', hnow, -⟩
      cases hnow
      exact absurd rfl hne
  · cases hnow
  · cases howes
  · change s.done call = true at hset
    rw [h.not_done hcall] at hset
    cases hset

/-- The key of a leader that is done is free. -/
theorem Flying.free (h : Flying s) (hcall : s.calls call = some (key, .ending)) :
    Flying { s.put call (some (key, .freed)) with inflight := Function.update s.inflight key none } := by
  have hin : s.inflight key = some call := (h.inflight hcall rfl).2 rfl
  refine h.put hcall (fun key' call' hne => ?_) (fun key' => ?_) (fun _ _ hnow => ?_) (fun _ => .inr ⟨_, rfl, rfl⟩)
    (fun _ _ => rfl) (fun hset => ?_)
  · rw [Function.update_apply]
    split
    · rename_i heq
      rw [heq, hin]
      exact ⟨fun hin' => (by cases hin'), fun hin' => absurd (Option.some.inj hin').symm hne⟩
    · exact Iff.rfl
  · rw [Function.update_apply]
    constructor
    · intro hin'
      split at hin'
      · cases hin'
      · rename_i hne
        exact absurd ((h.inflight hcall rfl).1 hin') hne
    · rintro ⟨_, hnow, hleads⟩
      cases hnow
      cases hleads
  · cases hnow
  · change s.done call = true at hset
    rw [h.not_done hcall] at hset
    cases hset

/-- What a step does keeps the invariant. -/
theorem Move.flying {ends : Option Nat} (hmove : Move s ends s') (h : Flying s) : Flying s' := by
  cases hmove with
  | stay => exact h.store _ _
  | call key => exact h.begins key
  | compute hcall hplace =>
      refine h.keep hcall hplace (fun _ _ hnow => ?_) (fun _ _ hnow => ?_)
      · cases hnow
        rfl
      · cases hnow
  | wake hcall _ =>
      refine h.keep hcall rfl (fun _ _ hnow => ?_) (fun _ _ hnow => ?_)
      · cases hnow
        rfl
      · cases hnow
  | lead hcall hfree => exact h.lead hcall hfree
  | @follow call leader key hcall hin =>
      obtain ⟨place, hleader, hleads⟩ := (h.leads key leader).1 hin
      refine h.keep hcall rfl (fun _ _ hnow => ?_) (fun _ _ hnow => ?_)
      · cases hnow
        rfl
      · cases hnow
        refine ⟨?_, place, hleader, Place.owes_of_leads hleads⟩
        rintro rfl
        rw [hcall] at hleader
        cases hleader
        cases hleads
  | leave hcall hplace =>
      refine Flying.store (s := s.put _ none) (h.keep hcall hplace (fun _ _ hnow => ?_) (fun _ _ hnow => ?_)) s.env _
      · cases hnow
      · cases hnow
  | @finish call key store hcall =>
      refine Flying.store (s := { s.put call (some (key, .ending)) with inflight := s.inflight, done := s.done }) (h.put hcall (fun _ _ _ => Iff.rfl) (fun key' => ?_)
        (fun _ _ hnow => ?_) (fun _ => .inr ⟨_, rfl, rfl⟩) (fun _ _ => rfl) (fun hset => ?_)) s.env store
      · rw [h.inflight hcall rfl]
        constructor
        · rintro rfl
          exact ⟨_, rfl, rfl⟩
        · rintro ⟨_, hnow, -⟩
          cases hnow
          rfl
      · cases hnow
      · rw [h.not_done hcall] at hset
        cases hset
  | free hcall => exact h.free hcall
  | @set call key hcall =>
      refine h.put hcall (fun _ _ _ => Iff.rfl) (fun key' => ?_) (fun _ _ hnow => ?_)
        (fun _ => .inl (Function.update_self _ _ _)) (fun call' hne => Function.update_of_ne hne _ _) (fun _ => rfl)
      · refine (h.leads key' call).trans ?_
        rw [hcall]
        constructor
        · rintro ⟨_, hnow, hleads⟩
          cases hnow
          cases hleads
        · rintro ⟨_, hnow, -⟩
          cases hnow
      · cases hnow

theorem flying_of_run (hrun : run (next W) (.initial env) es = some s) : Flying s :=
  run_keeps (I := Flying) (fun _ _ _ h hnext => (next_move hnext).flying h) (flying_initial env) hrun

theorem wakes (key : K) (hcall : s.calls call = some (key, .following leader)) (hdone : s.done leader = true) :
    (run (next W) s [.wake call]).isSome := by
  rw [run, next, hcall]
  dsimp only
  rw [if_pos hdone]
  rfl

theorem wakes_set (key : K) (hcall : s.calls call = some (key, .following leader)) (hleader : s.calls leader = some (key, .freed)) :
    (run (next W) s [.set leader, .wake call]).isSome := by
  have hne : call ≠ leader := fun heq => by rw [heq, hleader] at hcall; cases hcall
  rw [run, next, hleader]
  refine wakes key ?_ (Function.update_self leader _ _)
  exact (calls_put ..).trans ((if_neg hne).trans hcall)

theorem wakes_free (key : K) (hcall : s.calls call = some (key, .following leader)) (hleader : s.calls leader = some (key, .ending)) :
    (run (next W) s [.free leader, .set leader, .wake call]).isSome := by
  have hne : call ≠ leader := fun heq => by rw [heq, hleader] at hcall; cases hcall
  rw [run, next, hleader]
  refine wakes_set key ?_ ?_
  · exact (calls_put ..).trans ((if_neg hne).trans hcall)
  · exact (calls_put ..).trans (if_pos rfl)

theorem wakes_raises (key : K) (hcall : s.calls call = some (key, .following leader)) (hleader : s.calls leader = some (key, .leading)) :
    (run (next W) s [.raises leader, .free leader, .set leader, .wake call]).isSome := by
  have hne : call ≠ leader := fun heq => by rw [heq, hleader] at hcall; cases hcall
  rw [run, next, hleader]
  refine wakes_free key ?_ ?_
  · exact (calls_put ..).trans ((if_neg hne).trans hcall)
  · exact (calls_put ..).trans (if_pos rfl)

/-- At any time, a key has one leader; and a follower can go on, or can when the body of its leader, a call of the same key, is
over, were it by raising, and the leader has gone on. -/
theorem followers_wait (hrun : run (next W) (.initial env) es = some s) :
    (∀ key call call' place place', s.calls call = some (key, place) → s.calls call' = some (key, place') →
      place.leads = true → place'.leads = true → call = call') ∧
    ∀ call key leader, s.calls call = some (key, .following leader) →
      ∃ ls : List (Event K V E ω), (∀ e ∈ ls, e = .raises leader ∨ e = .free leader ∨ e = .set leader) ∧
        (run (next W) s (ls ++ [.wake call])).isSome := by
  have h := flying_of_run hrun
  refine ⟨fun key call call' place place' hcall hcall' hleads hleads' => ?_, fun call key leader hcall => ?_⟩
  · have hin := (h.inflight hcall hleads).2 rfl
    rw [(h.inflight hcall' hleads').2 rfl] at hin
    exact (Option.some.inj hin).symm
  · rcases h.waits call key leader hcall with hdone | ⟨place, hleader, howes⟩
    · exact ⟨[], by simp, wakes key hcall hdone⟩
    · cases place with
      | leading => exact ⟨[.raises leader, .free leader, .set leader], by simp, wakes_raises key hcall hleader⟩
      | ending => exact ⟨[.free leader, .set leader], by simp, wakes_free key hcall hleader⟩
      | freed => exact ⟨[.set leader], by simp, wakes_set key hcall hleader⟩
      | _ => cases howes

/-- Entries are results, and are always served. -/
def results : World Nat Nat Nat Unit := ⟨fun _ _ entry => some entry, fun _ _ value => value⟩

/-- Two calls of one key: the second follows the first. -/
def pair : List (Event Nat Nat Nat Unit) := [.call 1, .call 1, .enter 0, .enter 1]

theorem followers_wait_pair :
    ∃ ls : List (Event Nat Nat Nat Unit), (∀ e ∈ ls, e = .raises 0 ∨ e = .free 0 ∨ e = .set 0) ∧
      (run (next results) ((run (next results) (.initial ()) pair).get rfl) (ls ++ [.wake 1])).isSome := by
  have hrun : run (next results) (.initial ()) pair = some ((run (next results) (.initial ()) pair).get rfl) := rfl
  exact (followers_wait hrun).2 1 1 0 rfl

/-! ## How often a body runs -/

section

variable (W : World K V E ω) (key : K) (s : State K E ω)

/-- A body of the key begins in the single flight: a leader's, or that of a follower that found nothing. One that is run
alone is not in it (locking is off, or no loop runs). -/
def State.begins : Event K V E ω → Bool
  | .enter call => (s.calls call).any (fun c => c.1 = key) && (s.inflight key).isNone
  | .reread call => (s.calls call).any (fun c => c.1 = key) && (s.served W key).isNone
  | _ => false

/-- It begins although the key can be served: it was looked up before. -/
def State.stale (e : Event K V E ω) : Bool := s.begins W key e && (s.served W key).isSome

/-- A leader's body is over, and nothing can be served. -/
def State.fails (e : Event K V E ω) (s' : State K E ω) : Bool :=
  match e with
  | .returns call _ _ | .raises call => (s.calls call).any (fun c => c.1 = key && c.2 = .leading) && (s'.served W key).isNone
  | _ => false

/-- What could be served cannot be any more. -/
def State.loses (s' : State K E ω) : Bool := (s.served W key).isSome && (s'.served W key).isNone

end

/-- What an ended body left can be served to those who are told. -/
def Told (W : World K V E ω) (key : K) (s : State K E ω) : Prop :=
  ∀ call place, s.calls call = some (key, place) →
    (place = .ending ∨ place = .freed ∨ place = .woken ∨ ∃ leader, place = .following leader ∧ s.done leader = true) →
    (s.served W key).isSome

theorem served_of_finish (hends : e.ends = some call) (hcall : s.calls call = some (key, .leading))
    (hfails : s.fails W key e s' = false) : (s'.served W key).isSome := by
  cases e with
  | returns call' value stored =>
      cases hends
      simpa [State.fails, hcall] using hfails
  | raises call' =>
      cases hends
      simpa [State.fails, hcall] using hfails
  | _ => cases hends

/-- The calls that were told that a body of the key is over, or are about to be. -/
def Knows (s : State K E ω) (key : K) : Prop := ∃ call place, s.calls call = some (key, place) ∧
  (place = .ending ∨ place = .freed ∨ place = .woken ∨ ∃ leader, place = .following leader ∧ s.done leader = true)

omit [DecidableEq K] in
theorem told_iff : Told W key s ↔ (Knows s key → (s.served W key).isSome) :=
  ⟨fun h ⟨call, place, hcall, hplace⟩ => h call place hcall hplace, fun h call place hcall hplace => h ⟨call, place, hcall, hplace⟩⟩

/-- Nobody is told before a leader's body is over. -/
theorem Knows.move {ends : Option Nat} (h : Flying s) (hmove : Move s ends s') (hknows : Knows s' key) :
    Knows s key ∨ ∃ call, ends = some call ∧ s.calls call = some (key, .leading) := by
  obtain ⟨call, place, hcall, hplace⟩ := hknows
  cases hmove with
  | stay => exact .inl ⟨call, place, hcall, hplace⟩
  | call key' =>
      change (s.put s.made _).calls call = _ at hcall
      rw [calls_put] at hcall
      split at hcall
      · cases hcall
        simp at hplace
      · exact .inl ⟨call, place, hcall, hplace⟩
  | compute _ _ =>
      rw [calls_put] at hcall
      split at hcall
      · cases hcall
        simp at hplace
      · exact .inl ⟨call, place, hcall, hplace⟩
  | lead _ _ =>
      change (s.put _ _).calls call = _ at hcall
      rw [calls_put] at hcall
      split at hcall
      · cases hcall
        simp at hplace
      · exact .inl ⟨call, place, hcall, hplace⟩
  | @follow call' leader key' hcall' hin =>
      rw [calls_put] at hcall
      split at hcall
      · cases hcall
        obtain ⟨place, hleader, -⟩ := (h.leads _ _).1 hin
        have hdone : (s.put call' (some (key, .following leader))).done leader = true := by simpa using hplace
        change s.done leader = true at hdone
        rw [h.not_done hleader] at hdone
        cases hdone
      · exact .inl ⟨call, place, hcall, hplace⟩
  | wake hcall' hdone =>
      rw [calls_put] at hcall
      split at hcall
      · cases hcall
        exact .inl ⟨_, _, hcall', .inr (.inr (.inr ⟨_, rfl, hdone⟩))⟩
      · exact .inl ⟨call, place, hcall, hplace⟩
  | leave _ _ =>
      change (s.put _ _).calls call = _ at hcall
      rw [calls_put] at hcall
      split at hcall
      · cases hcall
      · exact .inl ⟨call, place, hcall, hplace⟩
  | finish hcall' =>
      change (s.put _ _).calls call = _ at hcall
      rw [calls_put] at hcall
      split at hcall
      · cases hcall
        exact .inr ⟨_, rfl, hcall'⟩
      · exact .inl ⟨call, place, hcall, hplace⟩
  | free hcall' =>
      change (s.put _ _).calls call = _ at hcall
      rw [calls_put] at hcall
      split at hcall
      · cases hcall
        exact .inl ⟨_, _, hcall', .inl rfl⟩
      · exact .inl ⟨call, place, hcall, hplace⟩
  | @set call' key' hcall' =>
      change (s.put _ _).calls call = _ at hcall
      rw [calls_put] at hcall
      split at hcall
      · cases hcall
      · rcases hplace with hplace | hplace | hplace | ⟨leader, hplace, hdone⟩
        · exact .inl ⟨call, place, hcall, .inl hplace⟩
        · exact .inl ⟨call, place, hcall, .inr (.inl hplace)⟩
        · exact .inl ⟨call, place, hcall, .inr (.inr (.inl hplace))⟩
        · subst hplace
          change Function.update s.done call' true leader = true at hdone
          rw [Function.update_apply] at hdone
          split at hdone
          · -- The leader that was told to set its future is the one that is followed.
            rename_i heq
            rcases h.waits call key leader hcall with hset | ⟨place', hleader, -⟩
            · exact .inl ⟨call, _, hcall, .inr (.inr (.inr ⟨leader, rfl, hset⟩))⟩
            · rw [heq, hcall'] at hleader
              cases hleader
              exact .inl ⟨call', _, hcall', .inr (.inl rfl)⟩
          · exact .inl ⟨call, _, hcall, .inr (.inr (.inr ⟨leader, rfl, hdone⟩))⟩

omit [DecidableEq K] in
theorem served_of_next (hserved : (s.served W key).isSome) (hloses : s.loses W key s' = false) : (s'.served W key).isSome := by
  rw [State.loses, hserved, Bool.true_and] at hloses
  rwa [← Option.not_isNone, Bool.not_eq_true']

theorem Told.next (htold : Told W key s) (h : Flying s) (hnext : next W s e = some s') (hloses : s.loses W key s' = false)
    (hfails : s.fails W key e s' = false) : Told W key s' := by
  rw [told_iff] at htold ⊢
  intro hknows
  rcases hknows.move h (next_move hnext) with hknew | ⟨call, hends, hcall⟩
  · exact served_of_next (htold hknew) hloses
  · exact served_of_finish hends hcall hfails

/-- Whatever a body of the key may still be spared by. -/
def State.due (W : World K V E ω) (key : K) (s : State K E ω) : Nat :=
  if (s.served W key).isSome ∨ (s.inflight key).isSome then 1 else 0

omit [DecidableEq K] in
theorem State.due_le (s : State K E ω) : s.due W key ≤ 1 := by
  rw [State.due]
  split
  · exact Nat.le_refl 1
  · exact Nat.zero_le 1

/-- A key that is led is led on, unless its leader is in the `finally`. -/
theorem inflight_move {ends : Option Nat} (hmove : Move s ends s') (hin : (s.inflight key).isSome) :
    (s'.inflight key).isSome ∨ ∃ call, s.calls call = some (key, .ending) := by
  cases hmove with
  | @lead call key' _ _ =>
      refine .inl ?_
      change (Function.update s.inflight key' (some call) key).isSome
      rw [Function.update_apply]
      split
      · rfl
      · exact hin
  | @free call key' hcall =>
      change (Function.update s.inflight key' none key).isSome ∨ _
      rw [Function.update_apply]
      split
      · rename_i heq
        exact .inr ⟨call, heq ▸ hcall⟩
      · exact .inl hin
  | _ => exact .inl hin

/-- One step. -/
theorem due_next (htold : Told W key s) (hnext : next W s e = some s') (hloses : s.loses W key s' = false) :
    (s.begins W key e).toNat + s.due W key ≤ (s.stale W key e).toNat + s'.due W key := by
  have hdue : s.due W key ≤ s'.due W key := by
    by_cases hdue : (s.served W key).isSome ∨ (s.inflight key).isSome
    · have hdue' : (s'.served W key).isSome ∨ (s'.inflight key).isSome := by
        rcases hdue with hserved | hin
        · exact .inl (served_of_next hserved hloses)
        · rcases inflight_move (next_move hnext) hin with hin' | ⟨call, hcall⟩
          · exact .inr hin'
          · exact .inl (served_of_next (htold call _ hcall (.inl rfl)) hloses)
      exact Nat.le_of_eq ((if_pos hdue).trans (if_pos hdue').symm)
    · rw [State.due, if_neg hdue]
      exact Nat.zero_le _
  cases hbegins : s.begins W key e with
  | false => simpa using Nat.le_add_left_of_le hdue
  | true =>
      cases hstale : s.stale W key e with
      | true => exact Nat.add_le_add_left hdue 1
      | false =>
          -- Nothing can be served, so a follower that is told is not the one whose body begins.
          have hserved : s.served W key = none := by simpa [State.stale, hbegins] using hstale
          cases e with
          | enter call =>
              rw [State.begins, Bool.and_eq_true, Option.isNone_iff_eq_none] at hbegins
              obtain ⟨hkey, hfree⟩ := hbegins
              rw [next] at hnext
              split at hnext
              · rename_i key' hcall
                rw [hcall] at hkey
                have heq : key' = key := by simpa using hkey
                subst heq
                rw [hfree] at hnext
                cases hnext
                have hzero : s.due W key' = 0 := if_neg (by simp [hserved, hfree])
                have hone : State.due W key' { s.put call (some (key', .leading)) with
                    inflight := Function.update s.inflight key' (some call) } = 1 := if_pos (.inr (by simp))
                rw [hzero, hone]
                exact Nat.le_refl 1
              · cases hnext
          | reread call =>
              rw [State.begins, Bool.and_eq_true] at hbegins
              rw [next] at hnext
              split at hnext
              · rename_i key' hcall
                rw [hcall] at hbegins
                have heq : key' = key := by simpa using hbegins.1
                subst heq
                have hsome := htold call _ hcall (.inr (.inr (.inl rfl)))
                rw [hserved] at hsome
                cases hsome
              · cases hnext
          | _ => cases hbegins

/-- Where no entry of a key is lost, and every leader's body leaves one that can be served, the bodies of the key that begin in
the single flight, leaders' and followers', are at most one more than those of the callers that looked it up before it was
stored. -/
theorem flights_le (key : K) (hrun : run (next W) (.initial env) es = some s)
    (hloses : times (next W) (fun s _ s' => s.loses W key s') (.initial env) es = 0)
    (hfails : times (next W) (fun s e s' => s.fails W key e s') (.initial env) es = 0) :
    times (next W) (fun s e _ => s.begins W key e) (.initial env) es ≤
      times (next W) (fun s e _ => s.stale W key e) (.initial env) es + 1 := by
  obtain ⟨hrun₁, htotal₁⟩ := run_good hrun hloses
  rw [times, ← htotal₁] at hfails
  obtain ⟨hrun₂, htotal₂⟩ := run_good hrun₁ hfails
  rw [times, times, ← htotal₁, ← htotal₁, ← htotal₂, ← htotal₂]
  have hdue : s.due W key ≤ 1 := s.due_le
  refine Nat.le_trans (Nat.le_add_right _ (State.due W key (.initial env))) (Nat.le_trans ?_ (Nat.add_le_add_left hdue _))
  refine total_le (I := fun s : State K E ω => Flying s ∧ Told W key s) (fun s e s' h hnext => ?_) (fun s e s' h hnext => ?_)
    ⟨flying_initial env, fun _ _ hcall => (by cases hcall)⟩ hrun₂
  · obtain ⟨hgood, hfails'⟩ := good_eq_some.1 hnext
    obtain ⟨hnext', hloses'⟩ := good_eq_some.1 hgood
    exact ⟨(next_move hnext').flying h.1, h.2.next h.1 hnext' hloses' hfails'⟩
  · obtain ⟨hnext', hloses'⟩ := good_eq_some.1 (good_eq_some.1 hnext).1
    exact due_next h.2 hnext' hloses'

/-- The first stores what it computes, and the second is served. -/
def told : List (Event Nat Nat Nat Unit) := pair ++ [.returns 0 5 true, .free 0, .set 0, .wake 1, .reread 1]

theorem flights_le_told : times (next results) (fun s e _ => s.begins results 1 e) (.initial ()) told ≤
    times (next results) (fun s e _ => s.stale results 1 e) (.initial ()) told + 1 := by
  have hends : (run (next results) (.initial ()) told).isSome := rfl
  exact flights_le 1 (Option.some_get hends).symm rfl rfl

end Cash.Calls.Flight
