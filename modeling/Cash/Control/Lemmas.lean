import Cash.Control.Structures

/-!
# Parts of a control structure

What `break` and `continue` can leave, what an `except` may name, and each way a structure is run beside Python's.
-/

namespace Cash.Control

open Proc

variable {σ ε V T N α β : Type} {W : World σ ε V T N} {fuel : Nat} {e : ε}

/-! ## Jumps -/

mutual

/-- A `break` or `continue` leaves it. Python refuses such a statement outside a loop. -/
def Stmt.loose : Stmt σ ε V T N → Bool
  | .plain .. => false
  | .leaving _ | .brk | .cont => true
  | .cond _ _ body orelse => looseAll body || looseAll orelse
  | .loop _ _ _ _ orelse | .while _ _ orelse => looseAll orelse
  | .with _ _ body => looseAll body
  | .try body handlers orelse finalbody =>
    looseAll body || looseHandlers handlers || looseAll orelse || looseAll finalbody

def looseAll : List (Stmt σ ε V T N) → Bool
  | [] => false
  | stmt :: rest => stmt.loose || looseAll rest

def Handler.loose : Handler σ ε V T N → Bool
  | .mk _ _ body => looseAll body

def looseHandlers : List (Handler σ ε V T N) → Bool
  | [] => false
  | handler :: rest => handler.loose || looseHandlers rest

end

mutual

/-- What holds no `break` or `continue` lets none out. -/
theorem Stmt.loose_of_jumps : (stmt : Stmt σ ε V T N) → stmt.jumps = false → stmt.loose = false
  | .plain .., _ => rfl
  | .leaving _, h => by cases h
  | .brk, h => by cases h
  | .cont, h => by cases h
  | .cond _ _ body orelse, h => by
      rw [Stmt.jumps, Bool.or_eq_false_iff] at h
      rw [Stmt.loose, loose_of_jumpsAll body h.1, loose_of_jumpsAll orelse h.2]
      rfl
  | .loop _ _ _ _ orelse, h => by
      rw [Stmt.jumps, Bool.or_eq_false_iff] at h
      exact loose_of_jumpsAll orelse h.2
  | .while _ _ orelse, h => by
      rw [Stmt.jumps, Bool.or_eq_false_iff] at h
      exact loose_of_jumpsAll orelse h.2
  | .with _ _ body, h => loose_of_jumpsAll body h
  | .try body handlers orelse finalbody, h => by
      simp only [Stmt.jumps, Bool.or_eq_false_iff] at h
      rw [Stmt.loose, loose_of_jumpsAll body h.1.1.1, loose_of_jumpsHandlers handlers h.1.1.2,
        loose_of_jumpsAll orelse h.1.2, loose_of_jumpsAll finalbody h.2]
      rfl

theorem loose_of_jumpsAll : (stmts : List (Stmt σ ε V T N)) → jumpsAll stmts = false → looseAll stmts = false
  | [], _ => rfl
  | stmt :: rest, h => by
      rw [jumpsAll, Bool.or_eq_false_iff] at h
      rw [looseAll, stmt.loose_of_jumps h.1, loose_of_jumpsAll rest h.2]
      rfl

theorem Handler.loose_of_jumps : (handler : Handler σ ε V T N) → handler.jumps = false → handler.loose = false
  | .mk _ _ body, h => loose_of_jumpsAll body h

theorem loose_of_jumpsHandlers : (handlers : List (Handler σ ε V T N)) → jumpsHandlers handlers = false →
    looseHandlers handlers = false
  | [], _ => rfl
  | handler :: rest, h => by
      rw [jumpsHandlers, Bool.or_eq_false_iff] at h
      rw [looseHandlers, handler.loose_of_jumps h.1, loose_of_jumpsHandlers rest h.2]
      rfl

end

/-- It ends by going on to the next statement, if it raises nothing. -/
abbrev GoesOn (m : Proc σ ε Flow) : Prop := m.Returns (· = .done)

theorem inFinally_goesOn {m last : Proc σ ε Flow} (hm : GoesOn m) (hlast : GoesOn last) : GoesOn (inFinally m last) := by
  refine hm.attempt (fun flow hflow => hlast.bind fun jump hjump => ?_) fun e => (hlast.handling e).bind fun jump hjump => ?_
  · rw [hjump]
    exact .pure hflow
  · rw [hjump]
    exact .raise e

theorem tried_goesOn {body orelse : Proc σ ε Flow} {handler : ε → Proc σ ε Flow} (hbody : GoesOn body)
    (horelse : GoesOn orelse) (hhandler : ∀ e, GoesOn (handler e)) : GoesOn (tried body orelse handler) :=
  hbody.attempt (fun flow hflow => by rw [hflow]; exact horelse) fun e => (hhandler e).handling e

mutual

theorem Stmt.exec_goesOn : (stmt : Stmt σ ε V T N) → stmt.loose = false → GoesOn (stmt.exec W fuel)
  | .plain _ run, _ => .next fun _ => .pure rfl
  | .leaving _, h => by cases h
  | .brk, h => by cases h
  | .cont, h => by cases h
  | .cond _ test body orelse, h => by
      rw [Stmt.loose, Bool.or_eq_false_iff] at h
      refine .next fun taken => ?_
      cases taken with
      | true => exact execAll_goesOn body h.1
      | false => exact execAll_goesOn orelse h.2
  | .loop _ header bind body orelse, h => by
      refine .next fun v => .next fun broke => ?_
      cases broke with
      | true => exact .pure rfl
      | false => exact execAll_goesOn orelse h
  | .while test body orelse, h => by
      refine .next fun broke => ?_
      cases broke with
      | true => exact .pure rfl
      | false => exact execAll_goesOn orelse h
  | .with enter exit body, h => by
      refine .next fun manager => (execAll_goesOn body h).attempt (fun flow hflow => .next fun _ => .pure hflow) fun e => ?_
      refine .next fun handled => ?_
      cases handled with
      | true => exact .pure rfl
      | false => exact .raise e
  | .try body handlers orelse finalbody, h => by
      simp only [Stmt.loose, Bool.or_eq_false_iff] at h
      exact inFinally_goesOn (tried_goesOn (execAll_goesOn body h.1.1.1) (execAll_goesOn orelse h.1.2) fun e =>
        execHandlers_goesOn e handlers h.1.1.2) (execAll_goesOn finalbody h.2)

theorem execAll_goesOn : (stmts : List (Stmt σ ε V T N)) → looseAll stmts = false → GoesOn (execAll W fuel stmts)
  | [], _ => .pure rfl
  | stmt :: rest, h => by
      rw [looseAll, Bool.or_eq_false_iff] at h
      refine (stmt.exec_goesOn h.1).bind fun flow hflow => ?_
      rw [hflow]
      exact execAll_goesOn rest h.2

theorem Handler.exec_goesOn (e : ε) : (handler : Handler σ ε V T N) → handler.loose = false →
    (handler.exec W fuel e).Returns fun flow => ∀ f ∈ flow, f = .done
  | .mk type name body, h => by
      refine .next fun found => ?_
      cases found with
      | true =>
          have hbound : GoesOn (bound W e (execAll W fuel body) name) := by
            cases name with
            | none => exact execAll_goesOn body h
            | some id => exact .next fun _ => (execAll_goesOn body h).ensuring _
          exact hbound.bind fun flow hflow => .pure fun f hf => by
            cases hf
            exact hflow
      | false => exact .pure fun f hf => by cases hf

theorem execHandlers_goesOn (e : ε) : (handlers : List (Handler σ ε V T N)) → looseHandlers handlers = false →
    GoesOn (execHandlers W fuel e handlers)
  | [], _ => .raise e
  | handler :: rest, h => by
      rw [looseHandlers, Bool.or_eq_false_iff] at h
      refine (handler.exec_goesOn e h.1).bind fun flow hflow => ?_
      cases flow with
      | none => exact execHandlers_goesOn e rest h.2
      | some f => exact .pure (hflow f rfl)

end

/-- A statement that goes on, before the rest. -/
theorem execAll_cons {stmt : Stmt σ ε V T N} {rest : List (Stmt σ ε V T N)} (h : GoesOn (stmt.exec W fuel)) :
    execAll W fuel (stmt :: rest) = void (stmt.exec W fuel) >>= fun _ => execAll W fuel rest := by
  funext c s
  rw [void_bind, execAll, bind_apply, bind_apply]
  rcases h.ends c s with h | ⟨e, t, h⟩ | ⟨flow, t, rfl, h⟩ <;> rw [h] <;> rfl

theorem attempt_goesOn {m : Proc σ ε Flow} (h : GoesOn m) (f : Except ε Unit → Proc σ ε β) {g : Except ε Flow → Proc σ ε β}
    (hok : g (.ok .done) = f (.ok ())) (herror : ∀ e, g (.error e) = f (.error e)) :
    (attempt (void m) >>= f) = attempt m >>= g := by
  funext c s
  rw [attempt_apply, attempt_apply, void, bind_apply]
  rcases h.ends c s with h | ⟨e, t, h⟩ | ⟨flow, t, rfl, h⟩
  · rw [h]
    rfl
  · rw [h]
    exact (congrFun (congrFun (herror e) c) t).symm
  · rw [h]
    exact (congrFun (congrFun hok c) t).symm

theorem runTried_goesOn {body : Proc σ ε Flow} (hbody : GoesOn body) (orelse : Proc σ ε Flow) (handler : ε → Proc σ ε Flow) :
    runTried (void body) (void orelse) (fun e => void (handler e)) = void (tried body orelse handler) := by
  rw [runTried, tried, bind_void]
  exact attempt_goesOn hbody _ rfl fun e => rfl

theorem ensuring_goesOn {m last : Proc σ ε Flow} (hm : GoesOn m) (hlast : GoesOn last) :
    ensuring (void m) (void last) = void (inFinally m last) := by
  rw [ensuring, inFinally, bind_void]
  refine attempt_goesOn hm _ ?_ fun e => ?_
  · dsimp only
    rw [void_bind, bind_void]
    funext c s
    rw [bind_apply, bind_apply]
    rcases hlast.ends c s with h | ⟨e, t, h⟩ | ⟨flow, t, rfl, h⟩ <;> rw [h] <;> rfl
  · have hleft : handling e (void last) = void (handling e last) := rfl
    dsimp only
    rw [hleft, void_bind, bind_void]
    funext c s
    rw [bind_apply, bind_apply]
    rcases (hlast.handling e).ends c s with h | ⟨e', t, h⟩ | ⟨flow, t, rfl, h⟩ <;> rw [h] <;> rfl

/-! ## Results -/

theorem guarded_bind_congr {m : Proc σ ε α} {f g : α → Proc σ ε (Ended ε)} (h : ∀ a, guarded W (f a) = guarded W (g a)) :
    guarded W (m >>= f) = guarded W (m >>= g) := by
  funext c s
  rw [guarded, guarded, attempt_bind, attempt_bind, bind_assoc, bind_assoc, attempt_apply, attempt_apply]
  rcases m.ends c s with hs | ⟨e, t, hs⟩ | ⟨a, t, hs⟩
  · rw [hs]
    rfl
  · rw [hs]
    rfl
  · rw [hs]
    exact congrFun (congrFun (h a) c) t

/-- An error that is a result is raised again as it was. -/
theorem reraised_guarded (m : Proc σ ε (Ended ε)) : reraised (guarded W m) = reraised m := by
  funext c s
  rw [reraised, reraised, guarded, bind_assoc, attempt_apply, bind_apply]
  rcases m.ends c s with h | ⟨e, t, h⟩ | ⟨ended, t, h⟩
  · rw [h]
    rfl
  · rw [h]
    dsimp only [Option.bind_some]
    cases W.ordinary e with
    | true => rfl
    | false => rfl
  · rw [h]
    rfl

theorem guarded_guarded (m : Proc σ ε (Ended ε)) : guarded W (guarded W m) = guarded W m := by
  rw [guarded, guarded, attempt_attempt, bind_assoc]
  refine bind_congr fun r => ?_
  cases r with
  | ok ended => rfl
  | error e =>
      dsimp only
      by_cases he : W.ordinary e = true
      · rw [if_pos he]
        rfl
      · rw [if_neg he, attempt_raise, pure_bind]
        exact if_neg he

theorem reraised_processStatement (m : Proc σ ε α) : reraised (processStatement W m) = void m := by
  rw [processStatement, reraised_guarded, reraised, succeeding, bind_assoc]
  rfl

theorem processStatement_void (m : Proc σ ε α) : processStatement W (void m) = processStatement W m := by
  rw [processStatement, processStatement, succeeding, succeeding, void_bind]

theorem processStatement_none {m : Proc σ ε α} {c : Option ε} {s : σ} (h : m c s = none) : processStatement W m c s = none := by
  rw [processStatement, guarded, attempt_apply, succeeding, bind_apply, h]
  rfl

theorem processStatement_ok {m : Proc σ ε α} {c : Option ε} {s t : σ} {a : α} (h : m c s = some (.ok a, t)) :
    processStatement W m c s = some (.ok .success, t) := by
  rw [processStatement, guarded, attempt_apply, succeeding, bind_apply, h]
  rfl

theorem processStatement_error {m : Proc σ ε α} {c : Option ε} {s t : σ} (h : m c s = some (.error e, t)) :
    processStatement W m c s = some (if W.ordinary e then .ok (.failed e) else .error e, t) := by
  rw [processStatement, guarded, attempt_apply, succeeding, bind_apply, h]
  dsimp only [after, Option.bind_some]
  cases W.ordinary e with
  | true => rfl
  | false => rfl

/-- A result that is returned from within is the result. -/
theorem guarded_processStatement (m : Proc σ ε α) : guarded W (processStatement W m) = processStatement W m :=
  guarded_guarded _

theorem guarded_ask (f : σ → α) (g : α → Proc σ ε (Ended ε)) : guarded W (ask f >>= g) = ask f >>= fun a => guarded W (g a) :=
  rfl

/-! ## Handlers -/

/-- Classes that `isinstance` takes as `except` does. -/
def World.Exceptions (W : World σ ε V T N) (type : T) : Prop :=
  ∀ e, W.isinstance e type = W.catches e type ∧
    ∀ c s e' t, W.isinstance e type c s = some (.error e', t) → W.usual e' = false ∧ W.nameError e' = false

/-- What stands behind `except` is evaluated to exception classes, or raises what is not taken for no match. -/
def World.Names (W : World σ ε V T N) (type : Proc σ ε T) : Prop :=
  ∀ c s, (∀ e t, type c s = some (.error e, t) → W.usual e = false ∧ W.nameError e = false) ∧
    ∀ a t, type c s = some (.ok a, t) → W.Exceptions a

/-- An exception can be written out, or raises what is passed over, and nothing changes. -/
def World.Quiet (W : World σ ε V T N) (e : ε) : Prop :=
  ∀ c s, W.describe e c s = some (.ok (), s) ∨ ∃ e', W.describe e c s = some (.error e', s) ∧ W.usual e' = true

theorem matchesHandler_eq {type : Option (Proc σ ε T)} (h : ∀ t ∈ type, W.Names t) : matchesHandler W e type = caught W e type := by
  cases type with
  | none => rfl
  | some type =>
      have hnames := h type rfl
      funext c s
      rw [matchesHandler, caught, attempt_bind, bind_assoc, attempt_apply, bind_apply]
      rcases type.ends c s with hs | ⟨e', t, hs⟩ | ⟨a, t, hs⟩
      · rw [hs]
        rfl
      · obtain ⟨husual, hname⟩ := (hnames c s).1 e' t hs
        rw [hs]
        simp only [Option.bind_some, carry, pure_bind, husual, hname]
        rfl
      · have hclass := (hnames c s).2 a t hs e
        rw [hs]
        simp only [Option.bind_some, carry, after]
        rw [attempt_apply, ← hclass.1]
        rcases (W.isinstance e a).ends c t with hi | ⟨e', u, hi⟩ | ⟨found, u, hi⟩
        · rw [hi]
          rfl
        · obtain ⟨husual, hname⟩ := hclass.2 c t e' u hi
          rw [hi]
          simp only [Option.bind_some, husual, hname]
          rfl
        · rw [hi]
          rfl

theorem bindException_eq {id : N} (h : W.Quiet e) : bindException W e id = modify (W.set id e) := by
  funext c s
  rw [bindException, bind_apply]
  change (attempt (W.describe e) >>= _) c (W.set id e s) = _
  rw [attempt_apply]
  rcases h c (W.set id e s) with hs | ⟨e', hs, he⟩
  · rw [hs]
    rfl
  · rw [hs]
    simp only [Option.bind_some, he]
    rfl

theorem runBound_eq (h : W.Quiet e) (body : Proc σ ε α) (name : Option N) :
    runBound W e (void body) name = void (bound W e body name) := by
  cases name with
  | none => rfl
  | some id => rw [runBound, bindException_eq h, bound, bind_void, ensuring_void]

/-! ## Loops -/

section

variable {bind : V → Proc σ ε Unit} {body : Proc σ ε Flow} {rest : Nat → σ → Bool} {made : Nat} {v it : V}

/-- One pass, and the others. -/
theorem passes_succ (hbody : GoesOn body) : passes W bind body (fuel + 1) it =
    W.next it >>= fun item => item.elim (pure false) fun x =>
      bind x >>= fun _ => void body >>= fun _ => passes W bind body fuel it := by
  rw [passes]
  refine bind_congr fun item => ?_
  cases item with
  | none => rfl
  | some x =>
      refine bind_congr fun _ => ?_
      rw [void_bind]
      funext c s
      rw [bind_apply, bind_apply]
      rcases hbody.ends c s with h | ⟨e, t, h⟩ | ⟨flow, t, rfl, h⟩ <;> rw [h] <;> rfl

theorem passByPass_succ (run : Proc σ ε Unit) : passByPass W bind run rest (fuel + 1) made it =
    W.next it >>= fun item => item.elim (pure none) fun x =>
      bind x >>= fun _ => run >>= fun _ => ask (rest (made + 1)) >>= fun left =>
        if left then pure (some fuel) else passByPass W bind run rest fuel (made + 1) it := by
  rw [passByPass]
  refine bind_congr fun item => ?_
  cases item with
  | none => rfl
  | some x => rfl

/-- Where the rest is never left to a unit, every pass is made. -/
theorem passByPass_never (hbody : GoesOn body) (hrest : ∀ made s, rest made s = false) :
    passByPass W bind (void body) rest fuel made it = passes W bind body fuel it >>= fun _ => pure none := by
  induction fuel generalizing made with
  | zero => rfl
  | succ fuel ih =>
      rw [passByPass_succ, passes_succ hbody, bind_assoc]
      refine bind_congr fun item => ?_
      cases item with
      | none => rfl
      | some x =>
          dsimp only [Option.elim]
          rw [bind_assoc]
          refine bind_congr fun _ => ?_
          rw [bind_assoc]
          refine bind_congr fun _ => ?_
          rw [← @ih (made + 1)]
          funext c s
          rw [ask_apply, hrest]
          rfl

/-- The passes made and the rest as one unit are the passes of the loop: an iterator goes on where it stands. -/
theorem passByPass_rest {resume : Nat → Proc σ ε Unit} (hbody : GoesOn body)
    (hresume : ∀ fuel made c s, rest made s = true → resume fuel c s = void (passes W bind body fuel it) c s) :
    (passByPass W bind (void body) rest fuel made it >>= fun left => left.elim (pure ()) resume) =
      void (passes W bind body fuel it) := by
  induction fuel generalizing made with
  | zero => rfl
  | succ fuel ih =>
      rw [passByPass_succ, passes_succ hbody, bind_assoc, bind_void]
      refine bind_congr fun item => ?_
      cases item with
      | none => rfl
      | some x =>
          dsimp only [Option.elim]
          rw [bind_assoc, bind_void]
          refine bind_congr fun _ => ?_
          rw [bind_assoc, bind_void]
          refine bind_congr fun _ => ?_
          rw [bind_assoc]
          funext c s
          rw [ask_apply]
          cases hrest : rest (made + 1) s with
          | true => exact hresume fuel (made + 1) c s hrest
          | false => exact congrFun (congrFun (@ih (made + 1)) c) s

variable [DecidableEq V] {P : Policy σ ε V T N} {node : Stmt σ ε V T N} {header : Header σ ε V N}

/-- A header that still names a value is evaluated to it. -/
theorem eval_of_stillNamed {c : Option ε} {s : σ} (h : stillNamed W header v s = true) (f : V → Proc σ ε α) :
    (header.eval W >>= f) c s = f v c s := by
  cases header with
  | expr eval => cases h
  | name id =>
      have hget : W.get id s = some v := of_decide_eq_true h
      rw [Header.eval, bind_assoc, ask_apply, hget]
      rfl

theorem own_of_namesTheIterator {s : σ} (h : namesTheIterator W header v s = true) : W.own v s = true := by
  cases header with
  | expr eval => cases h
  | name id => exact (Bool.and_eq_true_iff.mp h).2

/-- However many passes are made one by one, the loop is the loop. -/
theorem runDecomposed_eq (hbody : GoesOn body) :
    runDecomposed W P node header bind body (void body) fuel v = void (loopThrough W bind body fuel v) := by
  funext c s
  rw [runDecomposed, ask_apply, ask_apply]
  cases hown : namesTheIterator W header v s || W.own v s with
  | false =>
      rw [loopThrough, bind_void]
      refine congrFun (congrFun (bind_congr fun it => ?_) c) s
      simp only [Bool.false_and]
      rw [passByPass_never hbody fun _ _ => rfl, bind_assoc]
      rfl
  | true =>
      have hiter : W.iter v = pure v := by
        rcases Bool.or_eq_true_iff.mp hown with hnamed | hown
        · exact W.own_iter v s (own_of_namesTheIterator hnamed)
        · exact W.own_iter v s hown
      have hover (fuel : Nat) : loopThrough W bind body fuel v = passes W bind body fuel v := by
        rw [loopThrough, hiter, pure_bind]
      have hresume (fuel made : Nat) (c : Option ε) (s' : σ)
          (hrest : (true && P.rest node v made s' && (!namesTheIterator W header v s || stillNamed W header v s')) = true) :
          reraised (processStatement W (theRest W header bind body (namesTheIterator W header v s) v fuel)) c s' =
            void (passes W bind body fuel v) c s' := by
        rw [reraised_processStatement, ← hover]
        cases hnamed : namesTheIterator W header v s with
        | false => rfl
        | true =>
            rw [hnamed] at hrest
            have hstill : stillNamed W header v s' = true := (Bool.and_eq_true_iff.mp hrest).2
            rw [theRest, if_pos rfl, bind_void]
            exact eval_of_stillNamed hstill fun v => void (loopThrough W bind body fuel v)
      rw [hiter, pure_bind, hover, ← passByPass_rest hbody hresume]
      refine congrFun (congrFun (bind_congr fun left => ?_) c) s
      cases left with
      | none => rfl
      | some fuel => rfl

end

end Cash.Control
