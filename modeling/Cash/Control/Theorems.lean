import Cash.Control.Lemmas

/-!
# A cell run part by part is the cell

Whatever is nested in what, and however each loop is run, a control structure run part by part does what Python does with
it, and its result is the error that Python raises (`process_eq`); so does a cell (`runCell_eq`).
-/

namespace Cash.Control

open Proc

variable {σ ε V T N α : Type} {W : World σ ε V T N} {P : Policy σ ε V T N} {fuel : Nat} {e : ε}

mutual

/-- In what is run part by part, `except` names exception classes, and an exception that is bound to a name can be written
out. -/
def Stmt.Sane (W : World σ ε V T N) : Stmt σ ε V T N → Prop
  | .cond _ _ body orelse => SaneAll W body ∧ SaneAll W orelse
  | .loop _ _ _ body orelse => (jumpsAll body || !orelse.isEmpty) = true ∨ SaneAll W body
  | .try body handlers orelse finalbody => SaneAll W body ∧ SaneHandlers W handlers ∧ SaneAll W orelse ∧ SaneAll W finalbody
  | _ => True

def SaneAll (W : World σ ε V T N) : List (Stmt σ ε V T N) → Prop
  | [] => True
  | stmt :: rest => stmt.Sane W ∧ SaneAll W rest

def Handler.Sane (W : World σ ε V T N) : Handler σ ε V T N → Prop
  | .mk type name body => (∀ t ∈ type, W.Names t) ∧ (name.isSome → ∀ e, W.Quiet e) ∧ SaneAll W body

def SaneHandlers (W : World σ ε V T N) : List (Handler σ ε V T N) → Prop
  | [] => True
  | handler :: rest => handler.Sane W ∧ SaneHandlers W rest

end

variable [DecidableEq V]

theorem run_of_process {stmt : Stmt σ ε V T N} (h : stmt.process W P fuel = processStatement W (stmt.exec W fuel)) :
    runPart W fuel stmt (stmt.process W P fuel) = void (stmt.exec W fuel) := by
  rw [runPart, h, ite_self, reraised_processStatement]

theorem run_cons {stmt : Stmt σ ε V T N} {rest : List (Stmt σ ε V T N)}
    (h : stmt.process W P fuel = processStatement W (stmt.exec W fuel)) (hloose : stmt.loose = false)
    (hrest : runBranch W P fuel rest = void (execAll W fuel rest)) :
    (runPart W fuel stmt (stmt.process W P fuel) >>= fun _ => runBranch W P fuel rest) = void (execAll W fuel (stmt :: rest)) := by
  rw [run_of_process h, hrest, execAll_cons (stmt.exec_goesOn hloose), bind_void]

/-- An `if` alone in an `else` is the next of the chain, and does what it does as a statement. -/
theorem runElse_cond {binds : Bool} {test : Proc σ ε Bool} {body orelse : List (Stmt σ ε V T N)} :
    runElse W P fuel [.cond binds test body orelse] = reraised (Stmt.process W P fuel (.cond binds test body orelse)) := by
  rw [runElse, Stmt.process, reraised_guarded, reraised, succeeding, bind_assoc]
  exact (bind_pure _).symm

theorem runElse_cons {stmt : Stmt σ ε V T N} {rest : List (Stmt σ ε V T N)}
    (h : stmt.process W P fuel = processStatement W (stmt.exec W fuel)) (hloose : stmt.loose = false)
    (hrest : runBranch W P fuel rest = void (execAll W fuel rest)) :
    runElse W P fuel (stmt :: rest) = void (execAll W fuel (stmt :: rest)) := by
  rw [← run_cons h hloose hrest]
  cases stmt with
  | cond binds test body orelse =>
      cases rest with
      | nil =>
          rw [runElse_cond, run_of_process h, h, reraised_processStatement, runBranch]
          exact (bind_pure _).symm
      | cons next rest => rw [runElse]; simp
  | _ => simp [runElse]

/-- Whichever way a loop is run, it is the loop. -/
theorem processLoop_eq {binds : Bool} {header : Header σ ε V N} {bind : V → Proc σ ε Unit} {body : List (Stmt σ ε V T N)}
    (hbody : GoesOn (execAll W fuel body)) (hbranch : runBranch W P fuel body = void (execAll W fuel body)) :
    Stmt.process W P fuel (.loop binds header bind body []) = processStatement W (Stmt.exec W fuel (.loop binds header bind body [])) := by
  rw [Stmt.process]
  split
  · rfl
  · have hover : void (Stmt.exec W fuel (.loop binds header bind body [])) =
        header.eval W >>= fun v => void (loopThrough W bind (execAll W fuel body) fuel v) := by
      rw [Stmt.exec, bind_void]
      refine bind_congr fun v => ?_
      rw [bind_void]
      refine bind_congr fun broke => ?_
      cases broke with
      | true => rfl
      | false => rfl
    have hinner : guarded W (header.eval W >>= fun v => ask (P.whole (.loop binds header bind body []) v) >>= fun whole =>
        if whole then processStatement W (loopThrough W bind (execAll W fuel body) fuel v)
        else succeeding (runDecomposed W P (.loop binds header bind body []) header bind (execAll W fuel body)
          (runBranch W P fuel body) fuel v)) = processStatement W (Stmt.exec W fuel (.loop binds header bind body [])) := by
      rw [← processStatement_void, hover, processStatement, succeeding, bind_assoc]
      refine guarded_bind_congr fun v => ?_
      funext c s
      rw [guarded_ask, ask_apply]
      cases P.whole (.loop binds header bind body []) v s with
      | true =>
          have hunit : guarded W (processStatement W (loopThrough W bind (execAll W fuel body) fuel v)) =
              guarded W (succeeding (void (loopThrough W bind (execAll W fuel body) fuel v))) :=
            (guarded_processStatement _).trans (processStatement_void _).symm
          exact congrFun (congrFun hunit c) s
      | false =>
          rw [hbranch, runDecomposed_eq hbody]
          rfl
    funext c s
    rw [guarded_ask, ask_apply]
    cases P.unevaluated (.loop binds header bind body []) s with
    | true => exact congrFun (congrFun (guarded_processStatement _) c) s
    | false => exact congrFun (congrFun hinner c) s

mutual

/-- A control structure run part by part has the result of running it whole. -/
theorem Stmt.process_eq : (stmt : Stmt σ ε V T N) → stmt.Sane W → stmt.loose = false →
    stmt.process W P fuel = processStatement W (stmt.exec W fuel)
  | .plain .., _, _ => by simp [Stmt.process]
  | .leaving _, _, _ => by simp [Stmt.process]
  | .brk, _, _ => by simp [Stmt.process]
  | .cont, _, _ => by simp [Stmt.process]
  | .while .., _, _ => by simp [Stmt.process]
  | .with .., _, _ => by simp [Stmt.process]
  | .cond binds test body orelse, hsane, hloose => by
      rw [Stmt.loose, Bool.or_eq_false_iff] at hloose
      rw [Stmt.process, Stmt.exec, ← processStatement_void, bind_void, processStatement]
      refine congrArg (guarded W) (congrArg succeeding (bind_congr fun taken => ?_))
      cases taken with
      | true => exact runBranch_eq body hsane.1 hloose.1
      | false => exact runElse_eq orelse hsane.2 hloose.2
  | .loop binds header bind body (stmt :: rest), _, _ => by
      rw [Stmt.process, if_pos (by simp)]
  | .loop binds header bind body [], hsane, hloose => by
      by_cases hjumps : jumpsAll body = true
      · rw [Stmt.process, if_pos (by simp [hjumps])]
      · have hbody := loose_of_jumpsAll body (Bool.eq_false_iff.mpr hjumps)
        have hparts : SaneAll W body := hsane.resolve_left (by simp [hjumps])
        exact processLoop_eq (execAll_goesOn body hbody) (runBranch_eq body hparts hbody)
  | .try body handlers orelse finalbody, hsane, hloose => by
      simp only [Stmt.loose, Bool.or_eq_false_iff] at hloose
      obtain ⟨⟨⟨hbody, hhandlers⟩, horelse⟩, hfinal⟩ := hloose
      rw [Stmt.process, Stmt.exec, ← processStatement_void, processStatement, runBranch_eq finalbody hsane.2.2.2 hfinal,
        runBranch_eq body hsane.1 hbody]
      refine congrArg (guarded W) (congrArg succeeding ?_)
      have hgoes : GoesOn (tried (execAll W fuel body) (execAll W fuel orelse) fun e => execHandlers W fuel e handlers) :=
        tried_goesOn (execAll_goesOn body hbody) (execAll_goesOn orelse horelse) fun e => execHandlers_goesOn e handlers hhandlers
      rw [← ensuring_goesOn hgoes (execAll_goesOn finalbody hfinal), ← runTried_goesOn (execAll_goesOn body hbody),
        runBranch_eq orelse hsane.2.2.1 horelse]
      have hsame : (fun e => runHandlers W P fuel e handlers) = fun e => void (execHandlers W fuel e handlers) :=
        funext fun e => runHandlers_eq e handlers hsane.2.1 hhandlers
      rw [hsame]

theorem runBranch_eq : (stmts : List (Stmt σ ε V T N)) → SaneAll W stmts → looseAll stmts = false →
    runBranch W P fuel stmts = void (execAll W fuel stmts)
  | [], _, _ => by
      rw [runBranch, execAll]
      rfl
  | stmt :: rest, hsane, hloose => by
      rw [looseAll, Bool.or_eq_false_iff] at hloose
      rw [runBranch]
      exact run_cons (stmt.process_eq hsane.1 hloose.1) hloose.1 (runBranch_eq rest hsane.2 hloose.2)

theorem runElse_eq : (stmts : List (Stmt σ ε V T N)) → SaneAll W stmts → looseAll stmts = false →
    runElse W P fuel stmts = void (execAll W fuel stmts)
  | [], _, _ => by
      rw [runElse, execAll]
      rfl
  | stmt :: rest, hsane, hloose => by
      rw [looseAll, Bool.or_eq_false_iff] at hloose
      exact runElse_cons (stmt.process_eq hsane.1 hloose.1) hloose.1 (runBranch_eq rest hsane.2 hloose.2)

theorem Handler.run_eq (e : ε) : (handler : Handler σ ε V T N) → handler.Sane W → handler.loose = false →
    handler.run W P fuel e = handler.exec W fuel e >>= fun flow => pure flow.isSome
  | .mk type name body, hsane, hloose => by
      rw [Handler.run, Handler.exec, matchesHandler_eq hsane.1, bind_assoc]
      refine bind_congr fun found => ?_
      cases found with
      | false => rfl
      | true =>
          have hbound : runBound W e (void (execAll W fuel body)) name = void (bound W e (execAll W fuel body) name) := by
            cases name with
            | none => rfl
            | some id => exact runBound_eq (hsane.2.1 rfl e) _ _
          rw [if_pos rfl, if_pos rfl, runBranch_eq body hsane.2.2 hloose, hbound, void_bind, bind_assoc]
          rfl

theorem runHandlers_eq (e : ε) : (handlers : List (Handler σ ε V T N)) → SaneHandlers W handlers →
    looseHandlers handlers = false → runHandlers W P fuel e handlers = void (execHandlers W fuel e handlers)
  | [], _, _ => by
      rw [runHandlers, execHandlers]
      rfl
  | handler :: rest, hsane, hloose => by
      rw [looseHandlers, Bool.or_eq_false_iff] at hloose
      rw [runHandlers, execHandlers, handler.run_eq e hsane.1 hloose.1, bind_assoc, bind_void]
      refine bind_congr fun flow => ?_
      cases flow with
      | none => exact runHandlers_eq e rest hsane.2 hloose.2
      | some flow => rfl

end

/-- A control structure run part by part succeeds where Python's run of it ends, fails with the `Exception` that Python
raises, lets any other exception through, and leaves the same state. -/
theorem process_ends (stmt : Stmt σ ε V T N) (hsane : stmt.Sane W) (hloose : stmt.loose = false) (c : Option ε) (s t : σ) :
    (stmt.process W P fuel c s = some (.ok .success, t) ↔ stmt.exec W fuel c s = some (.ok .done, t)) ∧
      (∀ e, stmt.process W P fuel c s = some (.ok (.failed e), t) ↔
        stmt.exec W fuel c s = some (.error e, t) ∧ W.ordinary e = true) ∧
      (∀ e, stmt.process W P fuel c s = some (.error e, t) ↔
        stmt.exec W fuel c s = some (.error e, t) ∧ W.ordinary e = false) ∧
      (stmt.process W P fuel c s = none ↔ stmt.exec W fuel c s = none) := by
  rw [stmt.process_eq hsane hloose]
  rcases (stmt.exec_goesOn hloose).ends c s with h | ⟨e, u, h⟩ | ⟨flow, u, rfl, h⟩
  · rw [processStatement_none h, h]
    simp
  · rw [processStatement_error h, h]
    cases he : W.ordinary e with
    | true =>
        refine ⟨by simp, fun e' => ⟨fun heq => ?_, fun ⟨heq, _⟩ => ?_⟩, fun e' => ⟨fun heq => ?_, fun ⟨heq, hnot⟩ => ?_⟩, by simp⟩
        · cases heq
          exact ⟨rfl, he⟩
        · cases heq
          rfl
        · cases heq
        · cases heq
          rw [he] at hnot
          cases hnot
    | false =>
        refine ⟨by simp, fun e' => ⟨fun heq => ?_, fun ⟨heq, hyes⟩ => ?_⟩, fun e' => ⟨fun heq => ?_, fun ⟨heq, _⟩ => ?_⟩, by simp⟩
        · cases heq
        · cases heq
          rw [he] at hyes
          cases hyes
        · cases heq
          exact ⟨rfl, he⟩
        · cases heq
          rfl
  · rw [processStatement_ok h, h]
    simp

/-- A cell run by cash does what Python does with it. -/
theorem runCell_eq (cell : List (Stmt σ ε V T N)) (hsane : SaneAll W cell) (hloose : looseAll cell = false) :
    runCell W P fuel cell = void (execAll W fuel cell) := runBranch_eq cell hsane hloose

/-! ## A cell -/

/-- States are what was noted, the latest first. The only value is an iterator that gives items while less than four notes
are there. -/
def notes : World (List Nat) Nat Unit Nat Unit where
  get := fun _ _ => some ()
  missing := fun _ => pure ()
  set := fun _ e s => e :: s
  unset := fun _ s => s
  iter := fun _ => pure ()
  next := fun _ => ask fun s => if s.length < 4 then some () else none
  own := fun _ _ => true
  own_iter := fun _ _ _ => rfl
  isinstance := fun e type => pure (e == type)
  catches := fun e type => pure (e == type)
  ordinary := fun _ => true
  usual := fun _ => false
  nameError := fun _ => false
  describe := fun _ => pure ()

/-- One pass, and the rest as one unit. -/
def onePass : Policy (List Nat) Nat Unit Nat Unit where
  unevaluated := fun _ _ => false
  whole := fun _ _ _ => false
  rest := fun _ _ _ _ => true

/-- `try: raise 7`, `except 7 as x: for y in it: note 2`, `finally: note 9`. -/
def tryLoop : List (Stmt (List Nat) Nat Unit Nat Unit) :=
  [.try [.plain false fun _ => raise 7]
    [.mk (some (pure 7)) (some ()) [.loop false (.name ()) (fun _ => pure ()) [.plain false fun _ => modify (2 :: ·)] []]]
    [] [.plain false fun _ => modify (9 :: ·)]]

theorem tryLoop_sane : SaneAll notes tryLoop := by
  refine ⟨⟨⟨trivial, trivial⟩, ⟨⟨?_, ?_, .inr ⟨trivial, trivial⟩, trivial⟩, trivial⟩, trivial, trivial, trivial⟩, trivial⟩
  · intro type htype c s
    cases htype
    exact ⟨(fun e t h => by cases h), fun a t h e => ⟨rfl, (fun c s e' t h => by cases h)⟩⟩
  · exact fun _ e c s => .inl rfl

theorem runCell_eq_tryLoop : runCell notes onePass 5 tryLoop = void (execAll notes 5 tryLoop) :=
  runCell_eq tryLoop tryLoop_sane rfl

example : runCell notes onePass 5 tryLoop none [] = some (.ok (), [9, 2, 2, 2, 7]) := rfl

theorem process_ends_tryLoop : ∃ stmt ∈ tryLoop,
    Stmt.process notes onePass 5 stmt none [] = some (.ok .success, [9, 2, 2, 2, 7]) :=
  ⟨_, List.mem_singleton_self _, (process_ends _ tryLoop_sane.1 rfl none [] _).1.mpr rfl⟩

end Cash.Control
