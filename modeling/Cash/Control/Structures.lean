import Cash.Lib.Proc

/-!
# A cell's statements, and its control structures run part by part

`control_structures/`: `is_control_structure` and `contains_break_or_continue` of `common.py`,
`ControlStructureProcessor._dispatch` and `execute_as_single_unit`, `IfHandler.process`, `TryHandler.process` and
`ForLoopHandler.process`, with the loop over a cell's statements of `ipython/cell_executor.py` where it runs them all. Beside
them, the same statements as Python runs them (`exec`). A statement that is run whole does to the namespace what running it
does, and binding a loop's target does what Python does. The metrics, keys and lineages, the line an error is marked with and
a loop that is split are left out.
-/

namespace Cash.Control

open Proc

/-- How a statement ends that raises nothing. -/
inductive Flow
  | done | brk | cont
deriving DecidableEq

/-- A `for` loop's header: a name, or any other expression. -/
inductive Header (σ ε V N : Type)
  | name (id : N)
  | expr (eval : Proc σ ε V)

/-- What a procedure does is told with the most passes that a loop makes. -/
abbrev Code (σ ε α : Type) := Nat → Proc σ ε α

mutual

inductive Stmt (σ ε V T N : Type)
  /-- A statement that is run whole; `jumps`: a `break` or `continue` stands in a loop or function within it. -/
  | plain (jumps : Bool) (run : Code σ ε Unit)
  /-- A compound statement of another kind, with a `break` or `continue` that leaves it. -/
  | leaving (run : Code σ ε Flow)
  | brk | cont
  /-- `binds`: the test holds a `:=`. -/
  | cond (binds : Bool) (test : Proc σ ε Bool) (body orelse : List (Stmt σ ε V T N))
  | loop (binds : Bool) (header : Header σ ε V N) (bind : V → Proc σ ε Unit) (body orelse : List (Stmt σ ε V T N))
  | while (test : Proc σ ε Bool) (body orelse : List (Stmt σ ε V T N))
  | with (enter : Proc σ ε V) (exit : V → Option ε → Proc σ ε Bool) (body : List (Stmt σ ε V T N))
  | try (body : List (Stmt σ ε V T N)) (handlers : List (Handler σ ε V T N)) (orelse finalbody : List (Stmt σ ε V T N))

/-- `except type as name: body`. -/
inductive Handler (σ ε V T N : Type)
  | mk (type : Option (Proc σ ε T)) (name : Option N) (body : List (Stmt σ ε V T N))

end

/-- Values, exceptions and classes, and what the interpreter does with them. -/
structure World (σ ε V T N : Type) where
  /-- `user_ns.get`. -/
  get : N → σ → Option V
  /-- A name that is not in the namespace is evaluated. -/
  missing : N → Proc σ ε V
  set : N → ε → σ → σ
  unset : N → σ → σ
  iter : V → Proc σ ε V
  /-- None at the end. -/
  next : V → Proc σ ε (Option V)
  /-- `is_own_iterator`. -/
  own : V → σ → Bool
  own_iter : ∀ v s, own v s = true → iter v = pure v
  isinstance : ε → T → Proc σ ε Bool
  /-- How `except` asks it, which takes exception classes only. -/
  catches : ε → T → Proc σ ε Bool
  /-- An `Exception`. -/
  ordinary : ε → Bool
  /-- A `ValueError`, an `AttributeError` or a `TypeError`. -/
  usual : ε → Bool
  /-- A `NameError`. -/
  nameError : ε → Bool
  /-- `str` and `repr`. -/
  describe : ε → Proc σ ε Unit

variable {σ ε V T N α : Type} (W : World σ ε V T N)

/-! ## As Python runs them -/

def Header.eval : Header σ ε V N → Proc σ ε V
  | .name id => do
    match ← ask (W.get id) with
    | some v => pure v
    | none => W.missing id
  | .expr eval => eval

/-- The passes of a loop over an iterator, `fuel` at most; true when it was left by a `break`. -/
def passes (bind : V → Proc σ ε Unit) (body : Proc σ ε Flow) : Nat → V → Proc σ ε Bool
  | 0, _ => forever
  | fuel + 1, it => do
    match ← W.next it with
    | none => pure false
    | some v =>
      bind v
      match ← body with
      | .brk => pure true
      | _ => passes bind body fuel it

/-- A loop over a value. -/
def loopThrough (bind : V → Proc σ ε Unit) (body : Proc σ ε Flow) (fuel : Nat) (v : V) : Proc σ ε Bool := do
  passes W bind body fuel (← W.iter v)

def repeats (test : Proc σ ε Bool) (body : Proc σ ε Flow) : Nat → Proc σ ε Bool
  | 0 => forever
  | fuel + 1 => do
    if ← test then
      match ← body with
      | .brk => pure true
      | _ => repeats test body fuel
    else pure false

/-- `except type`, asked of an exception. -/
def caught (e : ε) : Option (Proc σ ε T) → Proc σ ε Bool
  | none => pure true
  | some type => do W.catches e (← type)

/-- `as name`: bound for the body only. -/
def bound (e : ε) (body : Proc σ ε α) : Option N → Proc σ ε α
  | none => body
  | some id => do
    modify (W.set id e)
    ensuring body (modify (W.unset id))

/-- `try: body; except: handler; else: orelse`, where a `break` or `continue` of the body leaves the `else` out. -/
def tried (body orelse : Proc σ ε Flow) (handler : ε → Proc σ ε Flow) : Proc σ ε Flow := do
  match ← attempt body with
  | .ok .done => orelse
  | .ok jump => pure jump
  | .error e => handling e (handler e)

/-- `try: m; finally: last`, where a `break` or `continue` of `last` goes before how `m` ended. -/
def inFinally (m last : Proc σ ε Flow) : Proc σ ε Flow := do
  match ← attempt m with
  | .ok flow =>
    match ← last with
    | .done => pure flow
    | jump => pure jump
  | .error e =>
    match ← handling e last with
    | .done => raise e
    | jump => pure jump

mutual

def Stmt.exec (fuel : Nat) : Stmt σ ε V T N → Proc σ ε Flow
  | .plain _ run => do run fuel; pure .done
  | .leaving run => run fuel
  | .brk => pure .brk
  | .cont => pure .cont
  | .cond _ test body orelse => do if ← test then execAll fuel body else execAll fuel orelse
  | .loop _ header bind body orelse => do
    let v ← header.eval W
    if ← loopThrough W bind (execAll fuel body) fuel v then pure .done else execAll fuel orelse
  | .while test body orelse => do if ← repeats test (execAll fuel body) fuel then pure .done else execAll fuel orelse
  | .with enter exit body => do
    let manager ← enter
    match ← attempt (execAll fuel body) with
    | .ok flow => do
      let _ ← exit manager none
      pure flow
    | .error e => do if ← handling e (exit manager (some e)) then pure .done else raise e
  | .try body handlers orelse finalbody =>
    inFinally (tried (execAll fuel body) (execAll fuel orelse) fun e => execHandlers fuel e handlers) (execAll fuel finalbody)

def execAll (fuel : Nat) : List (Stmt σ ε V T N) → Proc σ ε Flow
  | [] => pure .done
  | stmt :: rest => do
    match ← stmt.exec fuel with
    | .done => execAll fuel rest
    | jump => pure jump

def Handler.exec (fuel : Nat) (e : ε) : Handler σ ε V T N → Proc σ ε (Option Flow)
  | .mk type name body => do
    if ← caught W e type then
      let flow ← bound W e (execAll fuel body) name
      pure (some flow)
    else pure none

/-- The first that matches; with none, the exception goes on. -/
def execHandlers (fuel : Nat) (e : ε) : List (Handler σ ε V T N) → Proc σ ε Flow
  | [] => raise e
  | handler :: rest => do
    match ← handler.exec fuel e with
    | some flow => pure flow
    | none => execHandlers fuel e rest

end

/-! ## What is asked of the text -/

mutual

/-- `contains_break_or_continue`. -/
def Stmt.jumps : Stmt σ ε V T N → Bool
  | .plain jumps _ => jumps
  | .leaving _ | .brk | .cont => true
  | .cond _ _ body orelse | .loop _ _ _ body orelse | .while _ body orelse => jumpsAll body || jumpsAll orelse
  | .with _ _ body => jumpsAll body
  | .try body handlers orelse finalbody =>
    jumpsAll body || jumpsHandlers handlers || jumpsAll orelse || jumpsAll finalbody

def jumpsAll : List (Stmt σ ε V T N) → Bool
  | [] => false
  | stmt :: rest => stmt.jumps || jumpsAll rest

def Handler.jumps : Handler σ ε V T N → Bool
  | .mk _ _ body => jumpsAll body

def jumpsHandlers : List (Handler σ ε V T N) → Bool
  | [] => false
  | handler :: rest => handler.jumps || jumpsHandlers rest

end

/-- `_header_binds`: along an `elif` chain too. -/
def Stmt.headerBinds : Stmt σ ε V T N → Bool
  | .loop binds .. => binds
  | .cond binds _ _ [] => binds
  | .cond binds _ _ [.cond binds' test body orelse] => binds || (Stmt.cond binds' test body orelse).headerBinds
  | .cond binds _ _ _ => binds
  | _ => false

def Stmt.isControlStructure : Stmt σ ε V T N → Bool
  | .plain .. | .leaving _ | .brk | .cont => false
  | stmt => !stmt.headerBinds

/-! ## As cash runs them -/

/-- A `ControlStructureResult`, or a statement's metrics. -/
inductive Ended (ε : Type)
  | success
  | failed (error : ε)
deriving DecidableEq

/-- `except Exception as e`: the result's error; any other exception goes on. -/
def guarded (m : Proc σ ε (Ended ε)) : Proc σ ε (Ended ε) := do
  match ← attempt m with
  | .ok ended => pure ended
  | .error e => if W.ordinary e then pure (.failed e) else raise e

/-- `raise result.error`. -/
def reraised (m : Proc σ ε (Ended ε)) : Proc σ ε Unit := do
  match ← m with
  | .success => pure ()
  | .failed e => raise e

def succeeding (m : Proc σ ε α) : Proc σ ε (Ended ε) := do
  let _ ← m
  pure .success

/-- `process_statement`, and `execute_as_single_unit` with it. -/
def processStatement (m : Proc σ ε α) : Proc σ ε (Ended ε) := guarded W (succeeding m)

/-- How loops are run. -/
structure Policy (σ ε V T N : Type) where
  /-- `_whole_before_evaluating`. -/
  unevaluated : Stmt σ ε V T N → σ → Bool
  /-- `should_run_as_single_unit`, and what is measured. -/
  whole : Stmt σ ε V T N → V → σ → Bool
  /-- The passes made are as many as `iterations_for_one_unit` asks, or were cheap. -/
  rest : Stmt σ ε V T N → V → Nat → σ → Bool

variable (P : Policy σ ε V T N)

/-- `_find_matching_handler`, asked of one. -/
def matchesHandler (e : ε) : Option (Proc σ ε T) → Proc σ ε Bool
  | none => pure true
  | some type => do
    match ← attempt (do W.isinstance e (← type)) with
    | .ok found => pure found
    | .error e' => if W.usual e' || W.nameError e' then pure false else raise e'

/-- `_bind_exception_to_handler`, which writes the exception out for its lineage. -/
def bindException (e : ε) (id : N) : Proc σ ε Unit := do
  modify (W.set id e)
  match ← attempt (W.describe e) with
  | .ok _ => pure ()
  | .error e' => if W.usual e' then pure () else raise e'

/-- What is run for one exception by a handler, its name bound for it. -/
def runBound (e : ε) (body : Proc σ ε Unit) : Option N → Proc σ ε Unit
  | none => body
  | some id => do
    bindException W e id
    ensuring body (modify (W.unset id))

/-- The `try` of `TryHandler.process`, within its `finally`. -/
def runTried (body orelse : Proc σ ε Unit) (handler : ε → Proc σ ε Unit) : Proc σ ε Unit := do
  match ← attempt body with
  | .ok () => orelse
  | .error e => handling e (handler e)

/-- `header_names_the_iterator`. -/
def namesTheIterator [DecidableEq V] (header : Header σ ε V N) (v : V) (s : σ) : Bool :=
  match header with
  | .name id => W.get id s = some v && W.own v s
  | .expr _ => false

/-- The name still holds the iterator. -/
def stillNamed [DecidableEq V] (header : Header σ ε V N) (v : V) (s : σ) : Bool :=
  match header with
  | .name id => W.get id s = some v
  | .expr _ => false

/-- The passes that are run one by one, with the fuel that is left where the rest is to be run as one unit. -/
def passByPass (bind : V → Proc σ ε Unit) (body : Proc σ ε Unit) (rest : Nat → σ → Bool) : Nat → Nat → V → Proc σ ε (Option Nat)
  | 0, _, _ => forever
  | fuel + 1, done, it => do
    match ← W.next it with
    | none => pure none
    | some v =>
      bind v
      body
      if ← ask (rest (done + 1)) then pure (some fuel) else passByPass bind body rest fuel (done + 1) it

/-- The rest of a loop from source: its header again, or the value handed to it. -/
def theRest (header : Header σ ε V N) (bind : V → Proc σ ε Unit) (whole : Proc σ ε Flow) (named : Bool) (v : V)
    (fuel : Nat) : Proc σ ε Bool :=
  if named then do loopThrough W bind whole fuel (← header.eval W) else loopThrough W bind whole fuel v

/-- `_run_decomposed`. -/
def runDecomposed [DecidableEq V] (node : Stmt σ ε V T N) (header : Header σ ε V N) (bind : V → Proc σ ε Unit)
    (whole : Proc σ ε Flow) (body : Proc σ ε Unit) (fuel : Nat) (v : V) : Proc σ ε Unit := do
  let named ← ask (namesTheIterator W header v)
  let own ← ask (W.own v)
  let rest := fun done s => (named || own) && P.rest node v done s && (!named || stillNamed W header v s)
  let left ← passByPass W bind body rest fuel 0 (← W.iter v)
  match left with
  | none => pure ()
  | some fuel => reraised (processStatement W (theRest W header bind whole named v fuel))

/-- One statement of a body or of the cell, with what processing it comes to. -/
def runPart (fuel : Nat) (stmt : Stmt σ ε V T N) (processed : Proc σ ε (Ended ε)) : Proc σ ε Unit :=
  if stmt.isControlStructure then reraised processed else reraised (processStatement W (stmt.exec W fuel))

mutual

/-- `ControlStructureProcessor.process`. -/
def Stmt.process [DecidableEq V] (fuel : Nat) : Stmt σ ε V T N → Proc σ ε (Ended ε)
  | .cond _ test body orelse =>
    guarded W (succeeding (do if ← test then runBranch fuel body else runElse fuel orelse))
  | node@(.loop _ header bind body orelse) =>
    if jumpsAll body || !orelse.isEmpty then processStatement W (node.exec W fuel)
    else guarded W (do
      if ← ask (P.unevaluated node) then processStatement W (node.exec W fuel)
      else
        let v ← header.eval W
        if ← ask (P.whole node v) then processStatement W (loopThrough W bind (execAll W fuel body) fuel v)
        else succeeding (runDecomposed W P node header bind (execAll W fuel body) (runBranch fuel body) fuel v))
  | .try body handlers orelse finalbody =>
    guarded W (succeeding (ensuring
      (runTried (runBranch fuel body) (runBranch fuel orelse) fun e => runHandlers fuel e handlers) (runBranch fuel finalbody)))
  | node => processStatement W (node.exec W fuel)

def runBranch [DecidableEq V] (fuel : Nat) : List (Stmt σ ε V T N) → Proc σ ε Unit
  | [] => pure ()
  | stmt :: rest => do
    runPart W fuel stmt (stmt.process fuel)
    runBranch fuel rest

/-- `_find_taken_branch` on an `else`: an `if` alone in it is the next of the chain. -/
def runElse [DecidableEq V] (fuel : Nat) : List (Stmt σ ε V T N) → Proc σ ε Unit
  | [] => pure ()
  | [.cond _ test body orelse] => do if ← test then runBranch fuel body else runElse fuel orelse
  | stmt :: rest => do
    runPart W fuel stmt (stmt.process fuel)
    runBranch fuel rest

def Handler.run [DecidableEq V] (fuel : Nat) (e : ε) : Handler σ ε V T N → Proc σ ε Bool
  | .mk type name body => do
    if ← matchesHandler W e type then
      runBound W e (runBranch fuel body) name
      pure true
    else pure false

def runHandlers [DecidableEq V] (fuel : Nat) (e : ε) : List (Handler σ ε V T N) → Proc σ ε Unit
  | [] => raise e
  | handler :: rest => do
    if ← handler.run fuel e then pure () else runHandlers fuel e rest

end

/-- The statements of a cell of which the plan restores and skips none: then none is owed when one raises. -/
def runCell [DecidableEq V] (fuel : Nat) (cell : List (Stmt σ ε V T N)) : Proc σ ε Unit := runBranch W P fuel cell

end Cash.Control
