import Cash.Args.Signature

/-!
# Random generators across a hit

What a computed call records of the random generators it moved, and what a hit on its entry does with the record
(`tracking.randomness.state`, `RngWatch.replay_parts`, `replay_rng_state`, `_replay_argument_rng`). The states of a
generator are compared by their bytes, so they are values of a type `S` with equality.
-/

namespace Cash.Rng

open Py Args

variable {S ρ W : Type}

/-! ## The global streams -/

/-- The module globals whose state can be read and set. -/
inductive Stream
  | random | numpyRandom | torch | torchCuda
deriving DecidableEq, Repr

def Stream.all : List Stream := [.random, .numpyRandom, .torch, .torchCuda]

/-- The global streams of a process: none where the module is not imported. The streams of the CUDA devices are there
only with those of torch. -/
structure Globals (S : Type) where
  random : Option S
  numpyRandom : Option S
  torch : Option (S × Option S)

/-- A dict from the names of the streams. -/
abbrev States (S : Type) := Stream → Option S

/-- `capture_rng_state`. -/
def captureRngState (g : Globals S) : States S
  | .random => g.random
  | .numpyRandom => g.numpyRandom
  | .torch => g.torch.map (·.1)
  | .torchCuda => g.torch.bind (·.2)

/-- `restore_rng_state`. -/
def restoreRngState (state : States S) (g : Globals S) : Globals S where
  random := if g.random.isSome then (state .random).or g.random else none
  numpyRandom := if g.numpyRandom.isSome then (state .numpyRandom).or g.numpyRandom else none
  torch := match g.torch, state .torch with
    | some (_, cuda), some s => some (s, if cuda.isSome then (state .torchCuda).or cuda else none)
    | torch, _ => torch

/-- `rng_modules_changed`: a stream in only one of the two counts. -/
def rngModulesChanged [DecidableEq S] (before after : States S) : List Stream :=
  Stream.all.filter fun m => before m ≠ after m

/-- `{m: state[m] for m in modules}`; none for the `KeyError`. -/
def pick (state : States S) (modules : List Stream) : Option (States S) :=
  if ∀ m ∈ modules, (state m).isSome then some fun m => if m ∈ modules then state m else none else none

/-- The global part of `replay_rng_state`. -/
def replayGlobals [DecidableEq S] (pre post : States S) (g : Globals S) : Globals S :=
  if Stream.all.all (fun m => (post m).isNone) || Stream.all.all (fun m => (pre m).isNone) then g
  else
    let advanced := rngModulesChanged pre post
    if advanced = [] then g
    else
      let live := captureRngState g
      if advanced.any fun m => (live m).isNone then g
      else match pick pre advanced, pick live advanced, pick post advanced with
        | some pre, some live, some post => if rngModulesChanged pre live ≠ [] then g else restoreRngState post g
        -- A `KeyError` is caught: a replay must never break a hit.
        | _, _, _ => g

/-! ## Generators held by objects -/

/-- A generator, and its state where it can be read. -/
inductive Gen (S : Type)
  | at (state : S)
  | unreadable
deriving DecidableEq, Repr

/-- The objects that are generators of their own (`rng_carrier_kind`). -/
abbrev Gens (ρ S : Type) := ρ → Option (Gen S)

/-- `_carrier_state`, none for `_UNREADABLE`. -/
def carrierState (gens : Gens ρ S) (obj : ρ) : Option S :=
  match gens obj with
  | some (.at state) => some state
  | _ => none

/-- A generator found before the body, with its state and where a later process finds it. -/
structure Carrier (ρ S W : Type) where
  obj : ρ
  state : Option S
  place : Option W

/-- One value met by the walk: a generator is taken once, and again if only a closure held it so far. -/
def found [DecidableEq ρ] (gens : Gens ρ S) (acc : List (Carrier ρ S W)) (value : ρ × Option W) :
    List (Carrier ρ S W) :=
  if (gens value.1).isNone then acc
  else if acc.any fun c => c.obj = value.1 then
    acc.map fun c => if c.obj = value.1 ∧ c.place.isNone then ⟨value.1, carrierState gens value.1, value.2⟩ else c
  else acc ++ [⟨value.1, carrierState gens value.1, value.2⟩]

/-- `capture_reachable_carrier_states`, for the values its walk meets. -/
def captureReachableCarrierStates [DecidableEq ρ] (gens : Gens ρ S) (named : List (ρ × Option W)) :
    List (Carrier ρ S W) :=
  named.foldl (found gens) []

/-- `capture_argument_carrier_states`. -/
def captureArgumentCarrierStates [DecidableEq ρ] (gens : Gens ρ S) (named : List (Str × ρ)) :
    List (Carrier ρ S Str) :=
  captureReachableCarrierStates gens (named.map fun e => (e.2, some e.1))

/-- A generator that moved, with its states before and after. -/
structure Moved (S W : Type) where
  place : Option W
  pre : Option S
  post : Option S

/-- `moved_carriers`. -/
def movedCarriers [DecidableEq S] (gens : Gens ρ S) (before : List (Carrier ρ S W)) : List (Moved S W) :=
  before.filterMap fun c =>
    if c.state.isNone ∨ c.state ≠ carrierState gens c.obj then some ⟨c.place, c.state, carrierState gens c.obj⟩ else none

/-- `replayable`. -/
def replayable (moved : List (Moved S W)) : Bool :=
  moved.all fun m => m.place.isSome && m.pre.isSome && m.post.isSome

/-- One record of `replay_carriers`. -/
def replayOne [DecidableEq S] [DecidableEq ρ] (resolve : W → Option ρ) (gens : Gens ρ S) (m : Moved S W) : Gens ρ S :=
  match m.place.bind resolve, m.pre, m.post with
  | some obj, some pre, some post =>
    if gens obj = some (.at pre) then Function.update gens obj (some (.at post)) else gens
  | _, _, _ => gens

/-- `replay_carriers` and `replay_argument_carriers`. -/
def replayCarriers [DecidableEq S] [DecidableEq ρ] (resolve : W → Option ρ) (moved : List (Moved S W))
    (gens : Gens ρ S) : Gens ρ S :=
  moved.foldl (replayOne resolve) gens

/-! ## A call and a hit -/

/-- `f"*args[{i}]"`. -/
def starArgs (i : Nat) : Str := str "*args[" ++ decimal i ++ str "]"

/-- `CallRunner._named_args`. -/
def namedArgs (sig : Signature ρ) (call : Call ρ) : List (Str × ρ) :=
  let form := normalizeCallArgs sig call
  form.args.zipIdx.map (fun e => (starArgs e.2, e.1)) ++ form.kwargs

/-- The random generators of a process. -/
structure World (ρ S : Type) where
  globals : Globals S
  gens : Gens ρ S

/-- A module and a name in it. -/
abbrev Where := Str × Str

/-- A computed call: its arguments, the values its code reaches, and the generators before and after the body. -/
structure Computed (ρ S : Type) where
  sig : Signature ρ
  call : Call ρ
  bound : Bound ρ
  binds : bind sig call = some bound
  reached : List (ρ × Option Where)
  before : World ρ S
  after : World ρ S
  /-- The streams the function was known to draw from. -/
  known : List Stream

/-- `drawn_streams`. -/
def drawnStreams [DecidableEq S] (pre post : States S) : List Stream :=
  (rngModulesChanged pre post).filter fun m => (pre m).isSome

/-- What an entry records. -/
structure Replay (S : Type) where
  carriers : List (Moved S Where)
  argCarriers : List (Moved S Str)
  rng : Option (States S × States S)

section Calls

variable [DecidableEq S] [DecidableEq ρ]

def Computed.carriersMoved (c : Computed ρ S) : List (Moved S Where) :=
  movedCarriers c.after.gens (captureReachableCarrierStates c.before.gens c.reached)

def Computed.argCarriersMoved (c : Computed ρ S) : List (Moved S Str) :=
  movedCarriers c.after.gens (captureArgumentCarrierStates c.before.gens (namedArgs c.sig c.call))

/-- `RngWatch.replay_parts`, after `note_draw`. -/
def Computed.replayParts (c : Computed ρ S) : Replay S :=
  let pre := captureRngState c.before.globals
  let post := captureRngState c.after.globals
  { carriers := c.carriersMoved
    argCarriers := c.argCarriersMoved
    rng := if c.known ++ drawnStreams pre post ≠ [] then some (pre, post) else none }

/-- The call is stored: every generator that moved can be found again. -/
def Computed.stored (c : Computed ρ S) : Bool :=
  replayable c.carriersMoved && replayable c.argCarriersMoved

/-- A later call that hits the entry, and what the names of modules stand for by then. -/
structure Hit (sig : Signature ρ) (S : Type) where
  call : Call ρ
  bound : Bound ρ
  binds : bind sig call = some bound
  modules : Where → Option ρ
  live : World ρ S

/-- `dict(named).get(name)`: the last item of a name counts. -/
def argument (named : List (Str × ρ)) (name : Str) : Option ρ := named.reverse.lookup name

/-- `replay_rng_state`, then `_replay_argument_rng`. -/
def Hit.replay {sig : Signature ρ} (h : Hit sig S) (r : Replay S) : World ρ S where
  globals := match r.rng with
    | some (pre, post) => replayGlobals pre post h.live.globals
    | none => h.live.globals
  gens := replayCarriers (argument (namedArgs sig h.call)) r.argCarriers
    (replayCarriers h.modules r.carriers h.live.gens)

end Calls

/-! ## Where a hit leaves the generators -/

/-- The streams before and after the body. -/
def Computed.pre (c : Computed ρ S) : States S := captureRngState c.before.globals

def Computed.post (c : Computed ρ S) : States S := captureRngState c.after.globals

/-- The stream existed before the body, which advanced it. -/
def Computed.Advanced (c : Computed ρ S) (m : Stream) : Prop :=
  ∃ b a, c.pre m = some b ∧ c.post m = some a ∧ b ≠ a

/-- Where a generator is held: a name of a module, a parameter, or an item of `*args` or of `**kwargs`. -/
inductive Place
  | module (w : Where)
  | named (name : Str)
  | star (i : Nat)
  | keyword (k : Str)

/-- What the arguments hold there. -/
def argumentAt (b : Bound ρ) : Place → Option ρ
  | .module _ => none
  | .named name => b.named.lookup name
  | .star i => b.varArgs[i]?
  | .keyword k => b.varKwargs.lookup k

/-- The body found the object there. -/
def Computed.Holds (c : Computed ρ S) (p : Place) (obj : ρ) : Prop :=
  match p with
  | .module w => (obj, some w) ∈ c.reached
  | p => argumentAt c.bound p = some obj

/-- What is there at the hit. -/
def Hit.finds {sig : Signature ρ} (h : Hit sig S) : Place → Option ρ
  | .module w => h.modules w
  | p => argumentAt h.bound p

/-- What was one object at the computed call is one at the hit, and what was two is two. -/
def SameObjects (c : Computed ρ S) (h : Hit c.sig S) : Prop :=
  ∀ p q obj obj', c.Holds p obj → c.Holds q obj' →
    (obj = obj' → h.finds p = h.finds q) ∧ ∀ o, h.finds p = some o → h.finds q = some o → obj = obj'

/-- The generator there was moved from `pre` to `post` by the body, or left. -/
def Computed.Moves (c : Computed ρ S) (p : Place) (pre post : S) : Prop :=
  ∃ obj, c.Holds p obj ∧ c.before.gens obj = some (.at pre) ∧ c.after.gens obj = some (.at post)

/-- The generators after a hit stand where the computed call left them. -/
structure LeavesGenerators (c : Computed ρ S) (h : Hit c.sig S) (w : World ρ S) : Prop where
  /-- The streams that stand where the body found them. -/
  advanced : (∀ m, c.Advanced m → captureRngState h.live.globals m = c.pre m) →
    ∀ m, c.Advanced m → captureRngState w.globals m = c.post m
  /-- One stands elsewhere. -/
  elsewhere : (∃ m, c.Advanced m ∧ captureRngState h.live.globals m ≠ c.pre m) →
    ∀ m, captureRngState w.globals m = captureRngState h.live.globals m
  /-- A stream the body did not advance. -/
  other : ∀ m, ¬ c.Advanced m → captureRngState w.globals m = captureRngState h.live.globals m
  /-- A generator that stands where the body found it. -/
  carrier : ∀ p o pre post, c.Moves p pre post → h.finds p = some o → h.live.gens o = some (.at pre) →
    w.gens o = some (.at post)
  /-- Any other. -/
  untouched : ∀ o, (∀ p pre post, c.Moves p pre post → pre ≠ post → h.finds p = some o →
    h.live.gens o ≠ some (.at pre)) → w.gens o = h.live.gens o

/-- If the streams the body advanced stand where it found them, it imported no module with a stream, nor lost one, and
advanced those of the CUDA devices only together with that of torch. -/
def KeepsStreams (c : Computed ρ S) (h : Hit c.sig S) : Prop :=
  (∃ m, c.Advanced m) → (∀ m, c.Advanced m → captureRngState h.live.globals m = c.pre m) →
    (∀ m, (c.pre m).isSome = (c.post m).isSome) ∧ (c.Advanced .torchCuda → c.Advanced .torch)

end Cash.Rng
