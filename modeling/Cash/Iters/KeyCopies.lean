import Cash.Lib.Tee

/-!
# Iterator arguments under a key

`_iterator_position`, `_KeyCopies`, `split_for_key` and `KeyBuilder._check_iterators_unread` (`decorator/runtime.py`), and
what a call makes of them. A one-shot iterator is known by what its calls come to, one after another, and by where it
stands after so many. Arguments are known by their position or name; of one that is no one-shot iterator only that is.
-/

namespace Cash.Iters

open Tee

variable {σ α ε : Type} [DecidableEq σ]

/-! ## Iterators -/

/-- `inspect.getgeneratorstate`. -/
inductive GeneratorState
  | created | running | suspended | closed
deriving DecidableEq

/-- What `_iterator_position` tells. -/
inductive Position
  | generator (state : GeneratorState) (lasti : Option Nat)
  | left (hint : Nat)
deriving DecidableEq

/-- What stands after so many calls. -/
inductive Kind
  | generator (state : Nat → GeneratorState) (lasti : Nat → Option Nat)
  /-- `operator.length_hint(value, -1)`; `none` where it raises. -/
  | other (lengthHint : Nat → Option Int)

structure OneShot (α ε : Type) where
  given : Nat → Given α ε
  kind : Kind
  /-- A generator that stopped is closed, -/
  closes : ∀ state lasti, kind = .generator state lasti → ∀ n, given n = .stop →
    state (n + 1) = .closed ∧ lasti (n + 1) = none
  /-- and one that is closed has stopped. -/
  stays : ∀ state lasti, kind = .generator state lasti → ∀ n, state n = .closed → given n = .stop

/-- `inspect.isgenerator`. -/
def OneShot.isGenerator (it : OneShot α ε) : Bool :=
  match it.kind with
  | .generator _ _ => true
  | .other _ => false

/-- `_iterator_position`, after so many calls. -/
def iteratorPosition (it : OneShot α ε) (calls : Nat) : Option Position :=
  match it.kind with
  | .generator state lasti => some (.generator (state calls) (lasti calls))
  | .other lengthHint =>
    match lengthHint calls with
    | none => none
    | some hint => if 0 ≤ hint then some (.left hint.toNat) else none

/-- `list(itertools.islice(value, n))`, and the calls made of the iterator then. -/
def islice (given : Nat → Given α ε) : Nat → Nat → Except ε (List α × Nat)
  | 0, calls => .ok ([], calls)
  | n + 1, calls =>
    match given calls with
    | .item x =>
      match islice given n (calls + 1) with
      | .ok (items, calls) => .ok (x :: items, calls)
      | .error e => .error e
    | .stop => .ok ([], calls + 1)
    | .raised e => .error e

/-! ## A call -/

inductive Side
  | key | body
deriving DecidableEq

/-- Handles on iterators, with what is queued for an argument's copies. -/
abbrev Copy (σ : Type) := Handle Nat (σ × Side)

abbrev World (σ α : Type) := State Nat (σ × Side) α

structure Call (σ α ε : Type) where
  heap : Nat → OneShot α ε
  /-- `[*enumerate(args), *kwargs.items()]`, with the iterator where there is one. -/
  args : List (σ × Option Nat)
  nodup : (args.map Prod.fst).Nodup
  /-- A `key=` function is given. -/
  keyFn : Bool
  /-- `keys_by_registration_only`, where any hasher is registered. -/
  registered : Option (Nat → Bool)
  /-- The arguments of its own that the key build reads an item of, in turn. -/
  reads : List σ
  /-- The key build raises for another reason. -/
  fails : Bool

/-- `MATERIALISED_ITEMS`. -/
def materialisedItems : Nat := 100000

/-- What is kept of an iterator that was split: where, the caller's own, where it stood, and the body's copy. -/
structure Split (σ : Type) where
  slot : σ
  original : Nat
  before : Option Position
  copy : Copy σ

/-- `_KeyCopies`. -/
structure KeyCopies (σ : Type) where
  args : σ → Option (Copy σ)
  splits : List (Split σ)
  refused : Bool

namespace Call

variable (c : Call σ α ε)

def given (o : Nat) : Nat → Given α ε := (c.heap o).given

/-- The iterator an argument is. -/
def owner (i : σ) : Option Nat := (c.args.lookup i).join

/-- The caller's own arguments. -/
def own : σ → Option (Copy σ) := plain c.owner

/-- A generator that a registered hasher keys. -/
def hashed (o : Nat) : Bool :=
  match c.registered with
  | none => false
  | some registered => (c.heap o).isGenerator && registered o

/-- The copies of one iterator for the key and for the body, and whether it is too long; `none` for one that is not
split. -/
def splitIterator (i : σ) (o : Nat) (st : World σ α) : Except ε (Option (Copy σ × Copy σ × Bool) × World σ α) :=
  if c.keyFn then .ok (some (.tee o (i, .key) (i, .body), .tee o (i, .body) (i, .key), false), st)
  else if c.hashed o then
    match islice (c.given o) (materialisedItems + 1) (st.calls o) with
    | .error e => .error e
    | .ok (items, calls) =>
      let drawn : World σ α := { st with calls := Function.update st.calls o calls }
      if materialisedItems < items.length then
        .ok (some (.chain (i, .body) o, .chain (i, .body) o, true), drawn.enqueue (some (i, .body)) items)
      else
        .ok (some (.listed (i, .key), .listed (i, .body), false),
          (drawn.enqueue (some (i, .key)) items).enqueue (some (i, .body)) items)
  else .ok (none, st)

/-- The loop of `split_for_key`. -/
def splitLoop : List (σ × Option Nat) → KeyCopies σ → World σ α → Except ε (KeyCopies σ × World σ α)
  | [], copies, st => .ok (copies, st)
  | (_, none) :: args, copies, st => splitLoop args copies st
  | (i, some o) :: args, copies, st =>
    match c.splitIterator i o st with
    | .error e => .error e
    | .ok (none, st) => splitLoop args copies st
    | .ok (some (forKey, forBody, refused), st') =>
      splitLoop args
        { args := Function.update copies.args i (some forKey)
          splits := copies.splits ++ [⟨i, o, iteratorPosition (c.heap o) (st.calls o), forBody⟩]
          refused := copies.refused || refused } st'

/-- `split_for_key`, in which nothing is split where nothing was put into `splits`. -/
def splitForKey : Except ε (KeyCopies σ × World σ α) := c.splitLoop c.args ⟨c.own, [], false⟩ .start

/-- The caller's own iterator is handed on. -/
def kept (st : World σ α) (s : Split σ) : Bool :=
  s.before ≠ none && iteratorPosition (c.heap s.original) (st.calls s.original) = s.before

/-- `body_arguments`. -/
def bodyArguments (splits : List (Split σ)) (st : World σ α) (args : σ → Option (Copy σ)) : σ → Option (Copy σ) :=
  splits.foldl (fun args s =>
    Function.update args s.slot (some (if c.kept st s then .original s.original else s.copy))) args

/-- Where a handle stands. The places of copies are compared with none. -/
def place (st : World σ α) (h : Copy σ) : Option Position :=
  match h.queue, h.source with
  | none, some o => iteratorPosition (c.heap o) (st.calls o)
  | _, _ => none

/-- The handles among the arguments. -/
def handles (args : σ → Option (Copy σ)) : List (Copy σ) := c.args.filterMap fun arg => args arg.1

/-- What `_check_iterators_unread` asks of an iterator that stood at `before`. -/
def mayBeRead (split : List (Copy σ)) (st : World σ α) (h : Copy σ) (before : Option Position) : Bool :=
  let readers := c.keyFn || c.registered.isSome
  if h ∈ split then false
  else if before ≠ none ∧ c.place st h = before then false
  else if before = none ∧ !readers then false
  else true

/-- `_check_iterators_unread` raises. -/
def checkIteratorsUnread (iterators : List (Copy σ × Option Position)) (split : List (Copy σ)) (st : World σ α) : Bool :=
  iterators.any fun iterator => c.mayBeRead split st iterator.1 iterator.2

/-- `build`: whether there is a key, with what the arguments are read of. -/
def build (args : σ → Option (Copy σ)) (split : List (Copy σ)) (st : World σ α) : Bool × World σ α :=
  let iterators := (c.handles args).map fun h => (h, c.place st h)
  let read := after c.given args c.reads st
  (!c.fails && !c.checkIteratorsUnread iterators split read, read)

/-- What a call goes on with. -/
structure Keyed (σ α : Type) where
  hasKey : Bool
  body : σ → Option (Copy σ)
  world : World σ α

/-- The part of a call before the body or a stored result; an iterator that raises when it is taken out ends it. -/
def run : Except ε (Keyed σ α) :=
  match c.splitForKey with
  | .error e => .error e
  | .ok (copies, st) =>
    if copies.splits.isEmpty then
      let (hasKey, read) := c.build c.own [] st
      .ok ⟨hasKey, c.own, read⟩
    else
      let (hasKey, read) := if copies.refused then (false, st) else c.build copies.args (c.handles copies.args) st
      .ok ⟨hasKey, c.bodyArguments copies.splits read c.own, read⟩

/-! ## What a call is to do -/

/-- Where there is a key, any reader of the body's arguments is given what the caller's own would have given. -/
def HandsOn : Prop := ∀ keyed, c.run = .ok keyed → keyed.hasKey = true →
  ∀ is, pulls c.given keyed.body is keyed.world = pulls c.given c.own is .start

def Held (o : Nat) : Prop := ∃ i, c.owner i = some o

/-- The calls the key build makes of an iterator that is not taken out. -/
def drawn (o : Nat) : Nat := c.reads.countP fun i => c.owner i = some o

/-- An iterator that is not split. -/
def Unsplit (o : Nat) : Prop := c.keyFn = false ∧ c.hashed o = false

/-- Where items of an iterator that is not split were read, there is no key. -/
def Noticed : Prop := ∀ o, c.Held o → c.Unsplit o → (∃ n < c.drawn o, ∃ x, c.given o n = .item x) →
  ∀ keyed, c.run = .ok keyed → keyed.hasKey = false

/-! ## When it does -/

/-- The iterator goes on, after so many calls, as it did from the start. -/
def Resumes (o n : Nat) : Prop := ∀ k, c.given o (n + k) = c.given o k

/-- The first calls give items, and those after them, if any, leave it as it was. -/
def Taken (o n : Nat) : Prop := ∃ m ≤ n, (∀ k < m, ∃ x, c.given o k = .item x) ∧
  (∀ k, m ≤ k → k < n → ∀ x, c.given o k ≠ .item x) ∧ ∀ k, c.given o (n + k) = c.given o (m + k)

/-- None of the first calls gives an item. -/
def NoItem (o n : Nat) : Prop := ∀ k < n, ∀ x, c.given o k ≠ .item x

/-- It stops within `MATERIALISED_ITEMS`. -/
def Ends (o : Nat) : Prop := ∃ n ≤ materialisedItems, (∀ k < n, ∃ x, c.given o k = .item x) ∧ c.given o n = .stop

/-- It is seen, or taken, to have been read. -/
def Moved (o : Nat) : Prop :=
  match iteratorPosition (c.heap o) 0 with
  | some before => iteratorPosition (c.heap o) (c.drawn o) ≠ some before
  | none => c.registered.isSome = true

/-- There is no key: the build fails, a generator is too long or raises, or nothing is split and an iterator moved. -/
def Refused : Prop :=
  c.fails = true ∨ c.keyFn = false ∧ ((∃ o, c.Held o ∧ c.hashed o = true ∧ ¬c.Ends o) ∨
    (∀ o, c.Held o → c.hashed o = false) ∧ ∃ o, c.Held o ∧ c.Moved o)

/-- Its place is known and the same after the key build. -/
def Stays (o : Nat) : Prop :=
  iteratorPosition (c.heap o) 0 ≠ none ∧ iteratorPosition (c.heap o) (c.drawn o) = iteratorPosition (c.heap o) 0

instance (o : Nat) : Decidable (c.Stays o) := inferInstanceAs (Decidable (_ ∧ _))

/-- The iterator is handed on as it was. -/
def Unchanged (o : Nat) : Prop :=
  if c.keyFn then
    (c.Stays o → c.Resumes o (c.drawn o)) ∧
      (¬c.Stays o → ¬Shared c.owner o → c.Taken o (c.drawn o)) ∧
      (¬c.Stays o → Shared c.owner o → (∀ k, c.given o k = c.given o 0) ∨ c.NoItem o (c.drawn o) ∧ c.Resumes o (c.drawn o))
  else if c.hashed o then Shared c.owner o → c.given o 0 = .stop
  else c.NoItem o (c.drawn o) ∧ c.Resumes o (c.drawn o)

end Call

end Cash.Iters
