import Cash.Lib.Iter

/-!
# A `for` loop run as a head and a tail

`loop_split.py` (`split_nodes`), `control_structures/split_policy.py` (`LoopSplitPolicy.eligible`, `recorded_k`) and
`ForLoopHandler._run_split`. A state is the namespace and heap, an expression or a simple statement any function on it.
The timing that records a verdict, the caching of the halves and a numpy header are left out.
-/

namespace Cash.Split

open Iter

section

/-- How a statement ends. -/
inductive Signal (ε : Type)
  | done | brk | cont
  | raise (e : ε)

/-- What `ast.walk` meets that `eligible` asks about. -/
inductive Node
  | call (name : Option String)
  | brk | cont
deriving DecidableEq

inductive Stmt (σ ε : Type)
  /-- A statement with no body, and the names of the calls in it. -/
  | simple (calls : List (Option String)) (run : σ → σ × Option ε)
  | brk | cont
  | cond (calls : List (Option String)) (test : σ → σ × Except ε Bool) (body orelse : List (Stmt σ ε))
  /-- A nested loop or function: a `break` or `continue` in it does not leave it. -/
  | inner (calls : List (Option String)) (body : List (Stmt σ ε)) (run : σ → σ × Option ε)

variable {σ α ε : Type}

def endOf : Option ε → Signal ε
  | none => .done
  | some e => .raise e

mutual
/-- `ast.walk`. -/
def Stmt.walk : Stmt σ ε → List Node
  | .simple calls _ => calls.map .call
  | .brk => [.brk]
  | .cont => [.cont]
  | .cond calls _ body orelse => calls.map .call ++ walkAll body ++ walkAll orelse
  | .inner calls body _ => calls.map .call ++ walkAll body

def walkAll : List (Stmt σ ε) → List Node
  | [] => []
  | stmt :: rest => stmt.walk ++ walkAll rest
end

mutual
def Stmt.exec : Stmt σ ε → σ → σ × Signal ε
  | .simple _ run, s => ((run s).1, endOf (run s).2)
  | .brk, s => (s, .brk)
  | .cont, s => (s, .cont)
  | .cond _ test body orelse, s =>
    match test s with
    | (s, .ok true) => execAll body s
    | (s, .ok false) => execAll orelse s
    | (s, .error e) => (s, .raise e)
  | .inner _ _ run, s => ((run s).1, endOf (run s).2)

def execAll : List (Stmt σ ε) → σ → σ × Signal ε
  | [], s => (s, .done)
  | stmt :: rest, s =>
    match stmt.exec s with
    | (s, .done) => execAll rest s
    | left => left
end

/-- The header's expression. -/
inductive HeaderExpr
  | expr (source : String)
  | slice (value : HeaderExpr) (lower upper : Option Nat)

/-- `ast.For`; `bind` binds the target to an item. -/
structure For (σ α ε : Type) where
  bind : σ → α → σ × Option ε
  iter : HeaderExpr
  body : List (Stmt σ ε)
  orelse : List (Stmt σ ε)

/-- What the header evaluates to: a list is an object of the heap, read in the state at hand. -/
inductive Value (σ α : Type)
  | list (items : σ → List α)
  | tuple (items : List α)
  | range (items : List α)
  | str (items : List α)
  | bytes (items : List α)
  | other (items : σ → List α)

namespace Value

def items : Value σ α → σ → List α
  | .list items, s => items s
  | .tuple items, _ => items
  | .range items, _ => items
  | .str items, _ => items
  | .bytes items, _ => items
  | .other items, s => items s

/-- `slices_as_it_iterates`. -/
def slicesAsItIterates : Value σ α → Bool
  | .other _ => false
  | _ => true

end Value

/-- `PROBE_ITERS`. -/
def probeIters : Nat := 5

/-- `_FILE_IO_CALLS`. -/
def fileIoCalls : List String :=
  ["open", "read", "write", "read_csv", "to_csv", "read_excel", "to_excel", "save", "load", "savez", "savetxt",
    "loadtxt", "read_parquet", "to_parquet"]

/-- `has_file_io_calls`. -/
def hasFileIoCalls (body : List (Stmt σ ε)) : Bool :=
  (walkAll body).any fun node =>
    match node with
    | .call (some name) => fileIoCalls.contains name
    | _ => false

namespace For

/-- `is_split_half`. -/
def isSplitHalf (node : For σ α ε) : Bool :=
  match node.iter with
  | .slice .. => true
  | .expr _ => false

/-- `LoopSplitPolicy.eligible`. -/
def eligible (node : For σ α ε) (iterable : Value σ α) (s : σ) : Option Nat :=
  if !node.orelse.isEmpty || node.isSplitHalf then none
  else if !iterable.slicesAsItIterates then none
  else if (iterable.items s).length ≤ probeIters then none
  else if hasFileIoCalls node.body then none
  else if (walkAll node.body).any fun node => node = .brk ∨ node = .cont then none
  else some (iterable.items s).length

/-- `split_nodes`; none for the `ValueError`. -/
def splitNodes (node : For σ α ε) (k : Nat) : Option (For σ α ε × For σ α ε) :=
  if node.orelse.isEmpty then
    some ({ node with iter := .slice node.iter none (some k), orelse := [] },
      { node with iter := .slice node.iter (some k) none, orelse := [] })
  else none

/-- One pass: the target bound to the item, then the body. -/
def pass (node : For σ α ε) (s : σ) (item : α) : σ × Leave ε :=
  match node.bind s item with
  | (s, some e) => (s, .raise e)
  | (s, none) =>
    match execAll node.body s with
    | (s, .done) => (s, .next)
    | (s, .cont) => (s, .next)
    | (s, .brk) => (s, .stop)
    | (s, .raise e) => (s, .raise e)

/-- The loop over the header's value itself, for a loop with no `else`. -/
def direct (node : For σ α ε) (value : Value σ α) (fuel : Nat) (s : σ) : Option (Run σ α ε) :=
  iterate (fun i s => (value.items s)[i]?) node.pass fuel 0 s

/-- `ForLoopHandler._run_split`: the head over `value[:k]`, and where it did not fail the tail over `value[k:]`, which
is cut when the head is done. -/
def runSplit (node : For σ α ε) (k : Nat) (value : Value σ α) (s : σ) : Option (Run σ α ε) := do
  let (head, tail) ← node.splitNodes k
  return (runOver head.pass ((value.items s).take k) s).andThen fun s => runOver tail.pass ((value.items s).drop k) s

end For

end

/-! ## A loop that leaves what it iterates in place -/

section

variable {σ α ε : Type}

namespace For

/-- The loop over `value` itself comes to draw item `i` in state `t`. -/
def Draws (node : For σ α ε) (value : Value σ α) (s : σ) (i : Nat) (t : σ) : Prop :=
  Reaches (fun i s => (value.items s)[i]?) node.pass 0 s i t

/-- How many passes the head has. -/
def headLength (k : Nat) (value : Value σ α) (s : σ) : Nat := min k (value.items s).length

/-- Whenever the loop over `value` itself comes to draw item `i`, what stands at place `i`, or that nothing does, is
what its half was cut with: before the loop for the head's items, after the head's passes for the others. -/
def Steady (node : For σ α ε) (k : Nat) (value : Value σ α) (s : σ) : Prop :=
  ∀ i t, node.Draws value s i t →
    (i < headLength k value s → (value.items t)[i]? = (value.items s)[i]?) ∧
    ∀ u, headLength k value s ≤ i → node.Draws value s (headLength k value s) u →
      (value.items t)[i]? = (value.items u)[i + (k - headLength k value s)]?

end For

end

end Cash.Split
