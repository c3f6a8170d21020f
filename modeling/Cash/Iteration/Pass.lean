import Cash.Lib.Dict
import Cash.Lib.Repr
import Mathlib.Data.List.Lex
import Mathlib.Data.List.Sort
import Mathlib.Logic.Function.Basic

/-!
# One pass of a loop

What `common.py` and `for_handler.py` of the control structures do with an iterated value: its names are bound, each
name's content is digested, and the context that keys the body is built. A target that is no name, tuple or list, a
digest that fails, and the iterable's lineage are left out.
-/

namespace Cash.Iteration

open Py Literal

/-! ## Targets and values -/

/-- A loop target. At most one starred name stands in a tuple or list. -/
inductive Target
  | name (id : Str)
  | seq (elts : List Target)
  | starSeq (before : List Target) (rest : Str) (after : List Target)

/-- A value, by its content. -/
inductive Value (O : Type)
  | prim (p : Prim)
  | tuple (items : List (Value O))
  | list (items : List (Value O))
  /-- An object of any other type. -/
  | obj (o : O)

structure World (O : Type) where
  /-- What an object gives when it is iterated over. -/
  iter : O → Option (List (Value O))
  /-- `hash` raises no `TypeError`. -/
  hashable : O → Bool
  /-- It is a figure or is drawn on one. -/
  artist : O → Bool
  computeHash : Value O → Str
  /-- `_IDENTITY_PREFIX`. -/
  identityPrefix : Str
  printable : Nat → Bool

variable {O : Type}

mutual

/-- The constant that a primitive value is. -/
def plainOf : Value O → Option Plain
  | .prim p => some (.prim p)
  | .tuple items => (plainsOf items).map .tuple
  | _ => none

def plainsOf : List (Value O) → Option (List Plain)
  | [] => some []
  | v :: vs =>
    match plainOf v, plainsOf vs with
    | some p, some ps => some (p :: ps)
    | _, _ => none

end

/-- `_is_primitive`. -/
def isPrimitive (v : Value O) : Bool := (plainOf v).isSome

section

variable (w : World O)

mutual

/-- `hash(value)` raises no `TypeError`. -/
def hashable : Value O → Bool
  | .prim _ => true
  | .tuple items => hashables items
  | .list _ => false
  | .obj o => w.hashable o

def hashables : List (Value O) → Bool
  | [] => true
  | v :: vs => hashable v && hashables vs

end

/-- `list(value)`. -/
def items : Value O → Option (List (Value O))
  | .prim (.str s) => some (s.map fun c => .prim (.str [c]))
  | .prim (.bytes b) => some (b.map fun c => .prim (.int c.toNat))
  | .prim _ => none
  | .tuple items => some items
  | .list items => some items
  | .obj o => w.iter o

/-! ## An assignment -/

mutual

/-- What the interpreter's `target = value` binds, in its order. -/
def assign : Target → Value O → Option (List (Str × Value O))
  | .name id, v => some [(id, v)]
  | .seq elts, v => (items w v).bind fun vals => if vals.length = elts.length then assignEach elts vals else none
  | .starSeq before rest after, v => (items w v).bind fun vals =>
    if vals.length < before.length + after.length then none
    else
      let middle := (vals.drop before.length).take (vals.length - before.length - after.length)
      (assignEach before (vals.take before.length)).bind fun first =>
        (assignEach after (vals.drop (vals.length - after.length))).map fun last => first ++ (rest, .list middle) :: last

def assignEach : List Target → List (Value O) → Option (List (Str × Value O))
  | t :: ts, v :: vs => (assign t v).bind fun first => (assignEach ts vs).map fun last => first ++ last
  | _, _ => some []

end

/-! ## Binding -/

mutual

/-- `extract_target_names`: a starred name is not among them. -/
def extractTargetNames : Target → List Str
  | .name id => [id]
  | .seq elts => extractEach elts
  | .starSeq before _ after => extractEach before ++ extractEach after

def extractEach : List Target → List Str
  | [] => []
  | t :: ts => extractTargetNames t ++ extractEach ts

end

/-- The notebook's namespace. -/
abbrev Namespace (O : Type) := Str → Option (Value O)

def Namespace.set (ns : Namespace O) (name : Str) (v : Value O) : Namespace O := Function.update ns name (some v)

def scratch : Str := str "__cash_loop_value__"

/-- `_bind_by_assignment`. -/
def bindByAssignment (t : Target) (v : Value O) (ns : Namespace O) : Option (List (Str × Value O) × Namespace O) :=
  (assign w t v).map fun writes =>
    let ns := Function.update (writes.foldl (fun ns p => Namespace.set ns p.1 p.2) (Namespace.set ns scratch v)) scratch none
    ((extractTargetNames t).foldl (fun bindings name => (ns name).elim bindings (Dict.setItem bindings name)) [], ns)

mutual

/-- `bind_target_values`. -/
def bindTargetValues : Target → Value O → Namespace O → Option (List (Str × Value O) × Namespace O)
  | .name id, v, ns => some ([(id, v)], Namespace.set ns id v)
  | .seq elts, v, ns => (items w v).bind fun vals => if vals.length = elts.length then bindEach elts vals ns [] else none
  | .starSeq before rest after, v, ns => bindByAssignment w (.starSeq before rest after) v ns

def bindEach : List Target → List (Value O) → Namespace O → List (Str × Value O) →
    Option (List (Str × Value O) × Namespace O)
  | t :: ts, v :: vs, ns, bindings => (bindTargetValues t v ns).bind fun r =>
    bindEach ts vs r.2 (r.1.foldl (fun bindings p => Dict.setItem bindings p.1 p.2) bindings)
  | _, _, ns, bindings => some (bindings, ns)

end

/-! ## Digests -/

/-- `identity_digest(val) or compute_hash(val)`, and how many identities were given by then. -/
def fullDigest (count : Nat) : Value O → Str × Nat
  | .obj o => if w.artist o then (w.identityPrefix ++ decimal count, count + 1) else (w.computeHash (.obj o), count)
  | v => (w.computeHash v, count)

/-- `_bind_iteration`'s digests. -/
def loopVarDigests : Nat → List (Str × Value O) → List (Str × Str)
  | _, [] => []
  | count, p :: bindings => (p.1, (fullDigest w count p.2).1) :: loopVarDigests (fullDigest w count p.2).2 bindings

/-! ## The context -/

/-- A context, the entries under `__digest__:` apart. -/
structure Context (O : Type) where
  values : Dict Str (Value O)
  digests : Dict Str Str

/-- One name of `build_iteration_context`. -/
def Context.put (digests : List (Str × Str)) (ctx : Context O) (name : Str) (v : Value O) : Context O :=
  let kept := ctx.digests.erase name
  if isPrimitive v then ⟨ctx.values.insert name v, kept⟩
  else
    let digest := (digests.lookup name).getD (w.computeHash v)
    if hashable w v then ⟨ctx.values.insert name v, kept.insert name digest⟩
    else ⟨ctx.values.insert name (.prim (.str digest)), kept⟩

/-- What is printed of a value. -/
def Context.shown (ctx : Context O) (name : Str) (v : Value O) : Plain :=
  match plainOf v with
  | some p => p
  | none => .prim (.str ((ctx.digests.lookup name).getD (w.computeHash v)))

/-- What a pass leaves. -/
structure Pass (O : Type) where
  bindings : List (Str × Value O)
  digests : List (Str × Str)
  context : Context O

end

end Cash.Iteration
