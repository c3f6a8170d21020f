import Cash.Census.Key

/-!
# Arguments of any type

Plain data as the census sees it, and what its other objects are: sets, subclasses of the containers, pandas dates,
values a content hasher claims and instances of any class.
-/

namespace Cash.Payload

open Py Canon

/-! ## Terms -/

/-- What `stable_key_repr` makes of a value of any type: a form that may hold objects left to pickle. -/
inductive Term
  | prim (p : Prim)
  | bytearray (bs : Bytes)
  | parsed (type : Census.Parsed) (bits : Bytes)
  /-- Any other object, by what it pickles as. -/
  | whole (n : Nat)
  | tuple (items : List Term)

namespace Term

mutual
def ofForm : Form → Term
  | .prim p => .prim p
  | .bytearray bs => .bytearray bs
  | .tuple items => .tuple (ofForms items)

def ofForms : List Form → List Term
  | [] => []
  | f :: fs => ofForm f :: ofForms fs
end

def text (s : Str) : Term := .prim (.str s)

def str (s : String) : Term := text (Py.str s)

def int (n : Int) : Term := .prim (.int n)

/-- `("__cash_alias__", n)`. -/
def aliasOf (n : Nat) : Term := .tuple [str "__cash_alias__", int n]

/-- `("__cash_type__", tag, canon)`. -/
def typed (tag : String) (canon : List Term) : Term := .tuple [str "__cash_type__", str tag, .tuple canon]

/-- `("__cash_hashed__", key)`. -/
def hashed (key : Str) : Term := .tuple [str "__cash_hashed__", text key]

/-- `_fields_form`. -/
def fields (kind : String) (name digest : Str) : Term :=
  .tuple [str "__cash_fields__", str kind, text name, text digest]

/-- The items of a dict's form, from the forms of its keys and values one after the other. -/
def pairs : List Term → List Term
  | k :: v :: rest => .tuple [k, v] :: pairs rest
  | _ => []

/-- A name, or `None`. -/
def name : Option Str → Term
  | some s => text s
  | none => .prim .none

end Term

/-- `content_dumps`, of terms too. -/
structure Env extends toCensus : Census.Env where
  contentDumps : Term → Bytes
  dumps_eq : ∀ form, dumps form = contentDumps (Term.ofForm form)

/-! ## Other objects -/

/-- A class, by name. -/
structure Class where
  module : Str
  qualname : Str
deriving DecidableEq, Repr

/-- `f"{t.__module__}.{t.__qualname__}"`. -/
def Class.name (c : Class) : Str := c.module ++ Py.str "." ++ c.qualname

/-- What a container is, or derives from. -/
inductive Base
  | list | tuple | dict | set | frozenset
deriving DecidableEq, Repr

/-- `_BUILTIN_CONTAINER_TAGS`. -/
def Base.tag : Base → String
  | .list => "list"
  | .tuple => "tuple"
  | .dict => "dict"
  | .set => "set"
  | .frozenset => "frozenset"

/-- `isinstance(value, _MUTABLE_CONTAINERS)`. -/
def Base.isMutable : Base → Bool
  | .list | .dict | .set => true
  | .tuple | .frozenset => false

/-- A subclass of a container: `default_factory`'s name, and the state it holds beside its items (`object_state`). -/
structure Sub (ρ : Type) where
  class_ : Class
  factory : Option Str
  own : List (Str × ρ)

/-- A container: the parts are its items, or its keys and values in turn. -/
structure Container (ρ : Type) where
  base : Base
  sub : Option (Sub ρ)
  parts : List ρ

/-- A pandas date with no attributes of its own. -/
inductive Date (ρ : Type)
  | nat
  | timedelta (unit : Str) (value : Int)
  | timestamp (unit : Str) (value fold : Int) (tz : Option ρ)

/-- An object of any other type. -/
structure Instance (ρ : Type) where
  class_ : Class
  /-- The family of the content hasher that claims the type, and the digest when the value has one. -/
  content : Option (Str × Option Str)
  /-- Its `__dict__`, when `fields_class` and `_found_by_name` hold of its class. -/
  fields : Option ρ
  /-- `contains_set`. -/
  holdsSet : Bool
  /-- `holds_content_data`. -/
  holdsContent : Bool
  /-- What `_pickled_state` may give, a new object each time. -/
  pickledState : ρ → Prop
  /-- Pickled as its value or by its name (`_VALUE_LEAVES`, `_BY_NAME`), which is not kept in `left`. -/
  byName : Bool

inductive Other (ρ : Type)
  | set (items : List ρ)
  | frozenset (items : List ρ)
  | sub (base : Base) (sub : Sub ρ) (parts : List ρ)
  | date (d : Date ρ)
  | instance (o : Instance ρ)

/-- What `_nested_hasher` puts in a value's place. -/
inductive StandIn
  | hashed (key : Str)
  | codeValue (module qualname : Option Str)
  | jit (name options : Str)

def StandIn.term : StandIn → Term
  | .hashed key => .hashed key
  | .codeValue module qualname => .tuple [.str "__cash_code_value__", .name module, .name qualname]
  | .jit name options => .tuple [.str "__cash_jit__", .text name, .text options]

/-- The objects, with what the census does not look into, and what the hook says of each. -/
structure World (env : Env) (ρ : Type) [DecidableEq ρ] extends Census.Heap env.toEnv ρ where
  other : Nat → Other ρ
  /-- `_nested_hasher`, none for `NOT_HOOKED`. -/
  hook : ρ → Option StandIn
  /-- A `datetime` or `time` with a `tzinfo`. -/
  zoned : ρ → Bool
  /-- `key_dumps` of a form, with the containers it met and the objects it holds. -/
  keyDumps : Term → List ρ → List ρ → Bytes

end Cash.Payload
