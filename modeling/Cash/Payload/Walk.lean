import Cash.Payload.Value

/-!
# The walk of an argument of any type

`stable_key_repr` with the hook of `ArgHasher`, for a walk that raises nothing: one rule for each value that `_enter`
or `_object_steps` returns. The forms that `record_class` and `_SORTED_SETS` save the walk are those it gives.
-/

namespace Cash.Payload

open Py Canon

variable {env : Env} {ρ : Type} [DecidableEq ρ]

/-- `walk.seen`, by position, and the lists `left` and `fielded`. -/
structure State (ρ : Type) where
  seen : List ρ
  left : List ρ
  fielded : List ρ

def State.empty : State ρ := ⟨[], [], []⟩

def State.meet (s : State ρ) (x : ρ) : State ρ := { s with seen := s.seen ++ [x] }

/-- `_WRITABLE_FAMILIES`. -/
def writableFamily (family : Str) : Bool :=
  family = Py.str "numpy" || family = Py.str "pandas" || family = Py.str "scipy.sparse"

/-! ## Containers -/

/-- The items of a set, sorted by their pickled bytes. -/
def sortTerms (env : Env) (items : List Term) : List Term :=
  items.mergeSort fun s t => decide ((env.contentDumps s).map (·.toNat) ≤ (env.contentDumps t).map (·.toNat))

namespace Container

variable (c : Container ρ)

def own : List (Str × ρ) :=
  match c.sub with
  | some sub => sub.own
  | none => []

/-- The canonical items, from the forms of the parts. -/
def canon (env : Env) (items : List Term) : List Term :=
  match c.base with
  | .list | .tuple => items
  | .dict => Term.pairs items
  | .set | .frozenset => sortTerms env items

/-- The state of a subclass, from the forms of its attributes. -/
def state (sub : Sub ρ) (own : List Term) : List Term :=
  (match sub.factory with
    | some factory => [.tuple [.str "default_factory", .text factory]]
    | none => []) ++
  (((sub.own.map (·.1)).zip own).mergeSort fun p q => decide (p.1 ≤ q.1)).map fun p => .tuple [.text p.1, p.2]

/-- `_typed`. -/
def term (env : Env) (items own : List Term) : Term :=
  match c.sub with
  | none => .typed c.base.tag (c.canon env items)
  | some sub =>
    .tuple ([.str "__cash_type__", .text sub.class_.name, .tuple (c.canon env items)] ++
      if (state sub own).isEmpty then [] else [.tuple (state sub own)])

end Container

/-! ## Dates -/

/-- `_date_form` and `_zoned_steps`, from the form of the zone. -/
def Date.term (d : Date ρ) (zone : Term) : Term :=
  match d with
  | .nat => .tuple [.str "__cash_pd_nat__"]
  | .timedelta unit value => .tuple [.str "__cash_pd_td__", .text unit, .int value]
  | .timestamp unit value fold _ => .tuple [.str "__cash_pd_ts__", .text unit, .int value, .int fold, zone]

def Date.zone : Date ρ → Option ρ
  | .timestamp _ _ _ tz => tz
  | _ => none

/-! ## Objects -/

namespace World

variable (w : World env ρ)

def container (x : ρ) : Option (Container ρ) :=
  match w.obj x with
  | .list xs => some ⟨.list, none, xs⟩
  | .tuple xs => some ⟨.tuple, none, xs⟩
  | .dict items => some ⟨.dict, none, items.flatMap fun p => [p.1, p.2]⟩
  | .atom (.other n) =>
    match w.other n with
    | .set xs => some ⟨.set, none, xs⟩
    | .frozenset xs => some ⟨.frozenset, none, xs⟩
    | .sub base sub parts => some ⟨base, some sub, parts⟩
    | _ => none
  | _ => none

/-- An object of any other type, and what it pickles as. -/
def instanceOf (x : ρ) : Option (Nat × Instance ρ) :=
  match w.obj x with
  | .atom (.other n) =>
    match w.other n with
    | .instance o => some (n, o)
    | _ => none
  | _ => none

def dateOf (x : ρ) : Option (Date ρ) :=
  match w.obj x with
  | .atom (.other n) =>
    match w.other n with
    | .date d => some d
    | _ => none
  | _ => none

/-- The keys of the dict are exact `str`s. -/
def namesOnly (d : ρ) : Bool :=
  w.isDict d && (w.pairs d).all fun p =>
    match w.obj p.1 with
    | .atom (.prim (.str _)) => true
    | _ => false

/-- `_FIELD_LEAVES`, with no `tzinfo`. -/
def isFieldLeaf (x : ρ) : Bool :=
  match w.obj x with
  | .atom (.prim _) => true
  | .atom (.parsed _ _) => !w.zoned x
  | _ => false

/-- The `__dict__` of a record of the class. -/
def recordState (c : Class) (x : ρ) : Option ρ :=
  match w.instanceOf x with
  | some (_, o) => if o.class_ = c ∧ o.content = none then o.fields else none
  | none => none

/-- `_records_by_fields`: the class of the records, and the digest of their fields. -/
def recordsDigest (c : Container ρ) : Option (Class × Str) := do
  guard (c.sub.isNone ∧ (c.base = .list ∨ c.base = .tuple) ∧ recordsFrom ≤ c.parts.length)
  let first ← c.parts.head?
  let (_, o) ← w.instanceOf first
  guard (w.hook first).isNone
  let states ← c.parts.mapM (w.recordState o.class_)
  guard (states.all fun d => w.namesOnly d && (w.values d).all w.isFieldLeaf)
  return (o.class_, env.sha256 (env.pickle (.list (states.map (w.data (Census.maxLevels + 1))))))

/-- Items of a container. -/
def size (x : ρ) : Nat := (w.items x).length + (w.pairs x).length

/-- `_object_by_fields`: the digest of the object's fields, and the containers in them that something else may hold. -/
def fieldsDigest (o : Instance ρ) : Option (Str × List ρ) :=
  match o.fields with
  | none => none
  | some d =>
    if w.namesOnly d && (w.values d).any fun x => w.isNode true x && decide (recordsFrom ≤ w.size x) then
      (Census.sharing w.toHeap true d).map fun (met, _) =>
        (env.sha256 (env.pickle (.tuple [w.data (Census.maxLevels + 1) d, Census.Repeats.data met.repeats])),
          met.first.map (·.1))
    else none

/-- No content hasher reads the object, which is not being walked. -/
def opens (path : List ρ) (x : ρ) (n : Nat) (o : Instance ρ) : Prop :=
  w.hook x = none ∧ w.instanceOf x = some (n, o) ∧ (∀ family digest, o.content ≠ some (family, some digest)) ∧ x ∉ path

end World

/-! ## The rules -/

mutual
/-- `path` is `walk.stack`; with `fields`, objects may be keyed by their fields. -/
inductive Walks (w : World env ρ) (fields : Bool) : List ρ → State ρ → ρ → Term → State ρ → Prop
  | prim {path : List ρ} {s : State ρ} {x : ρ} {p : Prim} : w.obj x = .atom (.prim p) →
      Walks w fields path s x (.prim p) s
  | bytearray {path : List ρ} {s : State ρ} {x : ρ} {bs : Bytes} : w.obj x = .atom (.bytearray bs) → x ∉ s.seen →
      Walks w fields path s x (.bytearray bs) (s.meet x)
  | bytearrayAgain {path : List ρ} {s : State ρ} {x : ρ} {bs : Bytes} : w.obj x = .atom (.bytearray bs) →
      x ∈ s.seen → Walks w fields path s x (.aliasOf (s.seen.idxOf x)) s
  | standIn {path : List ρ} {s : State ρ} {x : ρ} {standIn : StandIn} : (∀ p, w.obj x ≠ .atom (.prim p)) →
      (∀ bs, w.obj x ≠ .atom (.bytearray bs)) → w.hook x = some standIn → Walks w fields path s x standIn.term s
  | np {path : List ρ} {s : State ρ} {x : ρ} {n : Np env.toEnv} : w.hook x = none → w.obj x = .atom (.np n) →
      Walks w fields path s x (.tuple [.str "__cash_np__", .text [n.char], .prim (.bytes n.raw)]) s
  | parsed {path : List ρ} {s : State ρ} {x : ρ} {type : Census.Parsed} {bits : Bytes} : w.hook x = none →
      w.obj x = .atom (.parsed type bits) → Walks w fields path s x (.parsed type bits) s
  | date {path : List ρ} {s : State ρ} {x : ρ} {d : Date ρ} : w.hook x = none → w.dateOf x = some d →
      d.zone = none → Walks w fields path s x (d.term (.prim .none)) s
  | zoned {path : List ρ} {s s' : State ρ} {x tz : ρ} {d : Date ρ} {zone : Term} : w.hook x = none →
      w.dateOf x = some d → d.zone = some tz → Walks w fields path s tz zone s' →
      Walks w fields path s x (d.term zone) s'
  | content {path : List ρ} {s : State ρ} {x : ρ} {n : Nat} {o : Instance ρ} {family digest : Str} :
      w.hook x = none → w.instanceOf x = some (n, o) → o.content = some (family, some digest) →
      (writableFamily family = true → x ∉ s.seen) →
      Walks w fields path s x (.tuple [.str "__cash_content__", .text family, .text digest])
        (if writableFamily family then s.meet x else s)
  | contentAgain {path : List ρ} {s : State ρ} {x : ρ} {n : Nat} {o : Instance ρ} {family : Str}
      {digest : Option Str} : w.hook x = none → w.instanceOf x = some (n, o) → o.content = some (family, digest) →
      writableFamily family = true → x ∈ s.seen → Walks w fields path s x (.aliasOf (s.seen.idxOf x)) s
  | again {path : List ρ} {s : State ρ} {x : ρ} {c : Container ρ} : w.hook x = none → w.container x = some c →
      x ∉ path → c.base.isMutable = true → x ∈ s.seen → Walks w fields path s x (.aliasOf (s.seen.idxOf x)) s
  | container {path : List ρ} {s s' s'' : State ρ} {x : ρ} {c : Container ρ} {items own : List Term} :
      w.hook x = none → w.container x = some c → x ∉ path → (c.base.isMutable = true → x ∉ s.seen) →
      (fields = true → w.recordsDigest c = none) →
      WalksAll w fields (x :: path) (if c.base.isMutable then s.meet x else s) c.parts items s' →
      WalksAll w fields (x :: path) s' (c.own.map (·.2)) own s'' → Walks w fields path s x (c.term env items own) s''
  | records {path : List ρ} {s : State ρ} {x : ρ} {c : Container ρ} {class_ : Class} {digest : Str} :
      w.hook x = none → w.container x = some c → x ∉ path → (c.base.isMutable = true → x ∉ s.seen) →
      fields = true → w.recordsDigest c = some (class_, digest) →
      Walks w fields path s x (.typed c.base.tag [.fields "records" class_.name digest])
        { (if c.base.isMutable then s.meet x else s) with fielded := s.fielded ++ c.parts }
  | objectFields {path : List ρ} {s : State ρ} {x : ρ} {n : Nat} {o : Instance ρ} {digest : Str} {held : List ρ} :
      w.opens path x n o → fields = true → w.fieldsDigest o = some (digest, held) →
      Walks w fields path s x (.fields "object" o.class_.name digest) { s with fielded := s.fielded ++ x :: held }
  | opened {path : List ρ} {s s' : State ρ} {x y : ρ} {n : Nat} {o : Instance ρ} {state : Term} :
      w.opens path x n o → (fields = true → w.fieldsDigest o = none) → (o.holdsSet || o.holdsContent) = true →
      o.pickledState y → Walks w fields (x :: path) s y state s' →
      Walks w fields path s x (.tuple [.str "__cash_obj__", .text o.class_.name, state]) s'
  | whole {path : List ρ} {s : State ρ} {x : ρ} {n : Nat} {o : Instance ρ} :
      w.opens path x n o → (fields = true → w.fieldsDigest o = none) → (o.holdsSet || o.holdsContent) = false →
      Walks w fields path s x (.whole n) (if o.byName then s else { s with left := s.left ++ [x] })
  /-- An object that reaches itself: what was met until the `CyclicValueError` stays met. -/
  | wholeLoop {path : List ρ} {s s' : State ρ} {x : ρ} {n : Nat} {o : Instance ρ} :
      w.opens path x n o → (fields = true → w.fieldsDigest o = none) → o.holdsSet = false → o.holdsContent = true →
      s.seen <+: s'.seen → s.left <+: s'.left → s.fielded <+: s'.fielded →
      Walks w fields path s x (.whole n) (if o.byName then s' else { s' with left := s'.left ++ [x] })

inductive WalksAll (w : World env ρ) (fields : Bool) : List ρ → State ρ → List ρ → List Term → State ρ → Prop
  | nil {path : List ρ} {s : State ρ} : WalksAll w fields path s [] [] s
  | cons {path : List ρ} {s s' s'' : State ρ} {x : ρ} {xs : List ρ} {t : Term} {ts : List Term} :
      Walks w fields path s x t s' → WalksAll w fields path s' xs ts s'' →
      WalksAll w fields path s (x :: xs) (t :: ts) s''
end

end Cash.Payload
