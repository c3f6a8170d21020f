import Cash.Lib.Run
import Cash.Tiered.Backend
import Mathlib.Logic.Function.Basic

/-!
# Which version of a key a read may return

The abstract store a tiered backend stands for: a map from each key to the value of its latest `set` since
its last `delete` (`latest`). `LeavesNoOldCopy` says of one step that every tier it does not write holds no
older copy of the key.
-/

namespace Cash.Tiered

variable {K V : Type} [DecidableEq K]

/-- The abstract store after a step. -/
def Op.note (f : K → Option V) : Op K V → K → Option V
  | .set inp => Function.update f inp.key (some inp.value)
  | .delete key _ => Function.update f key none
  | _ => f

/-- The value of the latest `set` of each key since its last `delete`. -/
def latest (ops : List (Op K V)) : K → Option V := ops.foldl Op.note fun _ => none

/-- What the slower tier holds for the key once its queued writes have landed. -/
def Slow.settled (s : Slow K V) (key : K) : Option V :=
  s.queue.foldl (fun found p => if p.1 = key then some p.2.value else found)
    ((s.entries.lookup key).map (·.value))

namespace SetInput

/-- `metadata["size"]` when the slower tier is asked. -/
def sizeSeen (s : State K V) (inp : SetInput K V) : Nat :=
  let size := inp.metadata.size.getD 0
  if inp.big then (if size = 0 then inp.footprint else size)
  else if s.ram.ends inp.ram = .stored then inp.ram.size
  else size

/-- How the slower tier is handed the value; `none` when it is over the tier's cap. -/
def how (s : State K V) (inp : SetInput K V) : Option How :=
  State.handOver s.slow (if inp.sizeSeen s = 0 then inp.costModelSize else inp.sizeSeen s)
    (!inp.big && inp.serialized) (!inp.big && inp.private) inp

/-- Is the value refused everywhere, since rebuilding it would write a file? -/
def wouldWriteAFile (s : State K V) (inp : SetInput K V) : Bool :=
  !inp.big && decide (s.ram.ends inp.ram = .raised true)

/-- Does the slower tier's `set`, handed the value so, queue a write? -/
def taken (s : State K V) (inp : SetInput K V) (how : How) : Bool :=
  !inp.slow.unusable && !(s.slow.kind.assignsSize how inp.slow && inp.slow.raises)

/-- Is the value queued for the slower tier? It is when the policy persists it, rebuilding it writes no
file, it is within the cap, the tier is usable, and serializing it does not raise. -/
def queues (s : State K V) (inp : SetInput K V) : Bool :=
  inp.persist && !inp.wouldWriteAFile s && (inp.how s).any (inp.taken s)

end SetInput

/-- A tier this step does not write holds no older copy of its key:

* where the RAM tier's `set` raises (and the key is not dropped there first), it holds no copy of the key;
* where nothing is queued for the slower tier, that tier holds no copy, on disk or queued;
* a file that cannot be removed by a `delete` is not there;
* a queued write that fails leaves no earlier copy behind. -/
def LeavesNoOldCopy (s : State K V) : Op K V → Prop
  | .set inp =>
      ((∃ b, s.ram.ends inp.ram = .raised b) → ¬(inp.big = true ∧ inp.persist = true) →
        s.ram.store.lookup inp.key = none) ∧
      (inp.queues s = false → s.slow.settled inp.key = none)
  | .delete key fails => fails = true → s.slow.entries.lookup key = none
  | .land ok =>
      ok = false → ∀ key entry rest, s.slow.queue = (key, entry) :: rest →
        s.slow.entries.lookup key = none ∨ ∃ p ∈ rest, p.1 = key
  | _ => True

/-- The transitions of the system. -/
def Steps (s : State K V) (op : Op K V) (s' : State K V) : Prop := ∃ out, step s op = some (s', out)

/-- The transitions that leave no older copy. -/
def CleanSteps (s : State K V) (op : Op K V) (s' : State K V) : Prop := LeavesNoOldCopy s op ∧ Steps s op s'

/-!
## The bytes the RAM tier counts

`_current_size_bytes` should be the sum of the sizes added when the entries held were stored. It is what is
read off `metadata["size"]` that comes off again, and the slower tier is handed the same dict.
-/

/-- The sum, over the keys held, of the size added when the key's entry was stored. -/
def Ram.addedBytes (r : Ram K V) : Int := Dict.sumBy (fun _ e => (e.added : Int)) r.store

/-- Does the RAM tier hold the dict of this `set` when the slower tier is asked? -/
def SetInput.keptInRam (s : State K V) (inp : SetInput K V) : Bool :=
  !inp.big &&
    ((s.ram.set (s.heap.alloc inp.metadata) inp.key inp.value s.heap.next inp.ram).2.2.store.lookup inp.key).any
      fun e => e.metadata = s.heap.next

/-- Does the slower tier's `set` assign `metadata["size"]`? -/
def SetInput.assigns (s : State K V) (inp : SetInput K V) : Bool :=
  inp.persist && (inp.how s).any fun how => inp.taken s how && s.slow.kind.assignsSize how inp.slow

/-- Does this `get` promote a value into the RAM tier that could not read its own copy? -/
def GetInput.promotesAgain (s : State K V) (key : K) (inp : GetInput K) : Bool :=
  inp.ramRaises && !(inp.slowRaises || inp.slowUnreadable) && !inp.slowExpired &&
    (s.slow.entries.lookup key).isSome && (decide (key ∈ s.readOnce) || inp.cheap) &&
    decide (s.ram.ends inp.ram = .stored)

/-- The size of a dict the RAM tier holds is assigned again only as what it is:

* where the slower tier's `set` assigns the size of a dict the RAM tier holds, the bytes it counts are the
  size the RAM tier measured;
* where a `get` promotes a value with the very dict the RAM tier holds, it is measured the same again. -/
def SizesAgree (s : State K V) : Op K V → Prop
  | .set inp => inp.keptInRam s = true → inp.assigns s = true → inp.slow.nbytes = inp.ram.size
  | .get key inp =>
      inp.promotesAgain s key = true → ∀ e, s.ram.store.lookup key = some e →
        s.slow.kind = .file → s.slow.touched.lookup key = some e.metadata →
        (s.heap.dict e.metadata).diskAlone = false → inp.ram.size = e.added
  | _ => True

/-- The transitions that assign no other size. -/
def SizedSteps (s : State K V) (op : Op K V) (s' : State K V) : Prop := SizesAgree s op ∧ Steps s op s'

end Cash.Tiered
