import Cash.Store.Backend

/-!
# Programs that leave the tables alone

Most of what a store does between its sections is of no concern to its tables. `Calm` says so of the rules
for a call, for a relation between the states before and after; `Rests` says it of a program.
-/

namespace Cash.Store

open Bytes Py Chunks Entry

/-- The tables agree on entries, files and places. -/
structure Tables.Same (t t' : Tables) : Prop where
  heldBy : t'.heldBy = t.heldBy
  holders : t'.holders = t.holders
  pending : t'.pending = t.pending
  places : t'.places = t.places
  inPack : t'.inPack = t.inPack
  placedBy : t'.placedBy = t.placedBy

theorem Tables.Same.refl (t : Tables) : t.Same t := ⟨rfl, rfl, rfl, rfl, rfl, rfl⟩

/-- A section under the store's lock. -/
def Op.isSection {β : Type} : Op β → Bool
  | .locked _ | .commit .. | .release .. | .repoint .. => true
  | _ => false

variable {S : Type}

/-- Whatever the call answers, the state is as `rel` says. -/
def Silent (R : Prog.Rules Op S) (rel : S → S → Prop) {β : Type} (op : Op β) : Prop :=
  ∀ (P : β → S → Prop) (s : S), (∀ b s', rel s s' → P b s') → R.pre op P s

/-- A call leaves the state as `rel` says, and so does a section that leaves the tables as `ok` says. -/
structure Calm (R : Prog.Rules Op S) (rel : S → S → Prop) (ok : Tables → Tables → Prop) : Prop where
  refl : ∀ s, rel s s
  trans : ∀ {s s' s''}, rel s s' → rel s' s'' → rel s s''
  same : ∀ {t t'}, t.Same t' → ok t t'
  call : ∀ {β : Type} {op : Op β}, op.isSection = false → Silent R rel op
  locked : ∀ {α : Type} {f : Tables → α × Tables}, (∀ t, ok t (f t).2) → Silent R rel (.locked f)

/-- The program leaves the state as `rel` says. -/
def Rests {α : Type} (R : Prog.Rules Op S) (rel : S → S → Prop) (p : StoreM α) : Prop :=
  ∀ s, p.Wp R (fun _ s' => rel s s') (fun _ s' => rel s s') s

variable {R : Prog.Rules Op S} {rel : S → S → Prop} {ok : Tables → Tables → Prop} {α β : Type}

namespace Calm

/-! ## Rules -/

theorem rests_pure (hC : Calm R rel ok) (a : α) : Rests R rel (pure a) := fun s => hC.refl s

theorem rests_raise (hC : Calm R rel ok) (e : Exn) : Rests R rel (.raise e : StoreM α) := fun s => hC.refl s

theorem after (hC : Calm R rel ok) {p : StoreM α} {f : α → StoreM β} {g : Exn → StoreM β} (hp : Rests R rel p)
    (hf : ∀ a, Rests R rel (f a)) (hg : ∀ e, Rests R rel (g e)) : Rests R rel (p.after f g) := by
  intro s
  apply Prog.Wp.after
  apply (hp s).mono
  · intro a s' hs
    exact (hf a s').mono (fun _ _ h => hC.trans hs h) fun _ _ h => hC.trans hs h
  · intro e s' hs
    exact (hg e s').mono (fun _ _ h => hC.trans hs h) fun _ _ h => hC.trans hs h

theorem bind (hC : Calm R rel ok) {p : StoreM α} {f : α → StoreM β} (hp : Rests R rel p) (hf : ∀ a, Rests R rel (f a)) :
    Rests R rel (p >>= f) :=
  hC.after hp hf fun e => hC.rests_raise e

theorem handle (hC : Calm R rel ok) {p : StoreM α} {g : Exn → StoreM α} (hp : Rests R rel p) (hg : ∀ e, Rests R rel (g e)) :
    Rests R rel (p.handle g) :=
  hC.after hp (fun a => hC.rests_pure a) hg

theorem ensuring (hC : Calm R rel ok) {p : StoreM α} {last : StoreM Unit} (hp : Rests R rel p) (hl : Rests R rel last) :
    Rests R rel (p.ensuring last) :=
  hC.after hp (fun a => hC.after hl (fun _ => hC.rests_pure a) fun e => hC.rests_raise e) fun e =>
    hC.after hl (fun _ => hC.rests_raise e) fun e => hC.rests_raise e

theorem perform (hC : Calm R rel ok) {op : Op α} (h : op.isSection = false) : Rests R rel (perform op) :=
  fun s => hC.call h _ s fun _ _ hs => hs

/-- A call that is no section, and the rest. -/
theorem thenCall (hC : Calm R rel ok) {op : Op α} {f : α → StoreM β} (h : op.isSection = false)
    (hf : ∀ a, Rests R rel (f a)) : Rests R rel (Store.perform op >>= f) :=
  hC.bind (hC.perform h) hf

theorem thenLocked (hC : Calm R rel ok) {f : Tables → α × Tables} {g : α → StoreM β} (h : ∀ t, ok t (f t).2)
    (hg : ∀ a, Rests R rel (g a)) : Rests R rel (Store.locked f >>= g) :=
  hC.bind (fun s => hC.locked h _ s fun _ _ hs => hs) hg

theorem look (hC : Calm R rel ok) (f : Tables → α) : Rests R rel (Store.locked fun t => (f t, t)) :=
  fun s => hC.locked (fun t => hC.same (.refl t)) _ s fun _ _ hs => hs

theorem thenLook (hC : Calm R rel ok) {f : Tables → α} {g : α → StoreM β} (hg : ∀ a, Rests R rel (g a)) :
    Rests R rel (Store.locked (fun t => (f t, t)) >>= g) :=
  hC.thenLocked (fun t => hC.same (.refl t)) hg

theorem update (hC : Calm R rel ok) {f : Tables → Tables} (h : ∀ t, ok t (f t)) : Rests R rel (update f) :=
  fun s => hC.locked h _ s fun _ _ hs => hs

theorem orRaise (hC : Calm R rel ok) {op : Op Bool} (h : op.isSection = false) : Rests R rel (orRaise op) := by
  refine hC.thenCall h fun b => ?_
  cases b with
  | false => exact hC.rests_raise _
  | true => exact hC.rests_pure _

/-! ## Removing -/

theorem sweepOne (hC : Calm R rel ok) (cutoff : Nat) (name : Str) : Rests R rel (sweepOne cutoff name) := by
  refine hC.thenLook fun used => ?_
  cases used with
  | true => exact hC.rests_pure _
  | false =>
      refine hC.thenCall rfl fun st => ?_
      cases st with
      | none => exact hC.rests_pure _
      | some st =>
          dsimp only
          split
          · refine hC.thenCall rfl fun b => ?_
            cases b <;> exact hC.rests_pure _
          · exact hC.rests_pure _

theorem sweepOrphans (hC : Calm R rel ok) : Rests R rel sweepOrphans := by
  have heach : ∀ cutoff names, Rests R rel (sweepEach cutoff names) := by
    intro cutoff names
    induction names with
    | nil => exact hC.rests_pure _
    | cons name rest ih => exact hC.bind (hC.sweepOne cutoff name) fun _ => hC.bind ih fun _ => hC.rests_pure _
  refine hC.thenCall rfl fun now => hC.thenCall rfl fun listed => ?_
  cases listed with
  | none => exact hC.rests_pure _
  | some listed => exact heach _ _

theorem entryAt (hC : Calm R rel ok) (stem : Str) : Rests R rel (entryAt stem) := by
  refine hC.thenCall rfl fun ino => ?_
  cases ino with
  | none => exact hC.rests_pure _
  | some ino => exact hC.perform rfl

theorem entryChunks (hC : Calm R rel ok) (stems : List Str) : Rests R rel (entryChunks stems) := by
  induction stems with
  | nil => exact hC.rests_pure _
  | cons stem rest ih =>
      refine hC.bind (hC.entryAt stem) fun file => hC.bind ih fun more => ?_
      cases file with
      | none => exact hC.rests_pure _
      | some e =>
          dsimp only
          split <;> exact hC.rests_pure _

theorem dropOne (hC : Calm R rel ok) (hforget : ∀ name t, ok t (t.forget name)) (name : Str) :
    Rests R rel (dropOne name) := by
  refine hC.thenLook fun look => ?_
  cases look with
  | none => exact hC.rests_pure _
  | some look =>
      refine hC.thenCall rfl fun st => ?_
      cases st with
      | none => exact hC.rests_pure _
      | some st =>
          dsimp only
          split
          · exact hC.rests_pure _
          · refine hC.thenCall rfl fun gone => ?_
            cases gone with
            | false => exact hC.rests_pure _
            | true =>
                refine hC.bind (hC.update fun t => hC.same ⟨rfl, rfl, rfl, rfl, rfl, rfl⟩) fun _ => ?_
                exact hC.bind (hC.update (hforget name)) fun _ => hC.rests_pure _

theorem drop (hC : Calm R rel ok) (hforget : ∀ name t, ok t (t.forget name)) (hindex : Rests R rel ensureIndex)
    (names : List Str) : Rests R rel (drop names) := by
  have heach : ∀ names, Rests R rel (dropEach names) := by
    intro names
    induction names with
    | nil => exact hC.rests_pure _
    | cons name rest ih => exact hC.bind (hC.dropOne hforget name) fun _ => hC.bind ih fun _ => hC.rests_pure _
  unfold Store.drop
  split
  · exact hC.rests_pure _
  · refine hC.thenCall rfl fun order => ?_
    exact hC.bind hindex fun _ => hC.bind (heach order) fun _ => hC.rests_pure _

/-! ## Writing -/

theorem noteOwn (hC : Calm R rel ok) (name : Str) : Rests R rel (noteOwn name) := by
  refine hC.thenCall rfl fun st => ?_
  cases st with
  | none => exact hC.rests_pure _
  | some st => exact hC.update fun t => hC.same ⟨rfl, rfl, rfl, rfl, rfl, rfl⟩

theorem chunkTemp (hC : Calm R rel ok) : Rests R rel chunkTemp := by
  refine hC.thenCall rfl fun made => ?_
  cases made with
  | done => exact hC.rests_pure _
  | failed => exact hC.rests_raise _
  | notFound =>
      refine hC.bind (hC.orRaise rfl) fun _ => hC.thenCall rfl fun made => ?_
      cases made with
      | done => exact hC.rests_pure _
      | failed => exact hC.rests_raise _
      | notFound => exact hC.rests_raise _

theorem writeMembers (hC : Calm R rel ok) (offset : Nat) (views : List Bytes) :
    Rests R rel (writeMembers offset views) := by
  induction views generalizing offset with
  | nil => exact hC.rests_pure _
  | cons view rest ih =>
      have hwrites : Rests R rel (do
          Store.orRaise .own
          Store.orRaise .own
          Store.writeMembers (offset + aligned offset + view.length + trailer) rest) :=
        hC.bind (hC.orRaise rfl) fun _ => hC.bind (hC.orRaise rfl) fun _ => ih _
      unfold Store.writeMembers
      split
      · exact hC.bind (hC.orRaise rfl) fun _ => hwrites
      · exact hwrites

/-! ## Entries -/

theorem chunksHeld (hC : Calm R rel ok) (stem : Str) : Rests R rel (chunksHeld stem) := by
  refine hC.thenLook fun known => ?_
  cases known with
  | true => exact hC.rests_pure _
  | false =>
      refine hC.thenCall rfl fun dir => ?_
      cases dir with
      | false => exact hC.rests_pure _
      | true =>
          refine hC.bind (hC.entryAt stem) fun file => ?_
          cases file <;> exact hC.rests_pure _

theorem writeFile (hC : Calm R rel ok) (stem : Str) (file : EntryFile) : Rests R rel (writeFile stem file) := by
  have hatomic : Rests R rel (atomicWrite stem file) := by
    refine hC.thenCall rfl fun made => ?_
    cases made with
    | failed => exact hC.rests_raise _
    | notFound => exact hC.rests_raise _
    | done =>
        refine hC.thenCall rfl fun ino => ?_
        cases ino with
        | none => exact hC.thenCall rfl fun _ => hC.rests_raise _
        | some ino =>
            refine hC.thenCall rfl fun b => ?_
            cases b with
            | true => exact hC.rests_pure _
            | false => exact hC.thenCall rfl fun _ => hC.rests_raise _
  have hnew : Rests R rel (writeNewInPlace stem file) := by
    refine hC.thenCall rfl fun made => ?_
    cases made with
    | error why => exact hC.rests_pure _
    | ok ino =>
        refine hC.thenCall rfl fun b => ?_
        cases b with
        | true => exact hC.rests_pure _
        | false => exact hC.thenCall rfl fun _ => hC.rests_raise _
  refine hC.bind hnew fun b => ?_
  cases b with
  | true => exact hC.rests_pure _
  | false => exact hatomic

theorem placeEntry (hC : Calm R rel ok) (stem : Str) (file : Option EntryFile) : Rests R rel (placeEntry stem file) := by
  have hretry : ∀ file, Rests R rel (writeFileRetry stem file) := by
    intro file
    refine hC.handle (hC.writeFile stem file) fun e => ?_
    cases e with
    | notFound =>
        exact hC.bind (hC.orRaise rfl) fun _ => hC.thenCall rfl fun _ => hC.thenCall rfl fun _ => hC.writeFile stem file
    | os => exact hC.rests_raise _
    | replaced => exact hC.rests_raise _
    | keyError => exact hC.rests_raise _
    | read e => exact hC.rests_raise _
  cases file with
  | none => exact hC.rests_raise _
  | some file =>
      refine hC.thenCall rfl fun old => ?_
      cases old with
      | none => exact hC.bind (hretry file) fun _ => hC.rests_pure _
      | some old => exact hC.bind (hC.chunksHeld stem) fun _ => hC.bind (hretry file) fun _ => hC.rests_pure _

/-! ## Making packs smaller -/

theorem movedHead (hC : Calm R rel ok) (conf : Conf) (stem old : Str) (new : Str × Nat) (moved : Places) :
    Rests R rel (movedHead conf stem old new moved) := by
  refine hC.bind (hC.entryAt stem) fun file => ?_
  cases file <;> exact hC.rests_pure _

theorem canMoveAll (hC : Calm R rel ok) (conf : Conf) (old : Str) (new : Str × Nat) (planned : Places) (stems : List Str) :
    Rests R rel (canMoveAll conf old new planned stems) := by
  induction stems with
  | nil => exact hC.rests_pure _
  | cons stem rest ih =>
      refine hC.bind (hC.movedHead conf stem old new planned) fun head => ?_
      cases head with
      | none => exact hC.rests_pure _
      | some head => exact ih

theorem linkIfAbsent (hC : Calm R rel ok) (ino : Nat) (stem : Str) : Rests R rel (linkIfAbsent ino stem) := by
  refine hC.thenCall rfl fun made => ?_
  cases made with
  | done => exact hC.rests_pure _
  | «exists» => exact hC.rests_pure _
  | failed => exact hC.rests_raise _

theorem takeAway (hC : Calm R rel ok) (stem : Str) : Rests R rel (takeAway stem) := by
  refine hC.thenCall rfl fun b => ?_
  cases b with
  | false => exact hC.rests_pure _
  | true =>
      refine hC.thenCall rfl fun b => ?_
      cases b with
      | false => exact hC.rests_pure _
      | true =>
          refine hC.thenCall rfl fun b => ?_
          cases b with
          | false => exact hC.rests_pure _
          | true => exact hC.perform rfl

theorem swapIfSame (hC : Calm R rel ok) (new : Nat) (stem : Str) (identity : Bytes × Flt) :
    Rests R rel (swapIfSame new stem identity) := by
  have haside : Rests R rel (swapAside new stem identity) := by
    refine hC.bind (hC.takeAway stem) fun aside => ?_
    cases aside with
    | none => exact hC.rests_raise _
    | some aside =>
        refine hC.thenCall rfl fun there => ?_
        split
        · exact hC.bind (hC.linkIfAbsent aside stem) fun _ => hC.rests_raise _
        · refine hC.bind (hC.linkIfAbsent new stem) fun linked => ?_
          cases linked with
          | true => exact hC.rests_pure _
          | false => exact hC.rests_raise _
  refine hC.thenCall rfl fun made => ?_
  cases made with
  | done => exact hC.ensuring haside (hC.thenCall rfl fun _ => hC.thenCall rfl fun _ => hC.rests_pure _)
  | notFound => exact hC.rests_raise _
  | failed => exact hC.rests_raise _

theorem putHead (hC : Calm R rel ok) (head : EntryFile) (stem : Str) : Rests R rel (putHead head stem) := by
  have hcopy : Rests R rel (copyEntry head stem) := by
    refine hC.bind (hC.orRaise rfl) fun _ => hC.thenCall rfl fun src => ?_
    cases src with
    | none => exact hC.rests_raise _
    | some src =>
        refine hC.thenCall rfl fun payload => ?_
        cases payload with
        | none => exact hC.rests_raise _
        | some payload =>
            refine hC.thenCall rfl fun ino => ?_
            cases ino with
            | none => exact hC.rests_raise _
            | some ino => exact hC.rests_pure _
  refine hC.thenCall rfl fun made => ?_
  cases made with
  | notFound => exact hC.rests_raise _
  | failed => exact hC.rests_raise _
  | done =>
      refine hC.handle (hC.bind hcopy fun ino => hC.bind (hC.swapIfSame ino stem _) fun _ => hC.rests_pure _)
        fun e => hC.thenCall rfl fun _ => ?_
      cases e with
      | replaced => exact hC.rests_pure _
      | os => exact hC.rests_raise _
      | notFound => exact hC.rests_raise _
      | keyError => exact hC.rests_raise _
      | read e => exact hC.rests_raise _

theorem readPackFile (hC : Calm R rel ok) (conf : Conf) (name : Str) (members : List Member) :
    Rests R rel (readPackFile conf name members) := by
  refine hC.thenCall rfl fun file => ?_
  unfold raising
  split
  · exact hC.rests_pure _
  · exact hC.rests_raise _

theorem claim (hC : Calm R rel ok) (name : Str) : Rests R rel (claim name) := by
  refine hC.thenCall rfl fun made => ?_
  cases made with
  | done => exact hC.rests_pure _
  | failed => exact hC.rests_pure _
  | «exists» =>
      refine hC.thenCall rfl fun st => ?_
      cases st with
      | none => exact hC.rests_pure _
      | some st =>
          refine hC.thenCall rfl fun now => ?_
          by_cases hage : st.mtime < now - orphanChunkAge
          · rw [if_pos hage]
            exact hC.thenCall rfl fun _ => hC.rests_pure _
          · rw [if_neg hage]
            exact hC.rests_pure _

end Calm

theorem placeWaiting_files (written : Places) (st : Put) : (placeWaiting written st).files = st.files := by
  unfold placeWaiting
  generalize st.waiting = waiting
  induction waiting generalizing st with
  | nil => rfl
  | cons w waiting ih =>
      rw [List.foldl_cons, ih]
      unfold placeOne
      split <;> rfl

end Cash.Store
