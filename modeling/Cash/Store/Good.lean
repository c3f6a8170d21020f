import Cash.Lib.Run
import Cash.Store.Programs
import Mathlib.Data.Set.Function

/-!
# What a chunk folder holds

The name of a pack says which buffers are in it, and with them every byte of it and where each buffer is.
`GoodFile`, `GoodPlace`, `GoodEntry` and `GoodTables` say that a file, a place recorded for a chunk, an
entry and the tables of a process are what that name says.
-/

namespace Cash.Store

open Bytes Py Chunks Entry

section

/-- The hash functions, and the inputs they meet. -/
structure Hashes where
  sha256 : Bytes → Bytes
  bulkDigest : Bytes → Digest
  buffers : Set Bytes
  /-- The lists of digests a pack is named by. -/
  packs : Set (List Digest)

namespace Hashes

/-- The hashes are injective on the inputs met, and digests have 32 bytes. -/
structure Sound (H : Hashes) : Prop where
  digest_inj : Set.InjOn H.bulkDigest H.buffers
  digest_length : ∀ b ∈ H.buffers, (H.bulkDigest b).length = 32
  sha_inj : Set.InjOn H.sha256 (List.flatten '' H.packs)

/-- The name of the pack of these buffers. -/
def nameOf (H : Hashes) (bufs : List Bytes) : Str := packName H.sha256 (bufs.map H.bulkDigest)

/-- The buffers of a pack. -/
structure IsPack (H : Hashes) (bufs : List Bytes) : Prop where
  buffers : ∀ b ∈ bufs, b ∈ H.buffers
  met : bufs.map H.bulkDigest ∈ H.packs

end Hashes

variable (H : Hashes)

/-- The chunk `digest` is at this place in the pack its name says. -/
inductive GoodPlace : Digest → Place → Prop
  | mk {bufs : List Bytes} {k : Nat} {b : Bytes} {offset : Nat} : H.IsPack bufs → bufs[k]? = some b →
      (packOffsets 0 (bufs.map List.length))[k]? = some offset →
      GoodPlace (H.bulkDigest b) ⟨H.nameOf bufs, offset, b.length, crcOf b⟩

def GoodPlaces (places : Places) : Prop := ∀ p ∈ places, GoodPlace H p.1 p.2

/-- A file of the chunk folder holds what its name says. -/
structure GoodFile (name : Str) (data : Bytes) : Prop where
  pack : ∀ bufs, H.IsPack bufs → name = H.nameOf bufs → data = packBytes 0 bufs
  chunk : ∀ b ∈ H.buffers, name = chunkName (H.bulkDigest b) → data = b ++ crcOf b

/-- An entry's places are good, and in files it holds. -/
structure GoodEntry (e : EntryFile) : Prop where
  places : GoodPlaces H e.places
  held : ∀ p ∈ e.places, p.2.name ∈ e.held.map (·.1)

/-- The places a process remembers are good. -/
structure GoodTables (t : Tables) : Prop where
  places : ∀ d p, t.places.lookup d = some p → GoodPlace H d p
  placedBy : ∀ s ps, t.placedBy.lookup s = some ps → ∀ d p, ps.lookup d = some p → GoodPlace H d p

/-- What a store may call and is told among processes that keep the folder good. -/
def storeContract : Prog.Contract Op where
  may := fun _ op =>
    match op with
    | .locked f => ∀ t, GoodTables H t → GoodTables H (f t).2
    | .commit _ _ _ places => GoodPlaces H places
    | .repoint _ _ _ placed => GoodPlaces H placed
    | .digest view => view ∈ H.buffers
    | .replace data name => GoodFile H name data
    | .create name => GoodFile H name []
    | .tempFile e => GoodEntry H e
    | .writeFile _ e => GoodEntry H e
    | _ => True
  gives := fun _ op b =>
    match op, b with
    | .locked f, b => ∃ t, GoodTables H t ∧ b = (f t).1
    | .iterate names, order => order.Perm names
    | .digest view, d => d = H.bulkDigest view
    | .packName ms, name => ms ∈ H.packs ∧ name = packName H.sha256 ms
    | .read name, file => ∀ data, file = some data → GoodFile H name data
    | .readFile _, file => ∀ e, file = some e → GoodEntry H e
    | _, _ => True

end

/-!
## The tables as an index

One process carries out the operations of its store one after the other, in a folder of which it only knows
that the files and entries it reads are good: other processes are at work there. `Consistent` says that the
tables agree with each other and with the writes in flight.
-/

/-- What calls do to the tables when the answers come from a good folder. -/
def openSem (H : Hashes) : Prog.Sem Op Tables := fun β t op b t' =>
  match op, b with
  | .locked f, b => (b, t') = f t
  | .commit stem held replaced places, b => (b, t') = t.commit stem held replaced places
  | .release stem held, b => (b, t') = t.release stem held
  | .repoint stem old new placed, b => (b, t') = t.repoint stem old new placed
  | op, b => (storeContract H).gives β op b ∧ t' = t

/-- A write in flight: what `put_all` returned. -/
structure Flight where
  held : Held
  places : Places

/-- The tables of a process, and its writes in flight. -/
structure Ledger where
  tables : Tables
  flights : List Flight

/-- How many of the writes hold the file. -/
def holding (flights : List Flight) (name : Str) : Nat := flights.countP fun w => name ∈ w.held.map (·.1)

/-- The tables agree with each other and with the writes in flight. -/
structure Consistent (l : Ledger) : Prop where
  holders : ∀ name stem, stem ∈ l.tables.holdersOf name ↔ stem ∈ l.tables.heldBy ∧ name ∈ l.tables.heldOf stem
  placedBy : ∀ stem places, l.tables.placedBy.lookup stem = some places →
    stem ∈ l.tables.heldBy ∧ ∀ d p, places.lookup d = some p → p.name ∈ l.tables.heldOf stem
  inPack : ∀ d p, l.tables.places.lookup d = some p → d ∈ l.tables.inPack.getD p.name []
  pending : ∀ name, l.tables.pending.getD name 0 = holding l.flights name

/-- The operations. -/
inductive Operation
  | putAll (views : List Bytes) (known : List (Option Digest))
  | commit (stem : Str) (replaced : Option Held) (flight : Nat)
  /-- Of an entry that keeps nothing apart. -/
  | commitPlain (stem : Str) (replaced : Option Held)
  | abandon (flight : Nat)
  | release (stem : Str) (held : Option Held)
  | ensureIndex
  | compactOne (name : Str)
  | damaged (pack : Str) (offset : Nat)
  | clear

/-- One operation, from its call to its return or its exception. -/
inductive LedgerStep (H : Hashes) (conf : Conf) : Ledger → Operation → Ledger → Prop
  | putAll {t t' : Tables} {ws : List Flight} {views : List Bytes} {known : List (Option Digest)} {s : Stored} :
      (∀ v ∈ views.zip known, v.1 ∈ H.buffers ∧ ∀ d, v.2 = some d → d = H.bulkDigest v.1) →
      Prog.Exec (openSem H) (putAll views known) t (.ok s) t' →
      LedgerStep H conf ⟨t, ws⟩ (.putAll views known) ⟨t', ws ++ [⟨s.held, s.places⟩]⟩
  | putAllRaises {t t' : Tables} {ws : List Flight} {views : List Bytes} {known : List (Option Digest)} {e : Exn} :
      (∀ v ∈ views.zip known, v.1 ∈ H.buffers ∧ ∀ d, v.2 = some d → d = H.bulkDigest v.1) →
      Prog.Exec (openSem H) (putAll views known) t (.error e) t' →
      LedgerStep H conf ⟨t, ws⟩ (.putAll views known) ⟨t', ws⟩
  | commit {t t' : Tables} {ws : List Flight} {i : Nat} {w : Flight} {stem : Str} {replaced : Option Held}
      {r : Except Exn Int} : ws[i]? = some w →
      Prog.Exec (openSem H) (commit conf stem w.held replaced w.places) t r t' →
      LedgerStep H conf ⟨t, ws⟩ (.commit stem replaced i) ⟨t', ws.eraseIdx i⟩
  | commitPlain {t t' : Tables} {ws : List Flight} {stem : Str} {replaced : Option Held} {r : Except Exn Int} :
      Prog.Exec (openSem H) (commit conf stem [] replaced []) t r t' →
      LedgerStep H conf ⟨t, ws⟩ (.commitPlain stem replaced) ⟨t', ws⟩
  | abandon {t t' : Tables} {ws : List Flight} {i : Nat} {w : Flight} {r : Except Exn Int} : ws[i]? = some w →
      Prog.Exec (openSem H) (abandon w.held) t r t' → LedgerStep H conf ⟨t, ws⟩ (.abandon i) ⟨t', ws.eraseIdx i⟩
  | release {t t' : Tables} {ws : List Flight} {stem : Str} {held : Option Held} {r : Except Exn Int} :
      Prog.Exec (openSem H) (release conf stem held) t r t' →
      LedgerStep H conf ⟨t, ws⟩ (.release stem held) ⟨t', ws⟩
  | ensureIndex {t t' : Tables} {ws : List Flight} {r : Except Exn Int} : Prog.Exec (openSem H) ensureIndex t r t' →
      LedgerStep H conf ⟨t, ws⟩ .ensureIndex ⟨t', ws⟩
  | compactOne {t t' : Tables} {ws : List Flight} {name : Str} {r : Except Exn Int} :
      Prog.Exec (openSem H) (compactOne conf name) t r t' → LedgerStep H conf ⟨t, ws⟩ (.compactOne name) ⟨t', ws⟩
  | damaged {t t' : Tables} {ws : List Flight} {pack : Str} {offset : Nat} {r : Except Exn (List Str)} :
      Prog.Exec (openSem H) (damaged pack offset) t r t' →
      LedgerStep H conf ⟨t, ws⟩ (.damaged pack offset) ⟨t', ws⟩
  | clear {t t' : Tables} {ws : List Flight} {r : Except Exn Unit} : Prog.Exec (openSem H) clear t r t' →
      LedgerStep H conf ⟨t, ws⟩ .clear ⟨t', ws⟩

/-- `clear` is called while no entry known has chunks in a pack. -/
def ClearsUnplaced (l : Ledger) (op : Operation) : Prop := op = .clear → ∀ stem, stem ∉ l.tables.placedBy

end Cash.Store
