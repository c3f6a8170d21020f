import Cash.Canon.Theorems
import Cash.Census.Key

/-!
# Tuples of primitives, and a pickling of them
-/

namespace Cash.Census

open Py Canon

/-! ## A tuple of primitives -/

section

variable {env : Env} {ρ : Type} [DecidableEq ρ] {h : Heap env.toEnv ρ} {v : ρ} {xs : List ρ}

theorem sharingFrom_no_writable (tree : Bool) (rows level split : List ρ) (depth : Int)
    (hx : ∀ x ∈ xs, h.isWritable x = false) (met : Met ρ) :
    sharingFrom h tree rows depth level split [xs] met = met := by
  have hfilter : xs.filter h.isWritable = [] := List.filter_eq_nil_iff.mpr fun x hxs => by simp [hx x hxs]
  simp [sharingFrom, hfilter, Met.level]

theorem plainCensus_prims (hv : h.obj v = .tuple xs) (hx : ∀ x ∈ xs, ∃ p, h.obj x = .atom (.prim p)) :
    plainCensus env h v = some (.plain, []) := by
  have hleaf : ∀ x ∈ xs, h.isLeaf true x = true := by
    intro x hxs
    obtain ⟨p, hp⟩ := hx x hxs
    simp [Heap.isLeaf, hp]
  have hwritable : ∀ x ∈ xs, h.isWritable x = false := by
    intro x hxs
    obtain ⟨p, hp⟩ := hx x hxs
    simp [Heap.isWritable, Obj.isWritable, hp]
  have hnumber : ∀ x ∈ xs, h.isNumber x = false := by
    intro x hxs
    obtain ⟨p, hp⟩ := hx x hxs
    simp [Heap.isNumber, hp]
  have hflat : h.flat [v] = xs := by simp [Heap.flat, Heap.items, Heap.pairs, hv]
  have hlevels : levels h false true v = some [xs] := by
    have hkeys : h.keysLeaves [v] = true := by simp [Heap.keysLeaves, Heap.pairs, hv]
    rw [levels, if_pos hkeys, hflat, levelsFrom.eq_def, if_pos, if_pos]
    · exact List.all_eq_true.mpr hleaf
    · exact List.all_eq_true.mpr fun x hxs => by simp [hleaf x hxs]
  have hany : ([xs].any fun flat => flat.any h.isNumber) = false := by
    simpa using hnumber
  have hsharing : sharing h false v = some (.empty, false) := by
    simp only [sharing, Heap.isNode, Heap.isSeq, hv, Bool.not_false, Bool.true_or, if_true, hlevels, Option.map_some,
      sharingFrom_no_writable _ _ _ _ _ hwritable, hany, Bool.true_and]
  simp [plainCensus, hsharing, Met.empty]

theorem data_atom {n : Nat} {x : ρ} {a : Atom env.toEnv} (hx : h.obj x = .atom a) : h.data (n + 1) x = .atom a := by
  simp [Heap.data, hx]

theorem plainKeyPart_prims (hv : h.obj v = .tuple xs) (hx : ∀ x ∈ xs, ∃ p, h.obj x = .atom (.prim p)) :
    plainKeyPart env h v =
      .marker (str "__cash_plain__") (env.sha256 (env.pickle (.tuple (xs.map (h.data maxLevels))))) := by
  simp [plainKeyPart, plainCensus_prims hv hx, Heap.data, hv]

/-- A marker of plain data is of the value's own pickle. -/
theorem plainKeyPart_plain {digest : Str} (hv : plainKeyPart env h v = .marker (str "__cash_plain__") digest) :
    digest = env.sha256 (env.pickle (h.data (maxLevels + 1) v)) := by
  unfold plainKeyPart at hv
  split at hv
  · cases hv
  · split at hv
    · exact absurd (KeyPart.marker.inj hv).1 (by decide)
    · cases hv
  · exact (KeyPart.marker.inj hv).2.symm
  · exact absurd (KeyPart.marker.inj hv).1 (by decide)
  · exact absurd (KeyPart.marker.inj hv).1 (by decide)
  · exact absurd (KeyPart.marker.inj hv).1 (by decide)

/-- The pickle of a tuple of atoms tells that the value is one. -/
theorem tuple_of_data {n : Nat} {as : List (Atom env.toEnv)} (hv : h.data (n + 2) v = .tuple (as.map .atom)) :
    ∃ xs, h.obj v = .tuple xs ∧ List.Forall₂ (fun x a => h.obj x = .atom a) xs as := by
  rw [Heap.data] at hv
  split at hv
  · simp [Data.atom, Data.tuple] at hv
  · simp [Data.list, Data.tuple] at hv
  · rename_i xs hxs
    refine ⟨xs, hxs, ?_⟩
    simp only [Data.tuple, Data.node.injEq, true_and] at hv
    clear hxs
    induction xs generalizing as with
    | nil =>
      cases as with
      | nil => exact .nil
      | cons a as => simp at hv
    | cons x xs ih =>
      cases as with
      | nil => simp at hv
      | cons a as =>
        simp only [List.map_cons, List.cons.injEq] at hv
        refine .cons ?_ (ih hv.2)
        have hx := hv.1
        rw [Heap.data] at hx
        split at hx
        · simp only [Data.atom, Data.node.injEq, Label.atom.injEq, and_true] at hx
          rw [‹h.obj x = _›, hx]
        · simp [Data.list, Data.atom] at hx
        · simp [Data.tuple, Data.atom] at hx
        · simp [Data.atom] at hx
  · simp [Data.tuple] at hv

end

/-!
## A pickling that tells all data apart

A value as numbers, each written in unary.
-/

section

variable {env : Canon.Env} {r r' : List Nat}

def Parsed.code : Parsed → Nat
  | .date => 0
  | .datetime => 1
  | .time => 2
  | .timedelta => 3
  | .decimal => 4

theorem Parsed.code_inj {s t : Parsed} (h : s.code = t.code) : s = t := by
  cases s <;> cases t <;> simp_all [Parsed.code]

def bytesCode (bs : Bytes) : List Nat := bs.length :: bs.map (·.toNat)

theorem bytesCode_inj {bs cs : Bytes} (h : bytesCode bs ++ r = bytesCode cs ++ r') : bs = cs ∧ r = r' := by
  simp only [bytesCode, List.cons_append, List.cons.injEq] at h
  exact bytes_code_inj h.1 h.2

def Atom.code : Atom env → List Nat
  | .prim p => 0 :: p.code
  | .bytearray bs => 1 :: bytesCode bs
  | .parsed type bits => 2 :: type.code :: bytesCode bits
  | .np n => 3 :: n.char :: bytesCode n.raw
  | .other n => [4, n]

theorem Atom.code_inj {a b : Atom env} (h : a.code ++ r = b.code ++ r') : a = b ∧ r = r' := by
  cases a with
  | prim p =>
    cases b with
    | prim q =>
      obtain ⟨rfl, hr⟩ := Prim.code_inj (p := p) (q := q) (by simpa [Atom.code] using h)
      exact ⟨rfl, hr⟩
    | _ => simp [Atom.code] at h
  | bytearray bs =>
    cases b with
    | bytearray cs =>
      obtain ⟨rfl, hr⟩ := bytesCode_inj (by simpa [Atom.code] using h)
      exact ⟨rfl, hr⟩
    | _ => simp [Atom.code] at h
  | parsed s bs =>
    cases b with
    | parsed t cs =>
      simp only [Atom.code, List.cons_append, List.cons.injEq, true_and] at h
      obtain rfl := Parsed.code_inj h.1
      obtain ⟨rfl, hr⟩ := bytesCode_inj h.2
      exact ⟨rfl, hr⟩
    | _ => simp [Atom.code] at h
  | np n =>
    cases b with
    | np m =>
      obtain ⟨char, raw, hn⟩ := n
      obtain ⟨char', raw', hm⟩ := m
      simp only [Atom.code, List.cons_append, List.cons.injEq, true_and] at h
      obtain ⟨rfl, hraw⟩ := h
      obtain ⟨rfl, hr⟩ := bytesCode_inj hraw
      exact ⟨rfl, hr⟩
    | _ => simp [Atom.code] at h
  | other n =>
    cases b with
    | other m => simpa [Atom.code] using h
    | _ => simp [Atom.code] at h

def Kind.code : Kind → List Nat
  | .str => [0]
  | .int => [1]
  | .float => [2]
  | .bool => [3]
  | .none => [4]
  | .bytes => [5]
  | .complex => [6]
  | .bytearray => [7]
  | .parsed type => [8, type.code]
  | .np char => [9, char]
  | .other => [10]
  | .list => [11]
  | .tuple => [12]
  | .dict => [13]

theorem Kind.code_inj {k l : Kind} (h : k.code ++ r = l.code ++ r') : k = l ∧ r = r' := by
  cases k with
  | parsed s =>
    cases l with
    | parsed t =>
      simp only [Kind.code, List.cons_append, List.nil_append, List.cons.injEq, true_and] at h
      exact ⟨by rw [Parsed.code_inj h.1], h.2⟩
    | _ => simp [Kind.code] at h
  | np c =>
    cases l with
    | np d => simpa [Kind.code] using h
    | _ => simp [Kind.code] at h
  | _ => cases l <;> simp_all [Kind.code]

def Label.code : Label env → List Nat
  | .atom a => 0 :: a.code
  | .list => [1]
  | .tuple => [2]
  | .dict => [3]
  | .type k => 4 :: k.code

theorem Label.code_inj {l m : Label env} (h : l.code ++ r = m.code ++ r') : l = m ∧ r = r' := by
  cases l with
  | atom a =>
    cases m with
    | atom b =>
      obtain ⟨rfl, hr⟩ := Atom.code_inj (a := a) (b := b) (by simpa [Label.code] using h)
      exact ⟨rfl, hr⟩
    | _ => simp [Label.code] at h
  | type k =>
    cases m with
    | type l =>
      obtain ⟨rfl, hr⟩ := Kind.code_inj (k := k) (l := l) (by simpa [Label.code] using h)
      exact ⟨rfl, hr⟩
    | _ => simp [Label.code] at h
  | _ => cases m <;> simp_all [Label.code]

mutual
def Data.code : Data env → List Nat
  | .node label parts => label.code ++ parts.length :: Data.codes parts

def Data.codes : List (Data env) → List Nat
  | [] => []
  | d :: ds => d.code ++ Data.codes ds
end

mutual
theorem Data.code_inj : ∀ {d e : Data env} {r r' : List Nat}, d.code ++ r = e.code ++ r' → d = e ∧ r = r'
  | .node l ds, .node m es, r, r', h => by
    simp only [Data.code, List.append_assoc] at h
    obtain ⟨rfl, hparts⟩ := Label.code_inj h
    simp only [List.cons_append, List.cons.injEq] at hparts
    obtain ⟨rfl, hr⟩ := Data.codes_inj hparts.1 hparts.2
    exact ⟨rfl, hr⟩

theorem Data.codes_inj : ∀ {ds es : List (Data env)} {r r' : List Nat}, ds.length = es.length →
    Data.codes ds ++ r = Data.codes es ++ r' → ds = es ∧ r = r'
  | [], [], _, _, _, h => ⟨rfl, by simpa [Data.codes] using h⟩
  | d :: ds, e :: es, r, r', hlen, h => by
    simp only [Data.codes, List.append_assoc] at h
    obtain ⟨rfl, hrest⟩ := Data.code_inj h
    obtain ⟨rfl, hr⟩ := Data.codes_inj (by simpa using hlen) hrest
    exact ⟨rfl, hr⟩
end

/-- `==` of keys that are strings, whole numbers or truth values. -/
def atomEq : Atom env → Atom env → Bool
  | .prim (.str s), .prim (.str t) => s = t
  | .prim (.int m), .prim (.int n) => m = n
  | .prim (.int m), .prim (.bool b) | .prim (.bool b), .prim (.int m) => m = b.toInt
  | .prim (.bool b), .prim (.bool c) => b = c
  | _, _ => false

def hex (bytes : Bytes) : Str := bytes.map (·.toNat)

theorem hex_injective : Function.Injective hex := List.map_injective_iff.mpr fun _ _ => UInt8.toNat_inj.mp

/-- The outside of the program over forms pickled in some way. -/
def unaryCensus (env : Canon.Env) : Env :=
  { env with
    pickle := fun d => unary d.code
    dumpsMemo := fun d => unary d.code
    sha256 := hex
    npName := fun c => unary [c]
    eq := atomEq }

theorem pickle_injective (env : Canon.Env) : Function.Injective (unaryCensus env).pickle := fun d e h => by
  have hcode : d.code = e.code := unary_inj h
  have happend : d.code ++ [] = e.code ++ [] := by rw [hcode]
  exact (Data.code_inj happend).1

end

end Cash.Census
