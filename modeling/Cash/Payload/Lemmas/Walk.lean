import Cash.Census.Lemmas.Code
import Cash.Payload.Call
import Cash.Payload.Value
import Cash.Payload.Walk

/-!
# Forms and payloads told apart
-/

namespace Cash.Payload

open Py Canon

/-! ## A pickling that tells all forms apart -/

section

variable {r r' : List Nat}

mutual
def Term.code : Term → List Nat
  | .prim p => 0 :: p.code
  | .bytearray bs => 1 :: Census.bytesCode bs
  | .parsed type bits => 2 :: type.code :: Census.bytesCode bits
  | .whole n => [3, n]
  | .tuple items => 4 :: items.length :: Term.codes items

def Term.codes : List Term → List Nat
  | [] => []
  | t :: ts => t.code ++ Term.codes ts
end

mutual
theorem Term.code_inj : ∀ {t u : Term} {r r' : List Nat}, t.code ++ r = u.code ++ r' → t = u ∧ r = r'
  | .prim p, .prim q, r, r', h => by
    obtain ⟨rfl, hr⟩ := Prim.code_inj (p := p) (q := q) (by simpa [Term.code] using h)
    exact ⟨rfl, hr⟩
  | .bytearray bs, .bytearray cs, r, r', h => by
    obtain ⟨rfl, hr⟩ := Census.bytesCode_inj (by simpa [Term.code] using h)
    exact ⟨rfl, hr⟩
  | .parsed s bs, .parsed t cs, r, r', h => by
    simp only [Term.code, List.cons_append, List.cons.injEq, true_and] at h
    obtain rfl := Census.Parsed.code_inj h.1
    obtain ⟨rfl, hr⟩ := Census.bytesCode_inj h.2
    exact ⟨rfl, hr⟩
  | .whole n, .whole m, r, r', h => by simpa [Term.code] using h
  | .tuple ts, .tuple us, r, r', h => by
    simp only [Term.code, List.cons_append, List.cons.injEq, true_and] at h
    obtain ⟨rfl, hr⟩ := Term.codes_inj h.1 h.2
    exact ⟨rfl, hr⟩
  | .prim _, .bytearray _, _, _, h | .prim _, .parsed _ _, _, _, h | .prim _, .whole _, _, _, h
  | .prim _, .tuple _, _, _, h | .bytearray _, .prim _, _, _, h | .bytearray _, .parsed _ _, _, _, h
  | .bytearray _, .whole _, _, _, h | .bytearray _, .tuple _, _, _, h | .parsed _ _, .prim _, _, _, h
  | .parsed _ _, .bytearray _, _, _, h | .parsed _ _, .whole _, _, _, h | .parsed _ _, .tuple _, _, _, h
  | .whole _, .prim _, _, _, h | .whole _, .bytearray _, _, _, h | .whole _, .parsed _ _, _, _, h
  | .whole _, .tuple _, _, _, h | .tuple _, .prim _, _, _, h | .tuple _, .bytearray _, _, _, h
  | .tuple _, .parsed _ _, _, _, h | .tuple _, .whole _, _, _, h => by
    simp [Term.code] at h

theorem Term.codes_inj : ∀ {ts us : List Term} {r r' : List Nat}, ts.length = us.length →
    Term.codes ts ++ r = Term.codes us ++ r' → ts = us ∧ r = r'
  | [], [], _, _, _, h => ⟨rfl, by simpa [Term.codes] using h⟩
  | t :: ts, u :: us, r, r', hlen, h => by
    simp only [Term.codes, List.append_assoc] at h
    obtain ⟨rfl, hrest⟩ := Term.code_inj h
    obtain ⟨rfl, hr⟩ := Term.codes_inj (by simpa using hlen) hrest
    exact ⟨rfl, hr⟩
end

def unaryForms : Canon.Env := ⟨fun _ => 1, fun _ => Nat.one_pos, fun f => unary (Term.ofForm f).code⟩

def unaryEnv : Env :=
  { Census.unaryCensus unaryForms with
    contentDumps := fun t => unary t.code
    dumps_eq := fun _ => rfl }

theorem contentDumps_injective : Function.Injective unaryEnv.contentDumps := fun t u h => by
  have hcode : t.code = u.code := unary_inj h
  have happend : t.code ++ [] = u.code ++ [] := by rw [hcode]
  exact (Term.code_inj happend).1

theorem pickle_injective : Function.Injective unaryEnv.pickle := Census.pickle_injective unaryForms

theorem sha256_injective : Function.Injective unaryEnv.sha256 := Census.hex_injective

end

/-! ## The payload of one argument -/

section

variable {env : Env} {hasher : Hasher} {ρ : Type}

/-! ### Answers -/

theorem Argument.argHash_eq (a : Argument hasher) : a.argHash =
    match a.answer with
    | some (_, s) => .str s
    | none =>
      match a.code with
      | some (module, qualname) => .codeValue module qualname
      | none => .itself := by
  unfold Argument.argHash Argument.answer Argument.stringKey
  cases a.keyedByClass with
  | some s => rfl
  | none =>
  cases a.frozen with
  | some s => rfl
  | none =>
  cases a.remembered with
  | some s => rfl
  | none =>
  cases a.override with
  | some s => rfl
  | none =>
  cases (a.lineage.bind fun _ => a.carried) with
  | some s => rfl
  | none =>
  cases a.frame with
  | some s => rfl
  | none =>
  cases a.content with
  | some s => rfl
  | none =>
  cases a.lineage with
  | some s => rfl
  | none =>
  cases a.typeHash with
  | some s => rfl
  | none => rfl

/-- With nothing registered no step answers for a value of a built-in type. -/
theorem Argument.answer_builtin {a : Argument hasher} (hh : hasher.hooked = false) (ha : a.builtin = true) :
    a.answer = none ∧ a.code = none := by
  obtain ⟨hkey, hlineage, hframe, hcontent, hcode⟩ := a.builtin_none ha
  simp only [Hasher.hooked, Bool.or_eq_false_iff] at hh
  obtain ⟨⟨⟨ho, ht⟩, hfa⟩, hfc⟩ := hh
  have hfrozen : a.frozen = none := by
    by_contra hne
    have := a.frozen_tables (Option.isSome_iff_ne_none.mpr hne)
    simp [hfa, hfc] at this
  have hoverride : a.override = none := by
    by_contra hne
    have := a.override_table (Option.isSome_iff_ne_none.mpr hne)
    simp [ho] at this
  have htype : a.typeHash = none := by
    by_contra hne
    have := a.typeHash_table (Option.isSome_iff_ne_none.mpr hne)
    simp [ht] at this
  refine ⟨?_, hcode⟩
  simp [Argument.answer, Argument.keyedByClass, Argument.remembered, hkey, hlineage, hframe, hcontent, hfrozen,
    hoverride, htype]

theorem Argument.argHash_builtin {a : Argument hasher} (hh : hasher.hooked = false) (ha : a.builtin = true) :
    a.argHash = .itself := by
  obtain ⟨hanswer, hcode⟩ := a.answer_builtin hh ha
  simp [a.argHash_eq, hanswer, hcode]

/-! ### Plain data -/

variable [DecidableEq ρ]

theorem isNode_of_plainCensus {env : Census.Env} {h : Census.Heap env.toEnv ρ} {x : ρ}
    (hx : Census.plainCensus env h x ≠ none) : h.isNode true x = true := by
  by_contra hnode
  have hseq : h.isNode false x = false := by
    simp only [Census.Heap.isNode, Bool.or_eq_true, not_or, Bool.not_eq_true, Bool.false_and, Bool.or_false] at hnode ⊢
    exact hnode.1
  apply hx
  have hrows : Census.dictRowsUnchecked env h x = none := by
    unfold Census.dictRowsUnchecked
    split
    · rename_i hlist
      simp [Census.Heap.isNode, Census.Heap.isSeq, hlist] at hnode
    · rfl
  simp [Census.plainCensus, Census.sharing, hseq, hnode, hrows]

theorem plainKeyPart_ne_value {env : Census.Env} {h : Census.Heap env.toEnv ρ} {x : ρ}
    (hx : Census.plainCensus env h x ≠ none) : Census.plainKeyPart env h x ≠ .value := by
  unfold Census.plainKeyPart
  split
  · exact absurd ‹_› hx
  · split <;> simp
  · simp
  · simp
  · simp
  · simp

/-! ### Nothing registered -/

omit [DecidableEq ρ] in
theorem Hasher.keywords_none (hh : hasher.hooked = false) : hasher.keywords = none := by
  by_contra hne
  have htable := hasher.keywords_table (Option.isSome_iff_ne_none.mpr hne)
  simp only [Hasher.hooked, Bool.or_eq_false_iff] at hh
  simp [hh] at htable

theorem Call.payload_none (hh : hasher.hooked = false) (c : Call env hasher ρ) : c.payload = none := by
  by_contra hne
  have htable := c.payload_table (Option.isSome_iff_ne_none.mpr hne)
  simp only [Hasher.hooked, Bool.or_eq_false_iff] at hh
  simp [hh] at htable

/-! ### Bytes -/

omit [DecidableEq ρ] in
theorem State.not_metAgain_empty : ¬(State.empty : State ρ).metAgain := by simp [State.metAgain, State.empty]

/-- A string or a marker is walked alone. -/
theorem payloadBytes_iff {c : Call env hasher ρ} (hc : c.payload = none) {part : Part ρ} {t : Term}
    (hpart : ∀ fields t' s, PartTerm c.world fields part t' s ↔ t' = t ∧ s = .empty) (bytes : Bytes) :
    PayloadBytes c part bytes ↔ bytes = 117 :: env.contentDumps (payloadTerm hasher t) := by
  have hbytes : c.world.bytes .empty (payloadTerm hasher t) = 117 :: env.contentDumps (payloadTerm hasher t) := by
    simp [World.bytes, State.empty]
  constructor
  · intro h
    cases h with
    | hooked hkey => simp [hc] at hkey
    | first _ hterm _ =>
      obtain ⟨rfl, rfl⟩ := (hpart _ _ _).mp hterm
      exact hbytes
    | second _ hterm hagain _ =>
      obtain ⟨rfl, rfl⟩ := (hpart _ _ _).mp hterm
      exact absurd hagain State.not_metAgain_empty
  · rintro rfl
    rw [← hbytes]
    exact .first hc ((hpart true t .empty).mpr ⟨rfl, rfl⟩) State.not_metAgain_empty

theorem partTerm_marker {w : World env ρ} {fields : Bool} {kind digest : Str} {t : Term} {s : State ρ} :
    PartTerm w fields (.marker kind digest) t s ↔ t = .typed "tuple" [.text kind, .text digest] ∧ s = .empty := by
  constructor
  · intro h
    cases h
    exact ⟨rfl, rfl⟩
  · rintro ⟨rfl, rfl⟩
    exact .marker kind digest

theorem canonicalMarkerBytes_eq (hh : hasher.hooked = false) (kind digest : Str) :
    canonicalMarkerBytes env.toEnv kind digest =
      117 :: env.contentDumps (payloadTerm hasher (.typed "tuple" [.text kind, .text digest])) := by
  simp only [canonicalMarkerBytes, callBytes, unshared, env.dumps_eq, payloadTerm, hasher.keywords_none hh]
  rfl

end

/-! ## What a form tells of the value walked -/

section

variable {env : Env} {ρ : Type} [DecidableEq ρ] {w : World env ρ} {fields : Bool} {path : List ρ} {s s' : State ρ}
  {x : ρ}

/-! ### Tags -/

/-- The first item of a tuple, when it is a `str`. -/
def Term.tag : Term → Option Str
  | .tuple (.prim (.str s) :: _) => some s
  | _ => none

theorem StandIn.tag_term (standIn : StandIn) : standIn.term.tag.isSome = true ∧
    standIn.term.tag ≠ some (Py.str "__cash_type__") := by
  cases standIn with
  | hashed key => exact ⟨rfl, by simp [StandIn.term, Term.hashed, Term.str, Term.text, Term.tag]; decide⟩
  | codeValue module qualname => exact ⟨rfl, by simp [StandIn.term, Term.str, Term.text, Term.tag]; decide⟩
  | jit name options => exact ⟨rfl, by simp [StandIn.term, Term.str, Term.text, Term.tag]; decide⟩

omit [DecidableEq ρ] in
theorem Date.tag_term (d : Date ρ) (zone : Term) : (d.term zone).tag.isSome = true ∧
    (d.term zone).tag ≠ some (Py.str "__cash_type__") := by
  cases d with
  | nat => exact ⟨rfl, by simp [Date.term, Term.str, Term.text, Term.tag]; decide⟩
  | timedelta unit value => exact ⟨rfl, by simp [Date.term, Term.str, Term.text, Term.tag]; decide⟩
  | timestamp unit value fold tz => exact ⟨rfl, by simp [Date.term, Term.str, Term.text, Term.tag]; decide⟩

omit [DecidableEq ρ] in
theorem Container.tag_term (c : Container ρ) (items own : List Term) :
    (c.term env items own).tag = some (Py.str "__cash_type__") := by
  unfold Container.term
  split <;> simp [Term.typed, Term.str, Term.text, Term.tag]

/-! ### Primitives -/

/-- Only a primitive is walked to one. -/
theorem Walks.prim_inv {p : Prim} (h : Walks w fields path s x (.prim p) s') :
    w.obj x = .atom (.prim p) ∧ s' = s := by
  generalize ht : Term.prim p = t at h
  have htag : t.tag = none := by rw [← ht]; rfl
  cases h with
  | prim hx =>
    cases ht
    exact ⟨hx, rfl⟩
  | standIn => simp [StandIn.tag_term, ← Option.isNone_iff_eq_none, ← Option.not_isSome] at htag
  | date => simp [Date.tag_term, ← Option.isNone_iff_eq_none, ← Option.not_isSome] at htag
  | zoned => simp [Date.tag_term, ← Option.isNone_iff_eq_none, ← Option.not_isSome] at htag
  | container => simp [Container.tag_term] at htag
  | _ => cases ht

theorem Walks.prim_eq {p : Prim} {t : Term} (hx : w.obj x = .atom (.prim p)) (h : Walks w fields path s x t s') :
    t = .prim p ∧ s' = s := by
  cases h with
  | prim hp =>
    rw [hx] at hp
    cases hp
    exact ⟨rfl, rfl⟩
  | bytearray hb _ => simp [hx] at hb
  | bytearrayAgain hb _ => simp [hx] at hb
  | standIn hp _ _ => exact absurd hx (hp _)
  | np _ hn => simp [hx] at hn
  | parsed _ hp => simp [hx] at hp
  | date _ hd _ => simp [World.dateOf, hx] at hd
  | zoned _ hd _ _ => simp [World.dateOf, hx] at hd
  | content _ hi _ _ => simp [World.instanceOf, hx] at hi
  | contentAgain _ hi _ _ _ => simp [World.instanceOf, hx] at hi
  | again _ hc _ _ _ => simp [World.container, hx] at hc
  | container _ hc _ _ _ _ _ => simp [World.container, hx] at hc
  | records _ hc _ _ _ _ => simp [World.container, hx] at hc
  | objectFields ho _ _ => simp [World.opens, World.instanceOf, hx] at ho
  | opened ho _ _ _ _ => simp [World.opens, World.instanceOf, hx] at ho
  | whole ho _ _ => simp [World.opens, World.instanceOf, hx] at ho
  | wholeLoop ho _ _ _ _ _ _ => simp [World.opens, World.instanceOf, hx] at ho

/-! ### Markers -/

theorem Class.name_ne (c : Class) {tag : Str} (htag : (46 : Nat) ∉ tag) : c.name ≠ tag := by
  intro hname
  apply htag
  rw [← hname]
  simp [Class.name, Py.str]

theorem WalksAll.text_inv {keys : List Str} {xs : List ρ} (h : WalksAll w fields path s xs (keys.map .text) s') :
    List.Forall₂ (fun x key => w.obj x = .atom (.prim (.str key))) xs keys := by
  induction keys generalizing xs s with
  | nil =>
    cases h
    exact .nil
  | cons key keys ih =>
    cases h with
    | cons hx hxs => exact .cons hx.prim_inv.1 (ih hxs)

omit [DecidableEq ρ] in
/-- The tag of a subclass has a dot in it. -/
theorem Container.term_eq_tuple {c : Container ρ} {items own ts : List Term}
    (h : c.term env items own = .typed "tuple" ts) : c.sub = none ∧ c.base = .tuple ∧ items = ts := by
  unfold Container.term at h
  split at h
  · rename_i hsub
    simp only [Term.typed, Term.tuple.injEq, List.cons.injEq, Term.str, Term.text, Term.prim.injEq, Prim.str.injEq,
      true_and, and_true] at h
    obtain ⟨htag, hcanon⟩ := h
    cases hbase : c.base with
    | tuple => exact ⟨hsub, rfl, by simpa [Container.canon, hbase] using hcanon⟩
    | _ =>
      rw [hbase] at htag
      exact absurd htag (by decide)
  · rename_i sub hsub
    simp only [Term.typed, Term.tuple.injEq, List.cons_append, List.cons.injEq, Term.str, Term.text, Term.prim.injEq,
      Prim.str.injEq, true_and] at h
    exact absurd h.1 (Class.name_ne _ (by decide))

theorem World.container_tuple {c : Container ρ} (hc : w.container x = some c) (hsub : c.sub = none)
    (hbase : c.base = .tuple) : w.obj x = .tuple c.parts := by
  unfold World.container at hc
  split at hc
  · cases hc
    cases hbase
  · cases hc
    assumption
  · cases hc
    cases hbase
  · split at hc
    · cases hc
      cases hbase
    · cases hc
      cases hbase
    · cases hc
      cases hsub
    · cases hc
  · cases hc

/-- Only a tuple of `str`s is walked to the form of a marker. -/
theorem Walks.marker_inv {keys : List Str} (h : Walks w fields path s x (.typed "tuple" (keys.map .text)) s') :
    ∃ xs, w.obj x = .tuple xs ∧ List.Forall₂ (fun x key => w.obj x = .atom (.prim (.str key))) xs keys := by
  generalize ht : Term.typed "tuple" (keys.map .text) = t at h
  have htag : t.tag = some (Py.str "__cash_type__") := by rw [← ht]; rfl
  cases h with
  | standIn => exact absurd htag (StandIn.tag_term _).2
  | date => exact absurd htag (Date.tag_term _ _).2
  | zoned => exact absurd htag (Date.tag_term _ _).2
  | container _ hc _ _ _ hitems _ =>
    obtain ⟨hsub, hbase, rfl⟩ := Container.term_eq_tuple ht.symm
    exact ⟨_, World.container_tuple hc hsub hbase, hitems.text_inv⟩
  | records =>
    cases keys with
    | nil => simp [Term.typed] at ht
    | cons key keys => simp [Term.typed, Term.text, Term.fields] at ht
  | prim | bytearray | parsed | whole | wholeLoop => simp [Term.tag] at htag
  | _ =>
    simp only [Term.aliasOf, Term.fields, Term.tag, Term.str, Term.text, Option.some.injEq] at htag
    exact absurd htag (by decide)

end

end Cash.Payload
