import Cash.Canon.Theorems
import Cash.Census.Lemmas.Code
import Cash.Payload.Call
import Cash.Payload.Lemmas.Walk

/-!
# Payloads, and the forms of calls of primitives
-/

namespace Cash.Payload

open Py Canon

/-! ## What each branch puts in the payload -/

section

/-- The form of a marker. -/
def markerTerm (kind digest : Str) : Term := .typed "tuple" [.text kind, .text digest]

variable {env : Env} {hasher : Hasher} {ρ : Type} [DecidableEq ρ]

/-- What the argument is in the payload, by branch. -/
inductive KeyTerm (c : Call env hasher ρ) : Term → Prop
  | text {s : Str} : c.bare = some s → KeyTerm c (.text s)
  | code {module qualname : Option Str} {kind digest : Str} : c.branch = some .code → c.bare = none →
      c.answers.answer = none → c.answers.code = some (module, qualname) →
      Census.plainKeyPart env.toCensus (codeValueHeap env module qualname) 0 = .marker kind digest →
      KeyTerm c (markerTerm kind digest)
  | plain {kind digest : Str} : c.branch = some .plain → c.bare = none → c.answers.answer = none →
      Census.plainKeyPart env.toCensus c.world.toHeap c.value = .marker kind digest →
      KeyTerm c (markerTerm kind digest)
  | prim {p : Prim} : c.bare = none → (∀ s, p ≠ .str s) →
      c.branch = some (if hasher.hooked then .walked else .primitive) → KeyTerm c (.prim p)
  | walked {t : Term} : c.bare = none → c.branch = some .walked → (∀ p, t ≠ .prim p) →
      (∀ kind digest, t ≠ markerTerm kind digest) → KeyTerm c t

/-- The bytes of the payload. -/
inductive Keyed (c : Call env hasher ρ) : Bytes → Prop
  | hooked {key : Str} : c.payload = some key → Keyed c (117 :: env.contentDumps (.hashed key))
  | unshared {t : Term} : c.payload = none → KeyTerm c t → Keyed c (117 :: env.contentDumps (payloadTerm hasher t))
  | memo (bytes : Bytes) : c.payload = none → c.bare = none → c.branch = some .walked → Keyed c (109 :: bytes)

variable {c : Call env hasher ρ}

theorem Call.string_eq_some {s : Str} : c.string = some s ↔ c.world.obj c.value = .atom (.prim (.str s)) := by
  unfold Call.string
  split
  · simp [*]
  · rename_i hne
    simp only [reduceCtorEq, false_iff]
    exact hne s

theorem Call.string_of_code {name : Option Str × Option Str} (hcode : c.answers.code = some name) :
    c.string = none := by
  rw [Option.eq_none_iff_forall_ne_some]
  intro s hs
  have hobj := Call.string_eq_some.mp hs
  have hbuiltin : c.answers.builtin = true := c.builtin_iff.mpr (by simp [hobj])
  simp [(c.answers.builtin_none hbuiltin).2.2.2.2] at hcode

theorem Call.node_of_marker {kind digest : Str}
    (hpart : Census.plainKeyPart env.toCensus c.world.toHeap c.value = .marker kind digest) :
    c.world.isNode true c.value = true := by
  apply isNode_of_plainCensus
  intro hnone
  simp [Census.plainKeyPart, hnone] at hpart

theorem Call.string_of_marker {kind digest : Str}
    (hpart : Census.plainKeyPart env.toCensus c.world.toHeap c.value = .marker kind digest) : c.string = none := by
  rw [Option.eq_none_iff_forall_ne_some]
  intro s hs
  have hnode := Call.node_of_marker hpart
  simp [Census.Heap.isNode, Census.Heap.isSeq, Census.Heap.isDict, Call.string_eq_some.mp hs] at hnode

theorem Call.primForm_eq_some {form : Form} (hform : c.primForm = some form) :
    ∃ p, c.world.obj c.value = .atom (.prim p) ∧ form = .prim p := by
  unfold Call.primForm at hform
  split at hform
  · cases hform
    exact ⟨_, ‹_›, rfl⟩
  · cases hform

/-! ### The fast path -/

theorem keyTerm_prims (hh : hasher.hooked = false) {p : Prim} (hobj : c.world.obj c.value = .atom (.prim p)) :
    KeyTerm c (.prim p) := by
  have hbuiltin : c.answers.builtin = true := c.builtin_iff.mpr (by simp [hobj])
  obtain ⟨hanswer, -⟩ := c.answers.answer_builtin hh hbuiltin
  have hbranch : c.branch = some .primitive := by
    have hprim : c.primForm = some (.prim p) := by simp [Call.primForm, hobj]
    simp [Call.branch, hh, hprim]
  cases p with
  | str s => exact .text (by simp [Call.bare, hanswer, Call.string, hobj])
  | _ => exact .prim (by simp [Call.bare, hanswer, Call.string, hobj]) (by simp) (by simp [hbranch, hh])

theorem callBytes_eq (hh : hasher.hooked = false) (p : Prim) :
    callBytes env.toEnv [.prim p] [] = 117 :: env.contentDumps (payloadTerm hasher (.prim p)) := by
  simp only [callBytes, unshared, env.dumps_eq, payloadTerm, hasher.keywords_none hh]
  rfl

/-! ### The payload -/

/-- The value itself is walked: it is no plain data, so its form is no marker's. -/
theorem keyTerm_walked (hh : hasher.hooked = false → c.primForm = none) (hanswer : c.answers.answer = none)
    (hcode : c.answers.code = none)
    (hpart : Census.plainKeyPart env.toCensus c.world.toHeap c.value = .value) {fields : Bool} {t : Term} {s : State ρ}
    (hw : Walks c.world fields [] .empty c.value t s) : KeyTerm c t := by
  have hbranch : c.branch = some .walked := by
    have hnot : ¬(hasher.hooked = false ∧ c.primForm.isSome = true) := by
      rintro ⟨hhooked, hsome⟩
      simp [hh hhooked] at hsome
    simp [Call.branch, hnot, hanswer, hcode, hpart]
  have hmarker : ∀ kind digest, t ≠ markerTerm kind digest := by
    rintro kind digest rfl
    have hw : Walks c.world fields [] .empty c.value (.typed "tuple" ([kind, digest].map .text)) s := hw
    obtain ⟨xs, hxs, hkeys⟩ := hw.marker_inv
    have hprims : ∀ x ∈ xs, ∃ p, c.world.obj x = .atom (.prim p) := by
      intro x hx
      obtain ⟨key, -, hkey⟩ := hkeys.of_mem_left hx
      exact ⟨_, hkey⟩
    rw [Census.plainKeyPart_prims hxs hprims] at hpart
    cases hpart
  by_cases hprim : ∃ p, t = .prim p
  · obtain ⟨p, rfl⟩ := hprim
    obtain ⟨hobj, -⟩ := hw.prim_inv
    have hhooked : hasher.hooked = true := by
      by_contra hfalse
      have := hh (by simpa using hfalse)
      simp [Call.primForm, hobj] at this
    cases p with
    | str s => exact .text (by simp [Call.bare, hanswer, Call.string, hobj])
    | _ => exact .prim (by simp [Call.bare, hanswer, Call.string, hobj]) (by simp) (by simp [hbranch, hhooked])
  · have hbare : c.bare = c.string := by simp [Call.bare, hanswer]
    refine .walked ?_ hbranch (fun p hp => hprim ⟨p, hp⟩) hmarker
    rw [hbare, Option.eq_none_iff_forall_ne_some]
    intro key hkey
    exact hprim ⟨_, (hw.prim_eq (Call.string_eq_some.mp hkey)).1⟩

theorem bare_of_walked_left (hanswer : c.answers.answer = none) {fields : Bool} {t : Term} {s : State ρ}
    (hw : Walks c.world fields [] .empty c.value t s) (hleft : s.left ≠ []) : c.bare = none := by
  have hbare : c.bare = c.string := by simp [Call.bare, hanswer]
  rw [hbare, Option.eq_none_iff_forall_ne_some]
  intro key hkey
  exact hleft (by rw [(hw.prim_eq (Call.string_eq_some.mp hkey)).2]; rfl)

/-- A marker or a string is walked alone. -/
theorem keyed_of_partTerm (hpayload : c.payload = none) {part : Part ρ} {t : Term} (hkey : KeyTerm c t)
    (hpart : ∀ fields t' s, PartTerm c.world fields part t' s ↔ t' = t ∧ s = .empty) {bytes : Bytes}
    (hb : PayloadBytes c part bytes) : Keyed c bytes := by
  rw [(payloadBytes_iff hpayload hpart bytes).mp hb]
  exact .unshared hpayload hkey

theorem partTerm_text {w : World env ρ} {fields : Bool} {key : Str} {t : Term} {s : State ρ} :
    PartTerm w fields (.text key) t s ↔ t = .text key ∧ s = .empty := by
  constructor
  · intro h
    cases h
    exact ⟨rfl, rfl⟩
  · rintro ⟨rfl, rfl⟩
    exact .text key

theorem keyed_of_walks (hh : hasher.hooked = false → c.primForm = none) (hpayload : c.payload = none)
    (hanswer : c.answers.answer = none) (hcode : c.answers.code = none)
    (hpart : Census.plainKeyPart env.toCensus c.world.toHeap c.value = .value) {fields : Bool} {t : Term} {s : State ρ}
    (hterm : PartTerm c.world fields (.value c.value) t s) : Keyed c (c.world.bytes s (payloadTerm hasher t)) := by
  cases hterm with
  | value hw =>
    unfold World.bytes
    split
    · exact .unshared hpayload (keyTerm_walked hh hanswer hcode hpart hw)
    · rename_i hleft
      refine .memo _ hpayload (bare_of_walked_left hanswer hw hleft) ?_
      have hnot : ¬(hasher.hooked = false ∧ c.primForm.isSome = true) := by
        rintro ⟨hhooked, hsome⟩
        simp [hh hhooked] at hsome
      simp [Call.branch, hnot, hanswer, hcode, hpart]

theorem keyed_of_hashPayload {digest : Str} (h : HashPayload c digest) :
    ∃ bytes, Keyed c bytes ∧ digest = env.sha256 bytes := by
  cases h with
  | prims hh hform =>
    obtain ⟨p, hobj, rfl⟩ := Call.primForm_eq_some hform
    exact ⟨_, .unshared (c.payload_none hh) (keyTerm_prims hh hobj), by rw [callBytes_eq hh p]⟩
  | @payload part bytes hh hpart hbytes =>
    refine ⟨bytes, ?_, rfl⟩
    cases hpayload : c.payload with
    | some key =>
      cases hbytes with
      | hooked hkey =>
        rw [hpayload] at hkey
        cases hkey
        exact .hooked hpayload
      | first hnone _ _ => simp [hpayload] at hnone
      | second hnone _ _ _ => simp [hpayload] at hnone
    | none =>
      have hnot : ¬(hasher.hooked = false ∧ c.primForm.isSome = true) := by
        rintro ⟨hhooked, hsome⟩
        simp [hh hhooked] at hsome
      simp only [Call.part, c.answers.argHash_eq] at hpart
      cases hanswer : c.answers.answer with
      | some answer =>
        simp only [hanswer] at hpart
        cases hpart
        exact keyed_of_partTerm hpayload (.text (by simp [Call.bare, hanswer])) (fun _ _ _ => partTerm_text) hbytes
      | none =>
      cases hcode : c.answers.code with
      | some name =>
        obtain ⟨module, qualname⟩ := name
        simp only [hanswer, hcode] at hpart
        have hbare : c.bare = none := by simp [Call.bare, hanswer, Call.string_of_code hcode]
        have hbranch : c.branch = some .code := by simp [Call.branch, hnot, hanswer, hcode]
        split at hpart
        · cases hpart
          exact keyed_of_partTerm hpayload (.code hbranch hbare hanswer hcode ‹_›) (fun _ _ _ => partTerm_marker) hbytes
        · cases hpart
      | none =>
        simp only [hanswer, hcode] at hpart
        split at hpart
        · rename_i hmarker
          cases hpart
          have hbare : c.bare = none := by simp [Call.bare, hanswer, Call.string_of_marker hmarker]
          have hbranch : c.branch = some .plain := by simp [Call.branch, hnot, hanswer, hcode, hmarker]
          exact keyed_of_partTerm hpayload (.plain hbranch hbare hanswer hmarker) (fun _ _ _ => partTerm_marker) hbytes
        · rename_i hvalue
          cases hpart
          cases hbytes with
          | hooked hkey => simp [hpayload] at hkey
          | first _ hterm _ => exact keyed_of_walks hh hpayload hanswer hcode hvalue hterm
          | second _ _ _ hterm => exact keyed_of_walks hh hpayload hanswer hcode hvalue hterm
        · cases hpart

end

/-! ## The forms of a call of primitives -/

section

variable {env : Canon.Env} {ρ : Type} {h : Canon.Heap env ρ}

/-! ### Primitives are their own forms -/

theorem primOf_eq_some {x : ρ} {f : Form} (hx : primOf h x = some f) : ∃ p, h.obj x = .prim p ∧ f = .prim p := by
  unfold primOf at hx
  split at hx
  · cases hx
    exact ⟨_, ‹_›, rfl⟩
  · cases hx

theorem primOf_isPrim {x : ρ} (hx : (h.obj x).isPrim = true) : ∃ f, primOf h x = some f := by
  obtain ⟨p, hp⟩ := eq_prim_of_isPrim hx
  exact ⟨.prim p, by simp [primOf, hp]⟩

theorem strOf_eq_some {x : ρ} {f : Form} (hx : strOf h x = some f) : primOf h x = some f := by
  unfold strOf at hx
  split at hx
  · rename_i s hs
    cases hx
    simp [primOf, hs]
  · cases hx

variable [DecidableEq ρ]

theorem Forms.of_primOf {s s' : List ρ} {x : ρ} {f g : Form} (hx : primOf h x = some f) (hf : Forms h s x g s') :
    g = f ∧ s' = s := by
  obtain ⟨p, hp, rfl⟩ := primOf_eq_some hx
  exact hf.prim_inv hp

theorem FormsAll.of_primOf {s s' xs : List ρ} {fs gs : List Form} (hx : xs.mapM (primOf h) = some fs)
    (hf : FormsAll h s xs gs s') : gs = fs ∧ s' = s := by
  induction xs generalizing fs gs s with
  | nil =>
    cases hf
    simp at hx
    exact ⟨hx.symm, rfl⟩
  | cons x xs ih =>
    simp only [List.mapM_cons, Option.bind_eq_bind, Option.bind_eq_some_iff, Option.pure_def, Option.some.injEq] at hx
    obtain ⟨f, hx, fs', hxs, rfl⟩ := hx
    cases hf with
    | cons hf hfs =>
      obtain ⟨rfl, rfl⟩ := Forms.of_primOf hx hf
      obtain ⟨rfl, rfl⟩ := ih hxs hfs
      exact ⟨rfl, rfl⟩

/-! ### The keywords -/

theorem FormsAll.of_kwargForm {s s' : List ρ} {kwargs : List (ρ × ρ)} {fs : List (Form × Form)} {gs : List Form}
    (hk : kwargs.mapM (kwargForm h) = some fs) (hf : FormsAll h s (kwargs.flatMap fun p => [p.1, p.2]) gs s') :
    Form.pairs gs = (fs.map fun p => .tuple [p.1, p.2]) ∧ s' = s := by
  induction kwargs generalizing fs gs s with
  | nil =>
    cases hf
    simp at hk
    subst hk
    exact ⟨rfl, rfl⟩
  | cons p kwargs ih =>
    simp only [List.mapM_cons, kwargForm, Option.bind_eq_bind, Option.bind_eq_some_iff, Option.pure_def,
      Option.some.injEq] at hk
    obtain ⟨_, ⟨value, hvalue, key, hkey, rfl⟩, fs', hkwargs, rfl⟩ := hk
    cases hf with
    | cons hf hfs =>
    cases hfs with
    | cons hg hfs =>
      obtain ⟨rfl, rfl⟩ := Forms.of_primOf (strOf_eq_some hkey) hf
      obtain ⟨rfl, rfl⟩ := Forms.of_primOf hvalue hg
      obtain ⟨hpairs, rfl⟩ := ih hkwargs hfs
      exact ⟨by simp [Form.pairs, hpairs], rfl⟩

theorem mapM_isSome {α β : Type} {f : α → Option β} {xs : List α} (hx : ∀ x ∈ xs, ∃ y, f x = some y) :
    ∃ ys, xs.mapM f = some ys := by
  induction xs with
  | nil => exact ⟨[], rfl⟩
  | cons x xs ih =>
    obtain ⟨y, hy⟩ := hx x (by simp)
    obtain ⟨ys, hys⟩ := ih fun z hz => hx z (List.mem_cons_of_mem _ hz)
    exact ⟨y :: ys, by simp [hy, hys]⟩

/-! ### The walk of a call -/

/-- The arguments and the keywords are primitives: the form is the one `_call_bytes` writes. -/
theorem Forms.of_call {s s' : List ρ} {v a k : ρ} {args : List ρ} {kwargs : List (ρ × ρ)} {argForms : List Form}
    {kwargForms : List (Form × Form)} {f : Form} (hv : h.obj v = .tuple [a, k]) (ha : h.obj a = .tuple args)
    (hk : h.obj k = .dict kwargs) (hargs : args.mapM (primOf h) = some argForms)
    (hkwargs : kwargs.mapM (kwargForm h) = some kwargForms) (hs : k ∉ s) (hf : Forms h s v f s') :
    f = callForm argForms kwargForms := by
  have htuple : ∀ {x : ρ} {xs : List ρ}, h.obj x = .tuple xs → (h.obj x).isMutable = false := by
    intro x xs hx
    simp [hx, Obj.isMutable, Obj.isMutableContainer]
  rcases hf.container_inv (by simp [hv, Obj.isContainer]) with ⟨hm, -⟩ | ⟨-, fs, rfl, hall⟩
  · simp [htuple hv] at hm
  simp only [hv, Obj.parts, meet, Obj.isMutableContainer] at hall
  cases hall with
  | cons hfa hall =>
  cases hall with
  | cons hfk hall =>
  cases hall
  rcases hfa.container_inv (by simp [ha, Obj.isContainer]) with ⟨hm, -⟩ | ⟨-, fs, rfl, hall⟩
  · simp [htuple ha] at hm
  simp only [ha, Obj.parts, meet, Obj.isMutableContainer] at hall
  obtain ⟨rfl, rfl⟩ := FormsAll.of_primOf hargs hall
  rcases hfk.container_inv (by simp [hk, Obj.isContainer]) with ⟨-, hmem, -⟩ | ⟨-, fs', rfl, hall⟩
  · exact absurd hmem (by simpa using hs)
  simp only [hk, Obj.parts] at hall
  obtain ⟨hpairs, -⟩ := FormsAll.of_kwargForm hkwargs hall
  simp [hv, ha, hk, assemble, callForm, hpairs]

omit [DecidableEq ρ] in
theorem acc_of_prims {x : ρ} (hx : ∀ y ∈ (h.obj x).parts, (h.obj y).isPrim = true) : Acc h.Part x :=
  .intro x fun y hy => acc_of_no_parts (parts_of_isPrim (hx y hy))

omit [DecidableEq ρ] in
theorem acc_of_call {v a k : ρ} {args : List ρ} {kwargs : List (ρ × ρ)} (hv : h.obj v = .tuple [a, k])
    (ha : h.obj a = .tuple args) (hk : h.obj k = .dict kwargs) (hargs : ∀ x ∈ args, (h.obj x).isPrim = true)
    (hkwargs : ∀ p ∈ kwargs, (h.obj p.1).isPrim = true ∧ (h.obj p.2).isPrim = true) : Acc h.Part v := by
  refine .intro v fun y hy => ?_
  simp only [Canon.Heap.Part, hv, Obj.parts, List.mem_cons, List.not_mem_nil, or_false] at hy
  rcases hy with rfl | rfl
  · exact acc_of_prims (by simpa [ha, Obj.parts] using hargs)
  · apply acc_of_prims
    intro z hz
    simp only [hk, Obj.parts, List.mem_flatMap, List.mem_cons, List.not_mem_nil, or_false] at hz
    obtain ⟨p, hp, rfl | rfl⟩ := hz
    · exact (hkwargs p hp).1
    · exact (hkwargs p hp).2

/-- A value that is not cyclic has one form, and the walk ends with it. -/
theorem canonicalBytes_iff [Fintype ρ] {memo : Memo ρ} (hm : Warm h memo) {v : ρ} (hv : Acc h.Part v) {form : Form}
    (hform : ∀ f s', Forms h [] v f s' → f = form) (bytes : Bytes) :
    (∃ memo', CanonicalBytes h memo v bytes memo') ↔ bytes = unshared env form := by
  rcases stableKeyRepr_ends hm.remembers v with ⟨f, s', memo', hf, -, -, hends⟩ | ⟨hc, -⟩
  · obtain rfl := hform f s' hf
    constructor
    · rintro ⟨_, f', hf', rfl⟩
      cases (stableKeyRepr_unique hf' hends).1
      rfl
    · rintro rfl
      exact ⟨memo', f, hends, rfl⟩
  · exact absurd hc (not_cyclic_of_acc hv)

/-! ### Numbers -/

omit [DecidableEq ρ] in
theorem mapM_npOf_of {xs : List ρ} (hx : ∀ x ∈ xs, ∃ n, h.obj x = .np n) : ∃ ns, xs.mapM (npOf h) = some ns :=
  mapM_isSome fun x hxs => by
    obtain ⟨n, hn⟩ := hx x hxs
    exact ⟨n, by simp [npOf, hn]⟩

theorem enterForm_np {x : ρ} {n : Np env} (hx : h.obj x = .np n) : EnterForm h x (.np n.char n.raw) := by
  intro m hm
  simp [step, hm, hx]

end

end Cash.Payload
