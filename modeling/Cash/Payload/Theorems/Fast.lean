import Cash.Payload.Lemmas.Walk
import Cash.Payload.Lemmas.Fast
import Mathlib.Data.Fintype.Prod

/-!
# The branches of the payload and its shortcuts
-/

namespace Cash.Payload

open Py Canon

/-! ## Which branches key alike -/

/-! ### Forms of two branches -/

theorem payloadTerm_inj {hasher : Hasher} {t t' : Term} (h : payloadTerm hasher t = payloadTerm hasher t') : t = t' := by
  simpa [payloadTerm, Term.typed] using h

theorem payloadTerm_ne_hashed (hasher : Hasher) (t : Term) (key : Str) : payloadTerm hasher t ≠ .hashed key := by
  simp [payloadTerm, Term.typed, Term.hashed]

theorem markerTerm_inj {kind digest kind' digest' : Str} (h : markerTerm kind digest = markerTerm kind' digest') :
    kind = kind' ∧ digest = digest' := by
  simpa [markerTerm, Term.typed, Term.text] using h

section Stands

variable {env : Env} {hasher : Hasher} {ρ σ : Type} [DecidableEq ρ] [DecidableEq σ] {c : Call env hasher ρ}
  {c' : Call env hasher σ} {t t' : Term}

/-- The tuple that stands for a function. -/
def codeValue (env : Env) (module qualname : Option Str) : List (Census.Atom env.toEnv) :=
  [.prim (.str (str "__cash_code_value__")), .prim (nameOf module), .prim (nameOf qualname)]

theorem plainKeyPart_codeValue (env : Env) (module qualname : Option Str) :
    Census.plainKeyPart env.toCensus (codeValueHeap env module qualname) 0 = .marker (str "__cash_plain__")
      (env.sha256 (env.pickle (.tuple ((codeValue env module qualname).map .atom)))) := by
  have hobj : (codeValueHeap env module qualname).obj 0 = .tuple [1, 2, 3] := rfl
  rw [Census.plainKeyPart_prims hobj]
  · rfl
  · intro x hx
    simp only [List.mem_cons, List.not_mem_nil, or_false] at hx
    rcases hx with rfl | rfl | rfl
    · exact ⟨_, rfl⟩
    · exact ⟨_, rfl⟩
    · exact ⟨_, rfl⟩

theorem plainKeyPart_of_codeValue {module qualname : Option Str} {x y z : ρ}
    (hv : c.world.obj c.value = .tuple [x, y, z])
    (hx : c.world.obj x = .atom (.prim (.str (Py.str "__cash_code_value__"))))
    (hy : c.world.obj y = .atom (.prim (nameOf module))) (hz : c.world.obj z = .atom (.prim (nameOf qualname))) :
    Census.plainKeyPart env.toCensus c.world.toHeap c.value = .marker (str "__cash_plain__")
      (env.sha256 (env.pickle (.tuple ((codeValue env module qualname).map .atom)))) := by
  rw [Census.plainKeyPart_prims hv]
  · simp [codeValue, Census.maxLevels, Census.data_atom hx, Census.data_atom hy, Census.data_atom hz]
  · intro u hu
    simp only [List.mem_cons, List.not_mem_nil, or_false] at hu
    rcases hu with rfl | rfl | rfl
    · exact ⟨_, hx⟩
    · exact ⟨_, hy⟩
    · exact ⟨_, hz⟩

/-- Markers of a function's name and of plain data are equal for the tuple that stands for the function. -/
theorem standsFor_of_marker (hsha : Function.Injective env.sha256) (hpickle : Function.Injective env.pickle)
    {module qualname : Option Str} {kind digest : Str} (hanswer : c.answers.answer = none)
    (hcode : c.answers.code = some (module, qualname))
    (hmarker : Census.plainKeyPart env.toCensus (codeValueHeap env module qualname) 0 = .marker kind digest)
    (hanswer' : c'.answers.answer = none)
    (hmarker' : Census.plainKeyPart env.toCensus c'.world.toHeap c'.value = .marker kind digest) : c.StandsFor c' := by
  rw [plainKeyPart_codeValue] at hmarker
  obtain ⟨rfl, rfl⟩ := Census.KeyPart.marker.inj hmarker
  have hdata := hpickle (hsha (Census.plainKeyPart_plain hmarker'))
  obtain ⟨xs, hxs, hatoms⟩ := Census.tuple_of_data hdata.symm
  simp only [codeValue, List.forall₂_cons_right_iff, List.forall₂_nil_right_iff] at hatoms
  obtain ⟨x, _, hx, ⟨y, _, hy, ⟨z, _, hz, rfl, rfl⟩, rfl⟩, rfl⟩ := hatoms
  exact ⟨module, qualname, hanswer, hcode, hanswer', x, y, z, hxs, hx, hy, hz⟩

theorem branch_of_code {name : Option Str × Option Str} (hanswer : c.answers.answer = none)
    (hcode : c.answers.code = some name) : c.branch = some .code ∧ c.bare = none := by
  have hprim : c.primForm = none := by
    rw [Option.eq_none_iff_forall_ne_some]
    intro form hform
    obtain ⟨p, hp, -⟩ := Call.primForm_eq_some hform
    have hbuiltin : c.answers.builtin = true := c.builtin_iff.mpr (by simp [hp])
    simp [(c.answers.builtin_none hbuiltin).2.2.2.2] at hcode
  exact ⟨by simp [Call.branch, hprim, hanswer, hcode], by simp [Call.bare, hanswer, Call.string_of_code hcode]⟩

theorem branch_of_standsFor (hstands : c.StandsFor c') :
    (c.branch = some .code ∧ c.bare = none) ∧ c'.branch = some .plain ∧ c'.bare = none := by
  obtain ⟨module, qualname, hanswer, hcode, hanswer', x, y, z, hv, hx, hy, hz⟩ := hstands
  have hbuiltin : c'.answers.builtin = true := c'.builtin_iff.mpr (by simp [hv])
  have hcode' : c'.answers.code = none := (c'.answers.builtin_none hbuiltin).2.2.2.2
  have hpart := plainKeyPart_of_codeValue hv hx hy hz
  refine ⟨branch_of_code hanswer hcode, ?_, ?_⟩
  · simp [Call.branch, Call.primForm, hv, hanswer', hcode', hpart]
  · simp [Call.bare, hanswer', Call.string, hv]

theorem keyTerm_of_code {module qualname : Option Str} (hbranch : c.branch = some .code) (hbare : c.bare = none)
    (hcode : c.answers.code = some (module, qualname)) (ht : KeyTerm c t) :
    t = markerTerm (str "__cash_plain__") (env.sha256 (env.pickle (.tuple ((codeValue env module qualname).map .atom)))) := by
  cases ht with
  | text hs => simp [hbare] at hs
  | plain hb => simp [hbranch] at hb
  | prim _ _ hb =>
    rw [hbranch] at hb
    split at hb <;> simp at hb
  | walked _ hb => simp [hbranch] at hb
  | code _ _ _ hname hmarker =>
    rw [hcode] at hname
    cases hname
    rw [plainKeyPart_codeValue] at hmarker
    obtain ⟨rfl, rfl⟩ := Census.KeyPart.marker.inj hmarker
    rfl

theorem keyTerm_of_plain {kind digest : Str} (hbranch : c.branch = some .plain) (hbare : c.bare = none)
    (hpart : Census.plainKeyPart env.toCensus c.world.toHeap c.value = .marker kind digest) (ht : KeyTerm c t) :
    t = markerTerm kind digest := by
  cases ht with
  | text hs => simp [hbare] at hs
  | code hb => simp [hbranch] at hb
  | prim _ _ hb =>
    rw [hbranch] at hb
    split at hb <;> simp at hb
  | walked _ hb => simp [hbranch] at hb
  | plain _ _ _ hmarker =>
    rw [hpart] at hmarker
    obtain ⟨rfl, rfl⟩ := Census.KeyPart.marker.inj hmarker
    rfl

theorem keyTerm_eq_of_standsFor (hstands : c.StandsFor c') (ht : KeyTerm c t) (ht' : KeyTerm c' t') : t = t' := by
  obtain ⟨⟨hbranch, hbare⟩, hbranch', hbare'⟩ := branch_of_standsFor hstands
  obtain ⟨module, qualname, hanswer, hcode, hanswer', x, y, z, hv, hx, hy, hz⟩ := hstands
  rw [keyTerm_of_code hbranch hbare hcode ht,
    keyTerm_of_plain hbranch' hbare' (plainKeyPart_of_codeValue hv hx hy hz) ht']

theorem keyTerm_of_bare {s : Str} (hbare : c.bare = some s) (ht : KeyTerm c t) : t = .text s := by
  cases ht with
  | text hs =>
    rw [hbare] at hs
    cases hs
    rfl
  | code _ hnone => simp [hbare] at hnone
  | plain _ hnone => simp [hbare] at hnone
  | prim hnone => simp [hbare] at hnone
  | walked hnone => simp [hbare] at hnone

theorem clash_of_keyTerm_eq (hsha : Function.Injective env.sha256) (hpickle : Function.Injective env.pickle)
    (hne : c.branch ≠ c'.branch) (ht : KeyTerm c t) (ht' : KeyTerm c' t) :
    (∃ s, c.bare = some s ∧ c'.bare = some s) ∨ c.StandsFor c' ∨ c'.StandsFor c := by
  cases ht with
  | @text s hs =>
    generalize hu : Term.text s = u at ht'
    cases ht' with
    | text hs' =>
      cases hu
      exact .inl ⟨s, hs, hs'⟩
    | prim _ hstr =>
      cases hu
      exact absurd rfl (hstr s)
    | walked _ _ hprim => exact absurd hu.symm (hprim _)
    | code => cases hu
    | plain => cases hu
  | @code module qualname kind digest hb hbare hanswer hcode hmarker =>
    generalize hu : markerTerm kind digest = u at ht'
    cases ht' with
    | plain _ _ hanswer' hmarker' =>
      obtain ⟨rfl, rfl⟩ := markerTerm_inj hu
      exact .inr (.inl (standsFor_of_marker hsha hpickle hanswer hcode hmarker hanswer' hmarker'))
    | code hb' => exact absurd (hb.trans hb'.symm) hne
    | walked _ _ _ hmarker' => exact absurd hu.symm (hmarker' _ _)
    | text => cases hu
    | prim => cases hu
  | @plain kind digest hb hbare hanswer hmarker =>
    generalize hu : markerTerm kind digest = u at ht'
    cases ht' with
    | code _ _ hanswer' hcode' hmarker' =>
      obtain ⟨rfl, rfl⟩ := markerTerm_inj hu
      exact .inr (.inr (standsFor_of_marker hsha hpickle hanswer' hcode' hmarker' hanswer hmarker))
    | plain hb' => exact absurd (hb.trans hb'.symm) hne
    | walked _ _ _ hmarker' => exact absurd hu.symm (hmarker' _ _)
    | text => cases hu
    | prim => cases hu
  | @prim p _ hstr hb =>
    generalize hu : Term.prim p = u at ht'
    cases ht' with
    | text =>
      cases hu
      exact absurd rfl (hstr _)
    | prim _ _ hb' => exact absurd (hb.trans hb'.symm) hne
    | walked _ _ hprim => exact absurd hu.symm (hprim _)
    | code => cases hu
    | plain => cases hu
  | walked _ hb hprim hmarker =>
    cases ht' with
    | text => exact absurd rfl (hprim _)
    | prim => exact absurd rfl (hprim _)
    | code => exact absurd rfl (hmarker _ _)
    | plain => exact absurd rfl (hmarker _ _)
    | walked _ hb' => exact absurd (hb.trans hb'.symm) hne

/-! ### Digests of two branches -/

/-- A value walked with an object left to pickle stands for no argument of another branch. -/
theorem not_clash_of_walked (hnone : c.payload = none) (hbare : c.bare = none) (hwalked : c.branch = some .walked) :
    ¬c.Clash c' ∧ ¬c'.Clash c := by
  have hstands : ¬c.StandsFor c' ∧ ¬c'.StandsFor c := by
    constructor
    · intro hstands
      have hcode := (branch_of_standsFor hstands).1.1
      simp [hwalked] at hcode
    · intro hstands
      have hplain := (branch_of_standsFor hstands).2.1
      simp [hwalked] at hplain
  cases hnone' : c'.payload with
  | some key => simp [Call.Clash, hnone, hnone']
  | none => simp [Call.Clash, hnone, hnone', hbare, hstands]

theorem keyed_eq_iff (hsha : Function.Injective env.sha256) (hdumps : Function.Injective env.contentDumps)
    (hpickle : Function.Injective env.pickle) (hne : c.branch ≠ c'.branch) {bytes bytes' : Bytes}
    (h : Keyed c bytes) (h' : Keyed c' bytes') : bytes = bytes' ↔ c.Clash c' := by
  cases h with
  | hooked hkey =>
    cases h' with
    | hooked hkey' => simp [Call.Clash, hkey, hkey', hdumps.eq_iff, Term.hashed, Term.text]
    | unshared hnone =>
      simp only [Call.Clash, hkey, hnone, List.cons.injEq, true_and, hdumps.eq_iff, iff_false]
      exact fun heq => payloadTerm_ne_hashed _ _ _ heq.symm
    | memo _ hnone => simp [Call.Clash, hkey, hnone]
  | unshared hnone ht =>
    cases h' with
    | hooked hkey =>
      simp only [Call.Clash, hkey, hnone, List.cons.injEq, true_and, hdumps.eq_iff, iff_false]
      exact payloadTerm_ne_hashed _ _ _
    | unshared hnone' ht' =>
      simp only [Call.Clash, hnone, hnone', List.cons.injEq, true_and, hdumps.eq_iff]
      constructor
      · intro heq
        obtain rfl := payloadTerm_inj heq
        exact clash_of_keyTerm_eq hsha hpickle hne ht ht'
      · rintro (⟨s, hs, hs'⟩ | hstands | hstands)
        · rw [keyTerm_of_bare hs ht, keyTerm_of_bare hs' ht']
        · rw [keyTerm_eq_of_standsFor hstands ht ht']
        · rw [keyTerm_eq_of_standsFor hstands ht' ht]
    | memo _ hnone' hbare hwalked => exact iff_of_false (by simp) (not_clash_of_walked hnone' hbare hwalked).2
  | memo _ hnone hbare hwalked =>
    cases h' with
    | memo _ _ _ hwalked' => exact absurd (hwalked.trans hwalked'.symm) hne
    | hooked => exact iff_of_false (by simp) (not_clash_of_walked hnone hbare hwalked).1
    | unshared => exact iff_of_false (by simp) (not_clash_of_walked hnone hbare hwalked).1

/-- Arguments that take different branches have different digests, unless they stand for each other. -/
theorem hashPayload_ne_iff (hsha : Function.Injective env.sha256) (hdumps : Function.Injective env.contentDumps)
    (hpickle : Function.Injective env.pickle) (hne : c.branch ≠ c'.branch) {digest digest' : Str}
    (h : HashPayload c digest) (h' : HashPayload c' digest') : digest ≠ digest' ↔ ¬c.Clash c' := by
  obtain ⟨bytes, hbytes, rfl⟩ := keyed_of_hashPayload h
  obtain ⟨bytes', hbytes', rfl⟩ := keyed_of_hashPayload h'
  rw [not_iff_not, hsha.eq_iff]
  exact keyed_eq_iff hsha hdumps hpickle hne hbytes hbytes'

end Stands

/-! ### An array and a string -/

def noHasher : Hasher := ⟨false, false, false, false, none, by simp⟩

/-- A world of one object. -/
def single (o : Census.Obj unaryForms (Fin 1)) (other : Other (Fin 1)) : World unaryEnv (Fin 1) where
  toHeap := .alone fun _ => o
  other _ := other
  hook _ := none
  zoned _ := false
  keyDumps _ _ _ := []

def unanswered (builtin : Bool) : Argument noHasher where
  builtin := builtin
  cashKey := none
  registered := false
  lineage := none
  frozen := none
  memo := none
  override := none
  carried := none
  frame := none
  content := none
  typeHash := none
  code := none
  builtin_none := by simp
  frozen_tables := by simp
  override_table := by simp
  typeHash_table := by simp

/-- An array whose content has the digest. -/
def arrayCall (digest : Str) : Call unaryEnv noHasher (Fin 1) where
  world := single (.atom (.other 0)) (.instance
    { class_ := ⟨str "numpy", str "ndarray"⟩, content := some (str "numpy", some digest), fields := none
      holdsSet := false, holdsContent := false, pickledState := fun _ => False, byName := false })
  value := 0
  answers := { unanswered false with content := some digest, builtin_none := by simp [unanswered] }
  builtin_iff := by
    simp only [unanswered, Bool.false_eq_true, false_iff]
    exact fun h => h.2 0 rfl
  payload := none
  payload_table := by simp

def stringCall (s : Str) : Call unaryEnv noHasher (Fin 1) where
  world := single (.atom (.prim (.str s))) (.date .nat)
  value := 0
  answers := unanswered true
  builtin_iff := iff_of_true rfl ⟨fun _ h => (by cases h), fun _ h => (by cases h)⟩
  payload := none
  payload_table := by simp

/-- `f([{"a": 1}, (1, "a")])`, of one string and one number. -/
def nestedCall : Call unaryEnv noHasher (Fin 5) where
  world :=
    { toHeap := .alone fun
        | 0 => .list [1, 2]
        | 1 => .dict [(3, 4)]
        | 2 => .tuple [4, 3]
        | 3 => .atom (.prim (.str (str "a")))
        | 4 => .atom (.prim (.int 1))
      other := fun _ => .date .nat
      hook := fun _ => none
      zoned := fun _ => false
      keyDumps := fun _ _ _ => [] }
  value := 0
  answers := unanswered true
  builtin_iff := iff_of_true rfl ⟨fun _ h => (by cases h), fun _ h => (by cases h)⟩
  payload := none
  payload_table := by simp

/-- The digest of a bare string. -/
def stringDigest (s : Str) : Str := unaryEnv.sha256 (117 :: unaryEnv.contentDumps (payloadTerm noHasher (.text s)))

theorem hashPayload_arrayCall (digest : Str) : HashPayload (arrayCall digest) (stringDigest digest) := by
  have hpart : (arrayCall digest).part = some (.text digest) := rfl
  refine .payload (fun _ => rfl) hpart ?_
  exact (payloadBytes_iff rfl (fun _ _ _ => partTerm_text) _).mpr rfl

theorem hashPayload_stringCall (s : Str) : HashPayload (stringCall s) (stringDigest s) := by
  have hprims : HashPayload (stringCall s) (unaryEnv.sha256 (callBytes unaryEnv.toEnv [.prim (.str s)] [])) :=
    .prims rfl rfl
  rw [callBytes_eq (show noHasher.hooked = false from rfl)] at hprims
  exact hprims

theorem hashPayload_ne_iff_array : stringDigest (str "a") ≠ stringDigest (str "b") :=
  (hashPayload_ne_iff sha256_injective contentDumps_injective
    pickle_injective (by decide) (hashPayload_arrayCall _) (hashPayload_stringCall _)).mpr (by
      rintro (⟨s, hs, hs'⟩ | ⟨_, _, _, hcode, _⟩ | ⟨_, _, _, hcode, _⟩)
      · have hs : some (str "a") = some s := hs
        have hs' : some (str "b") = some s := hs'
        exact absurd (hs.trans hs'.symm) (by decide)
      · exact absurd hcode (by simp [arrayCall, unanswered])
      · exact absurd hcode (by simp [stringCall, unanswered]))

/-- A string keys like the array whose content has it as its digest. -/
theorem array_keys_like_string :
    (Function.Injective unaryEnv.sha256 ∧ Function.Injective unaryEnv.contentDumps ∧
      Function.Injective unaryEnv.pickle) ∧
    (arrayCall (str "a")).branch = some .content ∧ (stringCall (str "a")).branch = some .primitive ∧
    ∃ digest, HashPayload (arrayCall (str "a")) digest ∧ HashPayload (stringCall (str "a")) digest :=
  ⟨⟨sha256_injective, contentDumps_injective, pickle_injective⟩, rfl, rfl, _, hashPayload_arrayCall _,
    hashPayload_stringCall _⟩

/-! ## The shortcuts write what the walk writes -/

/-! ### A call of primitives -/

section Calls

variable {env : Canon.Env} {ρ : Type} [DecidableEq ρ] {h : Canon.Heap env ρ}

omit [DecidableEq ρ] in
theorem kwargForm_isSome {p : ρ × ρ} (hkey : ∃ s, h.obj p.1 = .prim (.str s)) (hvalue : (h.obj p.2).isPrim = true) :
    ∃ f, kwargForm h p = some f := by
  obtain ⟨s, hs⟩ := hkey
  obtain ⟨f, hf⟩ := primOf_isPrim hvalue
  exact ⟨(.prim (.str s), f), by simp [kwargForm, strOf, hs, hf]⟩

theorem canonicalCallBytes_eq [Fintype ρ] {memo : Memo ρ} (hm : Warm h memo) {v a k : ρ} {args : List ρ}
    {kwargs : List (ρ × ρ)} (hv : h.obj v = .tuple [a, k]) (ha : h.obj a = .tuple args) (hk : h.obj k = .dict kwargs)
    (hargs : ∀ x ∈ args, (h.obj x).isPrim = true)
    (hkwargs : ∀ p ∈ kwargs, (∃ s, h.obj p.1 = .prim (.str s)) ∧ (h.obj p.2).isPrim = true) :
    ∃ bytes, canonicalCallBytes h args kwargs = some bytes ∧
      ∀ bytes', (∃ memo', CanonicalBytes h memo v bytes' memo') ↔ bytes' = bytes := by
  obtain ⟨argForms, hargForms⟩ := mapM_isSome fun x hx => primOf_isPrim (hargs x hx)
  obtain ⟨kwargForms, hkwargForms⟩ := mapM_isSome fun p hp => kwargForm_isSome (hkwargs p hp).1 (hkwargs p hp).2
  have hacc : Acc h.Part v := by
    refine acc_of_call hv ha hk hargs fun p hp => ⟨?_, (hkwargs p hp).2⟩
    obtain ⟨s, hs⟩ := (hkwargs p hp).1
    simp [hs, Obj.isPrim]
  have hform : ∀ f s', Forms h [] v f s' → f = callForm argForms kwargForms := fun f s' hf =>
    Forms.of_call hv ha hk hargForms hkwargForms (by simp) hf
  refine ⟨callBytes env argForms kwargForms, ?_, canonicalBytes_iff hm hacc hform⟩
  simp [canonicalCallBytes, hargForms, hkwargForms]

end Calls

/-! ### Numbers of one type -/

theorem numbers_eq {env : Canon.Env} {ρ : Type} [DecidableEq ρ] {h : Canon.Heap env ρ} {x : ρ} {xs : List ρ} {char : Nat}
    (hx : h.obj x = .list xs ∨ h.obj x = .tuple xs) (hlen : recordsFrom ≤ xs.length)
    (hxs : ∀ y ∈ xs, ∃ n, h.obj y = .np n ∧ n.char = char) :
    ∃ forms, numbers h x = some forms ∧ numbersForm h xs = some forms ∧ List.Forall₂ (EnterForm h) xs forms := by
  obtain ⟨ns, hns⟩ := mapM_npOf_of fun y hy => (hxs y hy).imp fun _ => And.left
  have hobjs := mapM_npOf hns
  have hchar : ∀ n ∈ ns, n.char = char := by
    intro n hn
    obtain ⟨y, hy, hobj⟩ := hobjs.of_mem_right hn
    obtain ⟨n', hobj', hchar⟩ := hxs y hy
    rw [hobj] at hobj'
    cases hobj'
    exact hchar
  have hforms : numbersForm h xs = some (ns.map fun n => .np n.char n.raw) := by
    cases ns with
    | nil =>
      cases hobjs
      simp [recordsFrom] at hlen
    | cons n ns =>
      have hn := hchar n (by simp)
      have hall : ns.all (·.char = n.char) = true := by
        simp only [List.all_eq_true, decide_eq_true_eq]
        intro m hm
        rw [hchar m (List.mem_cons_of_mem _ hm), hn]
      simp only [numbersForm, hns, hall, if_true, Option.some.injEq]
      rw [slices_raws (n :: ns) fun m hm => by rw [hchar m hm, hn], List.map_map]
      exact List.map_congr_left fun m hm => by simp [hchar m hm, hn]
  refine ⟨_, ?_, hforms, ?_⟩
  · rcases hx with hx | hx <;> simp [numbers, hx, hlen, hforms]
  · clear hns hchar hforms hxs hlen hx
    induction hobjs with
    | nil => exact .nil
    | cons hn _ ih => exact .cons (enterForm_np hn) ih

/-! ### One argument of plain data -/

section Plain

variable {env : Env} {hasher : Hasher} {ρ : Type} [DecidableEq ρ]

/-- `plain_value_digest` is `hash_payload`, for plain and JSON-like data with nothing registered. -/
theorem plainValueDigest_iff {c : Call env hasher ρ} (hh : hasher.hooked = false)
    (hplain : Census.plainCensus env.toCensus c.world.toHeap c.value ≠ none) (digest : Str) :
    plainValueDigest hasher c.world c.value = some digest ↔ HashPayload c digest := by
  have hnode := isNode_of_plainCensus hplain
  have hkind : ∀ a, c.world.obj c.value ≠ .atom a := by
    intro a ha
    simp [Census.Heap.isNode, Census.Heap.isSeq, Census.Heap.isDict, ha] at hnode
  have hbuiltin : c.answers.builtin = true := c.builtin_iff.mpr ⟨fun _ => hkind _, fun _ => hkind _⟩
  have hprim : c.primForm = none := by
    unfold Call.primForm
    split
    · exact absurd ‹_› (hkind _)
    · rfl
  have hitself := Argument.argHash_builtin hh hbuiltin
  have hvalue := plainKeyPart_ne_value hplain
  have hpayload := c.payload_none hh
  simp only [plainValueDigest, hh, hnode, Bool.false_eq_true, if_false, Bool.not_true]
  cases hpart : Census.plainKeyPart env.toCensus c.world.toHeap c.value with
  | value => exact absurd hpart hvalue
  | overflowError =>
    have hc : c.part = none := by simp [Call.part, hitself, hpart]
    refine iff_of_false (by simp) fun h => ?_
    cases h with
    | prims _ hp => simp [hprim] at hp
    | payload _ hp _ => simp [hc] at hp
  | marker kind content =>
    have hc : c.part = some (.marker kind content) := by simp [Call.part, hitself, hpart]
    have hterm : ∀ fields t (s : State ρ), PartTerm c.world fields (.marker kind content) t s ↔
        t = .typed "tuple" [.text kind, .text content] ∧ s = .empty := fun _ _ _ => partTerm_marker
    have hbytes := payloadBytes_iff hpayload hterm
    simp only [canonicalMarkerBytes_eq hh, Option.some.injEq]
    constructor
    · rintro rfl
      exact .payload (fun _ => hprim) hc ((hbytes _).mpr rfl)
    · intro h
      cases h with
      | prims _ hp => simp [hprim] at hp
      | payload _ hp hb =>
        rw [hc] at hp
        cases hp
        rw [(hbytes _).mp hb]

end Plain

/-! ### All three -/

/-- The shortcuts agree with the walk: for a call of primitives, for a run of numbers of one type, and for one argument
of plain data. -/
theorem shortcuts_agree :
    (∀ {env : Canon.Env} {ρ : Type} [DecidableEq ρ] [Fintype ρ] {h : Canon.Heap env ρ} {memo : Memo ρ} {v a k : ρ}
      {args : List ρ} {kwargs : List (ρ × ρ)}, Warm h memo → h.obj v = .tuple [a, k] → h.obj a = .tuple args →
      h.obj k = .dict kwargs → (∀ x ∈ args, (h.obj x).isPrim = true) →
      (∀ p ∈ kwargs, (∃ s, h.obj p.1 = .prim (.str s)) ∧ (h.obj p.2).isPrim = true) →
      ∃ bytes, canonicalCallBytes h args kwargs = some bytes ∧
        ∀ bytes', (∃ memo', CanonicalBytes h memo v bytes' memo') ↔ bytes' = bytes) ∧
    (∀ {env : Canon.Env} {ρ : Type} [DecidableEq ρ] {h : Canon.Heap env ρ} {x : ρ} {xs : List ρ} {char : Nat},
      h.obj x = .list xs ∨ h.obj x = .tuple xs → recordsFrom ≤ xs.length →
      (∀ y ∈ xs, ∃ n, h.obj y = .np n ∧ n.char = char) →
      ∃ forms, numbers h x = some forms ∧ numbersForm h xs = some forms ∧ List.Forall₂ (EnterForm h) xs forms) ∧
    ∀ {env : Env} {hasher : Hasher} {ρ : Type} [DecidableEq ρ] {c : Call env hasher ρ}, hasher.hooked = false →
      Census.plainCensus env.toCensus c.world.toHeap c.value ≠ none →
      ∀ digest, plainValueDigest hasher c.world c.value = some digest ↔ HashPayload c digest := by
  refine ⟨?_, ?_, ?_⟩
  · intro env ρ _ _ h memo v a k args kwargs hm hv ha hk hargs hkwargs
    exact canonicalCallBytes_eq hm hv ha hk hargs hkwargs
  · intro env ρ _ h x xs char hx hlen hxs
    exact numbers_eq hx hlen hxs
  · intro env hasher ρ _ c hh hplain
    exact plainValueDigest_iff hh hplain

/-- The objects of `((1,), {})`: the call, its arguments, its keywords and the number. -/
def oneObj (x : Bool × Bool) : Canon.Obj Canon.unaryEnv (Bool × Bool) :=
  if x = (false, false) then .tuple [(false, true), (true, false)]
  else if x = (false, true) then .tuple [(true, true)]
  else if x = (true, false) then .dict []
  else .prim (.int 1)

theorem oneObj_hashed : ∀ x, ∀ y ∈ (oneObj x).hashed, Canon.Hashable oneObj y := by
  intro x y hy
  unfold oneObj at hy
  split_ifs at hy <;> simp [Obj.hashed] at hy

def oneCall : Canon.Heap Canon.unaryEnv (Bool × Bool) := ⟨oneObj, oneObj_hashed⟩

/-- Eight numbers. -/
def eightObj (x : Fin 2) : Canon.Obj Canon.unaryEnv (Fin 2) :=
  if x = 0 then .list (List.replicate 8 1) else .np ⟨0, [7], rfl⟩

theorem eightObj_hashed : ∀ x, ∀ y ∈ (eightObj x).hashed, Canon.Hashable eightObj y := by
  intro x y hy
  unfold eightObj at hy
  split at hy <;> simp [Obj.hashed] at hy

def eightNumbers : Canon.Heap Canon.unaryEnv (Fin 2) := ⟨eightObj, eightObj_hashed⟩

theorem shortcuts_agree_small :
    (∃ bytes, canonicalCallBytes oneCall [(true, true)] [] = some bytes ∧
      ∀ bytes', (∃ memo', CanonicalBytes oneCall [] (false, false) bytes' memo') ↔ bytes' = bytes) ∧
    (∃ forms, numbers eightNumbers 0 = some forms ∧ numbersForm eightNumbers (List.replicate 8 1) = some forms ∧
      List.Forall₂ (EnterForm eightNumbers) (List.replicate 8 1) forms) ∧
    ∀ digest, plainValueDigest noHasher nestedCall.world nestedCall.value = some digest ↔ HashPayload nestedCall digest := by
  obtain ⟨hcalls, hnumbers, hplain⟩ := shortcuts_agree
  refine ⟨?_, ?_, ?_⟩
  · refine hcalls (.empty _) (a := (false, true)) (k := (true, false)) rfl rfl rfl ?_ ?_
    · intro x hx
      rw [List.mem_singleton.mp hx]
      rfl
    · intro p hp
      cases hp
  · have hall : ∀ y ∈ List.replicate 8 1, ∃ n, eightNumbers.obj y = .np n ∧ n.char = 0 := by
      intro y hy
      rw [List.eq_of_mem_replicate hy]
      exact ⟨_, rfl, rfl⟩
    exact hnumbers (.inl rfl) (by decide) hall
  · refine hplain rfl ?_
    have hsome : (Census.plainCensus unaryEnv.toCensus nestedCall.world.toHeap nestedCall.value).isSome = true := by rfl
    exact Option.isSome_iff_ne_none.mp hsome

end Cash.Payload
