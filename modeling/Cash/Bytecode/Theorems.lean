import Cash.Bytecode.Identity
import Mathlib.Data.List.Perm.Basic

/-!
# Bytecode identities
-/

namespace Cash.Bytecode

open Py Literal

variable {py : Interpreter}

/-! ## The text of a code object is read in one way -/

/-! ### The equations of the text -/

theorem stabilizeConsts_eq (cs : List Const) : stabilizeConsts py cs = cs.map (stabilizeConst py) := by
  induction cs with
  | nil => rfl
  | cons c cs ih => rw [stabilizeConsts, ih, List.map_cons]

theorem map_masked {α β : Type} (f : α → β) (hasDoc : Bool) (x : α) (xs : List α) :
    (masked hasDoc x xs).map f = masked hasDoc (f x) (xs.map f) := by
  rw [masked, masked]
  split
  · rw [List.map_cons, List.map_tail]
  · rfl

theorem stabilizeConst_code (h : Header) (consts : List Const) :
    stabilizeConst py (.code h consts) = str "code(" ++ (codeAtoms py h consts ++ [41]) := by
  rw [stabilizeConst, stabilizeConsts_eq, codeAtoms, codeConstsWithoutDocstring, map_masked, stabilizeConst]

/-- What is read of nested code is its constants without the docstring. -/
theorem Const.ind (py : Interpreter) {P : Const → Prop} (prim : ∀ p, P (.prim p)) (other : ∀ name, P (.other name))
    (tuple : ∀ xs, (∀ x ∈ xs, P x) → P (.tuple xs)) (frozenset : ∀ xs, (∀ x ∈ xs, P x) → P (.frozenset xs))
    (code : ∀ h xs, (∀ x ∈ codeConstsWithoutDocstring py h xs, P x) → P (.code h xs)) (c : Const) : P c := by
  refine @Const.rec P (fun xs => ∀ x ∈ xs, P x) prim tuple frozenset ?_ other ?_ ?_ c
  · intro h xs ih
    apply code
    intro x hx
    rw [codeConstsWithoutDocstring, masked] at hx
    split at hx
    · rcases List.mem_cons.mp hx with rfl | hx
      · exact prim .none
      · exact ih x (List.mem_of_mem_tail hx)
    · exact ih x hx
  · exact fun x hx => absurd hx List.not_mem_nil
  · intro x xs hx hxs y hy
    rcases List.mem_cons.mp hy with rfl | hy
    · exact hx
    · exact hxs y hy

/-! ### What a text goes on with -/

theorem ends_of {c : Nat} (hc : ¬Plain.IsMore c) (s : Str) : Ends Plain.IsMore (c :: s) := Prim.ends_cons hc

theorem head_stabilizeConst (py : Interpreter) (c : Const) (s : Str) : ∃ a rest, stabilizeConst py c ++ s = a :: rest ∧
    ((∃ p, c = .prim p ∧ Prim.kindOf a = some p.kind) ∨ (∃ xs, c = .tuple xs ∧ a = 40) ∨ (∃ xs, c = .frozenset xs ∧ a = 123) ∨
      (∃ h xs, c = .code h xs ∧ a = 99) ∨ ∃ name, c = .other name ∧ a = 60) := by
  cases c with
  | prim p =>
      obtain ⟨a, rest, ha, hkind⟩ : ∃ a rest, p.repr py.printable ++ s = a :: rest ∧ Prim.kindOf a = some p.kind := p.head_repr s
      exact ⟨a, rest, by rw [stabilizeConst, ha], .inl ⟨p, rfl, hkind⟩⟩
  | tuple xs => exact ⟨40, _, rfl, .inr (.inl ⟨xs, rfl, rfl⟩)⟩
  | frozenset xs => exact ⟨123, _, rfl, .inr (.inr (.inl ⟨xs, rfl, rfl⟩))⟩
  | code h xs => exact ⟨99, _, rfl, .inr (.inr (.inr (.inl ⟨h, xs, rfl, rfl⟩)))⟩
  | other name => exact ⟨60, _, rfl, .inr (.inr (.inr (.inr ⟨name, rfl, rfl⟩)))⟩

/-- A bracket that closes ends the constants. -/
theorem closes {a : Nat} (ha : a = 41 ∨ a = 125) (s : Str) : Closes (stabilizeConst py) [44] (a :: s) := by
  refine ⟨fun c u h => ?_, fun u h => ?_⟩
  · obtain ⟨b, rest, hb, hcase⟩ := head_stabilizeConst py c u
    rw [hb, List.cons.injEq] at h
    rw [h.1] at hcase
    rcases hcase with ⟨p, -, hkind⟩ | ⟨xs, -, rfl⟩ | ⟨xs, -, rfl⟩ | ⟨h, xs, -, rfl⟩ | ⟨name, -, rfl⟩
    · rcases ha with rfl | rfl <;> cases hkind
    all_goals omega
  · rcases ha with rfl | rfl <;> cases h

/-- The texts of constants do not begin as a complex does. -/
theorem join_ne_complex {xs : List Const} {a b : Bool} {u v : Unsigned} {s t : Str} (hu : u.Good) :
    join [44] (xs.map (stabilizeConst py)) ++ 41 :: s ≠ signed a u ++ (withSign b v ++ t) := by
  intro h
  obtain ⟨d, rest, hd, hnumber⟩ := Prim.head_signed hu a (withSign b v ++ t)
  cases xs with
  | nil =>
      rw [hd] at h
      obtain ⟨rfl, -⟩ := List.cons.inj h
      cases hnumber
  | cons c xs =>
      have hsplit : ∃ w, join [44] ((c :: xs).map (stabilizeConst py)) ++ 41 :: s = stabilizeConst py c ++ w ∧ Ends Plain.IsMore w := by
        cases xs with
        | nil => exact ⟨_, rfl, ends_of (by decide) _⟩
        | cons c' xs =>
            refine ⟨44 :: (join [44] ((c' :: xs).map (stabilizeConst py)) ++ 41 :: s), ?_, ends_of (by decide) _⟩
            simp only [List.map_cons, join, List.append_assoc, List.cons_append, List.nil_append]
      obtain ⟨w, hw, hends⟩ := hsplit
      rw [hw] at h
      obtain ⟨e, rest', he, hcase⟩ := head_stabilizeConst py c w
      have hed : e = d := by
        rw [he, hd] at h
        exact (List.cons.inj h).1
      subst hed
      rcases hcase with ⟨p, rfl, -⟩ | ⟨xs, -, rfl⟩ | ⟨xs, -, rfl⟩ | ⟨h, xs, -, rfl⟩ | ⟨name, -, rfl⟩
      · exact Prim.repr_append_ne hu (Plain.ends_prim hends) (fun c hc hsign => hends c hc (.inr hsign)) h
      all_goals cases hnumber

theorem prim_ne_tuple {p : Prim} {xs : List Const} {s t : Str} :
    stabilizeConst py (.prim p) ++ s ≠ stabilizeConst py (.tuple xs) ++ t := by
  intro h
  rw [stabilizeConst, stabilizeConst, stabilizeConsts_eq, List.cons_append, List.append_assoc] at h
  obtain ⟨a, u, b, v, w, hu, hr⟩ := Plain.paren_append h
  exact join_ne_complex hu hr

/-! ### Reading -/

theorem names_append {xs ys : List Str} {s t : Str}
    (h : tupleRepr (xs.map (strRepr py.printable)) ++ s = tupleRepr (ys.map (strRepr py.printable)) ++ t) :
    xs = ys ∧ s = t := by
  have hquote : ∀ x u v, strRepr py.printable x ++ u ≠ 41 :: v := by
    intro x u v heq
    have hq := (List.cons.inj heq).1
    rcases isQuote_quoteOf x with h | h <;> rw [h] at hq <;> cases hq
  have hread : ∀ x ∈ xs, ∀ y u v, Ends Prim.IsMore u → Ends Prim.IsMore v →
      strRepr py.printable x ++ u = strRepr py.printable y ++ v → x = y ∧ u = v := fun x _ y u v _ _ heq => strRepr_append heq
  obtain ⟨hall, hrest⟩ := tupleRepr_append hread (by decide) hquote h
  rw [List.forall₂_eq_eq_eq] at hall
  exact ⟨hall, hrest⟩

/-- What a constant's text says, before whatever follows. -/
def Reads (py : Interpreter) (x : Const) : Prop :=
  ∀ y u v, Ends Plain.IsMore u → Ends Plain.IsMore v → stabilizeConst py x ++ u = stabilizeConst py y ++ v →
    x.Alike py Header.Told y ∧ u = v

theorem join_reads {a : Nat} (ha : a = 41 ∨ a = 125) {xs ys : List Const} {s t : Str} (hreads : ∀ x ∈ xs, Reads py x)
    (h : join [44] (xs.map (stabilizeConst py)) ++ a :: s = join [44] (ys.map (stabilizeConst py)) ++ a :: t) :
    List.Forall₂ (Const.Alike py Header.Told) xs ys ∧ s = t := by
  have hends : ∀ s, Ends Plain.IsMore (a :: s) := by
    rcases ha with rfl | rfl <;> exact fun s => ends_of (by decide) s
  obtain ⟨hall, hrest⟩ := join_append hreads (fun u => ends_of (by decide) u) (hends s) (hends t) (closes ha s) (closes ha t) h
  exact ⟨hall, (List.cons.inj hrest).2⟩

theorem codeAtoms_append {h k : Header} {xs ys : List Const} {s t : Str}
    (hreads : ∀ x ∈ codeConstsWithoutDocstring py h xs, Reads py x)
    (heq : codeAtoms py h xs ++ 41 :: s = codeAtoms py k ys ++ 41 :: t) :
    (h.Told k ∧ List.Forall₂ (Const.Alike py Header.Told) (codeConstsWithoutDocstring py h xs)
      (codeConstsWithoutDocstring py k ys)) ∧ s = t := by
  have hone : ∀ b : Bytes, ∀ c ∈ hex b, c ≠ 1 := fun b c hc hone => not_mem_hex b (by omega) (hone ▸ hc)
  have hends : ∀ u : Str, Ends (fun c => c ≠ 1) (1 :: u) := fun u => Prim.ends_cons (not_not_intro rfl)
  simp only [codeAtoms, atoms, join, List.append_assoc, List.cons_append, List.nil_append] at heq
  obtain ⟨hcode, hrest⟩ := span_unique (hone _) (hone _) (hends _) (hends _) heq
  obtain ⟨hnames, hrest⟩ := names_append (List.cons.inj hrest).2
  obtain ⟨hvarnames, hrest⟩ := names_append (List.cons.inj hrest).2
  obtain ⟨hconsts, hst⟩ := join_reads (.inl rfl) hreads (List.cons.inj hrest).2
  exact ⟨⟨⟨hex_injective hcode, hnames, hvarnames⟩, hconsts⟩, hst⟩

theorem sorted_texts (xs : List Const) : sorted (xs.map (stabilizeConst py)) =
    (xs.insertionSort fun a b => stabilizeConst py a ≤ stabilizeConst py b).map (stabilizeConst py) :=
  (List.map_insertionSort (fun a b => stabilizeConst py a ≤ stabilizeConst py b) (· ≤ ·) (stabilizeConst py) xs
    fun _ _ _ _ => Iff.rfl).symm

theorem reads (x : Const) : Reads py x := by
  have hclash : ∀ {x y : Const} {u v : Str} {a b : Nat} {r r' : Str}, stabilizeConst py x ++ u = stabilizeConst py y ++ v →
      stabilizeConst py x ++ u = a :: r → stabilizeConst py y ++ v = b :: r' → a = b := by
    intro x y u v a b r r' h ha hb
    rw [ha, hb] at h
    exact (List.cons.inj h).1
  induction x using Const.ind py with
  | prim p =>
      intro y u v hu hv h
      obtain ⟨b, rest, hb, hcase⟩ := head_stabilizeConst py y v
      obtain ⟨a, rest', ha, hcase'⟩ := head_stabilizeConst py (.prim p) u
      have hab := hclash h ha hb
      subst hab
      rcases hcase' with ⟨q, hq, hkind⟩ | ⟨_, hne, -⟩ | ⟨_, hne, -⟩ | ⟨_, _, hne, -⟩ | ⟨_, hne, -⟩
      · rcases hcase with ⟨p', rfl, -⟩ | ⟨xs, rfl, rfl⟩ | ⟨xs, rfl, rfl⟩ | ⟨k, xs, rfl, rfl⟩ | ⟨name, rfl, rfl⟩
        · obtain ⟨rfl, huv⟩ := Prim.repr_append (Plain.ends_prim hu) (Plain.ends_prim hv) h
          exact ⟨.prim p, huv⟩
        · exact absurd h prim_ne_tuple
        all_goals cases hkind
      all_goals cases hne
  | other name =>
      intro y u v hu hv h
      obtain ⟨b, rest, hb, hcase⟩ := head_stabilizeConst py y v
      have hab := hclash h (show stabilizeConst py (.other name) ++ u = 60 :: (name.1 ++ [62] ++ u) from rfl) hb
      subst hab
      rcases hcase with ⟨p, -, hkind⟩ | ⟨_, -, hne⟩ | ⟨_, -, hne⟩ | ⟨_, _, -, hne⟩ | ⟨name', rfl, -⟩
      · cases hkind
      · cases hne
      · cases hne
      · cases hne
      · have hmem : ∀ (name : { s : Str // 62 ∉ s }), ∀ c ∈ name.1, c ≠ 62 := fun name c hc heq => name.2 (heq ▸ hc)
        simp only [stabilizeConst, List.cons_append, List.append_assoc, List.nil_append, List.cons.injEq, true_and] at h
        obtain ⟨hname, hrest⟩ := span_unique (hmem name) (hmem name') (Prim.ends_cons (not_not_intro rfl))
          (Prim.ends_cons (not_not_intro rfl)) h
        obtain rfl := Subtype.ext hname
        exact ⟨.other name, (List.cons.inj hrest).2⟩
  | tuple xs ih =>
      intro y u v hu hv h
      obtain ⟨b, rest, hb, hcase⟩ := head_stabilizeConst py y v
      have hab := hclash h (show stabilizeConst py (.tuple xs) ++ u = 40 :: _ from rfl) hb
      subst hab
      rcases hcase with ⟨p, rfl, -⟩ | ⟨ys, rfl, -⟩ | ⟨_, -, hne⟩ | ⟨_, _, -, hne⟩ | ⟨_, -, hne⟩
      · exact absurd h.symm prim_ne_tuple
      · rw [stabilizeConst, stabilizeConst, stabilizeConsts_eq, stabilizeConsts_eq, List.cons_append, List.cons_append,
          List.append_assoc, List.append_assoc] at h
        obtain ⟨hall, huv⟩ := join_reads (.inl rfl) ih (List.cons.inj h).2
        exact ⟨.tuple hall, huv⟩
      · cases hne
      · cases hne
      · cases hne
  | frozenset xs ih =>
      intro y u v hu hv h
      obtain ⟨b, rest, hb, hcase⟩ := head_stabilizeConst py y v
      have hab := hclash h (show stabilizeConst py (.frozenset xs) ++ u = 123 :: _ from rfl) hb
      subst hab
      rcases hcase with ⟨p, -, hkind⟩ | ⟨_, -, hne⟩ | ⟨ys, rfl, -⟩ | ⟨_, _, -, hne⟩ | ⟨_, -, hne⟩
      · cases hkind
      · cases hne
      · rw [stabilizeConst, stabilizeConst, stabilizeConsts_eq, stabilizeConsts_eq, sorted_texts, sorted_texts,
          List.cons_append, List.cons_append, List.append_assoc, List.append_assoc] at h
        obtain ⟨hall, huv⟩ := join_reads (.inr rfl) (fun x hx => ih x ((List.mem_insertionSort _).mp hx)) (List.cons.inj h).2
        obtain ⟨zs, hxz, hperm⟩ := List.perm_comp_forall₂ (List.perm_insertionSort _ xs).symm hall
        exact ⟨.frozenset (hperm.trans (List.perm_insertionSort _ ys)) hxz, huv⟩
      · cases hne
      · cases hne
  | code k xs ih =>
      intro y u v hu hv h
      obtain ⟨b, rest, hb, hcase⟩ := head_stabilizeConst py y v
      have hab := hclash h (show stabilizeConst py (.code k xs) ++ u = 99 :: _ from rfl) hb
      subst hab
      rcases hcase with ⟨p, -, hkind⟩ | ⟨_, -, hne⟩ | ⟨_, -, hne⟩ | ⟨k', ys, rfl, -⟩ | ⟨_, -, hne⟩
      · cases hkind
      · cases hne
      · cases hne
      · rw [stabilizeConst_code, stabilizeConst_code] at h
        simp only [List.append_assoc, List.append_cancel_left_eq, List.cons_append, List.nil_append] at h
        obtain ⟨⟨htold, hall⟩, huv⟩ := codeAtoms_append ih h
        exact ⟨.code htold hall, huv⟩
      · cases hne

/-! ### Writing -/

theorem Const.Alike.mono {rel rel' : Header → Header → Prop} (hrel : ∀ h k, rel h k → rel' h k) (x : Const) :
    ∀ {y : Const}, x.Alike py rel y → x.Alike py rel' y := by
  have hmono : ∀ {xs ys : List Const}, (∀ x ∈ xs, ∀ {y : Const}, x.Alike py rel y → x.Alike py rel' y) →
      List.Forall₂ (Const.Alike py rel) xs ys → List.Forall₂ (Const.Alike py rel') xs ys := by
    intro xs ys hxs h
    induction h with
    | nil => exact .nil
    | cons hxy _ ih => exact .cons (hxs _ List.mem_cons_self hxy) (ih fun x hx => hxs x (List.mem_cons_of_mem _ hx))
  induction x using Const.ind py with
  | prim p =>
      intro y h
      cases h
      exact .prim p
  | other name =>
      intro y h
      cases h
      exact .other name
  | tuple xs ih =>
      intro y h
      cases h with
      | tuple hall => exact .tuple (hmono ih hall)
  | frozenset xs ih =>
      intro y h
      cases h with
      | frozenset hperm hall => exact .frozenset hperm (hmono ih hall)
  | code k xs ih =>
      intro y h
      cases h with
      | code htold hall => exact .code (hrel _ _ htold) (hmono ih hall)

/-- `def f(a, b): return a`. -/
def positional : Header × List Const :=
  (⟨[0x97, 0x00, 0x7c, 0x00, 0x53, 0x00], [], [str "a", str "b"], [], 2, 0, 0, 3, [], str "f"⟩, [.prim .none])

/-- `def f(a, b): return b`. -/
def second : Header × List Const :=
  (⟨[0x97, 0x00, 0x7c, 0x01, 0x53, 0x00], [], [str "a", str "b"], [], 2, 0, 0, 3, [], str "f"⟩, [.prim .none])

def Callable.of (c : Header × List Const) : Callable := ⟨.code c.1 c.2, .none⟩

end Cash.Bytecode
