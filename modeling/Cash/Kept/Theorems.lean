import Cash.Kept.Keying
import Mathlib.Data.Set.Card
import Mathlib.Logic.Relation

/-!
# Keyings and what they tell
-/

namespace Cash.Kept

open Py

variable {V S : Type}

/-! ## A keying tells what the heap says -/

section

open Relation (ReflTransGen)

/-! ### What the heap says -/

namespace Heap

variable (H : Heap V S)

/-- The values that a pickle of the object goes on to, what it leaves out aside. -/
def next (x : V) : List V :=
  match H.node x with
  | .leaf _ => []
  | .container items => items
  | .chooser args => args ++ (H.shape (H.reduce x 0)).parts

/-- A leaf that refuses is reached through states and containers. -/
def Refuses (x : V) : Prop := ∃ y, ReflTransGen (fun a b => b ∈ H.next a) x y ∧ H.node y = .leaf false

open Classical in
/-- The attributes that the state does not hold, each itself when it pickles. -/
noncomputable def leftOutOf (x : V) (state : S) : LeftOut V :=
  (H.attrs x).filterMap fun p =>
    if ((H.shape state).saved p.1).any (H.same · p.2) then none
    else some (p.1, if H.Refuses p.2 then .type (H.typeName p.2) else .itself p.2)

variable {H} {x y : V}

theorem Refuses.of_next (h : y ∈ H.next x) (hy : H.Refuses y) : H.Refuses x := by
  obtain ⟨z, hz, hleaf⟩ := hy
  exact ⟨z, hz.head h, hleaf⟩

theorem not_refuses_of_mem_values {state : S} {v : V} (h : v ∈ (H.leftOutOf x state).values) : ¬H.Refuses v := by
  rw [LeftOut.values, List.mem_filterMap] at h
  obtain ⟨⟨name, told⟩, hmem, htold⟩ := h
  rw [leftOutOf, List.mem_filterMap] at hmem
  obtain ⟨p, -, hp⟩ := hmem
  split at hp
  · cases hp
  · simp only [Option.some.injEq, Prod.mk.injEq] at hp
    obtain ⟨-, rfl⟩ := hp
    dsimp only at htold
    split at htold
    · next u heq =>
      cases htold
      split at heq
      · cases heq
      · next hnot =>
        cases heq
        exact hnot
    · cases htold

end Heap

/-! ### What holds of a keying -/

variable {H : Heap V S}

def Keying.Telling (k : Keying V S) (x : V) : Prop := k.leftOut x = some .telling

/-- What is remembered is so. -/
structure Keying.Good (H : Heap V S) (k : Keying V S) : Prop where
  picklable : ∀ v b, k.picklable v = some b → (b = true ↔ ¬H.Refuses v)
  leftOut : ∀ x state left, k.leftOut x = some (.told state left) → left = H.leftOutOf x state

/-- What a call leaves: the objects being told are those that were. -/
structure After (H : Heap V S) (k k' : Keying V S) : Prop where
  good : k'.Good H
  telling : ∀ x, k'.Telling x ↔ k.Telling x
  grown : ∀ v b, k.picklable v = some b → k'.picklable v = some b

theorem After.refl {k : Keying V S} (h : k.Good H) : After H k k := ⟨h, fun _ => Iff.rfl, fun _ _ h => h⟩

theorem After.trans {k k' k'' : Keying V S} (h : After H k k') (h' : After H k' k'') : After H k k'' :=
  ⟨h'.good, fun x => (h'.telling x).trans (h.telling x), fun v b hv => h'.grown v b (h.grown v b hv)⟩

/-- A way to tell that is right while these objects are being told. -/
def Tells (H : Heap V S) (t : V → Prop) (tell : V → S → Keying V S → Option (LeftOut V × Keying V S)) : Prop :=
  ∀ x state k, k.Good H → (∀ y, k.Telling y ↔ t y) → ∃ left k', tell x state k = some (left, k') ∧ After H k k' ∧
    (t x → left = []) ∧ (¬t x → left = H.leftOutOf x state)

variable [DecidableEq V] {t : V → Prop} {k : Keying V S} {seen : Finset V}

theorem Keying.leftOut_note (k : Keying V S) (x : V) (known : Known V S) (y : V) :
    (k.note x known).leftOut y = if y = x then some known else k.leftOut y := Function.update_apply ..

theorem Keying.telling_note (k : Keying V S) (x : V) (known : Known V S) (y : V) :
    (k.note x known).Telling y ↔ if y = x then known = .telling else k.Telling y := by
  rw [Telling, leftOut_note]
  split
  · exact Option.some_inj
  · rfl

theorem Keying.Good.note {x : V} {known : Known V S} (h : k.Good H)
    (hknown : ∀ state left, known = .told state left → left = H.leftOutOf x state) : (k.note x known).Good H where
  picklable := h.picklable
  leftOut y state left hy := by
    rw [Keying.leftOut_note] at hy
    split at hy
    · next hyx => exact hyx ▸ hknown state left (Option.some_inj.mp hy)
    · exact h.leftOut y state left hy

/-- What is left when values were saved: what they lead to was seen, or was found to pickle. -/
def Ends (H : Heap V S) (xs : List V) (seen : Finset V) (k : Keying V S) : Outcome V S → Prop
  | .done seen' k' => After H k k' ∧ seen ⊆ seen' ∧ (∀ x ∈ xs, x ∈ seen' ∨ k'.picklable x = some true) ∧
      ∀ y ∈ seen', y ∉ seen → H.node y ≠ .leaf false ∧ ∀ z ∈ H.next y, z ∈ seen' ∨ k'.picklable z = some true
  | .refused k' => After H k k' ∧ ∃ x ∈ xs, H.Refuses x
  | .short => False

theorem saveAll_ends {f : V → Finset V → Keying V S → Outcome V S} (ok : Finset V → Prop)
    (hok : ∀ seen seen', seen ⊆ seen' → ok seen → ok seen')
    (hf : ∀ x seen k, k.Good H → (∀ y, k.Telling y ↔ t y) → ok seen → Ends H [x] seen k (f x seen k)) (xs : List V)
    (hgood : k.Good H) (ht : ∀ y, k.Telling y ↔ t y) (hseen : ok seen) : Ends H xs seen k (saveAll f xs seen k) := by
  induction xs generalizing seen k with
  | nil => exact ⟨.refl hgood, fun _ h => h, fun _ h => absurd h List.not_mem_nil, fun y hy hn => absurd hy hn⟩
  | cons x xs ih =>
      have hx := hf x seen k hgood ht hseen
      rw [saveAll]
      cases hcall : f x seen k with
      | short =>
          rw [hcall] at hx
          exact hx
      | refused k' =>
          rw [hcall] at hx
          obtain ⟨hafter, y, hy, href⟩ := hx
          exact ⟨hafter, y, List.mem_singleton.mp hy ▸ List.mem_cons_self, href⟩
      | done seen' k' =>
          rw [hcall] at hx
          obtain ⟨hafter, hsub, hhere, hclosed⟩ := hx
          have hrest := ih hafter.good (fun y => (hafter.telling y).trans (ht y)) (hok _ _ hsub hseen)
          dsimp only
          cases hall : saveAll f xs seen' k' with
          | short =>
              rw [hall] at hrest
              exact hrest
          | refused k'' =>
              rw [hall] at hrest
              obtain ⟨hafter', y, hy, href⟩ := hrest
              exact ⟨hafter.trans hafter', y, List.mem_cons_of_mem _ hy, href⟩
          | done seen'' k'' =>
              rw [hall] at hrest
              obtain ⟨hafter', hsub', hhere', hclosed'⟩ := hrest
              have hstill : ∀ z, z ∈ seen' ∨ k'.picklable z = some true → z ∈ seen'' ∨ k''.picklable z = some true :=
                fun z hz => hz.imp (fun h => hsub' h) (hafter'.grown z true)
              refine ⟨hafter.trans hafter', hsub.trans hsub', fun y hy => ?_, fun y hy hn => ?_⟩
              · rcases List.mem_cons.mp hy with rfl | hy
                · exact hstill y (hhere y List.mem_cons_self)
                · exact hhere' y hy
              · by_cases hy' : y ∈ seen'
                · obtain ⟨hleaf, hnext⟩ := hclosed y hy' hn
                  exact ⟨hleaf, fun z hz => hstill z (hnext z hz)⟩
                · exact hclosed' y hy hy'

variable [Fintype V]

theorem save_ends {tell : V → S → Keying V S → Option (LeftOut V × Keying V S)} (htell : Tells H t tell) (root : V)
    (depth : Nat) : ∀ x seen k, k.Good H → (∀ y, k.Telling y ↔ t y) → Fintype.card V < depth + seen.card →
      Ends H [x] seen k (save H tell root depth x seen k) := by
  induction depth with
  | zero =>
      intro x seen k _ _ hdepth
      have := Finset.card_le_univ seen
      omega
  | succ depth ih =>
      intro x seen k hgood ht hdepth
      rw [save]
      split
      · next hknown =>
        refine ⟨.refl hgood, fun _ h => h, fun y hy => .inr ?_, fun y hy hn => absurd hy hn⟩
        rw [List.mem_singleton.mp hy]
        exact hknown.2
      split
      · next hseen =>
        exact ⟨.refl hgood, fun _ h => h, fun y hy => .inl (List.mem_singleton.mp hy ▸ hseen), fun y hy hn => absurd hy hn⟩
      next hnew =>
      have hcard : ∀ seen', insert x seen ⊆ seen' → Fintype.card V < depth + seen'.card := by
        intro seen' hsub
        have := Finset.card_le_card hsub
        rw [Finset.card_insert_of_notMem hnew] at this
        omega
      -- what the pickle of the object goes on to, after the object itself was seen
      have hgo : ∀ (children : List V) (k' : Keying V S), After H k k' → H.node x ≠ .leaf false →
          (∀ z ∈ H.next x, z ∈ children) → (∀ z ∈ children, H.Refuses z → H.Refuses x) →
          Ends H [x] seen k (saveAll (save H tell root depth) children (insert x seen) k') := by
        intro children k' hafter hleaf hnext href
        have hall := saveAll_ends (fun seen' => Fintype.card V < depth + seen'.card)
          (fun s s' hsub hs => hs.trans_le (Nat.add_le_add_left (Finset.card_le_card hsub) depth)) ih children hafter.good
          (fun y => (hafter.telling y).trans (ht y)) (hcard _ subset_rfl)
        cases hres : saveAll (save H tell root depth) children (insert x seen) k' with
        | short =>
            rw [hres] at hall
            exact hall
        | refused k'' =>
            rw [hres] at hall
            obtain ⟨hafter', z, hz, hzr⟩ := hall
            exact ⟨hafter.trans hafter', x, List.mem_singleton_self x, href z hz hzr⟩
        | done seen' k'' =>
            rw [hres] at hall
            obtain ⟨hafter', hsub, hhere, hclosed⟩ := hall
            refine ⟨hafter.trans hafter', (Finset.subset_insert x seen).trans hsub, fun y hy => .inl ?_, fun y hy hn => ?_⟩
            · rw [List.mem_singleton.mp hy]
              exact hsub (Finset.mem_insert_self x seen)
            · by_cases hyx : y = x
              · subst hyx
                exact ⟨hleaf, fun z hz => hhere z (hnext z hz)⟩
              · exact hclosed y hy fun h => (Finset.mem_insert.mp h).elim hyx hn
      have hstep : ∀ z ∈ H.next x, H.Refuses z → H.Refuses x := fun z hz => Heap.Refuses.of_next hz
      cases hnode : H.node x with
      | leaf pickles =>
          cases pickles with
          | true =>
              refine ⟨.refl hgood, Finset.subset_insert x seen, fun y hy => .inl ?_, fun y hy hn => ?_⟩
              · rw [List.mem_singleton.mp hy]
                exact Finset.mem_insert_self x seen
              · obtain rfl := (Finset.mem_insert.mp hy).resolve_right hn
                rw [Heap.next, hnode]
                exact ⟨(by cases ·), fun z hz => absurd hz List.not_mem_nil⟩
          | false => exact ⟨.refl hgood, x, List.mem_singleton_self x, x, .refl, hnode⟩
      | container items =>
          have hnext : H.next x = items := by rw [Heap.next, hnode]
          refine hgo items k (.refl hgood) (by rw [hnode]; exact fun h => by cases h) (fun z hz => hnext ▸ hz) ?_
          exact fun z hz => hstep z (hnext ▸ hz)
      | chooser args =>
          have hnext : H.next x = args ++ (H.shape (H.reduce x 0)).parts := by rw [Heap.next, hnode]
          have hcount : After H k { k with reduces := k.reduces + 1 } :=
            ⟨⟨hgood.picklable, hgood.leftOut⟩, fun _ => Iff.rfl, fun _ _ h => h⟩
          obtain ⟨left, k', hcall, hafter, htelling, hexact⟩ := htell x (H.reduce x k.reduces) _ hcount.good ht
          dsimp only
          rw [hcall]
          dsimp only
          rw [H.shape_reduce x k.reduces 0, ← hnext]
          refine hgo _ k' (hcount.trans hafter) (by rw [hnode]; exact fun h => by cases h)
            (fun z hz => List.mem_append_left _ hz) fun z hz href => ?_
          rcases List.mem_append.mp hz with hz | hz
          · exact hstep z hz href
          · by_cases hx : t x
            · rw [htelling hx] at hz
              cases hz
            · rw [hexact hx] at hz
              exact absurd href (Heap.not_refuses_of_mem_values hz)

/-! ### Telling -/

theorem picklable_tells {tell : V → S → Keying V S → Option (LeftOut V × Keying V S)} (htell : Tells H t tell) {depth : Nat}
    (hdepth : Fintype.card V < depth) (v : V) (hgood : k.Good H) (ht : ∀ y, k.Telling y ↔ t y) :
    ∃ b k', picklable H depth tell v k = some (b, k') ∧ After H k k' ∧ (b = true ↔ ¬H.Refuses v) := by
  rw [picklable]
  cases hknown : k.picklable v with
  | some b => exact ⟨b, k, rfl, .refl hgood, hgood.picklable v b hknown⟩
  | none =>
      have hremember : ∀ {k' : Keying V S} {b : Bool}, After H k k' → (b = true ↔ ¬H.Refuses v) →
          After H k { k' with picklable := Function.update k'.picklable v (some b) } := by
        intro k' b hafter hb
        refine ⟨⟨fun u c hu => ?_, hafter.good.leftOut⟩, hafter.telling, fun u c hu => ?_⟩
        · dsimp only at hu
          rw [Function.update_apply] at hu
          split at hu
          · next huv =>
            cases hu
            rw [huv]
            exact hb
          · exact hafter.good.picklable u c hu
        · dsimp only
          rw [Function.update_apply, if_neg, hafter.grown u c hu]
          rintro rfl
          rw [hknown] at hu
          cases hu
      have hends := save_ends htell v depth v ∅ k hgood ht (by rw [Finset.card_empty]; exact hdepth)
      cases hsave : save H tell v depth v ∅ k with
      | short =>
          rw [hsave] at hends
          exact absurd hends id
      | refused k' =>
          rw [hsave] at hends
          obtain ⟨hafter, x, hx, href⟩ := hends
          rw [List.mem_singleton.mp hx] at href
          have hb : (false = true ↔ ¬H.Refuses v) := ⟨(by cases ·), fun h => absurd href h⟩
          exact ⟨false, _, rfl, hremember hafter hb, hb⟩
      | done seen k' =>
          rw [hsave] at hends
          obtain ⟨hafter, -, hhere, hclosed⟩ := hends
          have hpickles : ¬H.Refuses v := by
            rintro ⟨y, hpath, hleaf⟩
            -- the path to the leaf stays in what was seen, or passes what was found to pickle
            have hon : ∀ z, ReflTransGen (fun a b => b ∈ H.next a) v z → ReflTransGen (fun a b => b ∈ H.next a) z y →
                z ∈ seen := by
              intro z hz
              have hunknown : ∀ u, ReflTransGen (fun a b => b ∈ H.next a) u y → k'.picklable u ≠ some true :=
                fun u hu heq => (hafter.good.picklable u true heq).mp rfl ⟨y, hu, hleaf⟩
              induction hz with
              | refl => exact fun hzy => (hhere v (List.mem_singleton_self v)).resolve_right (hunknown v hzy)
              | tail _ hstep ih =>
                  intro hzy
                  exact ((hclosed _ (ih (hzy.head hstep)) (Finset.notMem_empty _)).2 _ hstep).resolve_right (hunknown _ hzy)
            exact (hclosed y (hon y hpath .refl) (Finset.notMem_empty y)).1 hleaf
          have hb : (true = true ↔ ¬H.Refuses v) := ⟨fun _ => hpickles, fun _ => rfl⟩
          exact ⟨true, _, rfl, hremember hafter hb, hb⟩

omit [DecidableEq V] [Fintype V] in
theorem tellAttrs_tells {pickles : V → Keying V S → Option (Bool × Keying V S)}
    (hp : ∀ v k, k.Good H → (∀ y, k.Telling y ↔ t y) →
      ∃ b k', pickles v k = some (b, k') ∧ After H k k' ∧ (b = true ↔ ¬H.Refuses v))
    (state : S) (x : V) (hgood : k.Good H) (ht : ∀ y, k.Telling y ↔ t y) :
    ∃ left k', tellAttrs H pickles (H.shape state) (H.attrs x) k = some (left, k') ∧ After H k k' ∧
      left = H.leftOutOf x state := by
  rw [Heap.leftOutOf]
  generalize H.attrs x = attrs
  induction attrs generalizing k with
  | nil => exact ⟨[], k, rfl, .refl hgood, rfl⟩
  | cons p attrs ih =>
      obtain ⟨name, v⟩ := p
      rw [tellAttrs, List.filterMap_cons]
      by_cases hsaved : ((H.shape state).saved name).any (H.same · v) = true
      · rw [if_pos hsaved, if_pos hsaved]
        exact ih hgood ht
      · rw [if_neg hsaved, if_neg hsaved]
        obtain ⟨b, k', hb, hafter, hiff⟩ := hp v k hgood ht
        obtain ⟨left, k'', hleft, hafter', heq⟩ := ih hafter.good fun y => (hafter.telling y).trans (ht y)
        rw [hb]
        dsimp only
        rw [hleft]
        refine ⟨_, k'', rfl, hafter.trans hafter', ?_⟩
        rw [heq]
        congr 2
        by_cases href : H.Refuses v
        · have hfalse : b = false := by
            cases b with
            | false => rfl
            | true => exact absurd href (hiff.mp rfl)
          rw [hfalse, if_pos href, if_neg Bool.false_ne_true]
        · rw [hiff.mpr href, if_neg href, if_pos rfl]

omit [Fintype V] in
open Classical in
theorem tellAfresh_tells {pickles : V → Keying V S → Option (Bool × Keying V S)} {x : V} (hx : ¬t x)
    (hp : ∀ v k, k.Good H → (∀ y, k.Telling y ↔ t y ∨ y = x) →
      ∃ b k', pickles v k = some (b, k') ∧ After H k k' ∧ (b = true ↔ ¬H.Refuses v))
    (state : S) (hgood : k.Good H) (ht : ∀ y, k.Telling y ↔ t y) :
    ∃ left k', tellAfresh H pickles x state k = some (left, k') ∧ After H k k' ∧ left = H.leftOutOf x state := by
  rw [tellAfresh]
  by_cases hattrs : H.attrs x = []
  · rw [if_pos hattrs]
    refine ⟨[], k, rfl, .refl hgood, ?_⟩
    rw [Heap.leftOutOf, hattrs]
    rfl
  rw [if_neg hattrs]
  have hmark : ∀ y, (k.note x .telling).Telling y ↔ t y ∨ y = x := fun y => by
    rw [Keying.telling_note, ht y]
    split
    · next hyx => exact iff_of_true rfl (.inr hyx)
    · next hyx => exact ⟨.inl, fun h => h.resolve_right hyx⟩
  obtain ⟨left, k', htold, hafter, heq⟩ := tellAttrs_tells hp state x (hgood.note fun s l h => by cases h) hmark
  rw [htold]
  refine ⟨left, _, rfl, ⟨hafter.good.note fun s l h => ?_, fun y => ?_, hafter.grown⟩, heq⟩
  · cases h
    exact heq
  · rw [Keying.telling_note, hafter.telling y, hmark y, ht y]
    split
    · next hyx => exact iff_of_false (fun h => by cases h) (hyx ▸ hx)
    · next hyx => exact ⟨fun h => h.resolve_right hyx, .inl⟩

variable [DecidableEq S]

theorem leftOutAttrs_tells {depth : Nat} (hdepth : Fintype.card V < depth) (nested : Nat) (t : V → Prop)
    (hnested : {y | ¬t y}.ncard < nested) : Tells H t (leftOutAttrs H depth nested) := by
  induction nested generalizing t with
  | zero => omega
  | succ nested ih =>
      intro x state k hgood ht
      -- one object fewer can be told while this one is
      have htell : ¬t x → ∃ left k', tellAfresh H (picklable H depth (leftOutAttrs H depth nested)) x state k =
          some (left, k') ∧ After H k k' ∧ left = H.leftOutOf x state := by
        intro hx
        have hfewer : {y | ¬(t y ∨ y = x)}.ncard < nested := by
          have hlt : {y | ¬(t y ∨ y = x)}.ncard < {y | ¬t y}.ncard := by
            have hsub : {y | ¬(t y ∨ y = x)} ⊆ {y | ¬t y} := fun y hy h => hy (.inl h)
            apply Set.ncard_lt_ncard ((Set.ssubset_iff_of_subset hsub).mpr ?_) (Set.toFinite _)
            exact ⟨x, hx, fun h => h (.inr rfl)⟩
          omega
        exact tellAfresh_tells hx (fun v k hg hk => picklable_tells (ih _ hfewer) hdepth v hg hk) state hgood ht
      rw [leftOutAttrs]
      cases hknown : k.leftOut x with
      | none =>
          have hx : ¬t x := by
            rw [← ht x, Keying.Telling, hknown]
            exact fun h => by cases h
          obtain ⟨left, k', htold, hafter, heq⟩ := htell hx
          exact ⟨left, k', htold, hafter, fun h => absurd h hx, fun _ => heq⟩
      | some known =>
          cases known with
          | telling => exact ⟨[], k, rfl, .refl hgood, fun _ => rfl, fun hx => absurd ((ht x).mp hknown) hx⟩
          | told s l =>
              have hx : ¬t x := by
                rw [← ht x, Keying.Telling, hknown]
                exact fun h => by cases h
              dsimp only
              split
              · next hs =>
                refine ⟨l, k, rfl, .refl hgood, fun h => absurd h hx, fun _ => ?_⟩
                rw [← hs]
                exact hgood.leftOut x s l hknown
              · obtain ⟨left, k', htold, hafter, heq⟩ := htell hx
                exact ⟨left, k', htold, hafter, fun h => absurd h hx, fun _ => heq⟩

end

/-! ## Every query of a keying is answered as the heap says -/

open Classical in
/-- What a query asks, told without a keying. -/
noncomputable def Heap.answer (H : Heap V S) : Query V S → Answer V
  | .leftOutAttrs x state => .leftOut (H.leftOutOf x state)
  | .picklable v => .picklable (decide ¬H.Refuses v)

variable [DecidableEq V] [DecidableEq S] [Fintype V] {H : Heap V S} {nested depth : Nat} {k : Keying V S}

theorem ask_eq (hnested : Fintype.card V < nested) (hdepth : Fintype.card V < depth) (q : Query V S) (hgood : k.Good H)
    (ht : ∀ y, ¬k.Telling y) :
    ∃ k', ask H nested depth q k = some (H.answer q, k') ∧ k'.Good H ∧ ∀ y, ¬k'.Telling y := by
  classical
  have htelling : ∀ y, k.Telling y ↔ False := fun y => iff_of_false (ht y) id
  have htells : Tells H (fun _ => False) (leftOutAttrs H depth nested) :=
    leftOutAttrs_tells hdepth nested _ <| by
      have := Set.ncard_le_card {y : V | ¬False}
      rw [Nat.card_eq_fintype_card] at this
      omega
  have hstill : ∀ {k' : Keying V S}, After H k k' → ∀ y, ¬k'.Telling y := fun hafter y h => ht y ((hafter.telling y).mp h)
  cases q with
  | leftOutAttrs x state =>
      obtain ⟨left, k', hcall, hafter, -, heq⟩ := htells x state k hgood htelling
      refine ⟨k', ?_, hafter.good, hstill hafter⟩
      rw [ask, hcall, Option.map_some, heq id, Heap.answer]
  | picklable v =>
      obtain ⟨b, k', hcall, hafter, hiff⟩ := picklable_tells htells hdepth v hgood htelling
      refine ⟨k', ?_, hafter.good, hstill hafter⟩
      rw [ask, hcall, Option.map_some, Heap.answer, Bool.eq_iff_iff.mpr (hiff.trans decide_eq_true_iff.symm)]

/-- However the heap is tied together and whatever was asked before in the block. -/
theorem oneKeying_eq (H : Heap V S) (hnested : Fintype.card V < nested) (hdepth : Fintype.card V < depth)
    (qs : List (Query V S)) : oneKeying H nested depth qs = some (qs.map H.answer) := by
  have hrun : ∀ (qs : List (Query V S)) (k : Keying V S), k.Good H → (∀ y, ¬k.Telling y) →
      run H nested depth qs k = some (qs.map H.answer) := by
    intro qs
    induction qs with
    | nil => exact fun _ _ _ => rfl
    | cons q qs ih =>
        intro k hgood ht
        obtain ⟨k', hask, hgood', ht'⟩ := ask_eq hnested hdepth q hgood ht
        rw [run, hask]
        dsimp only
        rw [ih k' hgood' ht', Option.map_some, List.map_cons]
  have hempty : (Keying.empty : Keying V S).Good H :=
    { picklable := fun v b h => by cases h
      leftOut := fun x s l h => by cases h }
  exact hrun qs .empty hempty fun y h => by cases h

/-! ### Two objects that leave each other out -/

/-- Two objects leave each other out of their states, and one of them leaves out a lock, `none`, as well. -/
def pair : Heap (Option Bool) Unit where
  node x := if x = none then .leaf false else .chooser []
  attrs x :=
    if x = some false then [(str "other", some true)]
    else if x = some true then [(str "other", some false), (str "lock", none)] else []
  shape _ := .dict []
  reduce _ _ := ()
  shape_reduce _ _ _ := rfl
  same _ _ := false
  typeName _ := str "lock"

theorem oneKeying_pair : oneKeying pair 4 4 [.picklable (some false), .leftOutAttrs (some true) ()] =
    some ([.picklable (some false), .leftOutAttrs (some true) ()].map pair.answer) :=
  oneKeying_eq pair (by decide) (by decide) _

end Cash.Kept
