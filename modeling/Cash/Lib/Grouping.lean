import Mathlib.Data.List.Induction
import Mathlib.Data.List.Nodup
import Mathlib.Data.List.Pairwise
import Mathlib.Tactic.Common

/-!
# Grouping by keys that have an equality of their own

`same` is what a key is looked up by. Where no two different keys are the same, a set of them and a table over them are
what they are by identity.
-/

namespace Grouping

variable {K A V : Type}

/-- `s.add(k)`. Of keys that are the same the first stays. -/
def add (same : K → K → Bool) (ks : List K) (k : K) : List K := if ks.any (same · k) then ks else ks ++ [k]

/-- `s.update(ks)`. -/
def union (same : K → K → Bool) (s ks : List K) : List K := ks.foldl (add same) s

/-- `set(ks)`. -/
def distinct (same : K → K → Bool) (ks : List K) : List K := union same [] ks

/-- `items[k] = f(items.get(k))`. -/
def upsert (same : K → K → Bool) (f : Option V → V) (k : K) : List (K × V) → List (K × V)
  | [] => [(k, f none)]
  | (k', v) :: items => if same k' k then (k', f (some v)) :: items else (k', v) :: upsert same f k items

/-- Each of `as` in turn changes what its key has. -/
def build (same : K → K → Bool) (key : A → K) (f : A → Option V → V) (items : List (K × V)) (as : List A) : List (K × V) :=
  as.foldl (fun items a => upsert same (f a) (key a) items) items

/-- `Counter(ks)`. -/
def tally (same : K → K → Bool) (ks : List K) : List (K × Nat) := build same id (fun _ n => n.getD 0 + 1) [] ks

/-- `groups.setdefault(key(a), []).append(a)` for each of `as`. -/
def collect (same : K → K → Bool) (key : A → K) (groups : List (K × List A)) (as : List A) : List (K × List A) :=
  build same key (fun a group => group.getD [] ++ [a]) groups as

/-- No two different keys are the same. -/
def Apart (same : K → K → Bool) (ks : List K) : Prop := ∀ k ∈ ks, ∀ k' ∈ ks, same k k' = true → k = k'

variable {same : K → K → Bool}

/-! ## Sets -/

theorem union_append (s ks ks' : List K) : union same s (ks ++ ks') = union same (union same s ks) ks' := List.foldl_append

theorem distinct_concat (ks : List K) (k : K) : distinct same (ks ++ [k]) = add same (distinct same ks) k := union_append _ _ _

theorem pairwise_add {ks : List K} (h : ks.Pairwise fun k k' => same k k' = false) (k : K) :
    (add same ks k).Pairwise fun k k' => same k k' = false := by
  unfold add
  split
  · exact h
  · rename_i hk
    rw [List.pairwise_append]
    refine ⟨h, List.pairwise_singleton _ _, ?_⟩
    intro k' hk' l hl
    cases List.mem_singleton.mp hl
    rw [Bool.not_eq_true, List.any_eq_false] at hk
    exact Bool.eq_false_iff.mpr (hk k' hk')

theorem pairwise_union {s : List K} (h : s.Pairwise fun k k' => same k k' = false) (ks : List K) :
    (union same s ks).Pairwise fun k k' => same k k' = false := by
  induction ks generalizing s with
  | nil => exact h
  | cons k ks ih => exact ih (pairwise_add h k)

/-- Keys of which no two are the same are apart. -/
theorem apart_of_pairwise (hsymm : ∀ k k', same k k' = true → same k' k = true) {ks : List K}
    (h : ks.Pairwise fun k k' => same k k' = false) : Apart same ks := by
  intro k hk k' hk' hsame
  by_contra hne
  have : Std.Symm fun k k' => same k k' = false :=
    ⟨fun a b hab => Bool.eq_false_iff.mpr fun hba => Bool.eq_false_iff.mp hab (hsymm b a hba)⟩
  exact absurd hsame (Bool.eq_false_iff.mp (h.forall hk hk' hne))

theorem mem_of_mem_union {s ks : List K} {k : K} (h : k ∈ union same s ks) : k ∈ s ∨ k ∈ ks := by
  induction ks generalizing s with
  | nil => exact .inl h
  | cons k' ks ih =>
      rcases ih h with h | h
      · unfold add at h
        split at h
        · exact .inl h
        · rcases List.mem_append.mp h with h | h
          · exact .inl h
          · exact .inr (List.mem_cons.mpr (.inl (List.mem_singleton.mp h)))
      · exact .inr (List.mem_cons_of_mem k' h)

theorem mem_of_mem_distinct {ks : List K} {k : K} (h : k ∈ distinct same ks) : k ∈ ks :=
  (mem_of_mem_union h).resolve_left List.not_mem_nil

theorem Apart.mono {ks ks' : List K} (h : Apart same ks) (hsub : ks' ⊆ ks) : Apart same ks' :=
  fun k hk k' hk' => h k (hsub hk) k' (hsub hk')

section Equal

variable (hrefl : ∀ k, same k k = true)
include hrefl

/-- A key is in a set of keys that it is apart from if and only if it is the same as one. -/
theorem any_same_iff {ks : List K} {k : K} (h : Apart same (k :: ks)) : ks.any (same · k) = true ↔ k ∈ ks := by
  rw [List.any_eq_true]
  constructor
  · rintro ⟨k', hk', hsame⟩
    rw [← h k' (List.mem_cons_of_mem k hk') k List.mem_cons_self hsame]
    exact hk'
  · intro hk
    exact ⟨k, hk, hrefl k⟩

theorem any_add_self (s : List K) (k : K) : (add same s k).any (same · k) = true := by
  unfold add
  split
  · assumption
  · rw [List.any_append, List.any_cons, hrefl, Bool.true_or, Bool.or_true]

theorem mem_distinct_iff {ks : List K} (h : Apart same ks) {k : K} : k ∈ distinct same ks ↔ k ∈ ks := by
  refine ⟨mem_of_mem_distinct, ?_⟩
  induction ks using List.reverseRecOn with
  | nil => exact id
  | append_singleton ks l ih =>
      intro hk
      have hks : Apart same ks := h.mono (List.subset_append_left ks [l])
      rw [distinct_concat, add]
      split
      · rename_i hl
        rcases List.mem_append.mp hk with hk | hk
        · exact ih hks hk
        · rw [List.mem_singleton.mp hk]
          refine (any_same_iff hrefl (h.mono ?_)).mp hl
          intro k' hk'
          rcases List.mem_cons.mp hk' with rfl | hk'
          · exact List.mem_append_right ks (List.mem_singleton_self k')
          · exact List.mem_append_left [l] (mem_of_mem_distinct hk')
      · rcases List.mem_append.mp hk with hk | hk
        · exact List.mem_append_left [l] (ih hks hk)
        · exact List.mem_append_right _ hk

theorem add_eq [DecidableEq K] {ks : List K} {k : K} (h : Apart same (k :: ks)) :
    add same ks k = if k ∈ ks then ks else ks ++ [k] := by
  unfold add
  by_cases hk : k ∈ ks
  · rw [if_pos ((any_same_iff hrefl h).mpr hk), if_pos hk]
  · rw [if_neg fun hany => hk ((any_same_iff hrefl h).mp hany), if_neg hk]

end Equal

theorem apart_decide [DecidableEq K] (ks : List K) : Apart (fun k k' => decide (k = k')) ks :=
  fun _ _ _ _ h => of_decide_eq_true h

theorem decide_refl [DecidableEq K] (k : K) : decide (k = k) = true := decide_eq_true rfl

/-- A set of keys that are apart is what it is by identity. -/
theorem distinct_eq [DecidableEq K] (hrefl : ∀ k, same k k = true) {ks : List K} (h : Apart same ks) :
    distinct same ks = distinct (fun k k' => decide (k = k')) ks := by
  induction ks using List.reverseRecOn with
  | nil => rfl
  | append_singleton ks k ih =>
      have hks : Apart same ks := h.mono (List.subset_append_left ks [k])
      have hk : Apart same (k :: distinct same ks) := by
        apply h.mono
        intro k' hk'
        rcases List.mem_cons.mp hk' with rfl | hk'
        · exact List.mem_append_right ks (List.mem_singleton_self k')
        · exact List.mem_append_left [k] (mem_of_mem_distinct hk')
      rw [distinct_concat, distinct_concat, ← ih hks, add_eq hrefl hk, add_eq decide_refl (apart_decide _)]

/-! ## Predicates that do not tell keys apart that are the same -/

section Respects

variable {p : K → Bool} (hp : ∀ k k', same k k' = true → p k = p k')
include hp

theorem filter_add (s : List K) (k : K) : (add same s k).filter p = if p k then add same (s.filter p) k else s.filter p := by
  unfold add
  rw [List.any_filter]
  cases hk : p k with
  | false =>
      split
      · rfl
      · rw [List.filter_append, List.filter_cons_of_neg (by rw [hk]; exact Bool.false_ne_true), List.filter_nil,
          List.append_nil]
        rfl
  | true =>
      have hany : (s.any fun a => p a && same a k) = s.any (same · k) := by
        apply List.any_congr rfl
        intro a
        cases hsame : same a k with
        | false => exact Bool.and_false _
        | true => rw [hp a k hsame, hk, Bool.and_true]
      rw [hany, if_pos rfl]
      split
      · rfl
      · rw [List.filter_append, List.filter_cons_of_pos hk, List.filter_nil]

theorem filter_union (s ks : List K) : (union same s ks).filter p = union same (s.filter p) (ks.filter p) := by
  induction ks generalizing s with
  | nil => rfl
  | cons k ks ih =>
      refine (ih (add same s k)).trans ?_
      rw [filter_add hp, List.filter_cons]
      cases p k with
      | false => rfl
      | true => rfl

theorem all_add (s : List K) (k : K) : (add same s k).all p = (s.all p && p k) := by
  unfold add
  split
  · rename_i hk
    obtain ⟨k', hk', hsame⟩ := List.any_eq_true.mp hk
    cases h : s.all p with
    | false => rfl
    | true => rw [← hp k' k hsame, List.all_eq_true.mp h k' hk', Bool.and_true]
  · rw [List.all_append, List.all_cons, List.all_nil, Bool.and_true]

theorem all_union (s ks : List K) : (union same s ks).all p = (s.all p && ks.all p) := by
  induction ks generalizing s with
  | nil => exact (Bool.and_true _).symm
  | cons k ks ih => rw [List.all_cons, ← Bool.and_assoc, ← all_add hp]; exact ih _

theorem all_distinct (ks : List K) : (distinct same ks).all p = ks.all p := all_union hp [] ks

theorem filter_distinct (ks : List K) : (distinct same ks).filter p = distinct same (ks.filter p) := filter_union hp [] ks

end Respects

theorem any_union (hequiv : Equivalence fun k k' => same k k' = true) (s ks : List K) (k : K) :
    (union same s ks).any (same · k) = (s.any (same · k) || ks.any (same · k)) := by
  have hp : ∀ l l', same l l' = true → (!same l k) = !same l' k := by
    intro l l' hsame
    rw [Bool.not_inj_iff, Bool.eq_iff_iff]
    exact ⟨hequiv.trans (hequiv.symm hsame), hequiv.trans hsame⟩
  rw [List.any_eq_not_all_not, List.any_eq_not_all_not, List.any_eq_not_all_not, all_union hp, Bool.not_and]

/-- Of keys that are the same one is enough. -/
theorem union_distinct (hequiv : Equivalence fun k k' => same k k' = true) (s ks : List K) :
    union same s (distinct same ks) = union same s ks := by
  induction ks using List.reverseRecOn with
  | nil => rfl
  | append_singleton ks k ih =>
      rw [distinct_concat, union_append, add]
      split
      · rename_i hk
        rw [distinct, any_union hequiv, List.any_nil, Bool.false_or] at hk
        have hadd : add same (union same s ks) k = union same s ks := by
          rw [add, if_pos]
          rw [any_union hequiv, hk, Bool.or_true]
        exact ih.trans hadd.symm
      · rw [union_append, ih]

/-! ## Tables -/

theorem keys_upsert (f : Option V → V) (k : K) (items : List (K × V)) :
    (upsert same f k items).map (·.1) = add same (items.map (·.1)) k := by
  induction items with
  | nil => rfl
  | cons item items ih =>
      unfold add upsert
      rw [List.map_cons, List.any_cons]
      cases same item.1 k with
      | true => rfl
      | false =>
          rw [if_neg Bool.false_ne_true, List.map_cons, ih, add, Bool.false_or]
          split
          · rfl
          · rfl

theorem keys_build {key : A → K} {f : A → Option V → V} (items : List (K × V)) (as : List A) :
    (build same key f items as).map (·.1) = union same (items.map (·.1)) (as.map key) := by
  induction as generalizing items with
  | nil => rfl
  | cons a as ih =>
      refine (ih (upsert same (f a) (key a) items)).trans ?_
      rw [keys_upsert]
      rfl

/-- What has keys that are not the same as `k` is passed over. -/
theorem upsert_append {f : Option V → V} {k : K} {items items' : List (K × V)}
    (h : ∀ item ∈ items, same item.1 k = false) : upsert same f k (items ++ items') = items ++ upsert same f k items' := by
  induction items with
  | nil => rfl
  | cons item items ih =>
      rw [List.cons_append, upsert, if_neg (Bool.eq_false_iff.mp (h item List.mem_cons_self)),
        ih fun item' h' => h item' (List.mem_cons_of_mem item h'), List.cons_append]

theorem build_append {key : A → K} {f : A → Option V → V} {items items' : List (K × V)} {as : List A}
    (h : ∀ a ∈ as, ∀ item ∈ items, same item.1 (key a) = false) :
    build same key f (items ++ items') as = items ++ build same key f items' as := by
  induction as generalizing items' with
  | nil => rfl
  | cons a as ih =>
      refine (congrArg (build same key f · as) (upsert_append (h a List.mem_cons_self))).trans ?_
      exact ih fun a' h' => h a' (List.mem_cons_of_mem a h')

theorem add_cons_of_not_same {s : List K} {k k' : K} (h : same k' k = false) : add same (k' :: s) k = k' :: add same s k := by
  unfold add
  rw [List.any_cons, h, Bool.false_or]
  split
  · rfl
  · rfl

theorem upsert_map [DecidableEq K] (hrefl : ∀ k, same k k = true) {f : Option V → V} {g : K → V} {ks : List K} {k : K}
    (hnodup : ks.Nodup) (h : Apart same (k :: ks)) : upsert same f k (ks.map fun k' => (k', g k')) =
      (add same ks k).map fun k' => (k', if k' = k then f (if k ∈ ks then some (g k) else none) else g k') := by
  induction ks with
  | nil => simp [upsert, add]
  | cons k' ks ih =>
      rw [List.map_cons, upsert]
      cases hsame : same k' k with
      | true =>
          cases h k' (List.mem_cons_of_mem k List.mem_cons_self) k List.mem_cons_self hsame
          have htail : ∀ k'' ∈ ks, (k'', g k'') = (k'', if k'' = k then f (some (g k)) else g k'') := by
            intro k'' hk''
            rw [if_neg fun heq : k'' = k => hnodup.notMem (heq ▸ hk'')]
          rw [if_pos rfl, add_eq hrefl h, if_pos List.mem_cons_self, if_pos List.mem_cons_self, List.map_cons, if_pos rfl,
            List.map_congr_left htail]
      | false =>
          have hne : k' ≠ k := by
            rintro rfl
            exact Bool.false_ne_true (hsame.symm.trans (hrefl k'))
          have hks : Apart same (k :: ks) := h.mono (List.cons_subset_cons k (List.subset_cons_self k' ks))
          rw [if_neg Bool.false_ne_true, ih hnodup.of_cons hks, add_cons_of_not_same hsame, List.map_cons, if_neg hne]
          simp only [List.mem_cons, hne.symm, false_or]

theorem nodup_distinct (hrefl : ∀ k, same k k = true) (ks : List K) : (distinct same ks).Nodup := by
  refine (pairwise_union List.Pairwise.nil ks).imp ?_
  rintro k _ hsame rfl
  exact Bool.false_ne_true (hsame.symm.trans (hrefl k))

/-- What a table built of keys that are apart has, if `g` says what the first of `as` leave under each key. -/
theorem build_eq [DecidableEq K] (hrefl : ∀ k, same k k = true) {key : A → K} {f : A → Option V → V} {g : List A → K → V}
    (hstep : ∀ as a k, g (as ++ [a]) k =
      if k = key a then f a (if key a ∈ as.map key then some (g as (key a)) else none) else g as k)
    {as : List A} (h : Apart same (as.map key)) :
    build same key f [] as = (distinct same (as.map key)).map fun k => (k, g as k) := by
  induction as using List.reverseRecOn with
  | nil => rfl
  | append_singleton as a ih =>
      rw [List.map_append, List.map_cons, List.map_nil] at h ⊢
      have has : Apart same (as.map key) := h.mono (List.subset_append_left _ _)
      have ha : Apart same (key a :: distinct same (as.map key)) := by
        apply h.mono
        intro k hk
        rcases List.mem_cons.mp hk with rfl | hk
        · exact List.mem_append_right _ (List.mem_singleton_self _)
        · exact List.mem_append_left _ (mem_of_mem_distinct hk)
      have hlast : build same key f [] (as ++ [a]) = upsert same (f a) (key a) (build same key f [] as) := List.foldl_append
      rw [hlast, ih has, upsert_map hrefl (nodup_distinct hrefl _) ha, distinct_concat]
      apply List.map_congr_left
      intro k _
      rw [hstep, if_congr (mem_distinct_iff hrefl has) rfl rfl]

/-- How often each key occurs. -/
theorem tally_eq [DecidableEq K] (hrefl : ∀ k, same k k = true) {ks : List K} (h : Apart same ks) :
    tally same ks = (distinct same ks).map fun k => (k, ks.count k) := by
  have hstep : ∀ (ks : List K) (l k : K), (ks ++ [l]).count k =
      if k = id l then (if id l ∈ ks.map id then some (ks.count (id l)) else none).getD 0 + 1 else ks.count k := by
    intro ks l k
    rw [List.map_id, List.count_append, List.count_singleton]
    by_cases hk : k = l
    · subst hk
      by_cases hmem : k ∈ ks
      · simp [hmem]
      · simp [hmem, List.count_eq_zero_of_not_mem hmem]
    · simp [hk, Ne.symm hk]
  have hbuild := build_eq (f := fun _ n => n.getD 0 + 1) (g := fun ks k => ks.count k) hrefl hstep (List.map_id ks ▸ h)
  rw [List.map_id] at hbuild
  exact hbuild

/-- The items of each key, in their order. -/
theorem collect_eq [DecidableEq K] (hrefl : ∀ k, same k k = true) {key : A → K} {as : List A} (h : Apart same (as.map key)) :
    collect same key [] as = (distinct same (as.map key)).map fun k => (k, as.filter fun a => decide (key a = k)) := by
  refine build_eq (g := fun as k => as.filter fun a => decide (key a = k)) hrefl ?_ h
  intro as a k
  rw [List.filter_append, List.filter_cons, List.filter_nil]
  by_cases hk : k = key a
  · subst hk
    by_cases hmem : key a ∈ as.map key
    · simp [hmem]
    · have hnone : as.filter (fun a' => decide (key a' = key a)) = [] := by
        rw [List.filter_eq_nil_iff]
        intro a' ha' hkey
        exact hmem (List.mem_map.mpr ⟨a', ha', of_decide_eq_true hkey⟩)
      rw [if_pos rfl, if_neg hmem, hnone, if_pos (decide_eq_true rfl)]
      rfl
  · rw [if_neg hk, if_neg fun heq => hk (of_decide_eq_true heq).symm, List.append_nil]

end Grouping
