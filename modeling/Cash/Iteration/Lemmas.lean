import Cash.Iteration.Pass
import Cash.Lib.Items

/-!
# What a pass binds and what its context prints
-/

namespace Cash.Iteration

open Py Literal Items

variable {O : Type} {w : World O}

/-! ## The names of a target -/

mutual

/-- The names an assignment to the target binds. -/
def Target.names : Target → List Str
  | .name id => [id]
  | .seq elts => namesEach elts
  | .starSeq before rest after => namesEach before ++ rest :: namesEach after

def namesEach : List Target → List Str
  | [] => []
  | t :: ts => t.names ++ namesEach ts

end

mutual

/-- The starred names among them. -/
def Target.starred : Target → List Str
  | .name _ => []
  | .seq elts => starredEach elts
  | .starSeq before rest after => starredEach before ++ rest :: starredEach after

def starredEach : List Target → List Str
  | [] => []
  | t :: ts => t.starred ++ starredEach ts

end

mutual

theorem mem_names : ∀ (t : Target) {k : Str}, k ∈ t.names ↔ k ∈ extractTargetNames t ∨ k ∈ t.starred
  | .name id, k => by simp [Target.names, extractTargetNames, Target.starred]
  | .seq elts, k => mem_namesEach elts
  | .starSeq before rest after, k => by
      rw [Target.names, extractTargetNames, Target.starred]
      simp only [List.mem_append, List.mem_cons, mem_namesEach before, mem_namesEach after]
      tauto

theorem mem_namesEach : ∀ (ts : List Target) {k : Str}, k ∈ namesEach ts ↔ k ∈ extractEach ts ∨ k ∈ starredEach ts
  | [], k => by simp [namesEach, extractEach, starredEach]
  | t :: ts, k => by
      rw [namesEach, extractEach, starredEach]
      simp only [List.mem_append, mem_names t, mem_namesEach ts]
      tauto

end

mutual

theorem names_assign : ∀ (t : Target) {v : Value O} {writes : List (Str × Value O)}, assign w t v = some writes →
    writes.map (·.1) = t.names
  | .name id, v, writes, h => by
      cases h
      rfl
  | .seq elts, v, writes, h => by
      rw [assign, Option.bind_eq_some_iff] at h
      obtain ⟨vals, -, h⟩ := h
      split at h
      · next hlen => exact names_assignEach elts hlen h
      · cases h
  | .starSeq before rest after, v, writes, h => by
      rw [assign, Option.bind_eq_some_iff] at h
      obtain ⟨vals, -, h⟩ := h
      split at h
      · cases h
      · next hlen =>
        simp only [Option.bind_eq_some_iff, Option.map_eq_some_iff] at h
        obtain ⟨first, hfirst, last, hlast, rfl⟩ := h
        rw [List.map_append, List.map_cons, names_assignEach before (by rw [List.length_take]; omega) hfirst,
          names_assignEach after (by rw [List.length_drop]; omega) hlast, Target.names]

theorem names_assignEach : ∀ (ts : List Target) {vals : List (Value O)} {writes : List (Str × Value O)},
    vals.length = ts.length → assignEach w ts vals = some writes → writes.map (·.1) = namesEach ts
  | [], vals, writes, hlen, h => by
      rw [assignEach] at h
      · cases h
        rfl
      · intro t ts v vs hts
        cases hts
  | t :: ts, [], writes, hlen, h => by cases hlen
  | t :: ts, v :: vs, writes, hlen, h => by
      rw [assignEach] at h
      simp only [Option.bind_eq_some_iff, Option.map_eq_some_iff] at h
      obtain ⟨first, hfirst, last, hlast, rfl⟩ := h
      rw [List.map_append, names_assign t hfirst, names_assignEach ts (Nat.succ.inj hlen) hlast, namesEach]

end

/-! ## Binding -/

mutual

/-- A pass binds when an assignment does. -/
theorem isSome_bindTargetValues : ∀ (t : Target) (v : Value O) (ns : Namespace O),
    (bindTargetValues w t v ns).isSome = (assign w t v).isSome
  | .name id, v, ns => rfl
  | .seq elts, v, ns => by
      rw [bindTargetValues, assign]
      cases hitems : items w v with
      | none => rfl
      | some vals =>
          rw [Option.bind_some, Option.bind_some]
          split
          · exact isSome_bindEach elts vals ns []
          · rfl
  | .starSeq before rest after, v, ns => by rw [bindTargetValues, bindByAssignment, Option.isSome_map]

theorem isSome_bindEach : ∀ (ts : List Target) (vals : List (Value O)) (ns : Namespace O) (b : List (Str × Value O)),
    (bindEach w ts vals ns b).isSome = (assignEach w ts vals).isSome
  | [], vals, ns, b => by
      rw [bindEach, assignEach]
      · rfl
      all_goals exact fun _ _ _ _ h => by cases h
  | t :: ts, [], ns, b => by
      rw [bindEach, assignEach]
      · rfl
      all_goals exact fun _ _ _ _ _ h => by cases h
  | t :: ts, v :: vs, ns, b => by
      have hhead := isSome_bindTargetValues t v ns
      rw [bindEach, assignEach]
      cases hbind : bindTargetValues w t v ns with
      | none =>
          rw [hbind] at hhead
          have hnone : assign w t v = none := Option.not_isSome_iff_eq_none.mp (by rw [← hhead]; exact Bool.false_ne_true)
          rw [hnone]
          rfl
      | some r =>
          rw [hbind] at hhead
          obtain ⟨first, hfirst⟩ := Option.isSome_iff_exists.mp hhead.symm
          rw [hfirst, Option.bind_some, Option.bind_some, Option.isSome_map]
          exact isSome_bindEach ts vs r.2 _

end

mutual

/-- Only names that `extract_target_names` gives are in the bindings. -/
theorem keys_bindTargetValues : ∀ (t : Target) {v : Value O} {ns : Namespace O} {r : List (Str × Value O) × Namespace O},
    bindTargetValues w t v ns = some r → ∀ k ∈ keys r.1, k ∈ extractTargetNames t
  | .name id, v, ns, r, h, k, hk => by
      cases h
      exact hk
  | .seq elts, v, ns, r, h, k, hk => by
      rw [bindTargetValues, Option.bind_eq_some_iff] at h
      obtain ⟨vals, -, h⟩ := h
      split at h
      · rcases keys_bindEach elts h k hk with hk | hk
        · cases hk
        · exact hk
      · cases h
  | .starSeq before rest after, v, ns, r, h, k, hk => by
      rw [bindTargetValues, bindByAssignment, Option.map_eq_some_iff] at h
      obtain ⟨writes, -, rfl⟩ := h
      have hfold : ∀ (ns' : Namespace O) (names : List Str) (b : List (Str × Value O)),
          k ∈ keys (names.foldl (fun bindings name => (ns' name).elim bindings (Dict.setItem bindings name)) b) →
          k ∈ keys b ∨ k ∈ names := by
        intro ns' names
        induction names with
        | nil => exact fun b hk => .inl hk
        | cons name names ih =>
            intro b hk
            rcases ih _ hk with hk | hk
            · dsimp only at hk
              cases hname : ns' name with
              | none =>
                  rw [hname] at hk
                  exact .inl hk
              | some v =>
                  rw [hname] at hk
                  rcases Dict.mem_keys_setItem.mp hk with rfl | hk
                  · exact .inr List.mem_cons_self
                  · exact .inl hk
            · exact .inr (List.mem_cons_of_mem _ hk)
      rcases hfold _ _ _ hk with hk | hk
      · cases hk
      · exact hk

theorem keys_bindEach : ∀ (ts : List Target) {vals : List (Value O)} {ns : Namespace O} {b : List (Str × Value O)}
    {r : List (Str × Value O) × Namespace O}, bindEach w ts vals ns b = some r →
    ∀ k ∈ keys r.1, k ∈ keys b ∨ k ∈ extractEach ts
  | [], vals, ns, b, r, h, k, hk => by
      rw [bindEach] at h
      · cases h
        exact .inl hk
      · exact fun _ _ _ _ h => by cases h
  | t :: ts, [], ns, b, r, h, k, hk => by
      rw [bindEach] at h
      · cases h
        exact .inl hk
      · exact fun _ _ _ _ _ h => by cases h
  | t :: ts, v :: vs, ns, b, r, h, k, hk => by
      rw [bindEach, Option.bind_eq_some_iff] at h
      obtain ⟨q, hq, h⟩ := h
      rw [extractEach, List.mem_append]
      rcases keys_bindEach ts h k hk with hk | hk
      · have hfold : ∀ (items b : List (Str × Value O)),
            k ∈ keys (items.foldl (fun bindings p => Dict.setItem bindings p.1 p.2) b) → k ∈ keys b ∨ k ∈ keys items := by
          intro items
          induction items with
          | nil => exact fun b hk => .inl hk
          | cons p items ih =>
              intro b hk
              rcases ih _ hk with hk | hk
              · rcases Dict.mem_keys_setItem.mp hk with rfl | hk
                · exact .inr List.mem_cons_self
                · exact .inl hk
              · exact .inr (List.mem_cons_of_mem _ hk)
        rcases hfold _ _ hk with hk | hk
        · exact .inl hk
        · exact .inr (.inl (keys_bindTargetValues t hq k hk))
      · exact .inr (.inr hk)

end

/-- The bindings and the namespace hold what was last written under each name. -/
structure Bound (old : Str → Option (Value O)) (ns : Namespace O) (writes : List (Str × Value O))
    (r : List (Str × Value O) × Namespace O) : Prop where
  nodup : (keys r.1).Nodup
  bindings : ∀ k, r.1.lookup k = lastFrom (old k) writes k
  namespace_ : ∀ k, r.2 k = lastFrom (ns k) writes k

mutual

/-- Without a starred name the values are bound as an assignment binds them. -/
theorem bound_bindTargetValues : ∀ (t : Target) {v : Value O} {ns : Namespace O} {r : List (Str × Value O) × Namespace O}
    {writes : List (Str × Value O)}, t.starred = [] → bindTargetValues w t v ns = some r → assign w t v = some writes →
    Bound (fun _ => none) ns writes r
  | .name id, v, ns, r, writes, hstar, h, hassign => by
      cases h
      cases hassign
      refine ⟨List.nodup_singleton id, fun k => ?_, fun k => Function.update_apply ..⟩
      exact lookup_foldl_setItem [(id, v)] [] k
  | .seq elts, v, ns, r, writes, hstar, h, hassign => by
      rw [bindTargetValues, Option.bind_eq_some_iff] at h
      rw [assign, Option.bind_eq_some_iff] at hassign
      obtain ⟨vals, hvals, h⟩ := h
      obtain ⟨vals', hvals', hassign⟩ := hassign
      obtain rfl := Option.some.inj (hvals.symm.trans hvals')
      split at h
      · next hlen =>
        rw [if_pos hlen] at hassign
        exact bound_bindEach elts hlen hstar (show (keys []).Nodup from List.nodup_nil) h hassign
      · cases h
  | .starSeq before rest after, v, ns, r, writes, hstar, h, hassign => by
      rw [Target.starred, List.append_eq_nil_iff] at hstar
      cases hstar.2

theorem bound_bindEach : ∀ (ts : List Target) {vals : List (Value O)} {ns : Namespace O} {b : List (Str × Value O)}
    {r : List (Str × Value O) × Namespace O} {writes : List (Str × Value O)}, vals.length = ts.length →
    starredEach ts = [] → (keys b).Nodup → bindEach w ts vals ns b = some r → assignEach w ts vals = some writes →
    Bound (fun k => b.lookup k) ns writes r
  | [], vals, ns, b, r, writes, hlen, hstar, hb, h, hassign => by
      rw [bindEach] at h
      · rw [assignEach] at hassign
        · cases h
          cases hassign
          exact ⟨hb, fun k => rfl, fun k => rfl⟩
        · exact fun _ _ _ _ h => by cases h
      · exact fun _ _ _ _ h => by cases h
  | t :: ts, [], ns, b, r, writes, hlen, hstar, hb, h, hassign => by cases hlen
  | t :: ts, v :: vs, ns, b, r, writes, hlen, hstar, hb, h, hassign => by
      rw [starredEach, List.append_eq_nil_iff] at hstar
      rw [bindEach, Option.bind_eq_some_iff] at h
      rw [assignEach] at hassign
      simp only [Option.bind_eq_some_iff, Option.map_eq_some_iff] at hassign
      obtain ⟨q, hq, h⟩ := h
      obtain ⟨first, hfirst, last, hlast, rfl⟩ := hassign
      have hhead := bound_bindTargetValues t hstar.1 hq hfirst
      have hrest := bound_bindEach ts (Nat.succ.inj hlen) hstar.2 (nodup_foldl_setItem q.1 hb) h hlast
      refine ⟨hrest.nodup, fun k => ?_, fun k => ?_⟩
      · rw [hrest.bindings, lookup_foldl_setItem, lastFrom_append, lastFrom_of_nodup hhead.nodup, hhead.bindings,
          ← lastFrom_or]
      · rw [hrest.namespace_, lastFrom_append, hhead.namespace_]

end

/-! ## What a context prints -/

/-- What a context prints under a name. -/
def Context.shownAt (w : World O) (ctx : Context O) (k : Str) : Option Plain := (ctx.values.lookup k).map (ctx.shown w k)

/-- What is printed of a value bound with a digest. -/
def keyOf (w : World O) (digests : List (Str × Str)) (name : Str) (v : Value O) : Plain :=
  (plainOf v).getD (.prim (.str ((digests.lookup name).getD (w.computeHash v))))

/-- The items that are printed. -/
def Context.items (w : World O) (ctx : Context O) : List (Str × Plain) :=
  ctx.values.entries.map fun e => (e.1, ctx.shown w e.1 e.2)

theorem nodup_items (ctx : Context O) : (keys (ctx.items w)).Nodup := by
  have hkeys : keys (ctx.items w) = ctx.values.keys := by
    rw [keys, Context.items, List.map_map]
    rfl
  rw [hkeys]
  exact ctx.values.keys_nodup

end Cash.Iteration
