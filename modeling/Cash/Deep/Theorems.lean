import Cash.Deep.Lemmas
import Cash.Flat.Lemmas
import Mathlib.Data.Finset.Card
import Mathlib.Data.Finset.Range
import Mathlib.Logic.Relation

/-!
# The copies that `deep_copy` makes

However deep a value is, and whatever holds what in it, but a tuple itself through tuples alone: `deep_copy` ends, and what it
returns is a copy of the value, object by object, with the same sharing and the same cycles; nothing that was there before is
changed. Where it raises, an object is rebuilt from arguments that hold it, or a call made for one that the value holds raises
(`deepCopy_copies`).
-/

namespace Cash.Deep

open Flat (Reduce Result inTurn)

variable {ρ σ δ ε : Type} {s : Start ρ σ δ ε} {st st' : State ρ σ δ ε} {F : Frame ρ σ} {stack : List (Frame ρ σ)}
  {x c obj : Nat}

/-! ## Runs -/

def Start.state (s : Start ρ σ δ ε) : State ρ σ δ ε := ⟨⟨s.heap, s.next, s.memo⟩, [], [], .start s.value⟩

theorem inv_initial (hs : s.Closed) : Inv s s.state s.value where
  kept := ⟨fun _ _ => rfl, Nat.le_refl _, fun _ _ h => h, fun x c hc hnone => (by cases hnone.symm.trans hc),
    fun x y c hc _ hle => absurd (hs.memo x c hc) (Nat.not_lt.2 hle)⟩
  below := ⟨fun _ h => (by cases h), List.nodup_nil, fun _ h => (by cases h), rfl⟩
  mode := .inl ⟨rfl, hs.value⟩

theorem run_send (hmode : st.mode = .send c) (hstack : st.stack = F :: stack) (fuel : Nat) :
    st.run s.code (fuel + 1) = ({ st with stack := stack }.resume s.code c F).bind (State.run s.code fuel) := by
  rw [State.run, hmode]
  dsimp only
  rw [hstack]

theorem run_inv (hs : s.Closed) {fuel : Nat} (hi : Inv s st x) (h : st.run s.code fuel = .ok st') :
    Inv s st' s.value ∧ ∃ copy, st'.mode = .send copy ∧ st'.stack = [] := by
  induction fuel generalizing st x with
  | zero => cases h
  | succ fuel ih =>
      rw [State.run] at h
      cases hmode : st.mode with
      | start obj =>
          rw [hmode] at h
          obtain ⟨st₁, hstart, hrun⟩ := Flat.Result.bind_eq_ok.1 h
          obtain ⟨y, hi₁⟩ := inv_start hs hi hmode hstart
          exact ih hi₁ hrun
      | send c =>
          rw [hmode] at h
          dsimp only at h
          cases hstack : st.stack with
          | nil =>
              rw [hstack] at h
              cases h
              have hx : x = s.value := by
                have hawaits := hi.below.awaits
                rwa [hstack] at hawaits
              exact ⟨hx ▸ hi, c, hmode, hstack⟩
          | cons F stack =>
              rw [hstack] at h
              obtain ⟨st₁, hresume, hrun⟩ := Flat.Result.bind_eq_ok.1 h
              obtain ⟨y, hi₁⟩ := inv_resume hs hi hmode hstack hresume
              exact ih hi₁ hrun

/-- An object of the value, down to what the memo held before. -/
def Reached (s : Start ρ σ δ ε) (x : Nat) : Prop :=
  Relation.ReflTransGen (fun u v => s.memo u = none ∧ v ∈ (s.heap u).kids) s.value x

/-- What is returned is a copy of the value. -/
structure Copies (s : Start ρ σ δ ε) (st : State ρ σ δ ε) (copy : Nat) : Prop where
  value : copyOf s.heap st.memo s.value = some copy
  /-- Nothing that was there is changed. -/
  old : ∀ x < s.next, st.heap x = s.heap x
  given : ∀ x c, s.memo x = some c → st.memo x = some c
  /-- The copy of an object holds the copies of what the object holds. -/
  same : ∀ x, Reached s x → ∃ c, copyOf s.heap st.memo x = some c ∧
    (s.memo x = none → st.heap c = (s.heap x).mapped s.code s.heap x c (image s.heap st.memo))
  /-- A copy is new, but where an object that was there stands for another, or for itself. -/
  fresh : ∀ x c, st.memo x = some c → s.memo x = none → s.next ≤ c ∨ Stands s x c
  /-- What is one object in the copy was one in the value. -/
  once : ∀ x y c, st.memo x = some c → st.memo y = some c → s.next ≤ c → x = y

/-- What is returned, however deep the value is, and whatever holds what in it. -/
theorem copies_of_ok (hs : s.Closed) {fuel : Nat} (h : deepCopy s.code s.heap s.next s.memo fuel s.value = .ok st) :
    ∃ copy, st.mode = .send copy ∧ Copies s st copy := by
  obtain ⟨⟨hkept, -, hwaits⟩, copy, hmode, hstack⟩ := run_inv hs (inv_initial hs) h
  have hvalue : copyOf s.heap st.memo s.value = some copy := by
    rcases hwaits with ⟨hstart, -⟩ | ⟨c, hsend, hc⟩
    · rw [hmode] at hstart
      cases hstart
    · rw [hmode] at hsend
      cases hsend
      exact hc
  rw [hstack] at hkept
  have hentry (x c : Nat) (hc : st.memo x = some c) (hgiven : s.memo x = none) : Entry s st.toStore x c ∧ Done s st.toStore x c :=
    (hkept.entry x c hc hgiven).imp_right fun hdone => hdone.resolve_left (List.not_mem_nil)
  -- All that is reached has its copy: the value has, and where an object has, so has what it holds.
  have hreached (x : Nat) (hx : Reached s x) : x < s.next ∧ ∃ c, copyOf s.heap st.memo x = some c := by
    induction hx with
    | refl => exact ⟨hs.value, copy, hvalue⟩
    | @tail u v hu hkid ih =>
        obtain ⟨hgiven, hkid⟩ := hkid
        obtain ⟨hlt, c, hc⟩ := ih
        refine ⟨hs.kids u hlt v hkid, ?_⟩
        have hcopy : (s.heap u).HasCopy := by
          cases hu' : s.heap u with
          | shared => rw [hu'] at hkid; cases hkid
          | named => rw [hu'] at hkid; cases hkid
          | unreduced => rw [hu'] at hkid; cases hkid
          | _ => trivial
        rw [copyOf_of_hasCopy hcopy] at hc
        exact (hentry u c hc hgiven).2.kids v hkid
  refine ⟨copy, hmode, hvalue, hkept.old, hkept.given, fun x hx => ?_, fun x c hc hgiven => (hentry x c hc hgiven).1.fresh,
    hkept.once⟩
  obtain ⟨hlt, c, hc⟩ := hreached x hx
  refine ⟨c, hc, fun hgiven => ?_⟩
  by_cases hcopy : (s.heap x).HasCopy
  · rw [copyOf_of_hasCopy hcopy] at hc
    exact (hentry x c hc hgiven).2.cell
  · have hnone : st.memo x = none := by
      cases hmemo : st.memo x with
      | none => rfl
      | some d => exact absurd (hentry x d hmemo hgiven).1.hasCopy hcopy
    unfold copyOf at hc
    cases hx' : s.heap x with
    | shared =>
        rw [hx'] at hc
        cases hc
        rw [hkept.old x hlt, hx']
        rfl
    | named =>
        rw [hx', hnone] at hc
        cases hc
        change st.heap x = _
        rw [hkept.old x hlt, hx']
        rfl
    | unreduced e =>
        rw [hx', hnone] at hc
        cases hc
    | _ => exact absurd (by rw [hx']; trivial) hcopy

/-! ## What is raised -/

/-- An object holds another, itself or through what it holds. -/
def Leads (s : Start ρ σ δ ε) : Nat → Nat → Prop := Relation.ReflTransGen fun u v => v ∈ (s.heap u).kids

/-- What a call raises that is made for an object, or for its copy. -/
inductive Raises (s : Start ρ σ δ ε) (obj : Nat) : ε → Prop
  | reduce (e : ε) (h : s.heap obj = .unreduced e) : Raises s obj e
  | own (data : δ) (e : ε) (h : s.heap obj = .apart data) (he : s.code.own obj data = .raised e) : Raises s obj e
  | rebuild (r : Reduce ρ σ) (args : Nat) (e : ε) (h : s.heap obj = .reduced r) (he : s.code.rebuild r args = .raised e) :
      Raises s obj e
  | append (copied item : Nat) (e : ε) (h : (s.heap obj).Filled) (hlist : (s.heap obj).isList = false) (hnew : s.next ≤ copied)
      (he : s.code.append copied item = some e) : Raises s obj e
  | setitem (copied key value : Nat) (e : ε) (h : (s.heap obj).Filled) (hnew : s.next ≤ copied)
      (he : s.code.setitem copied key value = some e) : Raises s obj e
  | setState (copied state : Nat) (e : ε) (h : (s.heap obj).Filled) (hnew : s.next ≤ copied)
      (he : s.code.setState copied state = some e) : Raises s obj e

/-- Why a copy raises. -/
def Fault (s : Start ρ σ δ ε) : Flat.Error ε → Prop
  | .holdsItself obj => Leads s s.value obj ∧ ∃ r, s.heap obj = .reduced r ∧ Leads s r.args obj
  | .tooDeep => False
  | .raised e => ∃ obj, Leads s s.value obj ∧ Raises s obj e

theorem awaits_leads {t : Store ρ σ δ ε} {making : List Nat} (hawaits : Awaits s.value stack x)
    (hframes : ∀ F ∈ stack, F.Ok s t making) : Leads s s.value x ∧ ∀ F ∈ stack, Leads s F.part x := by
  induction stack generalizing x with
  | nil =>
      cases hawaits
      exact ⟨.refl, fun _ hF => by cases hF⟩
  | cons F stack ih =>
      obtain ⟨rfl, hawaits⟩ := hawaits
      obtain ⟨hok, hframes⟩ := List.forall_mem_cons.1 hframes
      obtain ⟨hvalue, hbelow⟩ := ih hawaits hframes
      refine ⟨hvalue.tail hok.part_mem, fun G hG => ?_⟩
      rcases List.mem_cons.1 hG with rfl | hG
      · exact .refl
      · exact (hbelow G hG).tail hok.part_mem

theorem start_raises {e : Flat.Error ε} (hi : Inv s st x) (hmode : st.mode = .start obj) (h : st.start s.code obj = .error e) :
    Fault s e := by
  obtain ⟨rfl, hlt⟩ := hi.of_start hmode
  obtain ⟨hkept, hbelow, -⟩ := hi
  obtain ⟨hvalue, hparts⟩ := awaits_leads hbelow.awaits hbelow.frames
  rw [State.start, hkept.old obj hlt] at h
  split at h
  · cases h
  · split at h
    · cases h
    · cases hobj : s.heap obj with
      | reduced r =>
          rw [hobj] at h
          dsimp only at h
          split at h
          · rename_i hmem
            cases h
            obtain ⟨r', hr'⟩ := hbelow.making obj hmem
            have hok := hbelow.frames _ hr'
            exact ⟨hvalue, r', hok.2.1, hparts _ hr'⟩
          · cases h
      | apart data =>
          rw [hobj] at h
          dsimp only at h
          cases hown : s.code.own obj data with
          | raised e =>
              rw [hown] at h
              cases h
              exact ⟨obj, hvalue, .own data e hobj hown⟩
          | _ => rw [hown] at h; cases h
      | unreduced e =>
          rw [hobj] at h
          cases h
          exact ⟨obj, hvalue, .reduce e hobj⟩
      | _ => rw [hobj] at h; cases h

theorem State.raised_of_after {raised : Option ε} {e : Flat.Error ε} (h : State.after raised st = .error e) :
    ∃ e', raised = some e' ∧ e = .raised e' := by
  cases raised with
  | none => cases h
  | some e' =>
      cases h
      exact ⟨e', rfl, rfl⟩

theorem resume_raises {e : Flat.Error ε} (hi : Inv s st x) (hstack : st.stack = F :: stack)
    (h : { st with stack := stack }.resume s.code c F = .error e) : Fault s e := by
  obtain ⟨hkept, hbelow, -⟩ := hi
  obtain ⟨-, hparts⟩ := awaits_leads hbelow.awaits hbelow.frames
  have hF : F ∈ st.stack := hstack ▸ List.mem_cons_self
  have hok := hbelow.frames F hF
  have hvalue : Leads s s.value F.obj := by
    have hawaits := hbelow.awaits
    rw [hstack] at hawaits
    exact (awaits_leads hawaits.2 fun G hG => hbelow.frames G (hstack ▸ List.mem_cons_of_mem _ hG)).1
  cases F with
  | item obj copied item rest pairs state =>
      have hfilling : Filling s st.toStore obj copied (item :: rest) pairs state := hok
      obtain ⟨e', he, rfl⟩ := State.raised_of_after h
      refine ⟨obj, hvalue, ?_⟩
      change (if (st.heap obj).isList then none else s.code.append copied c) = some e' at he
      rw [hkept.old obj hfilling.lt] at he
      split at he
      · cases he
      · exact .append copied c e' hfilling.filled (Bool.eq_false_iff.mpr ‹_›) hfilling.fresh he
  | key => cases h
  | value obj copied newKey v rest state =>
      obtain ⟨k, -, hfilling⟩ := hok
      obtain ⟨e', he, rfl⟩ := State.raised_of_after h
      exact ⟨obj, hvalue, .setitem copied newKey c e' hfilling.filled hfilling.fresh he⟩
  | tuple => cases h
  | args obj r =>
      rw [State.resume] at h
      dsimp only at h
      cases hgives : s.code.rebuild r c with
      | raised e' =>
          rw [hgives] at h
          cases h
          exact ⟨obj, hvalue, .rebuild r c e' hok.2.1 hgives⟩
      | _ => rw [hgives] at h; cases h
  | state obj copied part =>
      have hfilling : Filling s st.toStore obj copied [] [] (some part) := hok
      obtain ⟨e', he, rfl⟩ := State.raised_of_after h
      exact ⟨obj, hvalue, .setState copied c e' hfilling.filled hfilling.fresh he⟩

theorem run_raises (hs : s.Closed) {fuel : Nat} {e : Flat.Error ε} (hi : Inv s st x) (h : st.run s.code fuel = .error e) :
    Fault s e := by
  induction fuel generalizing st x with
  | zero => cases h
  | succ fuel ih =>
      cases hmode : st.mode with
      | start obj =>
          rw [State.run, hmode] at h
          dsimp only at h
          cases hstart : st.start s.code obj with
          | ok st₁ =>
              rw [hstart] at h
              obtain ⟨y, hi₁⟩ := inv_start hs hi hmode hstart
              exact ih hi₁ h
          | error e' =>
              rw [hstart] at h
              cases h
              exact start_raises hi hmode hstart
          | stuck =>
              rw [hstart] at h
              cases h
      | send c =>
          cases hstack : st.stack with
          | nil =>
              rw [State.run, hmode] at h
              dsimp only at h
              rw [hstack] at h
              cases h
          | cons F stack =>
              rw [run_send hmode hstack] at h
              cases hresume : { st with stack := stack }.resume s.code c F with
              | ok st₁ =>
                  rw [hresume] at h
                  obtain ⟨y, hi₁⟩ := inv_resume hs hi hmode hstack hresume
                  exact ih hi₁ h
              | error e' =>
                  rw [hresume] at h
                  cases h
                  exact resume_raises hi hstack hresume
              | stuck =>
                  rw [hresume] at h
                  cases h

/-! ## That it ends -/

/-- A tuple's item. -/
def ItemOf (s : Start ρ σ δ ε) (y x : Nat) : Prop := ∃ items, s.heap x = .tuple items ∧ y ∈ items

/-- The objects that are filled and whose copying has not begun. -/
noncomputable def todo (s : Start ρ σ δ ε) (st : State ρ σ δ ε) : Finset Nat :=
  open Classical in (Finset.range s.next).filter fun x => (s.heap x).Filled ∧ st.memo x = none ∧ x ∉ st.making

theorem mem_todo : x ∈ todo s st ↔ x < s.next ∧ (s.heap x).Filled ∧ st.memo x = none ∧ x ∉ st.making := by
  classical
  rw [todo, Finset.mem_filter, Finset.mem_range]

def Ends (s : Start ρ σ δ ε) (st : State ρ σ δ ε) : Prop := ∃ fuel, st.run s.code fuel ≠ .stuck

theorem start_ne_stuck {code : Code ρ σ δ ε} : st.start code obj ≠ .stuck := by
  intro h
  unfold State.start at h
  repeat' split at h
  all_goals cases h

theorem resume_ne_stuck {code : Code ρ σ δ ε} : st.resume code c F ≠ .stuck := by
  intro h
  unfold State.resume State.after at h
  repeat' split at h
  all_goals cases h

/-- One turn. -/
theorem ends_of_start (hmode : st.mode = .start obj) (h : ∀ st', st.start s.code obj = .ok st' → Ends s st') : Ends s st := by
  have hrun (fuel : Nat) : st.run s.code (fuel + 1) = (st.start s.code obj).bind (State.run s.code fuel) := by
    rw [State.run, hmode]
  cases hstart : st.start s.code obj with
  | ok st' =>
      obtain ⟨fuel, hfuel⟩ := h st' hstart
      exact ⟨fuel + 1, by rw [hrun, hstart]; exact hfuel⟩
  | error e => exact ⟨1, by rw [hrun, hstart]; exact fun hstuck => by cases hstuck⟩
  | stuck => exact absurd hstart start_ne_stuck

theorem ends_of_send (hmode : st.mode = .send c) (hstack : st.stack = F :: stack)
    (h : ∀ st', { st with stack := stack }.resume s.code c F = .ok st' → Ends s st') : Ends s st := by
  have hrun := run_send (s := s) hmode hstack
  cases hresume : { st with stack := stack }.resume s.code c F with
  | ok st' =>
      obtain ⟨fuel, hfuel⟩ := h st' hresume
      exact ⟨fuel + 1, by rw [hrun, hresume]; exact hfuel⟩
  | error e => exact ⟨1, by rw [hrun, hresume]; exact fun hstuck => by cases hstuck⟩
  | stuck => exact absurd hresume resume_ne_stuck

theorem ends_done (hmode : st.mode = .send c) (hstack : st.stack = []) : Ends s st := by
  refine ⟨1, ?_⟩
  rw [State.run, hmode]
  dsimp only
  rw [hstack]
  exact fun hstuck => by cases hstuck

theorem card_todo_le (hmemo : ∀ y, st'.memo y = none → st.memo y = none)
    (hmaking : ∀ y, st'.memo y = none → y ∈ st.making → y ∈ st'.making) : (todo s st').card ≤ (todo s st).card := by
  refine Finset.card_le_card fun y hy => ?_
  obtain ⟨hlt, hfilled, hnone, hnot⟩ := mem_todo.1 hy
  exact mem_todo.2 ⟨hlt, hfilled, hmemo y hnone, fun hmem => hnot (hmaking y hnone hmem)⟩

/-- An object whose copying begins is one less to begin. -/
theorem card_todo_lt (hmem : obj ∈ todo s st) (hmemo : ∀ y, st'.memo y = none → st.memo y = none)
    (hmaking : ∀ y, st'.memo y = none → y ∈ st.making → y ∈ st'.making)
    (hbegun : st'.memo obj ≠ none ∨ obj ∈ st'.making) : (todo s st').card < (todo s st).card := by
  refine Finset.card_lt_card (Finset.ssubset_iff_subset_ne.2 ⟨fun y hy => ?_, fun heq => ?_⟩)
  · obtain ⟨hlt, hfilled, hnone, hnot⟩ := mem_todo.1 hy
    exact mem_todo.2 ⟨hlt, hfilled, hmemo y hnone, fun hin => hnot (hmaking y hnone hin)⟩
  · rw [← heq] at hmem
    obtain ⟨-, -, hnone, hnot⟩ := mem_todo.1 hmem
    rcases hbegun with hbegun | hbegun
    · exact hbegun hnone
    · exact hnot hbegun

theorem new_memo_none {o : Obj ρ σ δ ε} {y : Nat} (h : (st.new obj o).memo y = none) : y ≠ obj ∧ st.memo y = none := by
  by_cases hy : y = obj
  · subst hy
    rw [show (st.new y o).memo y = some st.next from Function.update_self ..] at h
    cases h
  · exact ⟨hy, (Function.update_of_ne hy _ _).symm.trans h⟩

theorem keep_memo_none {found y : Nat} (h : (st.keep obj found).memo y = none) : y ≠ obj ∧ st.memo y = none := by
  by_cases hy : y = obj
  · subst hy
    rw [show (st.keep y found).memo y = some found from Function.update_self ..] at h
    cases h
  · exact ⟨hy, (Function.update_of_ne hy _ _).symm.trans h⟩

/-- From where the copy of an object is sent, with so many left to begin, every run ends. -/
def Resumes (s : Start ρ σ δ ε) (n : Nat) (stack : List (Frame ρ σ)) : Prop :=
  ∀ st c y, Inv s st y → st.mode = .send c → st.stack = stack → (todo s st).card ≤ n → Ends s st

/-- From where an object is started, every run ends, if those do that go on with its copy. -/
def Starts (s : Start ρ σ δ ε) (n : Nat) (x : Nat) : Prop :=
  ∀ st y, Inv s st y → st.mode = .start x → (todo s st).card ≤ n → Resumes s n st.stack → Ends s st

variable {n : Nat}

theorem ends_copyTuple (hs : s.Closed) {items rest : List Nat} {y : Nat} (hparts : ∀ part ∈ rest, Starts s n part)
    (hi : Inv s (st.copyTuple obj items rest) y) (hn : (todo s st).card ≤ n) (hresumes : Resumes s n st.stack) :
    Ends s (st.copyTuple obj items rest) := by
  induction rest generalizing st items y with
  | nil =>
      rw [State.copyTuple] at hi ⊢
      cases hmemo : st.memo obj with
      | some copied =>
          rw [hmemo] at hi
          exact hresumes _ copied y hi rfl rfl hn
      | none =>
          rw [hmemo] at hi
          dsimp only at hi ⊢
          split at hi
          · rename_i hsame
            rw [if_pos hsame]
            exact hresumes _ obj y hi rfl rfl
              (Nat.le_trans (card_todo_le (fun _ hz => (keep_memo_none hz).2) fun _ _ hmem => hmem) hn)
          · rename_i hsame
            rw [if_neg hsame]
            exact hresumes _ st.next y hi rfl rfl
              (Nat.le_trans (card_todo_le (fun _ hz => (new_memo_none hz).2) fun _ _ hmem => hmem) hn)
  | cons part rest ih =>
      refine hparts part List.mem_cons_self _ y hi rfl hn fun st₁ c z hi₁ hmode hstack hn₁ => ?_
      refine ends_of_send hmode hstack fun st₂ hst₂ => ?_
      obtain ⟨w, hi₂⟩ := inv_resume hs hi₁ hmode hstack hst₂
      cases hst₂
      exact ih (fun q hq => hparts q (List.mem_cons_of_mem _ hq)) hi₂ hn₁ hresumes

theorem ends_fill (hs : s.Closed) {copied : Nat} {items : List Nat} {pairs : List (Nat × Nat)} {state : Option Nat} {y : Nat}
    (hall : ∀ part, Starts s n part) (hi : Inv s (st.fill obj copied items pairs state) y) (hn : (todo s st).card ≤ n)
    (hresumes : Resumes s n st.stack) : Ends s (st.fill obj copied items pairs state) := by
  induction items generalizing st y with
  | cons item rest ih =>
      refine hall item _ y hi rfl hn fun st₁ c z hi₁ hmode hstack hn₁ => ?_
      refine ends_of_send hmode hstack fun st₂ hst₂ => ?_
      obtain ⟨w, hi₂⟩ := inv_resume hs hi₁ hmode hstack hst₂
      obtain rfl := State.eq_of_after hst₂
      exact ih hi₂ hn₁ hresumes
  | nil =>
      induction pairs generalizing st y with
      | cons p rest ih =>
          refine hall p.1 _ y hi rfl hn fun st₁ c z hi₁ hmode hstack hn₁ => ?_
          refine ends_of_send hmode hstack fun st₂ hst₂ => ?_
          obtain ⟨w, hi₂⟩ := inv_resume hs hi₁ hmode hstack hst₂
          cases hst₂
          refine hall p.2 _ w hi₂ rfl hn₁ fun st₃ c' z' hi₃ hmode' hstack' hn₂ => ?_
          refine ends_of_send hmode' hstack' fun st₄ hst₄ => ?_
          obtain ⟨w', hi₄⟩ := inv_resume hs hi₃ hmode' hstack' hst₄
          obtain rfl := State.eq_of_after hst₄
          exact ih hi₄ hn₂ hresumes
      | nil =>
          cases state with
          | some state =>
              refine hall state _ y hi rfl hn fun st₁ c z hi₁ hmode hstack hn₁ => ?_
              refine ends_of_send hmode hstack fun st₂ hst₂ => ?_
              obtain ⟨w, hi₂⟩ := inv_resume hs hi₁ hmode hstack hst₂
              obtain rfl := State.eq_of_after hst₂
              exact hresumes _ copied w hi₂ rfl rfl hn₁
          | none => exact hresumes _ copied y hi rfl rfl hn

theorem todo_fill {copied : Nat} {items : List Nat} {pairs : List (Nat × Nat)} {state : Option Nat} :
    todo s (st.fill obj copied items pairs state) = todo s st := by
  cases items with
  | cons item rest => rfl
  | nil => cases pairs <;> cases state <;> rfl

theorem starts_of_acc (hs : s.Closed) (hfewer : ∀ st y, Inv s st y → (todo s st).card < n → Ends s st)
    (hacc : Acc (ItemOf s) obj) : Starts s n obj := by
  induction hacc with
  | intro obj _ ih =>
      intro st y hi hmode hn hresumes
      refine ends_of_start hmode fun st' hstart => ?_
      obtain ⟨z, hi'⟩ := inv_start hs hi hmode hstart
      have hlt : obj < s.next := (hi.of_start hmode).2
      obtain ⟨hkept, hbelow, -⟩ := hi
      rw [State.start, hkept.old obj hlt] at hstart
      split at hstart
      · cases hstart
        exact hresumes _ obj z hi' rfl rfl hn
      · cases hmemo : st.memo obj with
        | some copied =>
            rw [hmemo] at hstart
            cases hstart
            exact hresumes _ copied z hi' rfl rfl hn
        | none =>
            rw [hmemo] at hstart
            -- What is filled has begun.
            have hnew (o : Obj ρ σ δ ε) (hfilled : (s.heap obj).Filled) (hnot : obj ∉ st.making) {items pairs state}
                (hi' : Inv s ((st.new obj o).fill obj st.next items pairs state) z) :
                Ends s ((st.new obj o).fill obj st.next items pairs state) := by
              refine hfewer _ z hi' ?_
              rw [todo_fill]
              refine Nat.lt_of_lt_of_le (card_todo_lt (mem_todo.2 ⟨hlt, hfilled, hmemo, hnot⟩)
                (fun _ hz => (new_memo_none hz).2) (fun _ _ hmem => hmem) (.inl ?_)) hn
              rw [show (st.new obj o).memo obj = some st.next from Function.update_self ..]
              exact Option.some_ne_none _
            have hnot (hobj : ∀ r, s.heap obj ≠ .reduced r) : obj ∉ st.making := fun hmem => by
              obtain ⟨r, hr⟩ := hbelow.making obj hmem
              exact hobj r (hbelow.frames _ hr).2.1
            cases hobj : s.heap obj with
            | shared =>
                rw [hobj] at hstart
                cases hstart
                exact hresumes _ obj z hi' rfl rfl hn
            | named =>
                rw [hobj] at hstart
                cases hstart
                exact hresumes _ obj z hi' rfl rfl hn
            | apart data =>
                rw [hobj] at hstart
                dsimp only at hstart
                cases hown : s.code.own obj data with
                | made data' =>
                    rw [hown] at hstart
                    cases hstart
                    exact hresumes _ st.next z hi' rfl rfl
                      (Nat.le_trans (card_todo_le (fun _ hz => (new_memo_none hz).2) fun _ _ hmem => hmem) hn)
                | found found =>
                    rw [hown] at hstart
                    cases hstart
                    exact hresumes _ found z hi' rfl rfl
                      (Nat.le_trans (card_todo_le (fun _ hz => (keep_memo_none hz).2) fun _ _ hmem => hmem) hn)
                | raised e =>
                    rw [hown] at hstart
                    cases hstart
            | list items =>
                rw [hobj] at hstart
                cases hstart
                exact hnew _ (hobj ▸ trivial) (hnot fun r hr => by rw [hobj] at hr; cases hr) hi'
            | dict pairs =>
                rw [hobj] at hstart
                cases hstart
                exact hnew _ (hobj ▸ trivial) (hnot fun r hr => by rw [hobj] at hr; cases hr) hi'
            | tuple items =>
                rw [hobj] at hstart
                cases hstart
                exact ends_copyTuple hs (fun part hpart => ih part ⟨items, hobj, hpart⟩) hi' hn hresumes
            | reduced r =>
                rw [hobj] at hstart
                dsimp only at hstart
                split at hstart
                · cases hstart
                · rename_i hnot
                  cases hstart
                  refine hfewer _ z hi' (Nat.lt_of_lt_of_le (card_todo_lt
                    (mem_todo.2 ⟨hlt, hobj ▸ trivial, hmemo, hnot⟩) (fun _ hz => hz)
                    (fun _ _ hmem => List.mem_cons_of_mem _ hmem) (.inr List.mem_cons_self)) hn)
            | unreduced e =>
                rw [hobj] at hstart
                cases hstart

theorem resumes_all (hs : s.Closed) (hall : ∀ part, Starts s n part) : Resumes s n stack := by
  induction stack with
  | nil => exact fun st c y _ hmode hstack _ => ends_done hmode hstack
  | cons F stack ih =>
      intro st c y hi hmode hstack hn
      refine ends_of_send hmode hstack fun st₁ hst₁ => ?_
      obtain ⟨w, hi₁⟩ := inv_resume hs hi hmode hstack hst₁
      cases F with
      | item =>
          obtain rfl := State.eq_of_after hst₁
          exact ends_fill hs hall hi₁ hn ih
      | key obj copied k v rest state =>
          cases hst₁
          refine hall v _ w hi₁ rfl hn fun st₂ c' z hi₂ hmode' hstack' hn₁ => ends_of_send hmode' hstack' fun st₃ hst₃ => ?_
          obtain ⟨w', hi₃⟩ := inv_resume hs hi₂ hmode' hstack' hst₃
          obtain rfl := State.eq_of_after hst₃
          exact ends_fill hs hall hi₃ hn₁ ih
      | value =>
          obtain rfl := State.eq_of_after hst₁
          exact ends_fill hs hall hi₁ hn ih
      | tuple =>
          cases hst₁
          exact ends_copyTuple hs (fun part _ => hall part) hi₁ hn ih
      | args obj r =>
          rw [State.resume] at hst₁
          dsimp only at hst₁
          -- An object leaves `making` with its copy in the memo.
          cases hgives : s.code.rebuild r c with
          | made =>
              rw [hgives] at hst₁
              cases hst₁
              have hless : (todo s (({ st with stack := stack, making := st.making.filter (· ≠ obj) } : State ρ σ δ ε).new obj
                  (.reduced (rebuilt r c)))).card ≤ (todo s st).card :=
                card_todo_le (fun _ hz => (new_memo_none hz).2) fun z hz hmem =>
                  List.mem_filter.2 ⟨hmem, decide_eq_true (new_memo_none hz).1⟩
              exact ends_fill hs hall hi₁ (Nat.le_trans hless hn) ih
          | found found =>
              rw [hgives] at hst₁
              cases hst₁
              have hless : (todo s (({ st with stack := stack, making := st.making.filter (· ≠ obj) } : State ρ σ δ ε).keep obj
                  found)).card ≤ (todo s st).card :=
                card_todo_le (fun _ hz => (keep_memo_none hz).2) fun z hz hmem =>
                  List.mem_filter.2 ⟨hmem, decide_eq_true (keep_memo_none hz).1⟩
              exact ends_fill hs hall hi₁ (Nat.le_trans hless hn) ih
          | raised e =>
              rw [hgives] at hst₁
              cases hst₁
      | state obj copied part =>
          obtain rfl := State.eq_of_after hst₁
          exact ih _ copied w hi₁ rfl rfl hn

theorem ends_all (hs : s.Closed) (hwf : WellFounded (ItemOf s)) (n : Nat) :
    ∀ st y, Inv s st y → (todo s st).card = n → Ends s st := by
  induction n using Nat.strongRecOn with
  | ind n ih =>
      intro st y hi hn
      have hall (part : Nat) : Starts s n part :=
        starts_of_acc hs (fun st' z hi' hlt => ih _ hlt st' z hi' rfl) (hwf.apply part)
      rcases hi.mode with ⟨hmode, -⟩ | ⟨c, hmode, -⟩
      · exact hall y st y hi hmode (Nat.le_of_eq hn) (resumes_all hs hall)
      · exact resumes_all hs hall st c y hi hmode rfl (Nat.le_of_eq hn)

/-- Where no tuple holds itself through tuples alone, `deep_copy` ends: with a copy of the value, or by raising what it should,
for an object that is rebuilt from arguments that hold it, or what a call raised. -/
theorem deepCopy_copies (hs : s.Closed) (hwf : WellFounded (ItemOf s)) :
    ∃ fuel, (∃ st copy, deepCopy s.code s.heap s.next s.memo fuel s.value = .ok st ∧ st.mode = .send copy ∧ Copies s st copy) ∨
      ∃ e, deepCopy s.code s.heap s.next s.memo fuel s.value = .error e ∧ Fault s e := by
  obtain ⟨fuel, hfuel⟩ := ends_all hs hwf _ s.state s.value (inv_initial hs) rfl
  refine ⟨fuel, ?_⟩
  cases hrun : deepCopy s.code s.heap s.next s.memo fuel s.value with
  | ok st =>
      obtain ⟨copy, hmode, hcopies⟩ := copies_of_ok hs hrun
      exact .inl ⟨st, copy, rfl, hmode, hcopies⟩
  | error e => exact .inr ⟨e, rfl, run_raises hs (inv_initial hs) hrun⟩
  | stuck => exact absurd hrun hfuel

/-- Nothing raises, no keys are equal, and an object's own `__deepcopy__` hands back the object. -/
def itself : Code Unit Unit Unit Unit where
  own obj _ := .found obj
  rebuild _ _ := .made ()
  append _ _ := none
  setitem _ _ _ := none
  setState _ _ := none
  same _ _ _ := false

/-- A list that holds itself, a tuple of it, and an object that is its own copy. -/
def knot : Start Unit Unit Unit Unit where
  code := itself
  heap x := if x = 0 then .list [0, 1, 2] else if x = 1 then .tuple [0] else if x = 2 then .apart () else .shared
  next := 3
  memo _ := none
  value := 0

theorem knot_closed : knot.Closed where
  kids x hx y hy := by
    change y < 3
    obtain rfl | rfl | rfl : x = 0 ∨ x = 1 ∨ x = 2 := by
      change x < 3 at hx
      omega
    · change y ∈ [0, 1, 2] at hy
      simp only [List.mem_cons, List.not_mem_nil, or_false] at hy
      omega
    · change y ∈ [0] at hy
      rw [List.mem_singleton.1 hy]
      omega
    · cases hy
  memo _ _ h := by cases h
  value := by decide
  own x hx _ _ _ h := by
    cases h
    exact hx
  rebuild _ _ _ _ _ _ h := by cases h

theorem knot_itemOf {x y : Nat} (h : ItemOf knot y x) : y < x := by
  obtain ⟨items, hitems, hy⟩ := h
  by_cases h0 : x = 0
  · subst h0
    cases hitems
  · by_cases h1 : x = 1
    · subst h1
      cases hitems
      rw [List.mem_singleton.1 hy]
      exact Nat.one_pos
    · by_cases h2 : x = 2
      · subst h2
        cases hitems
      · rw [show knot.heap x = .shared from (if_neg h0).trans ((if_neg h1).trans (if_neg h2))] at hitems
        cases hitems

theorem deepCopy_copies_knot :
    ∃ fuel, (∃ st copy, deepCopy itself knot.heap 3 knot.memo fuel 0 = .ok st ∧ st.mode = .send copy ∧ Copies knot st copy) ∨
      ∃ e, deepCopy itself knot.heap 3 knot.memo fuel 0 = .error e ∧ Fault knot e :=
  deepCopy_copies knot_closed (Subrelation.wf knot_itemOf Nat.lt_wfRel.wf)

end Cash.Deep
