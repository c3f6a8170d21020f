import Cash.Store.Lemmas.Calm
import Cash.Store.Lemmas.Tables
import Cash.Store.World
import Mathlib.Data.List.Count

/-!
# What a thread holds is there

The share of a thread are the counts it has in `_pending`: for files it has seen in the folder since, and for
at most one that it is about to look for. As long as no file in use is removed, a file seen stays there until
the thread gives its count up; `commit` turns the counts of a write into holders.
-/

namespace Cash.Store

open Bytes Py Chunks Entry

variable {H : Hashes} {conf : Conf}

/-- The counts of a thread in `_pending`. -/
structure Pins where
  /-- Of files seen in the folder. -/
  seen : List Str
  /-- Of a file to be looked for. -/
  sought : Option Str

/-- No counts. -/
def Pins.none : Pins := ⟨[], .none⟩

def Pins.count (g : Pins) (n : Str) : Nat := g.seen.count n + if g.sought = some n then 1 else 0

/-! ## The rules -/

/-- A section that neither counts a file nor touches an entry that is known. -/
structure Gentle (t t' : Tables) : Prop where
  paired : t.Paired → t'.Paired
  pends : t'.pends = t.pends
  heldBy : ∀ stem ∈ t.heldBy, stem ∈ t'.heldBy ∧ t'.heldOf stem = t.heldOf stem

/-- A section takes a thread from the counts `g` to `g'`. -/
structure Recounts (t t' : Tables) (g g' : Pins) : Prop where
  paired : t.Paired → t'.Paired
  pends : ∀ n, t'.pends n + g.count n = t.pends n + g'.count n
  heldBy : ∀ stem ∈ t.heldBy, stem ∈ t'.heldBy ∧ t'.heldOf stem = t.heldOf stem
  seen : ∀ n ∈ g'.seen, n ∈ g.seen

/-- What a thread may do with its counts. -/
def pinRules : Prog.Rules Op Pins where
  pre op P g :=
    match op with
    | .locked f => ∀ t, (∀ n, g.count n ≤ t.pends n) → ∃ g', Recounts t (f t).2 g g' ∧ P (f t).1 g'
    | .commit _ held _ _ => (∀ n, (held.map (·.1)).count n ≤ g.seen.count n) ∧
        ∀ b, P b ⟨g.seen.diff (held.map (·.1)), g.sought⟩
    | .repoint _ _ new _ => new ∈ g.seen ∧ ∀ b, P b g
    | .utime name => P false g ∧ (P true g ∨ g.sought = some name ∧ P true ⟨name :: g.seen, .none⟩)
    | .replace _ name => P false g ∧ (P true g ∨ g.sought = some name ∧ P true ⟨name :: g.seen, .none⟩)
    | _ => ∀ b, P b g
  mono {β op P Q g} h hPQ := by
    cases op with
    | locked f =>
        intro t ht
        obtain ⟨g', hg, hP⟩ := h t ht
        exact ⟨g', hg, hPQ _ _ hP⟩
    | commit stem held replaced places => exact ⟨h.1, fun b => hPQ _ _ (h.2 b)⟩
    | repoint stem old new placed => exact ⟨h.1, fun b => hPQ _ _ (h.2 b)⟩
    | utime name => exact ⟨hPQ _ _ h.1, h.2.imp (hPQ _ _) fun h => ⟨h.1, hPQ _ _ h.2⟩⟩
    | replace data name => exact ⟨hPQ _ _ h.1, h.2.imp (hPQ _ _) fun h => ⟨h.1, hPQ _ _ h.2⟩⟩
    | _ => exact fun b => hPQ _ _ (h b)

/-- The counts of the threads, one for each thread and file. -/
structure Accounted (t : Tables) (γ : Nat → Pins) : Prop where
  counts : ∃ acc : List (Nat × Str), (∀ n, t.pends n = (acc.map Prod.snd).count n) ∧
    ∀ tid n, acc.count (tid, n) = (γ tid).count n

/-- The files that threads have seen and that live entries list are in the folder, and in use. -/
structure Present (s : Single) (γ : Nat → Pins) : Prop where
  paired : s.process.tables.Paired
  accounted : Accounted s.process.tables γ
  seen : ∀ tid, ∀ n ∈ (γ tid).seen, n ∈ s.folder.chunks
  live : ∀ stem names, s.live.lookup stem = some names → names ≠ [] ∧ ∀ n ∈ names,
    n ∈ s.process.tables.heldOf stem ∧ n ∈ s.folder.chunks

/-! ## Accounts -/

/-- The counts of a file are those of one thread and those of the others. -/
theorem count_others (acc : List (Nat × Str)) (tid : Nat) (n : Str) :
    (acc.map Prod.snd).count n = ((acc.filter (·.1 ≠ tid)).map Prod.snd).count n + acc.count (tid, n) := by
  induction acc with
  | nil => rfl
  | cons a acc ih =>
      obtain ⟨i, m⟩ := a
      by_cases hi : i = tid
      · subst hi
        by_cases hm : m = n
        · subst hm
          simp [ih]
          omega
        · simp [ih, hm]
      · by_cases hm : m = n
        · subst hm
          simp [ih, hi]
          omega
        · simp [ih, hi, hm]

/-- A thread that has these counts. -/
def Pins.names (g : Pins) : List Str := g.seen ++ g.sought.toList

theorem Pins.count_names (g : Pins) (n : Str) : g.names.count n = g.count n := by
  unfold Pins.names Pins.count
  rw [List.count_append]
  cases h : g.sought with
  | none => simp
  | some m =>
      by_cases hm : m = n
      · simp [hm]
      · simp [hm]

theorem count_map_pair (names : List Str) (tid i : Nat) (n : Str) :
    (names.map fun m => (tid, m)).count (i, n) = if i = tid then names.count n else 0 := by
  by_cases hi : i = tid
  · subst hi
    rw [if_pos rfl]
    exact List.count_map_of_injective _ _ (fun a b h => (Prod.mk.inj h).2) _
  · rw [if_neg hi, List.count_eq_zero]
    simp [Ne.symm hi]

namespace Accounted

variable {t t' : Tables} {γ : Nat → Pins}

theorem le (h : Accounted t γ) (tid : Nat) (n : Str) : (γ tid).count n ≤ t.pends n := by
  obtain ⟨acc, hpends, hacc⟩ := h.counts
  rw [hpends n, ← hacc tid n, count_others acc tid n]
  omega

theorem update (h : Accounted t γ) {tid : Nat} {g : Pins} (hg : ∀ n, t'.pends n + (γ tid).count n = t.pends n + g.count n) :
    Accounted t' (Function.update γ tid g) := by
  obtain ⟨acc, hpends, hacc⟩ := h.counts
  refine ⟨acc.filter (·.1 ≠ tid) ++ g.names.map fun m => (tid, m), fun n => ?_, fun i n => ?_⟩
  · have h₁ := count_others acc tid n
    have h₂ := hpends n
    have h₃ := hg n
    rw [← hacc tid n] at h₃
    rw [List.map_append, List.count_append, List.map_map]
    have : (Prod.snd ∘ fun m => (tid, m)) = (id : Str → Str) := rfl
    rw [this, List.map_id, g.count_names]
    omega
  · rw [List.count_append, count_map_pair, g.count_names, Function.update_apply]
    by_cases hi : i = tid
    · subst hi
      rw [if_pos rfl, if_pos rfl]
      have : (acc.filter (·.1 ≠ i)).count (i, n) = 0 := by
        rw [List.count_eq_zero]
        simp
      rw [this, Nat.zero_add]
    · rw [if_neg hi, if_neg hi, Nat.add_zero, ← hacc i n]
      exact List.count_filter (by simpa using hi)

theorem pending (h : Accounted t γ) {tid : Nat} {n : Str} (hn : n ∈ (γ tid).seen) : n ∈ t.pending := by
  have hle := h.le tid n
  have hpos : 0 < (γ tid).seen.count n := List.count_pos_iff.mpr hn
  by_contra hno
  have hzero : t.pends n = 0 := by
    rw [Tables.pends, Dict.getD, AList.lookup_eq_none.mpr hno]
    rfl
  unfold Pins.count at hle
  omega

end Accounted

theorem mem_holders {t : Tables} (h : t.Paired) {n stem : Str} (hn : n ∈ t.heldOf stem) : n ∈ t.holders := by
  have hstem := (h n stem).mpr hn
  by_contra hno
  rw [Tables.holdersOf, Dict.getD, AList.lookup_eq_none.mpr hno] at hstem
  cases hstem

theorem mem_heldBy {t : Tables} {n stem : Str} (hn : n ∈ t.heldOf stem) : stem ∈ t.heldBy := by
  by_contra hno
  rw [heldOf_of_not_mem hno] at hn
  cases hn

/-! ## The steps -/

namespace Present

variable {p p' : Process} {F F' : Folder} {live : Dict Str (List Str)} {γ : Nat → Pins}

/-- A call that leaves the tables alone and removes nothing. -/
theorem grows (h : Present ⟨p, F, live⟩ γ) (hp : p'.tables = p.tables) (hF : ∀ n ∈ F.chunks, n ∈ F'.chunks) :
    Present ⟨p', F', live⟩ γ where
  paired := by
    dsimp only
    rw [hp]
    exact h.paired
  accounted := by
    dsimp only
    rw [hp]
    exact h.accounted
  seen tid n hn := hF n (h.seen tid n hn)
  live stem names hl := by
    obtain ⟨hne, hin⟩ := h.live stem names hl
    dsimp only
    rw [hp]
    exact ⟨hne, fun n hn => ⟨(hin n hn).1, hF n (hin n hn).2⟩⟩

/-- A file written or touched. -/
theorem insert (h : Present ⟨p, F, live⟩ γ) (name : Str) (f : File) :
    Present ⟨p, { F with chunks := F.chunks.insert name f }, live⟩ γ :=
  h.grows rfl fun _ hn => (AList.mem_insert _).mpr (.inr hn)

/-- A file that is not in use is removed. -/
theorem remove (h : Present ⟨p, F, live⟩ γ) {name : Str} (hname : p.tables.inUse name = false) :
    Present ⟨p, { F with chunks := F.chunks.erase name }, live⟩ γ := by
  simp only [Tables.inUse, Bool.or_eq_false_iff, decide_eq_false_iff_not] at hname
  refine ⟨h.paired, h.accounted, fun tid n hn => ?_, fun stem names hl => ?_⟩
  · refine AList.mem_erase.mpr ⟨fun he => hname.2 ?_, h.seen tid n hn⟩
    rw [← he]
    exact h.accounted.pending hn
  · obtain ⟨hne, hin⟩ := h.live stem names hl
    refine ⟨hne, fun n hn => ⟨(hin n hn).1, AList.mem_erase.mpr ⟨fun he => hname.1 ?_, (hin n hn).2⟩⟩⟩
    rw [← he]
    exact mem_holders h.paired (hin n hn).1

/-- A file that is sought is seen. -/
theorem sees (h : Present ⟨p, F, live⟩ γ) {tid : Nat} {name : Str} (hsought : (γ tid).sought = some name)
    (hF : name ∈ F.chunks) : Present ⟨p, F, live⟩ (Function.update γ tid ⟨name :: (γ tid).seen, .none⟩) := by
  refine ⟨h.paired, h.accounted.update fun n => ?_, fun tid' n hn => ?_, h.live⟩
  · have : (⟨name :: (γ tid).seen, .none⟩ : Pins).count n = (γ tid).count n := by
      unfold Pins.count
      rw [hsought]
      by_cases hm : name = n
      · simp [hm]
      · simp [hm]
    rw [this]
  · rw [Function.update_apply] at hn
    split at hn
    · rename_i htid
      rcases List.mem_cons.mp hn with rfl | hn
      · exact hF
      · exact h.seen tid n hn
    · exact h.seen tid' n hn

/-- A section that recounts. -/
theorem recounts (h : Present ⟨p, F, live⟩ γ) {tid : Nat} {g : Pins} {t : Tables} (hg : Recounts p.tables t (γ tid) g) :
    Present ⟨{ p with tables := t }, F, live⟩ (Function.update γ tid g) where
  paired := hg.paired h.paired
  accounted := h.accounted.update hg.pends
  seen tid' n hn := by
    rw [Function.update_apply] at hn
    split at hn
    · exact h.seen tid n (hg.seen n hn)
    · exact h.seen tid' n hn
  live stem names hl := by
    obtain ⟨hne, hin⟩ := h.live stem names hl
    refine ⟨hne, fun n hn => ⟨?_, (hin n hn).2⟩⟩
    have hheld := (hin n hn).1
    dsimp only at hheld ⊢
    rw [(hg.heldBy stem (mem_heldBy hheld)).2]
    exact hheld

/-- The counts of a write become holders. -/
theorem commit (h : Present ⟨p, F, live⟩ γ) {tid : Nat} (stem : Str) {held : Held} (replaced : Option Held)
    (places : Places) (hheld : ∀ n, (held.map (·.1)).count n ≤ (γ tid).seen.count n) :
    Present ⟨{ p with tables := (p.tables.commit stem held replaced places).2 }, F,
      if held = [] then live.erase stem else live.insert stem (held.map (·.1))⟩
      (Function.update γ tid ⟨(γ tid).seen.diff (held.map (·.1)), (γ tid).sought⟩) := by
  refine ⟨h.paired.commit stem held replaced places, h.accounted.update fun n => ?_, fun tid' n hn => ?_, fun s names hl => ?_⟩
  · have hle := h.accounted.le tid n
    have hle' := hheld n
    dsimp only at hle ⊢
    rw [pends_commit]
    unfold Pins.count at hle ⊢
    dsimp only
    rw [List.count_diff]
    omega
  · rw [Function.update_apply] at hn
    split at hn
    · exact h.seen tid n (List.diff_subset _ _ hn)
    · exact h.seen tid' n hn
  · have hother : s ≠ stem → live.lookup s = some names → names ≠ [] ∧ ∀ n ∈ names,
        n ∈ (p.tables.commit stem held replaced places).2.heldOf s ∧ n ∈ F.chunks := by
      intro hne hl
      rw [heldOf_commit, if_neg hne]
      exact h.live s names hl
    dsimp only at hl ⊢
    split at hl
    · obtain ⟨hne, hl⟩ := Dict.lookup_of_erase hl
      exact hother hne hl
    · rename_i hnil
      rcases Dict.lookup_insert_cases hl with ⟨rfl, rfl⟩ | ⟨hne, hl⟩
      · refine ⟨by simpa using hnil, fun n hn => ?_⟩
        rw [heldOf_commit, if_pos rfl, List.mem_dedup]
        have hpos : 0 < (held.map (·.1)).count n := List.count_pos_iff.mpr hn
        have := hheld n
        exact ⟨hn, h.seen tid n (List.count_pos_iff.mp (by omega))⟩
      · exact hother hne hl

theorem release (h : Present ⟨p, F, live⟩ γ) (stem : Str) (held : Option Held) :
    Present ⟨{ p with tables := (p.tables.release stem held).2 }, F, live.erase stem⟩ γ := by
  refine ⟨h.paired.release stem held, ⟨h.accounted.counts⟩, h.seen, fun s names hl => ?_⟩
  obtain ⟨hne, hl⟩ := Dict.lookup_of_erase hl
  dsimp only
  rw [heldOf_release, if_neg hne]
  exact h.live s names hl

/-- An entry holds a pack that the thread has seen in place of another. -/
theorem repoint (h : Present ⟨p, F, live⟩ γ) {tid : Nat} (stem old : Str) {new : Str} (placed : Places)
    (hnew : new ∈ (γ tid).seen) :
    Present ⟨{ p with tables := (p.tables.repoint stem old new placed).2 }, F,
      watch (.repoint stem old new placed) live⟩ γ := by
  obtain ⟨-, -, hpending, -⟩ := repoint_holders p.tables stem old new placed
  refine ⟨h.paired.repoint stem old new placed, ⟨?_⟩, h.seen, fun s names hl => ?_⟩
  · unfold Tables.pends
    dsimp only
    rw [hpending]
    exact h.accounted.counts
  · have hother : s ≠ stem → live.lookup s = some names → names ≠ [] ∧ ∀ n ∈ names,
        n ∈ (p.tables.repoint stem old new placed).2.heldOf s ∧ n ∈ F.chunks := by
      intro hne hl
      rw [heldOf_repoint, if_neg hne]
      exact h.live s names hl
    simp only [watch] at hl ⊢
    cases hstem : live.lookup stem with
    | none =>
        rw [hstem] at hl
        refine hother (fun hs => ?_) hl
        rw [hs, hstem] at hl
        cases hl
    | some names' =>
        rw [hstem] at hl
        rcases Dict.lookup_insert_cases hl with ⟨rfl, rfl⟩ | ⟨hne, hl⟩
        · refine ⟨List.ne_nil_of_mem (List.mem_insert_iff.mpr (.inl rfl)), fun n hn => ?_⟩
          rw [heldOf_repoint, if_pos rfl, List.mem_insert_iff, List.mem_filter]
          rcases List.mem_insert_iff.mp hn with rfl | hn
          · exact ⟨.inl rfl, h.seen tid n hnew⟩
          · obtain ⟨hn, hold⟩ := List.mem_filter.mp hn
            obtain ⟨hheld, hF⟩ := (h.live s names' hstem).2 n hn
            exact ⟨.inr ⟨hheld, hold⟩, hF⟩
        · exact hother hne hl

end Present

theorem letGo_tables (p : Process) (lock : Nat) : (p.letGo lock).tables = p.tables := by
  unfold Process.letGo
  split <;> rfl

/-- Where no file in use is removed, the rules keep what threads have seen and live entries list in the
folder. -/
theorem pins_tracks : Prog.Tracks (carefulStep H) pinRules Present := by
  rintro pid tid β ⟨p, F, live⟩ γ op b _ P hok hpre ⟨⟨p', F', hstep, rfl⟩, hunused⟩
  have hself : ∀ {s'}, Present s' γ → Present s' (Function.update γ tid (γ tid)) := by
    intro s' h
    rw [Function.update_eq_self]
    exact h
  cases hstep with
  | locked =>
      obtain ⟨g, hg, hP⟩ := hpre p.tables (hok.accounted.le tid)
      exact ⟨g, hok.recounts hg, hP⟩
  | commit => exact ⟨_, hok.commit _ _ _ hpre.1, hpre.2 _⟩
  | release => exact ⟨_, hself (hok.release _ _), hpre _⟩
  | repoint => exact ⟨_, hself (hok.repoint _ _ _ hpre.1), hpre.2 _⟩
  | lock _ => exact ⟨_, hself (hok.grows rfl fun _ h => h), hpre _⟩
  | tryLock _ => exact ⟨_, hself (hok.grows rfl fun _ h => h), hpre _⟩
  | tryLockHeld _ => exact ⟨_, hself (hok.grows rfl fun _ h => h), hpre _⟩
  | unlock => exact ⟨_, hself (hok.grows (letGo_tables _ _) fun _ h => h), hpre _⟩
  | folder hstep =>
      cases hstep with
      | utime now hf =>
          rcases hpre.2 with hP | ⟨hsought, hP⟩
          · exact ⟨_, hself (hok.insert _ _), hP⟩
          · exact ⟨_, (hok.insert _ _).sees hsought ((AList.mem_insert _).mpr (.inl rfl)), hP⟩
      | utimeFails => exact ⟨_, hself hok, hpre.1⟩
      | replace now =>
          rcases hpre.2 with hP | ⟨hsought, hP⟩
          · exact ⟨_, hself (hok.insert _ _), hP⟩
          · exact ⟨_, (hok.insert _ _).sees hsought ((AList.mem_insert _).mpr (.inl rfl)), hP⟩
      | replaceFails => exact ⟨_, hself hok, hpre.1⟩
      | remove _ => exact ⟨_, hself (hok.remove hunused), hpre _⟩
      | create now _ => exact ⟨_, hself (hok.insert _ _), hpre _⟩
      | _ => exact ⟨_, hself (hok.grows rfl fun _ h => h), hpre _⟩

/-! ## The programs -/

theorem Gentle.recounts {t t' : Tables} (h : Gentle t t') (g : Pins) : Recounts t t' g g where
  paired := h.paired
  pends n := by rw [h.pends]
  heldBy := h.heldBy
  seen _ hn := hn

theorem Gentle.of_eq {t t' : Tables} (h : t'.heldBy = t.heldBy) (h' : t'.holders = t.holders)
    (h'' : t'.pending = t.pending) : Gentle t t' where
  paired := by
    unfold Tables.Paired Tables.holdersOf Tables.heldOf
    rw [h, h']
    exact id
  pends := by
    unfold Tables.pends
    rw [h'']
  heldBy stem hs := by
    unfold Tables.heldOf
    rw [h]
    exact ⟨hs, rfl⟩

theorem Gentle.trans {t t' t'' : Tables} (h : Gentle t t') (h' : Gentle t' t'') : Gentle t t'' where
  paired ht := h'.paired (h.paired ht)
  pends := h'.pends.trans h.pends
  heldBy stem hs := by
    obtain ⟨hs', hheld⟩ := h.heldBy stem hs
    obtain ⟨hs'', hheld'⟩ := h'.heldBy stem hs'
    exact ⟨hs'', hheld'.trans hheld⟩

theorem calm_pins : Calm pinRules Eq Gentle where
  refl _ := rfl
  trans h h' := h.trans h'
  same h := .of_eq h.heldBy h.holders h.pending
  call {β op} h P g hP := by
    cases op <;> first
      | exact fun b => hP b g rfl
      | exact ⟨hP _ g rfl, .inl (hP _ g rfl)⟩
      | cases h
  locked h P g hP t _ := ⟨g, (h t).recounts g, hP _ g rfl⟩

theorem forget_gentle (name : Str) (t : Tables) : Gentle t (t.forget name) := .of_eq rfl rfl rfl

theorem indexEntry_gentle (t : Tables) (f : Tables.Found) : Gentle t (t.indexEntry f) where
  paired h := h.indexEntry f
  pends := by
    unfold Tables.indexEntry
    split <;> rfl
  heldBy stem hs := by
    unfold Tables.indexEntry
    split
    · exact ⟨hs, rfl⟩
    · rename_i hf
      have hne : stem ≠ f.stem := fun h => hf (h ▸ hs)
      have hmem : stem ∈ (t.setHolder f.stem (f.held.map (·.1)).dedup []).heldBy :=
        mem_heldBy_setHolder.mpr (.inr ⟨hne, hs⟩)
      exact ⟨hmem, (heldOf_setHolder t f.stem stem _ []).trans (if_neg hne)⟩

theorem index_gentle (started : Nat) (found : List Tables.Found) (t : Tables) : Gentle t (t.index started found).2 := by
  have hlearn : ∀ (groups : List (Str × Places)) (t : Tables), Gentle t (t.learnAll groups) := by
    intro groups
    induction groups with
    | nil => exact fun t => .of_eq rfl rfl rfl
    | cons g groups ih =>
        intro t
        have hg : Gentle t (t.learn g.1 g.2) := .of_eq rfl rfl rfl
        exact hg.trans (ih _)
  have hindex : ∀ (found : List Tables.Found) (t : Tables), Gentle t (t.indexAll found) := by
    intro found
    induction found with
    | nil => exact fun t => .of_eq rfl rfl rfl
    | cons f found ih => exact fun t => (indexEntry_gentle t f).trans (ih _)
  unfold Tables.index
  split
  · exact .of_eq rfl rfl rfl
  · have hsize : Gentle t { t with size := Tables.setDefaults t.size (Dict.update ∅ (found.flatMap (·.held))) } :=
      .of_eq rfl rfl rfl
    exact (hsize.trans ((hlearn _ _).trans (hindex found _))).trans (.of_eq rfl rfl rfl)

theorem unplace_gentle (pack : Str) (offset : Nat) (t : Tables) : Gentle t (t.unplace pack offset) := by
  unfold Tables.unplace
  generalize t.places.entries.filter _ = gone
  induction gone generalizing t with
  | nil => exact .of_eq rfl rfl rfl
  | cons e gone ih =>
      have he : Gentle t (t.unplaceOne pack e) := .of_eq rfl rfl rfl
      exact he.trans (ih _)

theorem ensureIndex_calm : Rests pinRules Eq ensureIndex := by
  refine calm_pins.thenLook fun indexed => ?_
  split
  · exact calm_pins.rests_pure _
  · refine calm_pins.thenCall rfl fun started => calm_pins.thenCall rfl fun stems => ?_
    refine calm_pins.bind (calm_pins.entryChunks stems) fun found => ?_
    refine calm_pins.thenLocked (index_gentle started found) fun first => ?_
    split
    · exact calm_pins.sweepOrphans
    · exact calm_pins.rests_pure _

theorem drop_calm (names : List Str) : Rests pinRules Eq (drop names) :=
  calm_pins.drop forget_gentle ensureIndex_calm names

/-- A program that leaves the counts alone, and the rest. -/
theorem calm_then {α β : Type} {p : StoreM α} {f : α → StoreM β} {Q : β → Pins → Prop} {E : Exn → Pins → Prop}
    {g : Pins} (hp : Rests pinRules Eq p) (hf : ∀ a, (f a).Wp pinRules Q E g) (he : ∀ e, E e g) :
    (p >>= f).Wp pinRules Q E g := by
  refine Prog.Wp.seq (hp g) (fun a g' h => ?_) fun e g' h => ?_
  · subst h
    exact hf a
  · subst h
    exact he e

section

variable {Q : Unit → Pins → Prop} {E : Exn → Pins → Prop} {g : Pins}

theorem wp_gentle {f : Tables → Tables} (hf : ∀ t, Gentle t (f t)) (h : Q () g) : (update f).Wp pinRules Q E g :=
  fun t _ => ⟨g, (hf t).recounts g, h⟩

/-- `_note_own` raises nothing. -/
theorem wp_noteOwn {name : Str} (h : Q () g) : (noteOwn name).Wp pinRules Q E g := by
  intro st
  cases st with
  | none => exact h
  | some st => exact wp_gentle (fun t => .of_eq rfl rfl rfl) h

theorem wp_pend {name : Str} (hg : g.sought = .none) (h : Q () ⟨g.seen, some name⟩) :
    (update (Tables.pend name)).Wp pinRules Q E g := by
  intro t _
  refine ⟨⟨g.seen, some name⟩, ⟨id, fun n => ?_, fun _ hs => ⟨hs, rfl⟩, fun _ hn => hn⟩, h⟩
  have hpend := pends_pend t name n
  unfold Pins.count
  rw [hg]
  by_cases hn : name = n
  · simp only [hn, if_true] at hpend ⊢
    simp only [reduceCtorEq, if_false]
    omega
  · have hn' : some name ≠ some n := fun h => hn (Option.some.inj h)
    rw [if_neg (Ne.symm hn)] at hpend
    simp only [reduceCtorEq, if_false, hn']
    omega

theorem wp_unpend {names : List Str} (hg : ∀ n, names.count n ≤ g.seen.count n)
    (h : Q () ⟨g.seen.diff names, g.sought⟩) : (update (Tables.unpend names)).Wp pinRules Q E g := by
  intro t ht
  refine ⟨⟨g.seen.diff names, g.sought⟩, ⟨id, fun n => ?_, fun _ hs => ⟨hs, rfl⟩,
    fun _ hn => List.diff_subset _ _ hn⟩, h⟩
  have hle := ht n
  have hle' := hg n
  have hunpend := pends_unpend names t n
  unfold Pins.count at hle ⊢
  dsimp only
  rw [List.count_diff]
  omega

/-- The file that was sought is not counted any more. -/
theorem wp_unpend_sought {name : Str} (hg : g.sought = some name) (h : Q () ⟨g.seen, .none⟩) :
    (update (Tables.unpend [name])).Wp pinRules Q E g := by
  intro t ht
  refine ⟨⟨g.seen, .none⟩, ⟨id, fun n => ?_, fun _ hs => ⟨hs, rfl⟩, fun _ hn => hn⟩, h⟩
  have hle := ht n
  have hunpend := pends_unpend [name] t n
  unfold Pins.count at hle ⊢
  rw [hg] at hle ⊢
  by_cases hn : name = n
  · subst hn
    simp only [if_true, List.count_singleton_self] at hle hunpend
    simp only [reduceCtorEq, if_true, if_false]
    omega
  · have hn' : some name ≠ some n := fun h => hn (Option.some.inj h)
    have hzero : [name].count n = 0 := List.count_eq_zero.mpr (by simpa using Ne.symm hn)
    rw [hzero] at hunpend
    simp only [reduceCtorEq, if_false, hn']
    omega

end

/-! ## Writing -/

/-- The thread has seen these files, and is looking for none. -/
structure Covers (g : Pins) (names : List Str) : Prop where
  sought : g.sought = .none
  seen : ∀ n, names.count n ≤ g.seen.count n

theorem count_keys_setItem_le {V : Type} (items : List (Str × V)) (k : Str) (v : V) (n : Str) :
    ((Dict.setItem items k v).map (·.1)).count n ≤ (k :: items.map (·.1)).count n := by
  unfold Dict.setItem
  split
  · have hkeys : (items.map fun p => if p.1 = k then (k, v) else p).map (·.1) = items.map (·.1) := by
      rw [List.map_map]
      apply List.map_congr_left
      intro p _
      by_cases h : p.1 = k
      · simp [h]
      · simp [h]
    rw [hkeys, List.count_cons]
    omega
  · rw [List.map_append, List.count_append, List.count_cons]
    simp only [List.map_cons, List.map_nil, List.count_singleton]
    omega

theorem Covers.setItem {g : Pins} {files : Held} {name : Str} (h : Covers g (name :: files.map (·.1))) (size : Nat) :
    Covers g ((Dict.setItem files name size).map (·.1)) :=
  ⟨h.sought, fun n => (count_keys_setItem_le files name size n).trans (h.seen n)⟩

theorem Covers.cons {g : Pins} {names : List Str} (h : Covers g names) (name : Str) :
    Covers ⟨name :: g.seen, .none⟩ (name :: names) := by
  refine ⟨rfl, fun n => ?_⟩
  have := h.seen n
  dsimp only
  rw [List.count_cons, List.count_cons]
  omega

/-- A stored file held is one the thread has seen. -/
theorem holdStored_pins {g : Pins} (hg : g.sought = .none) (name : Str) : (holdStored name).Wp pinRules
    (fun r g' => g' = if r.isSome then ⟨name :: g.seen, .none⟩ else g) (fun _ _ => True) g := by
  have hself : (⟨g.seen, .none⟩ : Pins) = g := by rw [← hg]
  refine Prog.Wp.bind (wp_pend hg (Prog.Wp.bind (Prog.Wp.bind ⟨?_, .inr ⟨rfl, ?_⟩⟩)))
  · exact Prog.Wp.bind (wp_unpend_sought rfl hself)
  · -- Touched, so it is there; it may still be given up, when the stat fails.
    intro st
    cases st with
    | none =>
        refine Prog.Wp.bind (wp_unpend (fun n => ?_) ?_)
        · simp only [List.count_cons, List.count_nil]
          omega
        · have hdiff : (name :: g.seen).diff [name] = g.seen := by simp
          change (⟨(name :: g.seen).diff [name], .none⟩ : Pins) = g
          rw [hdiff]
          exact hself
    | some st => exact Prog.Wp.bind (wp_noteOwn rfl)

theorem holdChunk_pins {g : Pins} (hg : g.sought = .none) (name : Str) (nbytes : Nat) : (holdChunk name nbytes).Wp pinRules
    (fun r g' => g' = if r.isSome then ⟨name :: g.seen, .none⟩ else g) (fun _ _ => True) g := by
  have hself : (⟨g.seen, .none⟩ : Pins) = g := by rw [← hg]
  have hnone : (do update (Tables.unpend [name]); pure .none : StoreM (Option Bytes)).Wp pinRules
      (fun r g' => g' = if r.isSome then ⟨name :: g.seen, .none⟩ else g) (fun _ _ => True) ⟨g.seen, some name⟩ :=
    Prog.Wp.bind (wp_unpend_sought rfl hself)
  refine Prog.Wp.bind (wp_pend hg (Prog.Wp.bind fun data => ?_))
  cases data with
  | none => exact hnone
  | some data =>
      dsimp only [Prog.after]
      split
      · exact hnone
      · refine Prog.Wp.bind ⟨hnone, .inr ⟨rfl, ?_⟩⟩
        exact Prog.Wp.bind (wp_noteOwn rfl)

theorem holdFile_pins {g : Pins} {files : Held} (hg : Covers g (files.map (·.1))) (name : Str) :
    (holdFile files name).Wp pinRules (fun r g' =>
      match r with
      | none => Covers g' (files.map (·.1))
      | some files' => Covers g' (files'.map (·.1))) (fun _ _ => True) g := by
  unfold holdFile
  split
  · exact hg
  · refine Prog.Wp.seq (holdStored_pins hg.sought name) (fun r g' h => ?_) fun _ _ h => h
    subst h
    cases r with
    | none => exact hg
    | some size => exact (hg.cons name).setItem size

theorem usePlace_pins {g : Pins} {st : Put} (hg : Covers g (st.files.map (·.1))) (i : Nat) (view : Bytes)
    (digest : Digest) (place : Option Place) : (usePlace st i view digest place).Wp pinRules (fun r g' =>
      match r with
      | none => Covers g' (st.files.map (·.1))
      | some st' => Covers g' (st'.files.map (·.1))) (fun _ _ => True) g := by
  unfold usePlace
  cases place with
  | none => exact hg
  | some p =>
      dsimp only
      split
      · exact hg
      · refine Prog.Wp.seq (holdFile_pins hg p.name) (fun r g' hg' => ?_) fun _ _ h => h
        cases r with
        | none => exact Prog.Wp.bind (wp_gentle (forget_gentle p.name) hg')
        | some files => exact hg'

theorem useChunk_pins {g : Pins} {st : Put} (hg : Covers g (st.files.map (·.1))) (i : Nat) (view : Bytes)
    (digest : Digest) : (useChunk st i view digest).Wp pinRules (fun r g' =>
      match r with
      | none => Covers g' (st.files.map (·.1))
      | some st' => Covers g' (st'.files.map (·.1))) (fun _ _ => True) g := by
  refine calm_then (calm_pins.look fun t => t.oldChunks) (fun old => ?_) fun _ => trivial
  cases old with
  | false => exact hg
  | true =>
      simp only [if_true]
      cases st.oldCrcs.find? (fun p => p.1 = chunkName digest) with
      | some crc => exact hg
      | none =>
          refine Prog.Wp.seq (holdChunk_pins hg.sought (chunkName digest) view.length) (fun r g' h => ?_) fun _ _ h => h
          subst h
          cases r with
          | none => exact hg
          | some crc => exact (hg.cons (chunkName digest)).setItem _

theorem putOne_pins {g : Pins} {st : Put} (hg : Covers g (st.files.map (·.1))) (i : Nat) (view : Bytes)
    (known : Option Digest) :
    (putOne st i view known).Wp pinRules (fun st' g' => Covers g' (st'.files.map (·.1))) (fun _ _ => True) g := by
  have hdigest : Rests pinRules Eq (digestOf view known) := by
    cases known with
    | some d => exact calm_pins.rests_pure d
    | none => exact calm_pins.perform rfl
  refine calm_then hdigest (fun digest => calm_then (calm_pins.look fun t => t.places.lookup digest) (fun place => ?_)
    fun _ => trivial) fun _ => trivial
  refine Prog.Wp.seq (usePlace_pins hg i view digest place) (fun used g₁ hg₁ => ?_) fun _ _ h => h
  cases used with
  | some st' => exact hg₁
  | none =>
      refine Prog.Wp.seq (useChunk_pins hg₁ i view digest) (fun used g₂ hg₂ => ?_) fun _ _ h => h
      cases used with
      | some st' => exact hg₂
      | none => exact hg₂

theorem putEach_pins {g : Pins} {st : Put} (hg : Covers g (st.files.map (·.1))) (i : Nat)
    (views : List (Bytes × Option Digest)) :
    (putEach st i views).Wp pinRules (fun st' g' => Covers g' (st'.files.map (·.1))) (fun _ _ => True) g := by
  induction views generalizing g st i with
  | nil => exact hg
  | cons v rest ih =>
      obtain ⟨view, known⟩ := v
      exact Prog.Wp.seq (putOne_pins hg i view known) (fun st' g' hg' => ih hg' (i + 1)) fun _ _ h => h

/-- A pack written has been seen; when it is not written it is sought still. -/
theorem storePack_pins {g : Pins} {name : Str} (hg : g.sought = some name) (views : List Bytes) :
    (storePack name views).Wp pinRules (fun _ g' => g' = ⟨name :: g.seen, .none⟩) (fun _ g' => g' = g) g := by
  refine calm_then (calm_pins.perform rfl) (fun before => ?_) fun _ => rfl
  refine calm_then calm_pins.chunkTemp (fun _ => ?_) fun _ => rfl
  refine Prog.Wp.bind (Prog.Wp.handle ?_)
  refine calm_then (calm_pins.writeMembers 0 views) (fun _ => ?_) fun e => ?_
  · refine Prog.Wp.bind ⟨?_, .inr ⟨hg, ?_⟩⟩
    · exact fun _ => rfl
    · exact Prog.Wp.bind (wp_noteOwn rfl)
  · exact fun _ => rfl

theorem writePack_pins {g : Pins} (hg : g.sought = .none) (fresh : List (Digest × Bytes)) :
    (writePack fresh).Wp pinRules (fun w g' => g' = ⟨w.name :: g.seen, .none⟩) (fun _ g' => g' = g) g := by
  have hself : (⟨g.seen, .none⟩ : Pins) = g := by rw [← hg]
  refine calm_then (calm_pins.perform rfl) (fun name => ?_) fun _ => rfl
  refine Prog.Wp.bind (wp_pend hg (Prog.Wp.bind (Prog.Wp.handle ((storePack_pins (g := ⟨g.seen, some name⟩) rfl _).mono
    (fun before g' h => ?_) fun e g' h => ?_))))
  · subst h
    exact Prog.Wp.bind (wp_gentle (fun t => .of_eq rfl rfl rfl) rfl)
  · subst h
    exact Prog.Wp.bind (wp_unpend_sought rfl hself)

theorem Covers.nil {g : Pins} (hg : g.sought = .none) : Covers g [] := ⟨hg, fun n => by simp⟩

theorem abandon_pins {g : Pins} {held : Held} (hg : Covers g (held.map (·.1))) :
    (abandon held).Wp pinRules (fun _ _ => True) (fun _ _ => True) g :=
  Prog.Wp.bind (wp_unpend hg.seen ((drop_calm _ _).mono (fun _ _ _ => trivial) fun _ _ _ => trivial))

/-- `put_all` has seen the files it returns. -/
theorem putAll_pins {g : Pins} (hg : g.sought = .none) (views : List Bytes) (known : List (Option Digest)) :
    (putAll views known).Wp pinRules (fun s g' => Covers g' (s.held.map (·.1))) (fun _ _ => True) g := by
  refine calm_then ensureIndex_calm (fun _ => ?_) fun _ => trivial
  have hstart : Covers g ((⟨[], [], [], [], [], []⟩ : Put).files.map (·.1)) := Covers.nil hg
  refine Prog.Wp.seq (putEach_pins hstart 0 (views.zip known)) (fun st g₁ hg₁ => ?_) fun _ _ h => h
  dsimp only
  split
  · exact hg₁
  · refine Prog.Wp.bind (Prog.Wp.handle ((writePack_pins hg₁.sought st.fresh).mono (fun w g₂ h => ?_) fun e g₂ h => ?_))
    · subst h
      change Covers _ ((placeWaiting w.placed { st with files := Dict.setItem st.files w.name w.size }).files.map (·.1))
      rw [placeWaiting_files]
      exact (hg₁.cons w.name).setItem w.size
    · subst h
      exact Prog.Wp.seq (abandon_pins hg₁) (fun _ _ _ => trivial) fun _ _ h => h

/-! ## Making packs smaller -/

theorem repoint_pins {g : Pins} {new : Str × Nat} (hnew : new.1 ∈ g.seen) (stem old : Str) (planned placed : Places) :
    (repoint conf stem old new planned placed).Wp pinRules (fun _ g' => g' = g) (fun _ g' => g' = g) g := by
  refine calm_then (calm_pins.perform rfl) (fun taken => ?_) fun _ => rfl
  cases taken with
  | false => exact rfl
  | true =>
      refine Prog.Wp.ensuring (Prog.Wp.mono (Q := fun _ g' => g' = g) (E := fun _ g' => g' = g) ?_
        (fun _ g' h => fun _ => h) fun _ g' h => fun _ => h)
      refine calm_then (calm_pins.movedHead conf stem old new planned) (fun head => ?_) fun _ => rfl
      cases head with
      | none => exact rfl
      | some head =>
          refine calm_then (calm_pins.putHead head stem) (fun put => ?_) fun _ => rfl
          cases put with
          | false => exact rfl
          | true =>
              refine Prog.Wp.bind ⟨hnew, fun told => ?_⟩
              cases told with
              | true => exact rfl
              | false => exact rfl

theorem repointEach_pins {g : Pins} {new : Str × Nat} (hnew : new.1 ∈ g.seen) (old : Str) (planned placed : Places)
    (stems : List Str) :
    (repointEach conf old new planned placed stems).Wp pinRules (fun _ g' => g' = g) (fun _ g' => g' = g) g := by
  induction stems with
  | nil => exact rfl
  | cons stem rest ih =>
      refine Prog.Wp.seq (repoint_pins hnew stem old planned placed) (fun told g' h => ?_) fun _ _ h => h
      subst h
      exact Prog.Wp.seq ih (fun _ _ h => h) fun _ _ h => h

theorem rewrite_pins {g : Pins} (hg : g.sought = .none) (name newName : Str) (members : Places) (stems : List Str) :
    (rewrite conf name newName members stems).Wp pinRules (fun _ g' => g' = g) (fun _ g' => g' = g) g := by
  have hself : (⟨g.seen, .none⟩ : Pins) = g := by rw [← hg]
  refine calm_then (calm_pins.canMoveAll conf _ _ _ stems) (fun can => ?_) fun _ => rfl
  cases can with
  | false => exact rfl
  | true =>
      refine calm_then (calm_pins.readPackFile conf _ _) (fun data => ?_) fun _ => rfl
      refine calm_then (calm_pins.perform rfl) (fun there => ?_) fun _ => rfl
      cases readBack data 0 members with
      | none => exact rfl
      | some fresh =>
          refine Prog.Wp.seq (writePack_pins hg fresh) (fun w g₁ h => ?_) fun _ _ h => h
          subst h
          have hsettle : ∀ (Q : Unit → Pins → Prop) (E : Exn → Pins → Prop), Q () g →
              (settle w).Wp pinRules Q E ⟨w.name :: g.seen, .none⟩ := by
            intro Q E hQ
            refine Prog.Wp.bind (wp_gentle (fun t => .of_eq rfl rfl rfl) (wp_unpend (fun n => ?_) ?_))
            · simp only [List.count_cons, List.count_nil]
              omega
            · have hdiff : (w.name :: g.seen).diff [w.name] = g.seen := by simp
              dsimp only
              rw [hdiff, hself]
              exact hQ
          have htold : (repointEach conf name (w.name, w.size) (plan newName 0 members) w.placed stems).Wp pinRules
              (fun _ g' => g' = ⟨w.name :: g.seen, .none⟩) (fun _ g' => g' = ⟨w.name :: g.seen, .none⟩)
              ⟨w.name :: g.seen, .none⟩ :=
            repointEach_pins (List.mem_cons_self ..) name _ w.placed stems
          refine Prog.Wp.seq (Q := fun _ g' => g' = g) (Prog.Wp.ensuring (htold.mono (fun _ g' h => ?_) fun _ g' h => ?_))
            (fun moved g₂ h => ?_) fun _ _ h => h
          · subst h
            exact hsettle _ _ rfl
          · subst h
            exact hsettle _ _ rfl
          · subst h
            split
            · split
              · exact rfl
              · exact calm_then (drop_calm _) (fun _ => rfl) fun _ => rfl
            · exact calm_then (drop_calm _) (fun _ => rfl) fun _ => rfl

theorem compactOne_pins {g : Pins} (hg : g.sought = .none) (name : Str) :
    (compactOne conf name).Wp pinRules (fun _ g' => g' = g) (fun _ g' => g' = g) g := by
  refine calm_then (calm_pins.look fun t => t.compactLook name) (fun look => ?_) fun _ => rfl
  cases look with
  | none => exact rfl
  | some look =>
      refine calm_then (calm_pins.perform rfl) (fun stems => ?_) fun _ => rfl
      dsimp only
      split
      · exact rfl
      · refine calm_then (calm_pins.perform rfl) (fun newName => ?_) fun _ => rfl
        split
        · exact rfl
        · refine calm_then (calm_pins.claim name) (fun claimed => ?_) fun _ => rfl
          cases claimed with
          | false => exact rfl
          | true =>
              refine Prog.Wp.ensuring ((rewrite_pins hg name newName _ stems).mono (fun _ g' h => ?_) fun _ g' h => ?_)
              · exact fun _ => h
              · exact fun _ => h

theorem compact_pins {g : Pins} (hg : g.sought = .none) (names : List Str) :
    (compact conf names).Wp pinRules (fun _ g' => g' = g) (fun _ g' => g' = g) g := by
  have heach : ∀ names, (compactEach conf names).Wp pinRules (fun _ g' => g' = g) (fun _ g' => g' = g) g := by
    intro names
    induction names with
    | nil => exact rfl
    | cons name rest ih =>
        have htry : (compactTry conf name).Wp pinRules (fun _ g' => g' = g) (fun _ g' => g' = g) g := by
          unfold compactTry
          split
          · exact Prog.Wp.handle ((compactOne_pins hg name).mono (fun _ _ h => h) fun _ _ h => h)
          · exact rfl
        refine Prog.Wp.seq htry (fun _ g' h => ?_) fun _ _ h => h
        subst h
        exact Prog.Wp.seq ih (fun _ _ h => h) fun _ _ h => h
  exact calm_then (calm_pins.perform rfl) (fun order => heach order) fun _ => rfl

/-! ## The operations -/

/-- Files dropped and packs made smaller. -/
theorem dropCompact_pins {g : Pins} (hg : g.sought = .none) (gone names : List Str) :
    (do
      let freed ← drop gone
      let more ← compact conf names
      pure (freed + more) : StoreM Int).Wp pinRules (fun _ g' => g' = g) (fun _ g' => g' = g) g :=
  calm_then (drop_calm gone) (fun _ => Prog.Wp.seq (compact_pins hg names) (fun _ _ h => h) fun _ _ h => h)
    fun _ => rfl

theorem commit_pins {g : Pins} {held : Held} (hg : Covers g (held.map (·.1))) (stem : Str) (replaced : Option Held)
    (places : Places) : (commit conf stem held replaced places).Wp pinRules (fun _ _ => True) (fun _ _ => True) g := by
  refine Prog.Wp.bind ⟨hg.seen, fun gone => ?_⟩
  have hsought : (⟨g.seen.diff (held.map (·.1)), g.sought⟩ : Pins).sought = .none := hg.sought
  exact (dropCompact_pins hsought gone (gone ∪ (held.map (·.1)).dedup)).mono (fun _ _ _ => trivial) fun _ _ _ => trivial

theorem release_pins {g : Pins} (hg : g.sought = .none) (stem : Str) (held : Option Held) :
    (release conf stem held).Wp pinRules (fun _ g' => g' = g) (fun _ g' => g' = g) g := by
  refine Prog.Wp.bind fun before => ?_
  exact dropCompact_pins hg before before

theorem writeEntry_pins {g : Pins} {held : Held} (hg : Covers g (held.map (·.1))) (stem : Str)
    (file : Option EntryFile) (places : Places) :
    (writeEntry conf stem file held places).Wp pinRules (fun _ _ => True) (fun _ _ => True) g := by
  refine Prog.Wp.bind (Prog.Wp.handle ((calm_pins.placeEntry stem file g).mono (fun r g' h => ?_) fun e g' h => ?_))
  · subst h
    exact Prog.Wp.seq (commit_pins hg stem _ places) (fun _ _ _ => trivial) fun _ _ h => h
  · subst h
    exact Prog.Wp.seq (abandon_pins hg) (fun _ _ _ => trivial) fun _ _ h => h

theorem writeCacheFiles_pins {g : Pins} (hg : g.sought = .none) (stem : Str) (views : List Bytes)
    (known : List (Option Digest)) (pack : Stored → Option EntryFile) :
    (writeCacheFiles conf stem views known pack).Wp pinRules (fun _ _ => True) (fun _ _ => True) g := by
  have hkeep : (keepApart views known).Wp pinRules (fun s g' => Covers g' (s.held.map (·.1))) (fun _ _ => True) g := by
    unfold keepApart
    split
    · exact Covers.nil hg
    · exact putAll_pins hg views known
  refine Prog.Wp.seq hkeep (fun s g₁ hg₁ => ?_) fun _ _ h => h
  refine calm_then (calm_pins.perform rfl) (fun _ => ?_) fun _ => trivial
  refine Prog.Wp.seq (Q := fun _ _ => True) (Prog.Wp.ensuring ((writeEntry_pins hg₁ stem _ s.places).mono
    (fun _ _ _ => ?_) fun _ _ _ => ?_)) (fun _ _ _ => trivial) fun _ _ h => h
  · exact fun _ => trivial
  · exact fun _ => trivial

theorem removePath_pins {g : Pins} (hg : g.sought = .none) (stem : Str) :
    (removePath conf stem).Wp pinRules (fun _ g' => g' = g) (fun _ g' => g' = g) g := by
  refine calm_then (calm_pins.chunksHeld stem) (fun held => ?_) fun _ => rfl
  refine calm_then (calm_pins.perform rfl) (fun size => ?_) fun _ => rfl
  refine calm_then (calm_pins.perform rfl) (fun _ => ?_) fun _ => rfl
  refine calm_then (calm_pins.perform rfl) (fun removed => ?_) fun _ => rfl
  refine calm_then (calm_pins.perform rfl) (fun _ => ?_) fun _ => rfl
  have hrelease : (do
      let freed ← release conf stem held
      pure (size.getD 0 + freed) : StoreM Int).Wp pinRules (fun _ g' => g' = g) (fun _ g' => g' = g) g :=
    Prog.Wp.seq (release_pins hg stem held) (fun _ _ h => h) fun _ _ h => h
  cases removed with
  | failed => exact rfl
  | done => exact hrelease
  | notFound => exact hrelease

theorem removeDamaged_pins {g : Pins} (hg : g.sought = .none) (stem pack : Str) (offset : Nat) :
    (removeDamaged conf stem pack offset).Wp pinRules (fun _ _ => True) (fun _ _ => True) g := by
  have heach : ∀ stems, (removePaths conf stems).Wp pinRules (fun _ _ => True) (fun _ _ => True) g := by
    intro stems
    induction stems with
    | nil => trivial
    | cons stem rest ih =>
        refine Prog.Wp.seq (removePath_pins hg stem) (fun _ g' h => ?_) fun _ _ _ => trivial
        subst h
        exact Prog.Wp.seq ih (fun _ _ _ => trivial) fun _ _ h => h
  have hdamaged : Rests pinRules Eq (damaged pack offset) :=
    calm_pins.bind ensureIndex_calm fun _ => fun g => calm_pins.locked (unplace_gentle pack offset) _ g fun _ _ h => h
  refine calm_then hdamaged (fun stems => ?_) fun _ => trivial
  exact calm_then (calm_pins.perform rfl) (fun order => heach order) fun _ => trivial

/-- A thread that starts holds nothing. -/
theorem work_pins {p : StoreM Unit} (h : Work conf p) :
    p.Wp pinRules (fun _ _ => True) (fun _ _ => True) Pins.none := by
  have hquiet : ∀ {α : Type} {p : StoreM α}, p.Wp pinRules (fun _ _ => True) (fun _ _ => True) Pins.none →
      (do let _ ← p : StoreM Unit).Wp pinRules (fun _ _ => True) (fun _ _ => True) Pins.none :=
    fun hp => Prog.Wp.seq hp (fun _ _ _ => trivial) fun _ _ h => h
  cases h with
  | write stem views known pack => exact hquiet (writeCacheFiles_pins rfl stem views known pack)
  | remove stem => exact hquiet ((removePath_pins rfl stem).mono (fun _ _ _ => trivial) fun _ _ _ => trivial)
  | removeDamaged stem pack offset => exact hquiet (removeDamaged_pins rfl stem pack offset)
  | release stem held => exact hquiet ((release_pins rfl stem held).mono (fun _ _ _ => trivial) fun _ _ _ => trivial)
  | ensureIndex => exact hquiet ((ensureIndex_calm _).mono (fun _ _ _ => trivial) fun _ _ _ => trivial)
  | compactOne name => exact hquiet ((compactOne_pins rfl name).mono (fun _ _ _ => trivial) fun _ _ _ => trivial)

end Cash.Store
