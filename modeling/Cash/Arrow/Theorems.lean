import Cash.Arrow.Lemmas.Column
import Cash.Lib.Blocks

/-!
# The digests of Arrow columns
-/

namespace Cash.Arrow

variable {T : Type}

/-! ## The type and the rows told from what is folded -/

section

variable {env : Env} {kind kind' : Layout} {width width' : Nat} {cells cells' : List Cell}

theorem le_inj {n x y : Nat} (hx : x < 256 ^ n) (hy : y < 256 ^ n) (h : Bytes.le n x = Bytes.le n y) : x = y := by
  have hunle := congrArg Bytes.unle h
  rwa [Bytes.unle_le hx, Bytes.unle_le hy] at hunle

/-! ### The header -/

/-- Two lists parted at their last separator. -/
theorem append_sep_inj {α : Type} {c : α} {a a' b b' : List α} (hb : c ∉ b) (hb' : c ∉ b')
    (h : a ++ [c] ++ b = a' ++ [c] ++ b') : a = a' ∧ b = b' := by
  rw [List.append_assoc, List.append_assoc, List.singleton_append, List.singleton_append] at h
  rcases List.append_eq_append_iff.mp h with ⟨t, ha, ht⟩ | ⟨t, ha, ht⟩
  · cases t with
    | nil =>
      rw [List.append_nil] at ha
      exact ⟨ha.symm, by simpa using ht⟩
    | cons x t =>
      rw [List.cons_append, List.cons.injEq] at ht
      exact absurd (by rw [ht.2]; simp) hb
  · cases t with
    | nil =>
      rw [List.append_nil] at ha
      exact ⟨ha, by simpa using ht.symm⟩
    | cons x t =>
      rw [List.cons_append, List.cons.injEq] at ht
      exact absurd (by rw [ht.2]; simp) hb'

theorem decimal_digits {n d : Nat} (h : d ∈ Py.decimal n) : 48 ≤ d ∧ d < 58 := by
  unfold Py.decimal at h
  split at h
  · rw [List.mem_singleton] at h
    omega
  · obtain ⟨k, hk, rfl⟩ := List.mem_map.mp h
    have hlt := Nat.digits_lt_base (by decide) (List.mem_reverse.mp hk)
    omega

theorem decimalBytes_inj {m n : Nat} (h : (Py.decimal m).map UInt8.ofNat = (Py.decimal n).map UInt8.ofNat) : m = n := by
  apply Py.decimal_injective
  refine Blocks.map_inj_of_injOn (s := {d | 48 ≤ d ∧ d < 58}) ?_ (fun d => decimal_digits) (fun d => decimal_digits) h
  intro a ha b hb hab
  have hnat := congrArg UInt8.toNat hab
  simp only [UInt8.toNat_ofNat', Set.mem_ofPred_eq] at hnat ha hb
  omega

theorem colon_notMem_decimalBytes (n : Nat) : (58 : UInt8) ∉ (Py.decimal n).map UInt8.ofNat := by
  intro h
  obtain ⟨d, hd, heq⟩ := List.mem_map.mp h
  have hdigits := decimal_digits hd
  have hnat := congrArg UInt8.toNat heq
  simp only [UInt8.toNat_ofNat'] at hnat
  have h58 : (58 : UInt8).toNat = 58 := rfl
  omega

theorem colon_notMem_name (kind : Layout) : (58 : UInt8) ∉ kind.name := by
  cases kind <;> decide

theorem name_inj (h : kind.name = kind'.name) : kind = kind' := by
  cases kind <;> cases kind' <;> first | rfl | exact absurd h (by decide)

theorem header_inj {type type' : Bytes} {n n' : Nat} (h : header type kind n = header type' kind' n') :
    type = type' ∧ kind = kind' ∧ n = n' := by
  have hcolon : ascii ":" = [58] := by decide
  simp only [header, hcolon] at h
  have hbody := List.append_cancel_right h
  obtain ⟨hleft, hdigits⟩ := append_sep_inj (colon_notMem_decimalBytes n) (colon_notMem_decimalBytes n') hbody
  obtain ⟨htype, hname⟩ := append_sep_inj (colon_notMem_name kind) (colon_notMem_name kind') hleft
  exact ⟨List.append_cancel_left htype, name_inj hname, decimalBytes_inj hdigits⟩

/-! ### The rows -/

/-- The first of the missing rows from `base` on, if any, is not before `base`. -/
theorem nullsOf_cases (base : Nat) (cells : List Cell) :
    nullsOf base cells = [] ∨ ∃ j rest, base ≤ j ∧ j < base + cells.length ∧ nullsOf base cells = Bytes.le 8 j ++ rest := by
  induction cells generalizing base with
  | nil => exact .inl rfl
  | cons cell cells ih =>
    rw [nullsOf, List.length_cons]
    cases cell.valid with
    | false => exact .inr ⟨base, _, Nat.le_refl _, by omega, rfl⟩
    | true =>
      rcases ih (base + 1) with h | ⟨j, rest, hle, hlt, h⟩
      · exact .inl h
      · exact .inr ⟨j, rest, by omega, by omega, h⟩

theorem nullsOf_ne {base : Nat} {rest : Bytes} (h : base + 1 + cells.length ≤ 2 ^ 64) :
    nullsOf (base + 1) cells ≠ Bytes.le 8 base ++ rest := by
  intro heq
  rcases nullsOf_cases (base + 1) cells with hnil | ⟨j, rest', hle, hlt, hj⟩
  · rw [hnil] at heq
    have hlen := congrArg List.length heq
    simp only [List.length_nil, List.length_append, Bytes.length_le] at hlen
    omega
  · rw [hj] at heq
    have hword := (List.append_inj heq (by simp)).1
    have := le_inj (n := 8) (by omega) (by omega) hword
    omega

theorem valid_eq_of_nullsOf {base : Nat} (hlen : cells.length = cells'.length) (hbound : base + cells.length ≤ 2 ^ 64)
    (h : nullsOf base cells = nullsOf base cells') : cells.map (·.valid) = cells'.map (·.valid) := by
  induction cells generalizing base cells' with
  | nil =>
    rw [List.eq_nil_of_length_eq_zero hlen.symm]
  | cons cell cells ih =>
    cases cells' with
    | nil => simp at hlen
    | cons cell' cells' =>
      rw [List.length_cons, List.length_cons, Nat.succ_inj] at hlen
      rw [List.length_cons] at hbound
      rw [nullsOf, nullsOf] at h
      cases hv : cell.valid <;> cases hv' : cell'.valid <;> simp only [hv, hv', Bool.false_eq_true, if_false, if_true,
        List.nil_append, List.append_cancel_left_eq] at h
      · rw [List.map_cons, List.map_cons, hv, hv', ih hlen (by omega) h]
      · exact absurd h.symm (nullsOf_ne (by omega))
      · exact absurd h (nullsOf_ne (by omega))
      · rw [List.map_cons, List.map_cons, hv, hv', ih hlen (by omega) h]

/-- What is known of the length of a row's bytes. -/
def LengthIn (kind : Layout) (width : Nat) (cell : Cell) : Prop :=
  match kind with
  | .fixed => cell.bytes.length = width
  | .bool => cell.bytes.length = 1
  | .offsets => cell.bytes.length < 256 ^ width

theorem lengthIn_cell {c : Chunk} {i : Nat} (h : c.Valid kind width) (hi : i < c.length) :
    LengthIn kind width (c.cell kind width i) := by
  cases kind with
  | fixed =>
    have hfit : (c.offset + i) * width + width ≤ c.first.length := by
      have hmul : (c.offset + i + 1) * width ≤ (c.offset + c.length) * width := Nat.mul_le_mul_right _ (by omega)
      rw [Nat.add_mul, Nat.one_mul] at hmul
      exact Nat.le_trans hmul h
    exact Bytes.length_slice_of_le hfit
  | bool => rfl
  | offsets =>
    have hle := offsetAt_le h (show i + 1 ≤ c.length from hi)
    have hlast := h.2.2
    have hlen := length_cell_offsets h hi
    simp only [LengthIn]
    omega

theorem lengthIn_cells {column : Column T} (h : column.Valid kind width) :
    ∀ cell ∈ column.cells kind width, LengthIn kind width cell := by
  intro cell hcell
  obtain ⟨c, hc, hcell⟩ := List.mem_flatMap.mp hcell
  obtain ⟨i, hi, rfl⟩ := List.mem_map.mp hcell
  exact lengthIn_cell (h.chunks c hc) (List.mem_range.mp hi)

theorem map_length_eq (hwidth : kind = .offsets → 0 < width) (hlen : cells.length = cells'.length)
    (h : ∀ cell ∈ cells, LengthIn kind width cell) (h' : ∀ cell ∈ cells', LengthIn kind width cell)
    (heq : lengthsOf kind width cells = lengthsOf kind width cells') :
    cells.map (·.bytes.length) = cells'.map (·.bytes.length) := by
  cases kind with
  | fixed =>
    rw [List.map_congr_left (g := fun _ => width) h, List.map_congr_left (g := fun _ => width) h', List.map_const',
      List.map_const', hlen]
  | bool =>
    rw [List.map_congr_left (g := fun _ => 1) h, List.map_congr_left (g := fun _ => 1) h', List.map_const',
      List.map_const', hlen]
  | offsets =>
    have hword : ∀ (cells : List Cell), ∀ b ∈ (cells.map (·.bytes.length)).map (Bytes.le width), b.length = width := by
      intro cells b hb
      obtain ⟨n, -, rfl⟩ := List.mem_map.mp hb
      exact Bytes.length_le ..
    have hwords := Blocks.flatten_inj (hwidth rfl) (hword cells) (hword cells') (by
      simpa only [lengthsOf, if_true, List.flatMap_def, List.map_map, Function.comp_def] using heq)
    refine Blocks.map_inj_of_injOn (s := {n | n < 256 ^ width}) (fun a ha b hb => le_inj ha hb) ?_ ?_ hwords
    · intro n hn
      obtain ⟨cell, hcell, rfl⟩ := List.mem_map.mp hn
      exact h cell hcell
    · intro n hn
      obtain ⟨cell, hcell, rfl⟩ := List.mem_map.mp hn
      exact h' cell hcell

theorem bytes_eq (hwidth : kind = .offsets → 0 < width) (hlen : cells.length = cells'.length)
    (h : ∀ cell ∈ cells, LengthIn kind width cell) (h' : ∀ cell ∈ cells', LengthIn kind width cell)
    (hlengths : lengthsOf kind width cells = lengthsOf kind width cells') (hvalues : valuesOf cells = valuesOf cells') :
    cells.map (·.bytes) = cells'.map (·.bytes) := by
  rw [List.eq_iff_flatten_eq]
  refine ⟨hvalues, ?_⟩
  simpa only [List.map_map, Function.comp_def] using map_length_eq hwidth hlen h h' hlengths

/-- Rows of one layout with one fold are the same rows. -/
theorem foldRows_inj {type type' : Bytes} (hwidth : kind = .offsets → 0 < width) (hcollision : env.NoCollision
      (streamsOf kind width cells ++ streamsOf kind' width' cells')) (h : ∀ cell ∈ cells, LengthIn kind width cell)
    (h' : ∀ cell ∈ cells', LengthIn kind' width' cell) (hbound : cells.length ≤ 2 ^ 64)
    (heq : foldRows env type kind width cells = foldRows env type' kind' width' cells') :
    type = type' ∧ (width = width' → cells = cells') := by
  have hsplit := List.append_inj' heq (by simp [env.length_digest])
  obtain ⟨htype, rfl, hlen⟩ := header_inj hsplit.1
  obtain ⟨hfirst, hvalues⟩ := List.append_inj hsplit.2 (by simp [env.length_digest])
  obtain ⟨hnulls, hlengths⟩ := List.append_inj hfirst (by simp [env.length_digest])
  refine ⟨htype, ?_⟩
  rintro rfl
  have hnulls := hcollision (by simp [streamsOf]) (by simp [streamsOf]) hnulls
  have hlengths := hcollision (by simp [streamsOf]) (by simp [streamsOf]) hlengths
  have hvalues := hcollision (by simp [streamsOf]) (by simp [streamsOf]) hvalues
  have hvalid := valid_eq_of_nullsOf hlen (by omega) hnulls
  have hbytes := bytes_eq hwidth hlen h h' hlengths hvalues
  apply List.ext_getElem hlen
  intro i hi hi'
  have hv := congrArg (·[i]?) hvalid
  have hb := congrArg (·[i]?) hbytes
  simp only [List.getElem?_map, List.getElem?_eq_getElem hi, List.getElem?_eq_getElem hi', Option.map_some,
    Option.some.injEq] at hv hb
  cases hc : cells[i] with
  | mk valid bytes =>
    cases hc' : cells'[i] with
    | mk valid' bytes' =>
      simp only [hc, hc'] at hv hb
      rw [hv, hb]

end

/-! ## An Arrow column's digest is its rows -/

section

variable {pa : PyArrow T} {kind : Layout} {width : Nat} {t : T}

theorem width_pos_of_offsets (h : arrowLayout pa t = some (kind, width)) (hkind : kind = .offsets) : 0 < width := by
  subst hkind
  unfold arrowLayout at h
  cases hk : pa.kind t <;> simp only [hk, Option.some.injEq, Prod.mk.injEq, true_and, reduceCtorEq, false_and,
    Option.ite_none_right_eq_some, and_false] at h <;> omega

theorem arrowLayout_large (h : pa.kind t = .largeString ∨ pa.kind t = .largeBinary) :
    arrowLayout pa t = some (.offsets, 8) := by
  rcases h with h | h <;> simp [arrowLayout, h]

/-- Columns of one type with the same rows, and the same bytes stored under the missing ones, are folded alike in any
chunks, gathered or not; what is folded tells the type and the rows; a view column is folded as the large column of its
rows. -/
theorem foldArrowColumn_faithful (pa : PyArrow T) (hstr : Function.Injective pa.str) :
    (∀ (env env' : Env) (c c' : Column T), env.digest = env'.digest → 0 < env.viewBlockBytes → 0 < env'.viewBlockBytes →
      c.Ok pa → c'.Ok pa → c.type = c'.type → c.rows pa = c'.rows pa →
      foldArrowColumn pa env c = foldArrowColumn pa env' c') ∧
    (∀ (env : Env) (c c' : Column T), 0 < env.viewBlockBytes → c.Ok pa → c'.Ok pa →
      env.NoCollision (c.streams pa ++ c'.streams pa) → foldArrowColumn pa env c = foldArrowColumn pa env c' →
      c.type = c'.type ∧ c.rows pa = c'.rows pa) ∧
    ∀ (env : Env) (chunks : List Chunk) (c : Column T), 0 < env.viewBlockBytes → env.viewBlockBytes % 8 = 0 →
      (∀ chunk ∈ chunks, chunk.ValidViews) → c.Ok pa → pa.kind c.type = .largeString ∨ pa.kind c.type = .largeBinary →
      chunks.flatMap (·.viewCells) = c.rows pa →
      ∃ enough, ∀ fuel > enough, foldViewColumn env fuel chunks (pa.str c.type) = foldArrowColumn pa env c := by
  refine ⟨?_, ?_, ?_⟩
  · rintro env env' c c' hdigest hblock hblock' ⟨kind, width, hlayout, hvalid⟩ ⟨kind', width', hlayout', hvalid'⟩ htype hrows
    rw [htype, hlayout'] at hlayout
    cases hlayout
    have hlayout : arrowLayout pa c.type = some (kind, width) := htype ▸ hlayout'
    simp only [Column.rows, hlayout, hlayout'] at hrows
    rw [foldArrowColumn_eq hblock hlayout hvalid, foldArrowColumn_eq hblock' hlayout' hvalid', hrows, htype, foldRows,
      foldRows, hdigest]
  · rintro env c c' hblock ⟨kind, width, hlayout, hvalid⟩ ⟨kind', width', hlayout', hvalid'⟩ hcollision hfold
    rw [foldArrowColumn_eq hblock hlayout hvalid, foldArrowColumn_eq hblock hlayout' hvalid', Option.some.injEq] at hfold
    simp only [Column.streams, hlayout, hlayout'] at hcollision
    have hbound := hvalid.length
    obtain ⟨htype, hrows⟩ := foldRows_inj (width_pos_of_offsets hlayout) hcollision (lengthIn_cells hvalid)
      (lengthIn_cells hvalid') (by omega) hfold
    have htype := hstr htype
    rw [htype, hlayout', Option.some.injEq, Prod.mk.injEq] at hlayout
    obtain ⟨rfl, rfl⟩ := hlayout
    refine ⟨htype, ?_⟩
    simp only [Column.rows, htype, hlayout']
    exact hrows rfl
  · rintro env chunks c hblock hmultiple hviews ⟨kind, width, hlayout, hvalid⟩ hlarge hrows
    rw [arrowLayout_large hlarge] at hlayout
    cases hlayout
    have hlayout := arrowLayout_large hlarge
    simp only [Column.rows, hlayout] at hrows
    obtain ⟨enough, hfold⟩ := foldViewColumn_eq (pa.str c.type) hblock hmultiple hviews
    refine ⟨enough, fun fuel hfuel => ?_⟩
    rw [hfold fuel hfuel, foldArrowColumn_eq hblock hlayout hvalid, hrows]

/-! ### Columns of a few rows -/

inductive SomeType
  | int64 | string | largeString
deriving DecidableEq

def someArrow : PyArrow SomeType where
  str
    | .int64 => ascii "int64"
    | .string => ascii "string"
    | .largeString => ascii "large_string"
  kind
    | .int64 => .integer
    | .string => .string
    | .largeString => .largeString
  bitWidth _ := 64

theorem someArrow_injective : Function.Injective someArrow.str := by
  intro a b h
  cases a <;> cases b <;> first | rfl | exact absurd h (by decide)

theorem length_head (b : Bytes) : (Bytes.le 32 (Bytes.unle b)).length = 32 := Bytes.length_le ..

/-- A digest that keeps the first bytes. -/
def headEnv (kernels : Bool) : Env where
  digest b := Bytes.le 32 (Bytes.unle b)
  length_digest := length_head
  kernels := kernels
  leafBytes := 16
  viewBlockBytes := 8

/-- The rows 5 and 6, as a chunk each, and as a slice of a larger buffer. -/
def twoChunks : Column SomeType :=
  ⟨.int64, [⟨0, 1, none, Bytes.le 8 5, []⟩, ⟨0, 0, none, [], []⟩, ⟨0, 1, none, Bytes.le 8 6, []⟩]⟩

def oneSlice : Column SomeType := ⟨.int64, [⟨1, 2, none, Bytes.le 8 4 ++ Bytes.le 8 5 ++ Bytes.le 8 6, []⟩]⟩

/-- A missing row with no bytes, and one over the byte `x`. -/
def bareMissing : Column SomeType := ⟨.string, [⟨0, 1, some [0], Bytes.le 4 0 ++ Bytes.le 4 0, [none]⟩]⟩

def overMissing : Column SomeType := ⟨.string, [⟨0, 1, some [0], Bytes.le 4 0 ++ Bytes.le 4 1, [some [120]]⟩]⟩

/-- The value of a row that is there. -/
def Cell.value (cell : Cell) : Option Bytes := if cell.valid then some cell.bytes else none

theorem twoChunks_ok : twoChunks.Ok someArrow := by
  refine ⟨.fixed, 8, rfl, ?_, by decide⟩
  simp only [twoChunks, List.mem_cons, List.not_mem_nil, or_false, forall_eq_or_imp, forall_eq, Chunk.Valid]
  decide

theorem oneSlice_ok : oneSlice.Ok someArrow := by
  refine ⟨.fixed, 8, rfl, ?_, by decide⟩
  simp only [oneSlice, List.mem_singleton, forall_eq, Chunk.Valid]
  decide

theorem twoChunks_noCollision : (headEnv true).NoCollision (twoChunks.streams someArrow ++ oneSlice.streams someArrow) := by
  have hstreams : twoChunks.streams someArrow ++ oneSlice.streams someArrow =
      [[], [], Bytes.le 8 5 ++ Bytes.le 8 6, [], [], Bytes.le 8 5 ++ Bytes.le 8 6] := by decide
  rw [hstreams]
  intro a ha b hb h
  simp only [Set.mem_ofPred_eq, List.mem_cons, List.not_mem_nil, or_false] at ha hb
  rcases ha with rfl | rfl | rfl | rfl | rfl | rfl <;> rcases hb with rfl | rfl | rfl | rfl | rfl | rfl <;>
    first | rfl | exact absurd h (by decide)

/-- The row `hi` and a missing one over junk, as views. -/
def hiView : Chunk := ⟨0, 2, some [1], Bytes.le 4 2 ++ [104, 105] ++ List.replicate 10 0 ++ List.replicate 16 9, []⟩

def hiLarge : Column SomeType :=
  ⟨.largeString, [⟨0, 2, some [1], Bytes.le 8 0 ++ Bytes.le 8 2 ++ Bytes.le 8 2, [some [104, 105]]⟩]⟩

theorem hiLarge_ok : hiLarge.Ok someArrow := by
  refine ⟨.offsets, 8, rfl, ?_, by decide⟩
  simp only [hiLarge, List.mem_singleton, forall_eq, Chunk.Valid]
  decide

theorem hiView_valid : hiView.ValidViews := by
  constructor <;> decide

theorem foldArrowColumn_some :
    foldArrowColumn someArrow (headEnv true) twoChunks = foldArrowColumn someArrow (headEnv false) oneSlice ∧
    twoChunks.rows someArrow = oneSlice.rows someArrow ∧
    ∃ enough, ∀ fuel > enough,
      foldViewColumn (headEnv true) fuel [hiView] (ascii "large_string") =
        foldArrowColumn someArrow (headEnv true) hiLarge := by
  obtain ⟨hsame, htell, hview⟩ := foldArrowColumn_faithful someArrow someArrow_injective
  refine ⟨hsame _ _ _ _ rfl (by decide) (by decide) twoChunks_ok oneSlice_ok rfl (by decide), ?_, ?_⟩
  · exact (htell (headEnv true) _ _ (by decide) twoChunks_ok oneSlice_ok twoChunks_noCollision (by decide)).2
  · exact hview (headEnv true) [hiView] hiLarge (by decide) (by decide) (by simp [hiView_valid]) hiLarge_ok (.inl rfl)
      (by decide)

theorem bareMissing_ok : bareMissing.Ok someArrow := by
  refine ⟨.offsets, 4, rfl, ?_, by decide⟩
  simp only [bareMissing, List.mem_singleton, forall_eq, Chunk.Valid]
  decide

theorem overMissing_ok : overMissing.Ok someArrow := by
  refine ⟨.offsets, 4, rfl, ?_, by decide⟩
  simp only [overMissing, List.mem_singleton, forall_eq, Chunk.Valid]
  decide

/-- Two columns of strings with the same missing rows and the same values that are folded apart. -/
theorem overMissing_apart :
    bareMissing.Ok someArrow ∧ overMissing.Ok someArrow ∧ bareMissing.type = overMissing.type ∧
    (bareMissing.rows someArrow).map Cell.value = (overMissing.rows someArrow).map Cell.value ∧
    foldArrowColumn someArrow (headEnv false) bareMissing ≠ foldArrowColumn someArrow (headEnv false) overMissing :=
  ⟨bareMissing_ok, overMissing_ok, rfl, by decide, by decide⟩

end

end Cash.Arrow
