import Cash.Lib.Numeral
import Cash.Slots.Lemmas

/-!
# The log replays to the state it records
-/

namespace Cash.Slots

open Py

variable {F : Type} {num : Numbers F} {w w' : World F} {file start : Str} {i : Index F}

/-- The file says what the index holds, ends its last line, and began with each key noted that no call could have. -/
structure World.Inv (num : Numbers F) (start : Str) (w : World F) : Prop where
  good : (w.loaded num).Good
  same : (load num w.file).Same (w.loaded num)
  ended : Ended w.file
  noted : ∀ key, ((w.loaded num).slotOf.lookup key).isSome = true →
    valid key = true ∨ ((load num start).slotOf.lookup key).isSome = true

theorem World.Inv.of_some (hgood : i.Good) (hsame : (load num file).Same i) (hended : Ended file)
    (hnoted : ∀ key, (i.slotOf.lookup key).isSome = true →
      valid key = true ∨ ((load num start).slotOf.lookup key).isSome = true) :
    World.Inv num start ⟨file, some i⟩ := ⟨hgood, hsame, hended, hnoted⟩

theorem inv_start (hstart : Ended start) : World.Inv num start ⟨start, none⟩ :=
  ⟨good_foldl_loadLine _ good_empty, .refl _, hstart, fun _ h => .inr h⟩

theorem inv_record (h : w.Inv num start) (slot key : Str) (size : Int) (cost used : F) :
    (record num w slot key size cost used).2.Inv num start := by
  rw [record]
  split
  · exact h
  · next hvalid =>
    simp only [Bool.not_eq_true', Bool.not_eq_false, Bool.and_eq_true] at hvalid
    obtain ⟨hslot, hslotAscii⟩ := valid_iff.mp hvalid.1
    obtain ⟨hkey, hkeyAscii⟩ := valid_iff.mp hvalid.2
    have hascii : ascii (versionLine num slot ⟨key, size, cost, used⟩) = true := ascii_versionLine hslotAscii hkeyAscii
    apply World.Inv.of_some ((h.good.place hslot hkey).of_lines _)
    · exact (load_versionLine h.ended h.same hslot hkey hascii).right_lines _
    · exact ended_append h.ended fun line hline => List.mem_singleton.mp hline ▸ line_versionLine hslot hkey hascii
    · intro k hk
      change ((((w.loaded num).place slot _).slotOf).lookup k).isSome = true at hk
      rw [slotOf_place] at hk
      split at hk
      · next heq => exact .inl (heq ▸ hvalid.2)
      · exact h.noted k hk

theorem inv_touch (h : w.Inv num start) (key : Str) (used : F) (htouch : touch num w key used = some w') :
    w'.Inv num start := by
  rw [touch] at htouch
  dsimp only at htouch
  cases hslot : (w.loaded num).slotOf.lookup key with
  | none =>
      rw [hslot] at htouch
      obtain rfl := Option.some_inj.mp htouch
      exact .of_some h.good h.same h.ended h.noted
  | some slot =>
      rw [hslot] at htouch
      dsimp only at htouch
      cases hv : ((w.loaded num).versions slot).lookup key with
      | none =>
          rw [hv] at htouch
          obtain rfl := Option.some_inj.mp htouch
          exact .of_some h.good h.same h.ended h.noted
      | some v =>
          rw [hv] at htouch
          dsimp only at htouch
          have hkey : v.key = key := (h.good.keyed slot _ (Items.mem_of_lookup hv)).1
          obtain ⟨hkeyToken, hslotToken⟩ := h.good.token key slot hslot
          subst hkey
          generalize hlater : (if num.gt used v.used then used else v.used) = later at htouch
          split at htouch
          · next hascii =>
            obtain rfl := Option.some_inj.mp htouch
            have hsame := same_setItem (v := { v with used := later }) hslot
            have hgood := h.good.place (v := { v with used := later }) hslotToken hkeyToken
            have hload := load_versionLine (v := { v with used := later }) h.ended h.same hslotToken hkeyToken hascii
            apply World.Inv.of_some
            · exact (hgood.of_same hsame (Items.nodup_setItem h.good.slots _ _)).of_lines _
            · exact (hload.trans hsame).right_lines _
            · refine ended_append h.ended fun line hline => List.mem_singleton.mp hline ▸ ?_
              exact line_versionLine (v := { v with used := later }) hslotToken hkeyToken hascii
            · exact h.noted
          · cases htouch

/-- What is forgotten, the file says too, where no key that is forgotten was noted under bytes that are not ASCII. -/
theorem inv_forget (h : w.Inv num start) (keys : List Str) (renames : Bool)
    (hkeys : ∀ key ∈ keys, ((load num start).slotOf.lookup key).isSome = true → valid key = true) :
    (forget num w keys renames).Inv num start := by
  have hvalid : ∀ key ∈ keys, ((w.loaded num).slotOf.lookup key).isSome = true → valid key = true :=
    fun key hkey hnoted => (h.noted key hnoted).elim id (hkeys key hkey)
  have hline : ∀ line ∈ (forgetKeys (w.loaded num) keys).2, Line line := line_forgetKeys
  obtain ⟨hgood, hsame⟩ : (forgetKeys (w.loaded num) keys).1.Good ∧
      ((forgetKeys (w.loaded num) keys).2.foldl (Index.loadLine num) (load num w.file)).Same
        (forgetKeys (w.loaded num) keys).1 :=
    forgetKeys_spec keys (w.loaded num) (load num w.file) h.good h.same hvalid
  rw [← load_append h.ended hline] at hsame
  have hended := ended_append h.ended hline
  have hnoted (key : Str) (hkey : ((forgetKeys (w.loaded num) keys).1.slotOf.lookup key).isSome = true) :=
    h.noted key (noted_forgetKeys hkey)
  rw [forget]
  dsimp only
  split
  · rw [compact]
    split
    · next hrename =>
      have hascii := (Bool.and_eq_true_iff.mp hrename).2
      have hbody := (hgood.of_lines _).line_body hascii
      refine .of_some ((hgood.of_lines _).of_lines _) ((load_body (hgood.of_lines _) hascii).right_lines _) ?_ hnoted
      exact ended_append ended_nil hbody
    · exact .of_some (hgood.of_lines _) (hsame.right_lines _) hended hnoted
  · exact .of_some (hgood.of_lines _) (hsame.right_lines _) hended hnoted

theorem inv_run (num : Numbers F) (hstart : Ended start) (calls : List (Call F))
    (hforget : ∀ keys renames, .forget keys renames ∈ calls →
      ∀ key ∈ keys, ((load num start).slotOf.lookup key).isSome = true → valid key = true)
    (hrun : run num start calls = some w) : w.Inv num start := by
  have hcalls : ∀ calls : List (Call F), (∀ keys renames, .forget keys renames ∈ calls →
      ∀ key ∈ keys, ((load num start).slotOf.lookup key).isSome = true → valid key = true) →
      ∀ w w' : World F, w.Inv num start → calls.foldlM (World.call num) w = some w' → w'.Inv num start := by
    intro calls
    induction calls with
    | nil =>
        intro _ w w' h hrun
        obtain rfl := Option.some_inj.mp hrun
        exact h
    | cons c calls ih =>
        intro hforget w w' h hrun
        rw [List.foldlM_cons, Option.bind_eq_bind, Option.bind_eq_some_iff] at hrun
        obtain ⟨w₁, hcall, hrun⟩ := hrun
        refine ih (fun keys renames hmem => hforget keys renames (List.mem_cons_of_mem _ hmem)) w₁ w' ?_ hrun
        cases c with
        | record slot key size cost used =>
            obtain rfl := Option.some_inj.mp hcall
            exact inv_record h slot key size cost used
        | touch key used => exact inv_touch h key used hcall
        | forget keys renames =>
            obtain rfl := Option.some_inj.mp hcall
            exact inv_forget h keys renames (hforget keys renames List.mem_cons_self)
  exact hcalls calls hforget _ w (inv_start hstart) hrun

/-- A process that reads the log anew holds what the first one does, compacted or not, where the file it began with ends its
last line and no key is forgotten that the file notes under bytes that are not ASCII. -/
theorem run_replays (num : Numbers F) {start : Str} (hstart : Ended start) (calls : List (Call F))
    (hforget : ∀ keys renames, .forget keys renames ∈ calls →
      ∀ key ∈ keys, ((load num start).slotOf.lookup key).isSome = true → valid key = true)
    {w : World F} (hrun : run num start calls = some w) {i : Index F} (hi : w.index = some i) :
    (load num w.file).Same i ∧
      (∀ key s s', key ∈ Items.keys (i.versions s) → key ∈ Items.keys (i.versions s') → s = s') ∧
      ∀ renames, ((compact num renames w.file i).loaded num).Same i ∧
        (load num (compact num renames w.file i).file).Same i := by
  have hinv := inv_run num hstart calls hforget hrun
  have hloaded : w.loaded num = i := by rw [World.loaded, hi, Option.getD_some]
  have hgood := hinv.good
  have hsame := hinv.same
  rw [hloaded] at hgood hsame
  refine ⟨hsame, fun key s s' hs hs' => ?_, fun renames => ?_⟩
  · obtain ⟨v, hv⟩ := Items.mem_keys.mp hs
    obtain ⟨v', hv'⟩ := Items.mem_keys.mp hs'
    exact Option.some_inj.mp ((hgood.keyed s _ hv).2.symm.trans (hgood.keyed s' _ hv').2)
  · rw [compact]
    split
    · next hrename => exact ⟨(Index.Same.refl i).left_lines _, load_body hgood (Bool.and_eq_true_iff.mp hrename).2⟩
    · exact ⟨.refl i, hsame⟩

/-! ## A key that moves -/

theorem valid_of_chars {t : Str} (hne : t ≠ []) (h : ∀ c ∈ t, 33 ≤ c ∧ c < 128) : valid t = true := by
  simp only [valid, ascii, isSpace, Bool.and_eq_true, Bool.not_eq_true', List.any_eq_false, List.all_eq_true,
    decide_eq_true_eq, Bool.or_eq_true, List.isEmpty_eq_false_iff]
  refine ⟨⟨hne, fun c hc => (h c hc).2⟩, fun c hc => ?_⟩
  have := h c hc
  omega

theorem chars_decimal (n : Nat) : ∀ c ∈ decimal n, 33 ≤ c ∧ c < 128 := by
  intro c hc
  have := Literal.isDigit_decimal n c hc
  unfold Literal.IsDigit at this
  omega

theorem valid_decimal (n : Nat) : valid (decimal n) = true := valid_of_chars (Literal.decimal_ne_nil n) (chars_decimal n)

/-- A whole number in decimal. -/
def wholeText (n : Int) : Str := if n < 0 then 45 :: decimal n.natAbs else decimal n.natAbs

def readWhole (s : Str) : Option Int :=
  if s.head? = some 45 then some (-Literal.readDecimal s.tail) else some (Literal.readDecimal s)

theorem readWhole_wholeText (n : Int) : readWhole (wholeText n) = some n := by
  rw [readWhole, wholeText]
  by_cases hn : n < 0
  · rw [if_pos hn, if_pos List.head?_cons, List.tail_cons, Literal.readDecimal_decimal]
    congr 1
    omega
  · have hhead : (decimal n.natAbs).head? ≠ some 45 := by
      intro h
      have hdigit := Literal.isDigit_decimal _ _ (List.mem_of_head? h)
      unfold Literal.IsDigit at hdigit
      omega
    rw [if_neg hn, if_neg hhead, Literal.readDecimal_decimal]
    congr 1
    omega

theorem chars_wholeText (n : Int) : ∀ c ∈ wholeText n, 33 ≤ c ∧ c < 128 := by
  rw [wholeText]
  split
  · intro c hc
    rcases List.mem_cons.mp hc with rfl | hc
    · decide
    · exact chars_decimal _ c hc
  · exact chars_decimal _

theorem valid_wholeText (n : Int) : valid (wholeText n) = true := by
  refine valid_of_chars ?_ (chars_wholeText n)
  rw [wholeText]
  split
  · exact List.cons_ne_nil _ _
  · exact Literal.decimal_ne_nil _

theorem read_decimal (n : Nat) : some (Literal.readDecimal (decimal n)) = some n := by rw [Literal.readDecimal_decimal]

/-- Whole numbers, in decimal. -/
def whole : Numbers Nat where
  intText := wholeText
  int := readWhole
  repr := decimal
  float s := some (Literal.readDecimal s)
  gt a b := decide (a > b)
  int_intText := readWhole_wholeText
  float_repr := read_decimal
  valid_intText := valid_wholeText
  valid_repr := valid_decimal

/-- A key of the file is moved to another slot, and one of the calls is forgotten. -/
def movedCalls : List (Call Nat) := [.record (str "b") (str "k") 3 1 2, .record (str "b") (str "l") 5 1 3, .forget [str "l"] true]

theorem run_replays_moved : ∃ w i, run whole (str "a k 3 1 1\n") movedCalls = some w ∧ w.index = some i ∧
    (load whole w.file).Same i := by
  refine ⟨_, _, rfl, rfl, (run_replays whole (by decide : Ended (str "a k 3 1 1\n")) movedCalls ?_ rfl rfl).1⟩
  intro keys renames hmem key hkey _
  simp only [movedCalls, List.mem_cons, List.not_mem_nil, or_false, reduceCtorEq, false_or, Call.forget.injEq] at hmem
  rw [hmem.1, List.mem_singleton] at hkey
  rw [hkey]
  decide

/-- A line that is not ended takes the one appended to it, and a key that is not ASCII is not forgotten in the file. -/
theorem unended_lost :
    (∃ w i, run whole (str "b k1 10 1 1") [.record (str "s") (str "k2") 20 1 2] = some w ∧ w.index = some i ∧
      ¬(load whole w.file).Same i) ∧
    ∃ w i, run whole (str "b " ++ 0xff :: str " 10 1 1\n") [.forget [[0xfffd]] true] = some w ∧ w.index = some i ∧
      ¬(load whole w.file).Same i := by
  refine ⟨⟨_, _, rfl, rfl, fun h => ?_⟩, ⟨_, _, rfl, rfl, fun h => ?_⟩⟩
  · exact absurd (h.slotOf (str "k2")) (by decide +kernel)
  · exact absurd (h.slotOf [0xfffd]) (by decide +kernel)

end Cash.Slots
