import Redis.Sds.SplitArgs

/-! # sdssplitargs reads what sdscatrepr writes -/
namespace Redis.Sds.RoundTrip
open List Lib Outcome SplitArgs

/-! ## One character -/

lemma hexDigit_spec : ∀ n < 16, isHexDigit (hexDigit n) = true ∧ hexDigitToInt (hexDigit n) = n ∧
    hexDigit n ≠ 0 := by
  decide

variable {c : UInt8} {tail w p : Bytes}

lemma bump_cons (h : c ≠ 0) (p : Bytes) : bump (c :: p) = .ok p := congrArg Except.ok (if_neg h)

lemma hexEscape_other (h : c ≠ backslash) (p : Bytes) : hexEscape (c :: p) = .ok none := if_neg h

lemma quotedTurn_escape {e} (hx : e ≠ 120) (h0 : e ≠ 0) (rest : Bytes) :
    quotedTurn (backslash :: e :: rest) = .ok (.next .inq [unescape e] (e :: rest)) := by
  have hhex : hexEscape (backslash :: e :: rest) = .ok none := if_neg hx
  rw [quotedTurn, hhex]
  exact if_pos h0

lemma quotedTurn_hex {h l} (hh : isHexDigit h = true) (hl : isHexDigit l = true) (rest : Bytes) :
    quotedTurn (backslash :: 120 :: h :: l :: rest) =
      .ok (.next .inq [(hexDigitToInt h * 16 + hexDigitToInt l).toUInt8] (l :: rest)) := by
  have hhex : hexEscape (backslash :: 120 :: h :: l :: rest) =
      .ok (some (hexDigitToInt h * 16 + hexDigitToInt l).toUInt8) := by
    simp [hexEscape, load, hh, hl]
  rw [quotedTurn, hhex]
  rfl

lemma quotedTurn_plain (hb : c ≠ backslash) (hq : c ≠ quote) (h0 : c ≠ 0) (rest : Bytes) :
    quotedTurn (c :: rest) = .ok (.next .inq [c] (c :: rest)) := by
  rw [quotedTurn, hexEscape_other hb]
  simp [load, hb, hq, h0]

lemma quotedTurn_reprByte (c : UInt8) (rest : Bytes) :
    ∃ q, quotedTurn (reprByte c ++ rest) = .ok (.next .inq [c] q) ∧ bump q = .ok rest := by
  -- a two character escape, by the letter behind the backslash
  have hescape : ∀ e, e ≠ 120 → e ≠ 0 → unescape e = c →
      ∃ q, quotedTurn ([backslash, e] ++ rest) = .ok (.next .inq [c] q) ∧ bump q = .ok rest := by
    rintro e hx h0 rfl
    exact ⟨e :: rest, quotedTurn_escape hx h0 rest, bump_cons h0 rest⟩
  unfold reprByte
  split
  · rename_i h
    rcases h with rfl | rfl <;> exact hescape _ (by decide) (by decide) (by decide)
  -- the five letters that stand for a control character
  iterate 5
    split
    · subst c; exact hescape _ (by decide) (by decide) (by decide)
  split
  · rename_i h _ _ _ _ _ hprint
    have h0 : c ≠ 0 := by rintro rfl; exact absurd hprint (by decide)
    exact ⟨c :: rest, quotedTurn_plain (fun he => h (.inl he)) (fun he => h (.inr he)) h0 rest,
      bump_cons h0 rest⟩
  have hlt := c.toNat_lt
  obtain ⟨hh, hhv, _⟩ := hexDigit_spec (c.toNat / 16) (by omega)
  obtain ⟨hl, hlv, h0⟩ := hexDigit_spec (c.toNat % 16) (by omega)
  refine ⟨_, (quotedTurn_hex hh hl rest).trans ?_, bump_cons h0 rest⟩
  have hc : c.toNat / 16 * 16 + c.toNat % 16 = c.toNat := by omega
  rw [hhv, hlv, hc]
  simp

/-! ## One argument -/

/-- A quoted token may end in front of this text. -/
def Ends : Bytes → Prop
  | [] => False
  | c :: _ => c = 0 ∨ isspace c = true

lemma closing_ends (h : Ends tail) : closing (quote :: tail) = .ok (.done (quote :: tail)) := by
  cases tail with
  | nil => exact h.elim
  | cons c tail =>
    have hc : (decide (c ≠ 0) && !isspace c) = false := by
      rcases h with rfl | h
      · rfl
      · rw [h, Bool.not_true, Bool.and_false]
    simp only [closing, load, getElem?_cons_succ, getElem?_cons_zero, bind_ok, hc]
    rfl

lemma quotedTurn_quote (h : Ends tail) :
    quotedTurn (quote :: tail) = .ok (.done (quote :: tail)) := by
  exact closing_ends h

lemma token_inq (h : Ends tail) (s : Bytes) : ∀ (current : Bytes) (rounds : Nat),
    s.length < rounds →
    token rounds .inq current (s.flatMap reprByte ++ quote :: tail) = .ok (some (current ++ s, tail)) := by
  induction s with
  | nil =>
    intro current rounds hr
    obtain ⟨r, rfl⟩ := Nat.exists_eq_add_one.mpr (Nat.zero_lt_of_lt hr)
    rw [flatMap_nil, nil_append, token, turn, quotedTurn_quote h, bind_ok]
    dsimp only
    rw [bump_cons (by decide), bind_ok, append_nil]
  | cons c s ih =>
    intro current rounds hr
    obtain ⟨r, rfl⟩ := Nat.exists_eq_add_one.mpr (Nat.zero_lt_of_lt hr)
    obtain ⟨q, hturn, hbump⟩ := quotedTurn_reprByte c (s.flatMap reprByte ++ quote :: tail)
    rw [flatMap_cons, append_assoc, token, turn, hturn, bind_ok]
    dsimp only
    rw [hbump, bind_ok, ih _ _ (Nat.lt_of_succ_lt_succ hr), append_assoc]
    rfl

lemma reprByte_length_pos (c : UInt8) : 0 < (reprByte c).length := by
  unfold reprByte
  repeat' split
  all_goals exact Nat.succ_pos _

lemma length_le_repr (s : Bytes) : s.length ≤ (s.flatMap reprByte).length := by
  induction s with
  | nil => exact le_rfl
  | cons c s ih =>
    have := reprByte_length_pos c
    rw [flatMap_cons, length_append, length_cons]
    omega

lemma sdscatrepr_nil (a : Bytes) (tail : Bytes) :
    sdscatrepr [] a ++ tail = quote :: (a.flatMap reprByte ++ quote :: tail) := by
  simp [sdscatrepr]

lemma token_sdscatrepr (a : Bytes) (h : Ends tail) {rounds}
    (hr : (sdscatrepr [] a ++ tail).length < rounds) :
    token rounds .plain [] (sdscatrepr [] a ++ tail) = .ok (some (a, tail)) := by
  rw [sdscatrepr_nil] at hr ⊢
  have hlen := length_le_repr a
  obtain ⟨r, rfl⟩ := Nat.exists_eq_add_one.mpr (Nat.zero_lt_of_lt hr)
  rw [length_cons, length_append] at hr
  have hturn : turn .plain (quote :: (a.flatMap reprByte ++ quote :: tail)) =
      .ok (.next .inq [] (quote :: (a.flatMap reprByte ++ quote :: tail))) := rfl
  rw [token, hturn, bind_ok]
  dsimp only
  exact token_inq h a [] r (by omega)

/-! ## A line -/

/-- The text starts with a character that begins an argument. -/
def Starts (p : Bytes) : Prop := ∃ c q, p = c :: q ∧ c ≠ 0 ∧ isspace c = false

lemma splitLoop_starts {q found} (hskip : skipBlanks p = .ok q) (hstart : Starts q)
    (h : token (q.length + 1) .plain [] q = .ok found) (vector : List Bytes) (rounds : Nat) :
    splitLoop (rounds + 1) vector p =
      found.elim (.ok none) fun found => splitLoop rounds (vector ++ [found.1]) found.2 := by
  obtain ⟨c, q, rfl, h0, _⟩ := hstart
  have hload : load (c :: q) 0 = .ok c := rfl
  cases found <;>
  · rw [splitLoop, hskip, bind_ok, hload, bind_ok, if_pos h0, h]
    rfl

lemma splitLoop_arg {blank} (hblank : blank = [] ∨ blank = [32]) (a : Bytes)
    (h : Ends tail) (vector : List Bytes) (rounds : Nat) :
    splitLoop (rounds + 1) vector (blank ++ (sdscatrepr [] a ++ tail)) =
      splitLoop rounds (vector ++ [a]) tail := by
  have hskip : skipBlanks (blank ++ (sdscatrepr [] a ++ tail)) = .ok (sdscatrepr [] a ++ tail) := by
    rcases hblank with rfl | rfl <;> rfl
  have hstart : Starts (sdscatrepr [] a ++ tail) :=
    ⟨quote, _, sdscatrepr_nil a tail, by decide, by decide⟩
  exact splitLoop_starts hskip hstart (token_sdscatrepr a h (Nat.lt_succ_self _)) vector rounds

/-- The arguments behind the first one. -/
def others (as : List Bytes) : Bytes := as.flatMap fun a => [32] ++ sdscatrepr [] a

lemma ends_others (as : List Bytes) (junk : Bytes) : Ends (others as ++ 0 :: junk) := by
  cases as with
  | nil => exact .inl rfl
  | cons a as => exact .inr rfl

lemma splitLoop_others (as : List Bytes) (junk : Bytes) : ∀ (vector : List Bytes) (rounds : Nat),
    as.length < rounds → splitLoop rounds vector (others as ++ 0 :: junk) = .ok (some (vector ++ as)) := by
  induction as with
  | nil =>
    intro vector rounds hr
    obtain ⟨r, rfl⟩ := Nat.exists_eq_add_one.mpr (Nat.zero_lt_of_lt hr)
    rw [append_nil]
    rfl
  | cons a as ih =>
    intro vector rounds hr
    obtain ⟨r, rfl⟩ := Nat.exists_eq_add_one.mpr (Nat.zero_lt_of_lt hr)
    have hline : others (a :: as) ++ 0 :: junk = [32] ++ (sdscatrepr [] a ++ (others as ++ 0 :: junk)) := by
      simp [others]
    rw [hline, splitLoop_arg (.inr rfl) a (ends_others as junk), ih _ _ (Nat.lt_of_succ_lt_succ hr),
      append_assoc]
    rfl

lemma intercalate_cons (a : Bytes) (as : List Bytes) :
    List.intercalate [32] ((a :: as).map (sdscatrepr [])) = sdscatrepr [] a ++ others as := by
  induction as generalizing a with
  | nil => simp [others]
  | cons b as ih =>
    rw [map_cons, map_cons, intercalate_cons_cons, ← map_cons, ih]
    simp [others]

lemma length_le_others (as : List Bytes) : as.length ≤ (others as).length := by
  induction as with
  | nil => exact le_rfl
  | cons a as ih =>
    rw [others, flatMap_cons, length_append, length_append]
    rw [others] at ih
    simp only [length_cons]
    omega

/-- Splitting the written forms of any arguments gives the arguments back. The
line is the memory of the joined string, its terminator and what follows. -/
theorem sdssplitargs_sdscatrepr (args : List Bytes) (junk : Bytes) :
    sdssplitargs (List.intercalate [32] (args.map (sdscatrepr [])) ++ 0 :: junk) = .ok (some args) := by
  cases args with
  | nil => rfl
  | cons a as =>
    have hlen := length_le_others as
    rw [intercalate_cons, append_assoc, sdssplitargs]
    have hstep := splitLoop_arg (.inl rfl) a (ends_others as junk) []
      (sdscatrepr [] a ++ (others as ++ 0 :: junk)).length
    rw [nil_append] at hstep
    rw [hstep, splitLoop_others]
    · rfl
    rw [length_append, length_append, length_cons]
    omega

/-! ## Words without quotes -/

/-- A character that stands for itself outside quotes. -/
def PlainChar (c : UInt8) : Prop := isspace c = false ∧ c ≠ 0 ∧ c ≠ quote ∧ c ≠ apostrophe

instance (c : UInt8) : Decidable (PlainChar c) := inferInstanceAs (Decidable (_ ∧ _))

lemma plainTurn_char (h : PlainChar c) (p : Bytes) :
    plainTurn (c :: p) = .ok (.next .plain [c] (c :: p)) := by
  obtain ⟨hspace, h0, hq, ha⟩ := h
  have hdone : ¬(c = 32 ∨ c = 10 ∨ c = 13 ∨ c = 9 ∨ c = 0) := by
    rintro (rfl | rfl | rfl | rfl | rfl)
    · exact absurd hspace (by decide)
    · exact absurd hspace (by decide)
    · exact absurd hspace (by decide)
    · exact absurd hspace (by decide)
    · exact h0 rfl
  exact (if_neg hdone).trans ((if_neg hq).trans (if_neg ha))

/-- The token loop over characters that its mode copies. -/
lemma token_copies {mode} (w : Bytes) (rounds : Nat) (p : Bytes)
    (hw : ∀ c ∈ w, c ≠ 0 ∧ ∀ p, turn mode (c :: p) = .ok (.next mode [c] (c :: p))) :
    ∀ current, token (w.length + rounds) mode current (w ++ p) =
      token rounds mode (current ++ w) p := by
  induction w with
  | nil =>
    intro current
    rw [length_nil, zero_add, nil_append, append_nil]
  | cons c w ih =>
    intro current
    obtain ⟨h0, hturn⟩ := hw c mem_cons_self
    rw [length_cons, Nat.add_right_comm, token, cons_append, hturn, bind_ok]
    dsimp only
    rw [bump_cons h0, bind_ok, ih (forall_mem_cons.mp hw).2, append_assoc]
    rfl

lemma token_insq (w : Bytes) (hw : ∀ c ∈ w, c ≠ backslash ∧ c ≠ apostrophe ∧ c ≠ 0)
    (rounds : Nat) (p current : Bytes) : token (w.length + rounds) .insq current (w ++ p) =
      token rounds .insq (current ++ w) p := by
  refine token_copies w rounds p (fun c hc => ?_) current
  obtain ⟨hb, ha, h0⟩ := hw c hc
  have hzero : (0 : UInt8) ≠ apostrophe := by decide
  exact ⟨h0, fun p => by simp [turn, singleQuotedTurn, load, hb, ha, h0, hzero]⟩

lemma starts_word (hw : ∀ c ∈ w, PlainChar c) (hne : w ≠ []) (p : Bytes) : Starts (w ++ p) := by
  obtain ⟨c, w, rfl⟩ := exists_cons_of_ne_nil hne
  have hc := hw c mem_cons_self
  exact ⟨c, w ++ p, rfl, hc.2.1, hc.1⟩

lemma skipBlanks_starts (h : Starts p) : skipBlanks p = .ok p := by
  obtain ⟨c, p, rfl, _, hspace⟩ := h
  rw [skipBlanks, hspace, Bool.and_false]
  rfl

lemma token_word (hw : ∀ c ∈ w, PlainChar c) (p : Bytes) :
    token ((w ++ p).length + 1) .plain [] (w ++ p) = token (p.length + 1) .plain w p := by
  rw [length_append, add_assoc, token_copies w _ p, nil_append]
  exact fun c hc => ⟨(hw c hc).2.1, plainTurn_char (hw c hc)⟩

lemma splitLoop_word (hw : ∀ c ∈ w, PlainChar c) (hne : w ≠ []) (tail : Bytes)
    (vector : List Bytes) (rounds : Nat) :
    splitLoop (rounds + 1) vector (w ++ 32 :: tail) = splitLoop rounds (vector ++ [w]) tail := by
  have hstart := starts_word hw hne (32 :: tail)
  exact splitLoop_starts (skipBlanks_starts hstart) hstart (token_word hw _) vector rounds

lemma splitLoop_last (hw : ∀ c ∈ w, PlainChar c) (hne : w ≠ []) (junk : Bytes)
    (vector : List Bytes) (rounds : Nat) :
    splitLoop (rounds + 2) vector (w ++ 0 :: junk) = .ok (some (vector ++ [w])) := by
  have hstart := starts_word hw hne (0 :: junk)
  exact splitLoop_starts (skipBlanks_starts hstart) hstart (token_word hw _) vector (rounds + 1)

/-- A character that single quotes take as it stands and that is no blank. -/
def NameChar (c : UInt8) : Prop := isspace c = false ∧ c ≠ 0 ∧ c ≠ quote ∧ c ≠ backslash

instance (c : UInt8) : Decidable (NameChar c) := inferInstanceAs (Decidable (_ ∧ _))

/-- The token loop behind a single quote in a word. The quote is not closed, or it is
closed inside the word, or it ends the word and both quotes are gone. -/
lemma token_apostrophe {rest body} (hrest : ∀ c ∈ rest, NameChar c)
    (hbody : ∀ c ∈ body, c ≠ backslash ∧ c ≠ apostrophe ∧ c ≠ 0)
    (hp : p = apostrophe :: (rest ++ 32 :: (body ++ [0]))) :
    token (p.length + 1) .plain w p = .ok none ∨ ∃ w', rest = w' ++ [apostrophe] ∧
        token (p.length + 1) .plain w p = .ok (some (w ++ w', 32 :: (body ++ [0]))) := by
  have hopen : token (p.length + 1) .plain w p =
      token ((rest ++ 32 :: (body ++ [0])).length + 1) .insq w (rest ++ 32 :: (body ++ [0])) := by
    rw [hp]
    show token _ .insq (w ++ []) _ = _
    rw [append_nil]
    rfl
  rw [hopen]
  by_cases hmem : apostrophe ∈ rest
  · obtain ⟨w', rest', rfl, hw'⟩ := eq_append_cons_of_mem hmem
    have hquoted : ∀ c ∈ w', c ≠ backslash ∧ c ≠ apostrophe ∧ c ≠ 0 := fun c hc =>
      have hc' := hrest c (mem_append_left _ hc)
      ⟨hc'.2.2.2, ne_of_mem_of_not_mem hc hw', hc'.2.1⟩
    rw [append_assoc, length_append, add_assoc, token_insq w' hquoted]
    cases rest' with
    | nil =>
      right
      exact ⟨w', rfl, rfl⟩
    | cons c rest' =>
      left
      have hc := hrest c (by simp)
      -- the closing quote needs a blank behind it
      have hturn : singleQuotedTurn
          ((apostrophe :: c :: rest') ++ 32 :: (body ++ [0])) = .ok .err := by
        simp [singleQuotedTurn, closing, load, apostrophe, backslash, hc.1, hc.2.1]
      rw [token, turn, hturn]
      rfl
  left
  have hquoted : ∀ c ∈ rest ++ 32 :: body, c ≠ backslash ∧ c ≠ apostrophe ∧ c ≠ 0 := by
    intro c hc
    rcases mem_append.mp hc with hc | hc
    · have hc' := hrest c hc
      exact ⟨hc'.2.2.2, ne_of_mem_of_not_mem hc hmem, hc'.2.1⟩
    rcases mem_cons.mp hc with rfl | hc
    · decide
    · exact hbody c hc
  have hsplit : rest ++ 32 :: (body ++ [0]) = (rest ++ 32 :: body) ++ [0] := by simp
  rw [hsplit, length_append, add_assoc, token_insq _ hquoted]
  rfl

end Redis.Sds.RoundTrip
