import Redis.Aof.Loading

/-! # What the loader reads from a written file

A command that was written by `catAppendOnlyGenericCommand` is read back, and one that
was cut short ends with the end of the file. An annotation is skipped in both
cases. -/
namespace Redis.Aof.LoadingText
open List Lib Lib.Decimal Sds.SplitArgs Util.Numbers Util.Stdlib
open Networking.Encoders Loading

/-- A line of the file: a lead byte, a number and the end of the line. -/
def numberLine (lead : UInt8) (n : Nat) : Bytes := lead :: decimal n ++ [13]

lemma encodeBulk_eq (arg : Bytes) :
    encodeBulk arg = numberLine 36 arg.length ++ newline :: (arg ++ [13, 10]) := by
  simp [encodeBulk, numberLine, newline]

lemma encodeCommand_eq (argv : List Bytes) :
    encodeCommand argv = numberLine 42 argv.length ++ newline :: argv.flatMap encodeBulk := by
  simp [encodeCommand, numberLine, newline]

/-- What can stand in a command. -/
structure Command (argv : List Bytes) : Prop where
  nonempty : argv ≠ []
  argc : argv.length < 2 ^ 31
  arg : ∀ a ∈ argv, (a.length : Int) ≤ llongMax

variable {lead : UInt8} {n : Nat} {argv : List Bytes} {v : Int}

lemma newline_not_mem_numberLine (h : lead ≠ newline) (n : Nat) : newline ∉ numberLine lead n := by
  intro hc
  rcases mem_cons.mp hc with hc | hc
  · exact h hc.symm
  rcases mem_append.mp hc with hc | hc
  · exact absurd (isDigit_of_mem_decimal hc) (by decide)
  · exact absurd hc (by decide)

lemma length_numberLine_lt (lead : UInt8) (h : (n : Int) ≤ llongMax) :
    (numberLine lead n).length + 1 < aofAnnotationLineMaxLen := by
  have hlen := length_decimal_le (k := 18) (n := n) (by unfold llongMax at h; omega)
  rw [numberLine, length_append, aofAnnotationLineMaxLen]
  simp only [length_cons, length_nil]
  omega

lemma fgets_numberLine (hlead : lead ≠ newline) (h : (n : Int) ≤ llongMax) (rest : Bytes) :
    fgets aofAnnotationLineMaxLen (numberLine lead n ++ newline :: rest) =
      some (numberLine lead n ++ [newline], rest) :=
  fgets_line (newline_not_mem_numberLine hlead n) (length_numberLine_lt lead h)

lemma not_isDigit_cr : ∀ c ∈ ([13, 10] : Bytes).head?, ¬IsDigit c := by
  rintro c ⟨⟩
  decide

lemma zero_not_mem_decimal (n : Nat) : (0 : UInt8) ∉ decimal n := fun hc =>
  absurd (isDigit_of_mem_decimal hc) (by decide)

lemma atoll_numberLine (lead : UInt8) (h : (n : Int) ≤ llongMax) :
    atoll (cstr ((numberLine lead n ++ [newline]).drop 1)) = n := by
  have hdrop : (numberLine lead n ++ [newline]).drop 1 = decimal n ++ [13, 10] := by
    simp [numberLine, newline]
  have hzero : (0 : UInt8) ∉ decimal n ++ [13, 10] := by
    intro hc
    rcases mem_append.mp hc with hc | hc
    · exact zero_not_mem_decimal n hc
    · exact absurd hc (by decide)
  rw [hdrop, cstr_of_not_mem hzero]
  exact atoll_decimal h not_isDigit_cr

lemma readArg_encodeBulk {arg} (h : (arg.length : Int) ≤ llongMax) (rest : Bytes) :
    readArg (encodeBulk arg ++ rest) = .ok (arg, rest) := by
  have hline : encodeBulk arg ++ rest =
      numberLine 36 arg.length ++ newline :: (arg ++ (13 :: 10 :: rest)) := by
    rw [encodeBulk_eq]
    simp
  have hhead : (numberLine 36 arg.length ++ [newline]).head? = some 36 := rfl
  rw [hline, readArg, fgets_numberLine (by decide) h]
  dsimp only
  rw [hhead, if_neg (by decide), atoll_numberLine 36 h, Int.toNat_natCast,
    if_neg (by simp), take_left, drop_left, if_neg (by simp)]
  rfl

lemma readArgs_encodeBulk (argv : List Bytes) (h : ∀ a ∈ argv, (a.length : Int) ≤ llongMax)
    (rest : Bytes) : readArgs argv.length (argv.flatMap encodeBulk ++ rest) = .ok (argv, rest) := by
  induction argv with
  | nil => rfl
  | cons arg argv ih =>
    rw [flatMap_cons, append_assoc, length_cons, readArgs, readArg_encodeBulk (h arg mem_cons_self)]
    show (readArgs argv.length _ >>= _) = _
    rw [ih (forall_mem_cons.mp h).2]
    rfl

lemma atoi_of_lt {s} (h : atoll s = n) (hn : n < 2 ^ 31) : atoi s = n := by
  rw [atoi, Int.bmod_def]
  split <;> omega

lemma headD_decimal_ne_zero (n : Nat) (rest : Bytes) : (decimal n ++ rest).headD 0 ≠ 0 := by
  obtain ⟨c, cs, hcons⟩ := exists_cons_of_ne_nil (decimal_ne_nil n)
  have hc : IsDigit c := isDigit_of_mem_decimal (hcons ▸ mem_cons_self)
  rw [hcons]
  rintro rfl
  exact absurd hc (by decide)

lemma argc_le (h : Command argv) : (argv.length : Int) ≤ llongMax := by
  have hargc := h.argc
  unfold llongMax
  omega

lemma readNext_numberLine (h : Command argv) (rest : Bytes) :
    readNext (numberLine 42 argv.length ++ newline :: rest) = readCommand argv.length rest := by
  have hhead : (numberLine 42 argv.length ++ [newline]).head? = some 42 := rfl
  have hsecond : ((numberLine 42 argv.length ++ [newline]).drop 1).headD 0 ≠ 0 := by
    have hdrop : (numberLine 42 argv.length ++ [newline]).drop 1 =
        decimal argv.length ++ [13, 10] := by simp [numberLine, newline]
    rw [hdrop]
    exact headD_decimal_ne_zero _ _
  have hargc := atoi_of_lt (atoll_numberLine 42 (argc_le h)) h.argc
  rw [readNext, fgets_numberLine (by decide) (argc_le h)]
  dsimp only
  rw [hhead, if_neg (by decide), if_neg (by decide), if_neg hsecond, hargc]

lemma readNext_command (h : Command argv) (rest : Bytes) :
    readNext (encodeCommand argv ++ rest) = .command argv rest := by
  have hpos := length_pos_iff.mpr h.nonempty
  rw [encodeCommand_eq, append_assoc, cons_append, readNext_numberLine h, readCommand,
    if_neg (by omega), Int.toNat_natCast, readArgs_encodeBulk argv h.arg]

/-! ## Cut short -/

/-- A piece of a line without its newline is read as it stands, up to the end of the
file. -/
lemma fgets_rest {s} (hne : s ≠ []) (hnl : newline ∉ s)
    (hlen : s.length < aofAnnotationLineMaxLen) :
    fgets aofAnnotationLineMaxLen s = some (s, []) := by
  have hline : lineLength s = s.length := by
    have htake : s.takeWhile (· ≠ newline) = s :=
      takeWhile_eq_self_iff.mpr fun _ hc => decide_eq_true (ne_of_mem_of_not_mem hc hnl)
    rw [lineLength, htake]
    omega
  rw [fgets, if_neg hne, hline, Nat.min_eq_left (by omega)]
  dsimp only
  rw [take_length, drop_length]

lemma fgets_cut_numberLine (hlead : lead ≠ newline) (h : (n : Int) ≤ llongMax) {m} (h0 : 0 < m) :
    fgets aofAnnotationLineMaxLen ((numberLine lead n).take m) =
      some ((numberLine lead n).take m, []) := by
  have hlen := length_numberLine_lt lead h
  refine fgets_rest ?_ (fun hc => newline_not_mem_numberLine hlead n (mem_of_mem_take hc)) ?_
  · obtain ⟨k, rfl⟩ := Nat.exists_eq_succ_of_ne_zero (Nat.ne_of_gt h0)
    exact cons_ne_nil _ _
  rw [length_take]
  omega

lemma take_line (line rest : Bytes) (m : Nat) :
    (line ++ newline :: rest).take (line.length + 1 + m) = line ++ newline :: rest.take m := by
  have hsplit : line ++ newline :: rest = (line ++ [newline]) ++ rest := by simp
  have hlen : line.length + 1 = (line ++ [newline]).length := by simp
  rw [hsplit, hlen, take_length_add_append]
  simp

lemma readArg_nil : readArg [] = .error .unexpectedEof := rfl

lemma readArg_cut {arg} (h : (arg.length : Int) ≤ llongMax)
    (hn : n < (encodeBulk arg).length) : readArg ((encodeBulk arg).take n) = .error .unexpectedEof := by
  rw [encodeBulk_eq] at hn ⊢
  rcases Nat.eq_zero_or_pos n with rfl | h0
  · exact readArg_nil
  rcases Nat.lt_or_ge (numberLine 36 arg.length).length n with hlt | hle
  · -- behind the line with the length
    obtain ⟨m, rfl⟩ : ∃ m, n = (numberLine 36 arg.length).length + 1 + m :=
      ⟨n - ((numberLine 36 arg.length).length + 1), by omega⟩
    have hm : m < arg.length + 2 := by
      simp only [length_append, length_cons, length_nil] at hn
      omega
    have hhead : (numberLine 36 arg.length ++ [newline]).head? = some 36 := rfl
    rw [take_line, readArg, fgets_numberLine (by decide) h]
    dsimp only
    rw [hhead, if_neg (by decide), atoll_numberLine 36 h, if_neg (by omega)]
    split
    · rfl
    rw [if_pos]
    simp only [length_drop, length_take]
    omega
  -- in the line with the length
  rw [take_append_of_le_length hle, readArg, fgets_cut_numberLine (by decide) h h0]
  have hhead : ((numberLine 36 arg.length).take n).head? = some 36 := by
    obtain ⟨k, rfl⟩ := Nat.exists_eq_succ_of_ne_zero (Nat.ne_of_gt h0)
    rfl
  have hnonneg : 0 ≤ atoll (cstr (((numberLine 36 arg.length).take n).drop 1)) := by
    refine atoll_nonneg fun hc => ?_
    have hmem := mem_of_mem_take (mem_of_mem_drop ((takeWhile_sublist _).mem hc))
    rcases mem_cons.mp hmem with hmem | hmem
    · exact absurd hmem (by decide)
    rcases mem_append.mp hmem with hmem | hmem
    · exact absurd (isDigit_of_mem_decimal hmem) (by decide)
    · exact absurd hmem (by decide)
  dsimp only
  rw [hhead, if_neg (by decide), if_neg (Int.not_lt.mpr hnonneg)]
  split
  · rfl
  · rw [if_pos (by rw [drop_nil]; decide)]

lemma readArgs_cut (argv : List Bytes) (h : ∀ a ∈ argv, (a.length : Int) ≤ llongMax) :
    ∀ {n : Nat}, n < (argv.flatMap encodeBulk).length →
      readArgs argv.length ((argv.flatMap encodeBulk).take n) = .error .unexpectedEof := by
  induction argv with
  | nil => exact fun hn => absurd hn (Nat.not_lt_zero _)
  | cons arg argv ih =>
    intro n hn
    have harg := h arg mem_cons_self
    rw [flatMap_cons, length_append] at hn
    rw [flatMap_cons, length_cons, readArgs]
    rcases Nat.lt_or_ge n (encodeBulk arg).length with hlt | hge
    · rw [take_append_of_le_length hlt.le, readArg_cut harg hlt]
      rfl
    obtain ⟨m, rfl⟩ : ∃ m, n = (encodeBulk arg).length + m :=
      ⟨n - (encodeBulk arg).length, by omega⟩
    rw [take_length_add_append, readArg_encodeBulk harg]
    show (readArgs argv.length _ >>= _) = _
    rw [ih (forall_mem_cons.mp h).2 (by omega)]
    rfl

/-- The first digits of a number are a number that is not zero. -/
lemma atoi_cut {m} (hn : 0 < n) (hmax : n < 2 ^ 31) (hm : 0 < m) :
    ∃ v : Nat, 1 ≤ v ∧ atoi (cstr ((decimal n ++ [13]).take m)) = v := by
  have hdigits : ∀ c ∈ (decimal n).take m, IsDigit c := fun c hc =>
    isDigit_of_mem_decimal (mem_of_mem_take hc)
  have hsplit : (decimal n ++ [13]).take m =
      (decimal n).take m ++ [13].take (m - (decimal n).length) := take_append
  have hzero : (0 : UInt8) ∉ (decimal n ++ [13]).take m := by
    intro hc
    rcases mem_append.mp (mem_of_mem_take hc) with hc | hc
    · exact zero_not_mem_decimal n hc
    · exact absurd hc (by decide)
  have htail : ∀ c ∈ ([13].take (m - (decimal n).length) : Bytes).head?, ¬IsDigit c := by
    intro c hc
    have hmem := mem_of_mem_take (mem_of_mem_head? hc)
    rw [mem_singleton.mp hmem]
    decide
  obtain ⟨c, t, hcons, hc1, hc2⟩ := decimal_eq_cons hn
  obtain ⟨k, rfl⟩ : ∃ k, m = k + 1 := ⟨m - 1, by omega⟩
  have hfirst : 1 ≤ value 0 ((decimal n).take (k + 1)) := by
    rw [hcons]
    refine Nat.le_trans ?_ (value_mono (0 * 10 + (c.toNat - 48)) (t.take k))
    omega
  have hle : value 0 ((decimal n).take (k + 1)) ≤ n := by
    conv_rhs => rw [← value_decimal n, ← take_append_drop (k + 1) (decimal n), value_append]
    exact value_mono _ _
  have hne : (decimal n).take (k + 1) ≠ [] := by
    rw [hcons]
    exact cons_ne_nil _ _
  refine ⟨_, hfirst, atoi_of_lt ?_ (hle.trans_lt hmax)⟩
  rw [cstr_of_not_mem hzero, hsplit]
  exact atoll_digits hdigits hne (by unfold llongMax; omega) htail

/-- A command that is cut short anywhere ends with the end of the file. -/
lemma readNext_cut (h : Command argv) (h0 : 0 < n) (hn : n < (encodeCommand argv).length) :
    readNext ((encodeCommand argv).take n) = .stop .unexpectedEof := by
  have hpos := length_pos_iff.mpr h.nonempty
  rw [encodeCommand_eq] at hn ⊢
  rcases Nat.lt_or_ge (numberLine 42 argv.length).length n with hlt | hle
  · -- behind the line with the number of arguments
    obtain ⟨m, rfl⟩ : ∃ m, n = (numberLine 42 argv.length).length + 1 + m :=
      ⟨n - ((numberLine 42 argv.length).length + 1), by omega⟩
    have hm : m < (argv.flatMap encodeBulk).length := by
      rw [length_append, length_cons] at hn
      omega
    rw [take_line, readNext_numberLine h, readCommand, if_neg (by omega), Int.toNat_natCast,
      readArgs_cut argv h.arg hm]
  rw [take_append_of_le_length hle, readNext, fgets_cut_numberLine (by decide) (argc_le h) h0]
  obtain ⟨k, rfl⟩ : ∃ k, n = k + 1 := ⟨n - 1, by omega⟩
  have hhead : ((numberLine 42 argv.length).take (k + 1)).head? = some 42 := rfl
  have hdrop : ((numberLine 42 argv.length).take (k + 1)).drop 1 =
      (decimal argv.length ++ [13]).take k := rfl
  dsimp only
  rw [hhead, if_neg (by decide), if_neg (by decide), hdrop]
  rcases Nat.eq_zero_or_pos k with rfl | hk
  · -- the star alone
    rfl
  have hsecond : ((decimal argv.length ++ [13]).take k).headD 0 ≠ 0 := by
    obtain ⟨j, rfl⟩ : ∃ j, k = j + 1 := ⟨k - 1, by omega⟩
    obtain ⟨c, t, hcons, hc1, -⟩ := decimal_eq_cons hpos
    rw [hcons]
    rintro rfl
    exact absurd hc1 (by decide)
  obtain ⟨v, hv, hargc⟩ := atoi_cut hpos h.argc hk
  obtain ⟨w, rfl⟩ : ∃ w, v = w + 1 := ⟨v - 1, by omega⟩
  rw [hargc, readCommand, if_neg (by omega)]
  rfl

/-! ## Annotations -/

/-- What `genAofTimestampAnnotationIfNeeded` writes, without the newline. -/
def annotationLine (seconds : Int) : Bytes :=
  text ['#', 'T', 'S', ':'] ++ signedDecimal seconds ++ [13]

lemma newline_not_mem_annotationLine (seconds : Int) : newline ∉ annotationLine seconds := by
  intro hc
  rcases mem_append.mp hc with hc | hc
  · rcases mem_append.mp hc with hc | hc
    · exact absurd hc (by decide)
    have hdigit : ∀ n : Nat, newline ∉ decimal n := fun n hn =>
      absurd (isDigit_of_mem_decimal hn) (by decide)
    rw [signedDecimal] at hc
    split at hc
    · rcases mem_cons.mp hc with hc | hc
      · exact absurd hc (by decide)
      · exact hdigit _ hc
    · exact hdigit _ hc
  · exact absurd hc (by decide)

lemma length_annotationLine_lt (hmin : llongMin ≤ v) (hmax : v ≤ llongMax) :
    (annotationLine v).length + 1 < aofAnnotationLineMaxLen := by
  have hlen := length_signedDecimal_le hmin hmax
  have htext : (text ['#', 'T', 'S', ':']).length = 4 := rfl
  rw [annotationLine, length_append, length_append, aofAnnotationLineMaxLen,
    length_singleton]
  omega

lemma readNext_timestamp (hmin : llongMin ≤ v) (hmax : v ≤ llongMax) (rest : Bytes) :
    readNext (annotationLine v ++ newline :: rest) = .timestamp rest := by
  rw [readNext, fgets_line (newline_not_mem_annotationLine v) (length_annotationLine_lt hmin hmax)]
  rfl

/-- An annotation that is cut short is skipped like a whole one. -/
lemma readNext_timestamp_cut (hmin : llongMin ≤ v) (hmax : v ≤ llongMax)
    (h0 : 0 < n) (hn : n < (annotationLine v ++ [newline]).length) :
    readNext ((annotationLine v ++ [newline]).take n) = .timestamp [] := by
  have hlen := length_annotationLine_lt hmin hmax
  rw [length_append, length_singleton] at hn
  obtain ⟨k, rfl⟩ : ∃ k, n = k + 1 := ⟨n - 1, by omega⟩
  rw [take_append_of_le_length (by omega), readNext, fgets_rest]
  · rfl
  · exact cons_ne_nil _ _
  · exact fun hc => newline_not_mem_annotationLine v (mem_of_mem_take hc)
  rw [length_take]
  omega

end Redis.Aof.LoadingText
