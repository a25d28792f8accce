import Redis.Streams.Trim

/-! # Stream IDs as arguments

`streamGenericParseIDOrReply` reads its numbers with `string2ull`: a strict parser for signed
numbers first, and `strtoull` for what that one refuses. The latter skips white space, takes a
sign and wraps negative numbers, and a C string ends at its first zero byte. Nothing else is
accepted beside the documented texts. -/
namespace Redis.Streams.IdSyntax
open Option List Lib Lib.Decimal Sds.SplitArgs
open Util.Numbers Util.Stdlib Trim

/-- The sign `strtoull` takes, and what follows it. -/
def splitSign : Bytes → Bool × Bytes
  | 45 :: s => (true, s)
  | 43 :: s => (false, s)
  | s => (false, s)

/-- `strtoull` with base 10: the value and the text at `endptr`, `none` for `ERANGE`. -/
def strtoull (s : Bytes) : Option (Nat × Bytes) :=
  let (neg, t) := splitSign (s.dropWhile isspace)
  let ds := t.takeWhile fun c => decide (IsDigit c)
  if ds = [] then some (0, s)
  else if uint64Max < value 0 ds then none
  else some (if neg then (2 ^ 64 - value 0 ds) % 2 ^ 64 else value 0 ds, t.drop ds.length)

/-- `string2ull`, of a C string. -/
def string2ull (s : Bytes) : Option Nat :=
  match string2ll s with
  | some ll => if ll < 0 then none else some ll.toNat
  | none => match strtoull s with
    | some (v, []) => if s = [] then none else some v
    | _ => none

/-- The number after the dash; `*` leaves the sequence to the caller, who asks for it with a
non-null `seq_given`. -/
def parseSeq (star : Bool) (s : Bytes) : Option (Nat × Bool) :=
  if star ∧ s = [42] then some (0, false) else (string2ull s).map (·, true)

/-- `streamGenericParseIDOrReply`: the ID and `*seq_given`. -/
def streamGenericParseIDOrReply (missingSeq : UInt64) (strict star : Bool) (o : Bytes) :
    Option (StreamID × Bool) :=
  if 127 < o.length then none
  else
    let buf := cstr o
    if strict ∧ (buf = [45] ∨ buf = [43]) then none
    else if buf = [45] then some (.zero, true)
    else if buf = [43] then some (.max, true)
    else
      (string2ull (buf.takeWhile (· ≠ 45))).bind fun ms =>
        match buf.dropWhile (· ≠ 45) with
        | [] => some (⟨ms.toUInt64, missingSeq⟩, true)
        | _ :: s => (parseSeq star s).map fun (seq, given) => (⟨ms.toUInt64, seq.toUInt64⟩, given)

/-! ## The documented texts -/

/-- Decimal digits with a value that fits. -/
structure IsNumeral (s : Bytes) (n : Nat) : Prop where
  ne_nil : s ≠ []
  digits : ∀ c ∈ s, IsDigit c
  value : value 0 s = n
  fits : n < 2 ^ 64

/-- What an ID argument stands for. -/
inductive Denotes (missingSeq : UInt64) (strict star : Bool) : Bytes → StreamID × Bool → Prop
  | min : strict = false → Denotes missingSeq strict star [45] (.zero, true)
  | max : strict = false → Denotes missingSeq strict star [43] (.max, true)
  | ms {s m} : IsNumeral s m → Denotes missingSeq strict star s (⟨m.toUInt64, missingSeq⟩, true)
  | msSeq {s t m n} : IsNumeral s m → IsNumeral t n →
      Denotes missingSeq strict star (s ++ 45 :: t) (⟨m.toUInt64, n.toUInt64⟩, true)
  | msStar {s m} : star = true → IsNumeral s m →
      Denotes missingSeq strict star (s ++ [45, 42]) (⟨m.toUInt64, 0⟩, false)

/-- A number that starts with what only `strtoull` takes. -/
def Padded (s : Bytes) : Prop := ∃ c ∈ s.head?, isspace c = true ∨ c = 43 ∨ c = 45

instance (s : Bytes) : Decidable (Padded s) := inferInstanceAs (Decidable (∃ c ∈ s.head?, _))

/-- A zero byte, or a number with something in front of its digits. -/
def Loose (o : Bytes) : Prop :=
  0 ∈ o ∨ o ≠ [43] ∧ Padded (o.takeWhile (· ≠ 45)) ∨ Padded (o.dropWhile (· ≠ 45)).tail

instance (o : Bytes) : Decidable (Loose o) := inferInstanceAs (Decidable (_ ∨ _ ∨ _))

variable {s t o : Bytes} {m n : Nat}

lemma IsNumeral.not_padded (h : IsNumeral s n) : ¬ Padded s := by
  rintro ⟨c, hc, hpad⟩
  have hd := h.digits c (mem_of_mem_head? hc)
  rcases hpad with hsp | rfl | rfl
  · simp [not_isspace_of_isDigit hd] at hsp
  · exact absurd hd (by decide)
  · exact absurd hd (by decide)

lemma IsNumeral.ne (h : IsNumeral s n) {c : UInt8} (hc : c ∈ s) : c ≠ 45 ∧ c ≠ 0 := by
  have hd := h.digits c hc
  constructor <;> rintro rfl <;> exact absurd hd (by decide)

lemma splitSign_of_not_padded {c : UInt8} (h : ¬ Padded (c :: s)) :
    splitSign ((c :: s).dropWhile isspace) = (false, c :: s) := by
  simp only [Padded, head?_cons, mem_def, some.injEq, exists_eq_left', not_or] at h
  rw [dropWhile_cons_of_neg (by simp [h.1])]
  unfold splitSign
  grind

lemma strtoull_numeral (hp : ¬ Padded s) (hs : s ≠ []) (h : strtoull s = some (n, [])) :
    IsNumeral s n := by
  obtain ⟨c, r, rfl⟩ := exists_cons_of_ne_nil hs
  rw [strtoull, splitSign_of_not_padded hp] at h
  dsimp only at h
  split at h
  · cases h
  split at h
  · cases h
  rename_i hmax
  simp only [Bool.false_eq_true, if_false, some.injEq, Prod.mk.injEq, drop_eq_nil_iff] at h
  -- nothing is left behind the digits
  have hall := (takeWhile_sublist _).eq_of_length_le h.2
  rw [hall] at h hmax
  refine ⟨hs, fun x hx => ?_, h.1, ?_⟩
  · rw [← hall] at hx
    simpa using mem_takeWhile_imp hx
  unfold uint64Max at hmax
  omega

/-- `string2ull` takes numerals, and what `strtoull` reads past. -/
lemma string2ull_eq_some (h : string2ull s = some n) : IsNumeral s n ∨ Padded s := by
  rw [string2ull] at h
  split at h
  · rename_i ll hll
    simp only [ite_none_left_eq_some, some.injEq] at h
    obtain ⟨hneg, rfl⟩ := h
    obtain ⟨_, hmax, rfl⟩ := string2ll_eq_some hll
    rw [signedDecimal, if_neg hneg]
    refine .inl ⟨decimal_ne_nil _, fun c => isDigit_of_mem_decimal, value_decimal _, ?_⟩
    unfold llongMax at hmax
    omega
  by_cases hp : Padded s
  · exact .inr hp
  split at h
  · rename_i v hv
    simp only [ite_none_left_eq_some, some.injEq] at h
    obtain ⟨hs, rfl⟩ := h
    exact .inl (strtoull_numeral hp hs hv)
  · cases h

lemma IsNumeral.parts (h : IsNumeral s m) (t : Bytes) :
    (s ++ t).takeWhile (· ≠ 45) = s ++ t.takeWhile (· ≠ 45) ∧
      (s ++ t).dropWhile (· ≠ 45) = t.dropWhile (· ≠ 45) := by
  have hs : ∀ c ∈ s, decide (c ≠ 45) = true := fun c hc => decide_eq_true (h.ne hc).1
  exact ⟨takeWhile_append_of_pos hs, dropWhile_append_of_pos hs⟩

lemma IsNumeral.not_loose (h : IsNumeral s m) (hz : 0 ∉ t) (ht : t.takeWhile (· ≠ 45) = [])
    (hp : ¬ Padded (t.dropWhile (· ≠ 45)).tail) : ¬ Loose (s ++ t) := by
  rw [Loose, (h.parts t).1, (h.parts t).2, ht, append_nil, mem_append]
  rintro ((hc | hc) | hc | hc)
  · exact (h.ne hc).2 rfl
  · exact hz hc
  · exact h.not_padded hc.2
  · exact hp hc

variable {missingSeq : UInt64} {strict star : Bool} {r : StreamID × Bool}

lemma Denotes.not_loose (h : Denotes missingSeq strict star o r) : ¬ Loose o := by
  cases h with
  | min | max => decide
  | ms hs => simpa using hs.not_loose (t := []) (by simp) rfl (by simp [Padded])
  | msSeq hs ht =>
    refine hs.not_loose (fun hz => ?_) (by simp) (by simpa using ht.not_padded)
    rcases mem_cons.mp hz with hz | hz
    · exact absurd hz (by decide)
    · exact (ht.ne hz).2 rfl
  | msStar _ hs => exact hs.not_loose (by decide) (by decide) (by decide)

lemma split_dash (o : Bytes) : (o.dropWhile (· ≠ 45) = [] ∧ o = o.takeWhile (· ≠ 45)) ∨
    ∃ t, o.dropWhile (· ≠ 45) = 45 :: t ∧ o = o.takeWhile (· ≠ 45) ++ 45 :: t := by
  induction o with
  | nil => exact .inl ⟨rfl, rfl⟩
  | cons c o ih =>
    by_cases hc : c = 45
    · exact .inr ⟨o, by simp [hc], by simp [hc]⟩
    simp only [dropWhile_cons_of_pos, takeWhile_cons_of_pos, ne_eq, hc,
      not_false_eq_true, decide_true, cons_append, List.cons.injEq, true_and]
    exact ih

lemma parseSeq_eq_some {given : Bool} (h : parseSeq star t = some (n, given)) (hp : ¬ Padded t) :
    (star = true ∧ t = [42] ∧ n = 0 ∧ given = false) ∨ (IsNumeral t n ∧ given = true) := by
  unfold parseSeq at h
  split at h
  · rename_i hstar
    cases h
    exact .inl ⟨hstar.1, hstar.2, rfl, rfl⟩
  obtain ⟨v, hv, heq⟩ := map_eq_some_iff.mp h
  cases heq
  exact .inr ⟨(string2ull_eq_some hv).resolve_right hp, rfl⟩

lemma denotes_of_not_loose (hl : ¬ Loose o)
    (h : streamGenericParseIDOrReply missingSeq strict star o = some r) :
    Denotes missingSeq strict star o r := by
  simp only [Loose, not_or, not_and] at hl
  obtain ⟨hz, hms, hseq⟩ := hl
  simp only [streamGenericParseIDOrReply, cstr_of_not_mem hz, ite_none_left_eq_some] at h
  obtain ⟨_, hstrict, h⟩ := h
  split at h
  · rename_i ho
    cases h
    exact ho ▸ .min (by simpa [ho] using hstrict)
  split at h
  · rename_i ho
    cases h
    exact ho ▸ .max (by simpa [ho] using hstrict)
  rename_i hplus
  obtain ⟨ms, hnum, h⟩ := bind_eq_some_iff.mp h
  have hnum := (string2ull_eq_some hnum).resolve_right (hms hplus)
  rcases split_dash o with ⟨hd, ho⟩ | ⟨t, hd, ho⟩
  · rw [hd] at h
    cases h
    rw [ho]
    exact .ms hnum
  rw [hd] at h hseq
  obtain ⟨⟨seq, given⟩, hs, heq⟩ := map_eq_some_iff.mp h
  cases heq
  rw [ho]
  rcases parseSeq_eq_some hs hseq with ⟨hstar, rfl, rfl, rfl⟩ | ⟨ht, rfl⟩
  · exact .msStar hstar hnum
  · exact .msSeq hnum ht

/-- An accepted argument is a documented text with its values, exactly when it holds no zero
byte and no number with white space or a sign in front. -/
theorem accepted_denotes_iff (missingSeq : UInt64) (strict star : Bool) (o : Bytes)
    (r : StreamID × Bool) (h : streamGenericParseIDOrReply missingSeq strict star o = some r) :
    Denotes missingSeq strict star o r ↔ ¬ Loose o :=
  ⟨Denotes.not_loose, fun hl => denotes_of_not_loose hl h⟩

/-- `1526919030474-55`. -/
theorem accepted_denotes_given : ¬ Loose (text "1526919030474-55".toList) ∧
    Denotes 0 true true (text "1526919030474-55".toList) (⟨1526919030474, 55⟩, true) :=
  have hl : ¬ Loose (text "1526919030474-55".toList) := by decide
  ⟨hl, (accepted_denotes_iff 0 true true _ _ (by decide +kernel)).mpr hl⟩

/-- A space, a plus sign, a negative number that wraps, and a text behind a zero byte. -/
theorem loose_ids_accepted :
    streamGenericParseIDOrReply 0 true true (text " 5".toList) = some (⟨5, 0⟩, true) ∧
    streamGenericParseIDOrReply 0 true true (text "+5".toList) = some (⟨5, 0⟩, true) ∧
    streamGenericParseIDOrReply 0 true true (text "1--9223372036854775809".toList) =
      some (⟨1, 9223372036854775807⟩, true) ∧
    streamGenericParseIDOrReply 0 true true [53, 0, 120] = some (⟨5, 0⟩, true) ∧
    ∀ r, ¬ Denotes 0 true true (text " 5".toList) r ∧
      ¬ Denotes 0 true true (text "1--9223372036854775809".toList) r := by
  refine ⟨by decide +kernel, by decide +kernel, by decide +kernel, by decide +kernel, fun r =>
    ⟨fun h => h.not_loose (by decide), fun h => h.not_loose (by decide)⟩⟩

end Redis.Streams.IdSyntax
