import Redis.Lib.Decimal

/-! # Numbers as text: util.c

The conversion of 64-bit integers to decimal text, two digits per round, and
the length it is given in advance. -/
namespace Redis.Util.Numbers
open List Lib Lib.Decimal

def llongMin : Int := -2 ^ 63
def llongMax : Int := 2 ^ 63 - 1
def uint64Max : Nat := 2 ^ 64 - 1

def digits10 (v : Nat) : Nat :=
  if v < 10 then 1
  else if v < 100 then 2
  else if v < 1000 then 3
  else if v < 1000000000000 then
    if v < 100000000 then
      if v < 1000000 then
        if v < 10000 then 4 else 5 + (if 100000 ≤ v then 1 else 0)
      else 7 + (if 10000000 ≤ v then 1 else 0)
    else if v < 10000000000 then 9 + (if 1000000000 ≤ v then 1 else 0)
    else 11 + (if 100000000000 ≤ v then 1 else 0)
  else 12 + digits10 (v / 1000000000000)
termination_by v
decreasing_by omega

/-- The entry of the table `digits` for `n < 100`. -/
def digitPair (n : Nat) : Bytes := [digit (n / 10), digit (n % 10)]

/-- `while (value >= 100)`; the digits are stored from the end of `dst`, so
`acc` is what follows the place `next`. -/
def ull2stringLoop (value : Nat) (acc : Bytes) : Bytes :=
  if 100 ≤ value then ull2stringLoop (value / 100) (digitPair (value % 100) ++ acc)
  else if value < 10 then digit value :: acc
  else digitPair value ++ acc
termination_by value
decreasing_by omega

/-- `ull2string`; `none` is the return value 0 for a buffer too small. -/
def ull2string (dstlen value : Nat) : Option Bytes :=
  if dstlen ≤ digits10 value then none else some (ull2stringLoop value [])

def ll2string (dstlen : Nat) (svalue : Int) : Option Bytes :=
  if svalue < 0 then
    let value := if svalue ≠ llongMin then (-svalue).toNat else llongMax.toNat + 1
    if dstlen < 2 then none else (ull2string (dstlen - 1) value).map (45 :: ·)
  else ull2string dstlen svalue.toNat

variable {v : Nat} {s : Bytes}

lemma decimal_hundred (h : 100 ≤ v) : decimal v = decimal (v / 100) ++ digitPair (v % 100) := by
  have h1 : v / 10 / 10 = v / 100 := by omega
  have h2 : v / 10 % 10 = v % 100 / 10 := by omega
  have h3 : v % 10 = v % 100 % 10 := by omega
  rw [decimal, if_neg (by omega), decimal, if_neg (by omega), h1, h2, digitPair]
  simp

lemma ull2stringLoop_eq (value : Nat) (acc : Bytes) :
    ull2stringLoop value acc = decimal value ++ acc := by
  induction value using Nat.strongRecOn generalizing acc with
  | ind v ih =>
    rw [ull2stringLoop]
    split
    · rename_i h
      rw [ih (v / 100) (by omega), decimal_hundred h, append_assoc]
    split
    · rename_i h
      rw [decimal_of_lt h]; rfl
    have h1 : v / 10 < 10 := by omega
    rw [decimal, if_neg (by omega), decimal_of_lt h1]
    rfl

lemma length_decimal_div {k} (h : 10 ^ k ≤ v) :
    (decimal v).length = k + (decimal (v / 10 ^ k)).length := by
  induction k generalizing v with
  | zero => simp
  | succ k ih =>
    have hpos : 0 < 10 ^ k := Nat.pow_pos (by omega)
    have hdiv : 10 ^ k ≤ v / 10 := by omega
    have hcut : (decimal v).length = (decimal (v / 10)).length + 1 := by
      conv_lhs => rw [decimal, if_neg (by omega)]
      simp
    rw [hcut, ih hdiv, Nat.pow_succ, mul_comm, ← Nat.div_div_eq_div_mul]
    omega

lemma length_decimal_eq {k} (h : 10 ^ k ≤ v) (h' : v < 10 ^ (k + 1)) :
    (decimal v).length = k + 1 := by
  rw [length_decimal_div h, decimal_of_lt]
  · rfl
  exact Nat.div_lt_of_lt_mul h'

lemma digits10_eq (v : Nat) : digits10 v = (decimal v).length := by
  induction v using Nat.strongRecOn with
  | ind v ih =>
    rw [digits10]
    have len : ∀ k, 10 ^ k ≤ v → v < 10 ^ (k + 1) → k + 1 = (decimal v).length :=
      fun k h h' => (length_decimal_eq h h').symm
    split
    · rw [decimal_of_lt (by assumption)]; rfl
    split
    · exact len 1 (by omega) (by omega)
    split
    · exact len 2 (by omega) (by omega)
    split
    · split
      · split
        · split
          · exact len 3 (by omega) (by omega)
          split
          · exact len 5 (by omega) (by omega)
          · exact len 4 (by omega) (by omega)
        split
        · exact len 7 (by omega) (by omega)
        · exact len 6 (by omega) (by omega)
      split
      · split
        · exact len 9 (by omega) (by omega)
        · exact len 8 (by omega) (by omega)
      split
      · exact len 11 (by omega) (by omega)
      · exact len 10 (by omega) (by omega)
    · have h12 : 10 ^ 12 = 1000000000000 := by decide
      have hge : 10 ^ 12 ≤ v := by omega
      rw [ih _ (by omega), length_decimal_div hge, h12]

lemma ull2string_eq {dstlen value} (h : (decimal value).length < dstlen) :
    ull2string dstlen value = some (decimal value) := by
  rw [ull2string, digits10_eq, if_neg (by omega), ull2stringLoop_eq, append_nil]

def signedDecimal (v : Int) : Bytes :=
  if v < 0 then 45 :: decimal (-v).toNat else decimal v.toNat

/-- The text is stored if the buffer has room for it and the terminator. -/
lemma ll2string_spec (dstlen : Nat) (v : Int) : ll2string dstlen v =
      if (signedDecimal v).length < dstlen then some (signedDecimal v) else none := by
  unfold ll2string signedDecimal
  split
  · have hval : (if v ≠ llongMin then (-v).toNat else llongMax.toNat + 1) = (-v).toNat := by
      split
      · rfl
      rename_i h
      rw [Classical.not_not.mp h]
      decide
    simp only [hval, ull2string, digits10_eq, ull2stringLoop_eq, append_nil, length_cons]
    split
    · rw [if_neg (by omega)]
    split
    · rw [if_neg (by omega)]
      rfl
    rw [if_pos (by omega)]
    rfl
  · simp only [ull2string, digits10_eq, ull2stringLoop_eq, append_nil]
    split
    · rw [if_neg (by omega)]
    · rw [if_pos (by omega)]

lemma length_signedDecimal_le {v} (hmin : llongMin ≤ v) (hmax : v ≤ llongMax) :
    (signedDecimal v).length ≤ 20 := by
  unfold llongMin at hmin
  unfold llongMax at hmax
  have hlen : ∀ n : Nat, n < 10 ^ 19 → (decimal n).length ≤ 19 := fun n hn => length_decimal_le hn
  rw [signedDecimal]
  split
  · have := hlen (-v).toNat (by omega)
    rw [length_cons]
    omega
  have := hlen v.toNat (by omega)
  omega

lemma ll2string_eq {v} (hmin : llongMin ≤ v) (hmax : v ≤ llongMax) :
    ll2string 21 v = some (signedDecimal v) := by
  rw [ll2string_spec, if_pos]
  exact Nat.lt_succ_of_le (length_signedDecimal_le hmin hmax)

/-! ## Parsing -/

def longStrSize : Nat := 21

/-- `while (plen < slen && p[0] >= '0' && p[0] <= '9')`; `none` is an
overflow. -/
def parseDigits : (v : Nat) → Bytes → Option (Nat × Bytes)
  | v, [] => some (v, [])
  | v, c :: p =>
    if 48 ≤ c ∧ c ≤ 57 then
      if uint64Max / 10 < v then none
      else if uint64Max - (c.toNat - 48) < v * 10 then none
      else parseDigits (v * 10 + (c.toNat - 48)) p
    else some (v, c :: p)

/-- The part of `string2ll` after the sign. -/
def parseMagnitude (limit : Nat) : Bytes → Option Nat
  | [] => none
  | c :: p =>
    if 49 ≤ c ∧ c ≤ 57 then
      match parseDigits (c.toNat - 48) p with
      | some (v, []) => if limit < v then none else some v
      | _ => none
    else none

def string2ll (s : Bytes) : Option Int :=
  if s.length = 0 ∨ longStrSize ≤ s.length then none
  else if s = [48] then some 0
  else match s with
    | 45 :: p => (parseMagnitude (2 ^ 63) p).map fun v : Nat => -(v : Int)
    | p => (parseMagnitude (2 ^ 63 - 1) p).map fun v : Nat => (v : Int)

lemma isDigit_iff {c} : (48 ≤ c ∧ c ≤ 57) ↔ IsDigit c := Iff.rfl

/-- The digit loop, as long as nothing overflows, is Horner evaluation. -/
lemma parseDigits_eq_some {w} (h : parseDigits v s = some (w, [])) :
    (∀ c ∈ s, IsDigit c) ∧ w = value v s := by
  induction s generalizing v with
  | nil => cases h; exact ⟨by simp, rfl⟩
  | cons c s ih =>
    rw [parseDigits] at h
    split at h
    · rename_i hc
      split at h
      · cases h
      split at h
      · cases h
      obtain ⟨hd, hw⟩ := ih h
      refine ⟨fun x hx => ?_, hw⟩
      rcases mem_cons.mp hx with rfl | hx
      · exact isDigit_iff.mp hc
      · exact hd x hx
    · cases h

lemma parseDigits_of_digits (hs : ∀ c ∈ s, IsDigit c)
    (hfit : value v s ≤ uint64Max) : parseDigits v s = some (value v s, []) := by
  induction s generalizing v with
  | nil => rfl
  | cons c s ih =>
    have hc := hs c mem_cons_self
    have hstep : value v (c :: s) = value (v * 10 + (c.toNat - 48)) s := rfl
    have hle := value_mono (v * 10 + (c.toNat - 48)) s
    unfold uint64Max at hfit
    rw [parseDigits, if_pos (isDigit_iff.mpr hc), if_neg (by unfold uint64Max; omega),
      if_neg (by unfold uint64Max; omega)]
    exact ih (forall_mem_cons.mp hs).2 (by exact hfit)

lemma parseMagnitude_eq_some {limit p} (h : parseMagnitude limit p = some v) :
    0 < v ∧ v ≤ limit ∧ p = decimal v := by
  cases p with
  | nil => cases h
  | cons c p =>
    rw [parseMagnitude] at h
    split at h
    · rename_i hc
      split at h
      · rename_i w hw
        split at h
        · cases h
        cases h
        obtain ⟨hd, hv⟩ := parseDigits_eq_some hw
        have h1 : 49 ≤ c.toNat := hc.1
        have h2 : c.toNat ≤ 57 := hc.2
        have hpos : 0 < c.toNat - 48 := by omega
        have hmono := value_mono (c.toNat - 48) p
        refine ⟨by omega, by omega, ?_⟩
        rw [hv, decimal_value hpos hd, decimal_of_lt (by omega), digit_toNat ⟨by omega, h2⟩]
        rfl
      · cases h
    · cases h

lemma parseMagnitude_decimal {limit} (h0 : 0 < v) (h1 : v ≤ limit)
    (h2 : limit ≤ uint64Max) : parseMagnitude limit (decimal v) = some v := by
  obtain ⟨c, t, hct, hc1, hc2⟩ := decimal_eq_cons h0
  have hval := value_decimal v
  have hdig : ∀ x ∈ t, IsDigit x := fun x hx =>
    isDigit_of_mem_decimal (n := v) (by rw [hct]; exact mem_cons_of_mem _ hx)
  have hstep : value 0 (c :: t) = value (c.toNat - 48) t := by
    show value (0 * 10 + (c.toNat - 48)) t = _
    rw [zero_mul, zero_add]
  rw [hct, hstep] at hval
  rw [hct, parseMagnitude, if_pos ⟨hc1, hc2⟩, parseDigits_of_digits hdig (by omega), hval]
  dsimp only
  rw [if_neg (by omega)]

lemma string2ll_eq_some {v} (h : string2ll s = some v) :
    llongMin ≤ v ∧ v ≤ llongMax ∧ signedDecimal v = s := by
  unfold string2ll at h
  split at h
  · cases h
  split at h
  · rename_i hs
    cases h
    subst hs
    exact ⟨by decide, by decide,
      by exact decimal_of_lt (by decide)⟩
  unfold llongMin llongMax
  split at h
  · obtain ⟨w, hw, rfl⟩ := Option.map_eq_some_iff.mp h
    obtain ⟨hpos, hlim, rfl⟩ := parseMagnitude_eq_some hw
    refine ⟨by omega, by omega, ?_⟩
    rw [signedDecimal, if_pos (by omega)]
    congr 2
    omega
  obtain ⟨w, hw, rfl⟩ := Option.map_eq_some_iff.mp h
  obtain ⟨hpos, hlim, rfl⟩ := parseMagnitude_eq_some hw
  refine ⟨by omega, by omega, ?_⟩
  rw [signedDecimal, if_neg (by omega), Int.toNat_natCast]

lemma string2ll_signedDecimal {v} (hmin : llongMin ≤ v) (hmax : v ≤ llongMax) :
    string2ll (signedDecimal v) = some v := by
  have hl := length_signedDecimal_le hmin hmax
  unfold llongMin at hmin
  unfold llongMax at hmax
  unfold string2ll longStrSize
  rw [signedDecimal] at hl ⊢
  by_cases hneg : v < 0
  · rw [if_pos hneg] at hl ⊢
    rw [if_neg (by rw [length_cons] at hl ⊢; omega)]
    show Option.map _ (parseMagnitude (2 ^ 63) (decimal (-v).toNat)) = some v
    rw [parseMagnitude_decimal (by omega) (by omega) (by decide), Option.map_some]
    congr 1
    omega
  rw [if_neg hneg] at hl ⊢
  have hne : (decimal v.toNat).length ≠ 0 := fun h =>
    decimal_ne_nil _ (length_eq_zero_iff.mp h)
  rw [if_neg (by omega)]
  by_cases h0 : v = 0
  · subst h0
    exact if_pos (decimal_of_lt (by decide))
  obtain ⟨c, t, hct, hc1, hc2⟩ := decimal_eq_cons (n := v.toNat) (by omega)
  have hm : parseMagnitude (2 ^ 63 - 1) (decimal v.toNat) = some v.toNat :=
    parseMagnitude_decimal (by omega) (by omega) (by decide)
  rw [if_neg (by
    intro h
    rw [hct] at h
    cases h
    exact absurd hc1 (by decide))]
  split
  · rename_i p hp
    rw [hct] at hp
    cases hp
    exact absurd hc1 (by decide)
  rw [hm, Option.map_some]
  congr 1
  omega

end Redis.Util.Numbers
