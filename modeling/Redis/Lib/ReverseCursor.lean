import Mathlib.Data.Nat.Bitwise

/-! # Cursors counted in reversed bit order

A cursor over tables of `2 ^ n` slots is advanced on its reversed bits, so that the slots it has
passed are the same set for every table size: those whose reversed value is below the reversed
cursor. `order` is that value; masking, advancing and the test for a wrap of the high bits
become arithmetic on it. -/
namespace Redis.Lib.ReverseCursor

variable {w : Nat} {v : BitVec w}

/-- The position of a word in the reversed order. -/
def order (v : BitVec w) : Nat := v.reverse.toNat

/-- The cursor after `v` for the mask `m`: the bits above the mask are set, so
that the carry starts at the highest slot bit. -/
def next (m v : BitVec w) : BitVec w := ((v ||| ~~~m).reverse + 1).reverse

lemma order_lt (v : BitVec w) : order v < 2 ^ w := v.reverse.isLt

lemma order_zero : order (0 : BitVec w) = 0 := by
  have h : (0 : BitVec w).reverse = 0#w := BitVec.reverse_eq_zero_iff.mpr rfl
  rw [order, h, BitVec.toNat_zero]

lemma order_eq_zero : order v = 0 ↔ v = 0 := by
  refine ⟨fun h => ?_, fun h => by rw [h, order_zero]⟩
  exact BitVec.reverse_eq_zero_iff.mp (BitVec.eq_of_toNat_eq (h.trans BitVec.toNat_zero.symm))

lemma testBit_order {i : Nat} (hi : i < w) : (order v).testBit i = v.getLsbD (w - 1 - i) := by
  rw [order, BitVec.testBit_toNat, BitVec.getLsbD_reverse, BitVec.getMsbD_eq_getLsbD]
  simp [hi]

lemma or_low_ones (x k : Nat) : x ||| (2 ^ k - 1) = 2 ^ k * (x / 2 ^ k) + (2 ^ k - 1) := by
  have hlt : 2 ^ k - 1 < 2 ^ k := by have := Nat.two_pow_pos k; omega
  apply Nat.eq_of_testBit_eq
  intro i
  rw [Nat.testBit_two_pow_mul_add _ hlt, Nat.testBit_div_two_pow]
  by_cases hi : i < k
  · simp [hi]
  · simp [hi, Nat.sub_add_cancel (Nat.le_of_not_lt hi)]

section Mask
variable {n k : Nat} {m : BitVec w}

lemma getLsbD_mask (hm : m.toNat = 2 ^ n - 1) (i : Nat) : m.getLsbD i = decide (i < n) := by
  rw [BitVec.getLsbD, hm, Nat.testBit_two_pow_sub_one]

variable (hk : n + k = w)
include hk

lemma slots_lt (v : BitVec w) : order v / 2 ^ k < 2 ^ n := by
  rw [Nat.div_lt_iff_lt_mul (Nat.two_pow_pos k), ← Nat.pow_add, hk]
  exact order_lt v

lemma slots_cases (v : BitVec w) :
    (order v / 2 ^ k + 1 = 2 ^ n ∧ 2 ^ k * (order v / 2 ^ k + 1) % 2 ^ w = 0) ∨
    (order v / 2 ^ k + 1 < 2 ^ n ∧
      2 ^ k * (order v / 2 ^ k + 1) % 2 ^ w = 2 ^ k * (order v / 2 ^ k + 1)) := by
  have hw : 2 ^ w = 2 ^ k * 2 ^ n := by rw [← Nat.pow_add, add_comm, hk]
  rcases Nat.lt_or_ge (order v / 2 ^ k + 1) (2 ^ n) with hlt | hge
  · refine .inr ⟨hlt, Nat.mod_eq_of_lt ?_⟩
    rw [hw]
    exact Nat.mul_lt_mul_of_pos_left hlt (Nat.two_pow_pos k)
  have heq : order v / 2 ^ k + 1 = 2 ^ n := Nat.le_antisymm (slots_lt hk v) hge
  exact .inl ⟨heq, by rw [heq, hw, Nat.mod_self]⟩

/-- A word the cursor has reached and not yet left behind is in its slot. -/
lemma slot_of_between {h : BitVec w} {c : Nat}
    (hc : c = 2 ^ k * (order v / 2 ^ k + 1) % 2 ^ w) (hle : order v ≤ order h)
    (hlt : c = 0 ∨ order h < c) : order h / 2 ^ k = order v / 2 ^ k := by
  have hge : order v / 2 ^ k ≤ order h / 2 ^ k := Nat.div_le_div_right hle
  refine Nat.le_antisymm ?_ hge
  rcases slots_cases hk v with ⟨hlast, -⟩ | ⟨-, hmod⟩
  · have := slots_lt hk h
    omega
  rw [hmod] at hc
  have hc0 : c ≠ 0 := hc ▸ Nat.mul_ne_zero (Nat.two_pow_pos k).ne' (Nat.succ_ne_zero _)
  exact Nat.lt_succ_iff.mp (Nat.div_lt_of_lt_mul (hc ▸ hlt.resolve_left hc0))

variable (hm : m.toNat = 2 ^ n - 1)
include hm

lemma reverse_or_not_mask (v : BitVec w) :
    (v ||| ~~~m).reverse.toNat = 2 ^ k * (order v / 2 ^ k) + (2 ^ k - 1) := by
  rw [← or_low_ones]
  apply Nat.eq_of_testBit_eq
  intro i
  rw [Nat.testBit_or, BitVec.testBit_toNat]
  by_cases hi : i < w
  · rw [testBit_order hi, BitVec.getLsbD_reverse, BitVec.getMsbD_eq_getLsbD, BitVec.getLsbD_or,
      BitVec.getLsbD_not, getLsbD_mask hm]
    have h1 : w - 1 - i < w := by omega
    have h2 : (!decide (w - 1 - i < n)) = decide (i < k) := by
      rw [← decide_not, decide_eq_decide]
      omega
    simp [hi, h1, h2]
  have h1 : ¬ i < k := by omega
  have h2 : (order v).testBit i = false := Nat.testBit_lt_two_pow (Nat.lt_of_lt_of_le (order_lt v)
      (Nat.pow_le_pow_right (by omega) (Nat.le_of_not_lt hi)))
  rw [BitVec.getLsbD_of_ge _ _ (Nat.le_of_not_lt hi), h2]
  simp [h1]

lemma order_next (v : BitVec w) : order (next m v) = 2 ^ k * (order v / 2 ^ k + 1) % 2 ^ w := by
  have hpos := Nat.two_pow_pos k
  have hone : (1 : BitVec w).toNat = 1 % 2 ^ w := BitVec.toNat_ofNat ..
  rw [order, next, BitVec.reverse_reverse_eq, BitVec.toNat_add, reverse_or_not_mask hk hm,
    hone, Nat.add_mod_mod, mul_add]
  congr 1
  omega

lemma and_mask_eq {x y : BitVec w} (h : order x / 2 ^ k = order y / 2 ^ k) : x &&& m = y &&& m := by
  apply BitVec.eq_of_getLsbD_eq
  intro i hi
  rw [BitVec.getLsbD_and, BitVec.getLsbD_and, getLsbD_mask hm]
  by_cases hn : i < n
  · have hj := congrArg (fun z => z.testBit (n - 1 - i)) h
    simp only [Nat.testBit_div_two_pow] at hj
    have hidx : w - 1 - (n - 1 - i + k) = i := by omega
    rw [testBit_order (by omega), testBit_order (by omega), hidx] at hj
    rw [hj]
  · simp [hn]

/-- Advancing goes to the next slot in the order, or wraps to zero from the
last one. -/
lemma order_next_cases (v : BitVec w) :
    (order v / 2 ^ k + 1 = 2 ^ n ∧ order (next m v) = 0) ∨
    (order v / 2 ^ k + 1 < 2 ^ n ∧ order (next m v) = 2 ^ k * (order v / 2 ^ k + 1)) := by
  rw [order_next hk hm]
  exact slots_cases hk v

lemma order_div_eq {x y : BitVec w}
    (h : x &&& m = y &&& m) : order x / 2 ^ k = order y / 2 ^ k := by
  apply Nat.eq_of_testBit_eq
  intro i
  by_cases hi : i < n
  · have hbit := congrArg (fun z => z.getLsbD (n - 1 - i)) h
    have hlt : n - 1 - i < n := by omega
    have hidx : w - 1 - (i + k) = n - 1 - i := by omega
    simp only [BitVec.getLsbD_and, getLsbD_mask hm, hlt, decide_true, Bool.and_true] at hbit
    rw [Nat.testBit_div_two_pow, Nat.testBit_div_two_pow, testBit_order (by omega),
      testBit_order (by omega), hidx, hbit]
  have hpow : 2 ^ n ≤ 2 ^ i := Nat.pow_le_pow_right (by omega) (Nat.le_of_not_lt hi)
  rw [Nat.testBit_lt_two_pow ((slots_lt hk x).trans_le hpow),
    Nat.testBit_lt_two_pow ((slots_lt hk y).trans_le hpow)]

lemma order_iterate {i : Nat} (hi : i < 2 ^ n) : order ((next m)^[i] 0) = 2 ^ k * i := by
  induction i with
  | zero => exact order_zero
  | succ i ih =>
    have hslot : order ((next m)^[i] 0) / 2 ^ k = i := by
      rw [ih (Nat.lt_of_succ_lt hi), Nat.mul_div_cancel_left _ (Nat.two_pow_pos k)]
    have hcases := order_next_cases hk hm ((next m)^[i] 0)
    rw [hslot] at hcases
    rw [Function.iterate_succ_apply']
    rcases hcases with ⟨hlast, -⟩ | ⟨-, hnext⟩
    · omega
    · exact hnext

lemma iterate_next_slots : (next m)^[2 ^ n] 0 = 0 := by
  obtain ⟨i, hi⟩ : ∃ i, 2 ^ n = i + 1 := Nat.exists_eq_succ_of_ne_zero (Nat.two_pow_pos n).ne'
  have hslot : order ((next m)^[i] 0) / 2 ^ k = i := by
    rw [order_iterate hk hm (by omega), Nat.mul_div_cancel_left _ (Nat.two_pow_pos k)]
  have hcases := order_next_cases hk hm ((next m)^[i] 0)
  rw [hi, Function.iterate_succ_apply', ← order_eq_zero]
  rcases hcases with ⟨-, hzero⟩ | ⟨hlt, -⟩
  · exact hzero
  · omega

end Mask

/-! ## Two masks -/

section TwoMasks
variable {n0 k0 n1 k1 : Nat} {m0 m1 : BitVec w}

lemma getLsbD_mask_xor (h0 : m0.toNat = 2 ^ n0 - 1) (h1 : m1.toNat = 2 ^ n1 - 1)
    (hn : n0 ≤ n1) (i : Nat) : (m0 ^^^ m1).getLsbD i = decide (n0 ≤ i ∧ i < n1) := by
  rw [BitVec.getLsbD_xor, getLsbD_mask h0, getLsbD_mask h1]
  by_cases ha : i < n0 <;> by_cases hb : i < n1 <;> simp [ha] <;> omega

lemma order_next_mod (hk1 : n1 + k1 = w) (h1 : m1.toNat = 2 ^ n1 - 1) (v : BitVec w) :
    order (next m1 v) % 2 ^ k1 = 0 := by
  rw [order_next hk1 h1, Nat.mod_mod_of_dvd _ (Nat.pow_dvd_pow 2 (by omega)), Nat.mul_mod_right]

variable (hk0 : n0 + k0 = w) (hk1 : n1 + k1 = w)
include hk0 hk1

/-- The loop test: no slot bit of the larger mask is left over the smaller one
exactly when the cursor starts a slot of the smaller mask. -/
lemma and_xor_eq_zero_iff (h0 : m0.toNat = 2 ^ n0 - 1) (h1 : m1.toNat = 2 ^ n1 - 1) (hn : n0 ≤ n1)
    (hv : order v % 2 ^ k1 = 0) : v &&& (m0 ^^^ m1) = 0 ↔ order v % 2 ^ k0 = 0 := by
  constructor
  · intro h
    apply Nat.eq_of_testBit_eq
    intro j
    rw [Nat.testBit_mod_two_pow, Nat.zero_testBit]
    by_cases hj : j < k0
    · by_cases hj1 : j < k1
      · have := congrArg (fun z => z.testBit j) hv
        simp only [Nat.testBit_mod_two_pow, Nat.zero_testBit, hj1, decide_true,
          Bool.true_and] at this
        rw [this, Bool.and_false]
      have := congrArg (fun z => z.getLsbD (w - 1 - j)) h
      simp only [BitVec.getLsbD_and, getLsbD_mask_xor h0 h1 hn] at this
      have hin : n0 ≤ w - 1 - j ∧ w - 1 - j < n1 := by omega
      simp only [hin, and_self, decide_true, Bool.and_true] at this
      rw [testBit_order (by omega), this]
      simp
    · simp [hj]
  intro h
  apply BitVec.eq_of_getLsbD_eq
  intro i hi
  rw [BitVec.getLsbD_and, getLsbD_mask_xor h0 h1 hn]
  by_cases hin : n0 ≤ i ∧ i < n1
  · have := congrArg (fun z => z.testBit (w - 1 - i)) h
    have hj : w - 1 - i < k0 := by omega
    have hidx : w - 1 - (w - 1 - i) = i := by omega
    simp only [Nat.testBit_mod_two_pow, hj, decide_true, Bool.true_and] at this
    rw [testBit_order (by omega), hidx] at this
    simp [this]
  · simp [hin]

lemma pow_split (hn : n0 ≤ n1) : 2 ^ k0 = 2 ^ k1 * 2 ^ (n1 - n0) := by
  rw [← Nat.pow_add]
  congr 1
  omega

/-- The larger mask's slot is the last one in the smaller mask's: the cursor
moves on to the next slot of both. -/
lemma next_last (h1 : m1.toNat = 2 ^ n1 - 1)
    (hn : n0 ≤ n1) (hr : order v / 2 ^ k1 % 2 ^ (n1 - n0) + 1 = 2 ^ (n1 - n0)) :
    order (next m1 v) = 2 ^ k0 * (order v / 2 ^ k0 + 1) % 2 ^ w ∧
      order (next m1 v) % 2 ^ k0 = 0 := by
  have hs := pow_split hk0 hk1 hn
  have hq := Nat.div_add_mod (order v / 2 ^ k1) (2 ^ (n1 - n0))
  have hsucc : order v / 2 ^ k1 + 1 = 2 ^ (n1 - n0) * (order v / 2 ^ k0 + 1) := by
    rw [hs, ← Nat.div_div_eq_div_mul, mul_add]
    omega
  have heq : order (next m1 v) = 2 ^ k0 * (order v / 2 ^ k0 + 1) % 2 ^ w := by
    rw [order_next hk1 h1, hsucc, ← mul_assoc, ← hs]
  refine ⟨heq, ?_⟩
  rw [heq, Nat.mod_mod_of_dvd _ (Nat.pow_dvd_pow 2 (by omega)), Nat.mul_mod_right]

/-- Otherwise it stays in the smaller mask's slot. -/
lemma next_inner (h1 : m1.toNat = 2 ^ n1 - 1)
    (hn : n0 ≤ n1) (hr : order v / 2 ^ k1 % 2 ^ (n1 - n0) + 1 < 2 ^ (n1 - n0)) :
    order (next m1 v) / 2 ^ k1 = order v / 2 ^ k1 + 1 ∧
      order (next m1 v) / 2 ^ k0 = order v / 2 ^ k0 ∧
      order (next m1 v) / 2 ^ k1 % 2 ^ (n1 - n0) = order v / 2 ^ k1 % 2 ^ (n1 - n0) + 1 ∧
      order (next m1 v) % 2 ^ k0 ≠ 0 := by
  have hs := pow_split hk0 hk1 hn
  have hq := Nat.div_add_mod (order v / 2 ^ k1) (2 ^ (n1 - n0))
  have hD := Nat.two_pow_pos (n1 - n0)
  have hk := Nat.two_pow_pos k1
  have hsucc : order v / 2 ^ k1 + 1 = 2 ^ (n1 - n0) * (order v / 2 ^ k1 / 2 ^ (n1 - n0)) +
      (order v / 2 ^ k1 % 2 ^ (n1 - n0) + 1) := by omega
  have hmod : (order v / 2 ^ k1 + 1) % 2 ^ (n1 - n0) = order v / 2 ^ k1 % 2 ^ (n1 - n0) + 1 := by
    conv_lhs => rw [hsucc]
    rw [Nat.mul_add_mod, Nat.mod_eq_of_lt hr]
  have hdiv : (order v / 2 ^ k1 + 1) / 2 ^ (n1 - n0) = order v / 2 ^ k1 / 2 ^ (n1 - n0) := by
    conv_lhs => rw [hsucc]
    rw [Nat.mul_add_div hD, Nat.div_eq_of_lt hr, add_zero]
  rcases order_next_cases hk1 h1 v with ⟨hlast, _⟩ | ⟨_, heq⟩
  · -- a power of two is no inner slot
    rw [hlast, show 2 ^ n1 = 2 ^ n0 * 2 ^ (n1 - n0) by rw [← Nat.pow_add]; congr 1; omega,
      Nat.mul_mod_left] at hmod
    omega
  have hslot : order (next m1 v) / 2 ^ k1 = order v / 2 ^ k1 + 1 := by
    rw [heq, Nat.mul_div_cancel_left _ hk]
  refine ⟨hslot, ?_, by rw [hslot, hmod], ?_⟩
  · rw [hs, ← Nat.div_div_eq_div_mul, ← Nat.div_div_eq_div_mul, hslot, hdiv]
  rw [heq, hs, Nat.mul_mod_mul_left]
  exact Nat.mul_ne_zero (by omega) (by omega)

end TwoMasks

end Redis.Lib.ReverseCursor
