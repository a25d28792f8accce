import Redis.Lib.Bytes

/-! # Bit strings, high bit first

The bits of a byte string are numbered from the high bit of its first byte on, and the bits past
its end are clear. A field is a number in consecutive bits, its high bit first. A write leaves
the bits of the number in the field, and every other bit as it was. -/
namespace Redis.Lib.BitStrings
open List Lib

def bitAt (s : Bytes) (i : Nat) : Bool := (s.getD (i / 8) 0).toBitVec.getMsbD (i % 8)

/-- The number in the `w` bits from `offset` on. -/
def fieldAt (s : Bytes) (offset : Nat) : (w : Nat) → Nat
  | 0 => 0
  | w + 1 => 2 * fieldAt s offset w + (bitAt s (offset + w)).toNat

/-- `s'` is `s` with the low `w` bits of `v` in the field at `offset`. -/
structure Wrote (s : Bytes) (offset w v : Nat) (s' : Bytes) : Prop where
  length : s'.length = s.length
  inside : ∀ j < w, bitAt s' (offset + j) = v.testBit (w - 1 - j)
  outside : ∀ i, i < offset ∨ offset + w ≤ i → bitAt s' i = bitAt s i

variable {s s' s'' : Bytes} {offset w v i k : Nat}

/-! ## Bits -/

lemma bitAt_of_lt (h : i / 8 < s.length) : bitAt s i = s[i / 8].toBitVec.getMsbD (i % 8) := by
  rw [bitAt, getD_eq_getElem _ _ h]

lemma bitAt_of_length_le (h : s.length ≤ i / 8) : bitAt s i = false := by
  rw [bitAt, getD_eq_default _ _ h]
  exact BitVec.getMsbD_zero

lemma bitAt_set_self (b : UInt8) (h : k < s.length) (hi : i / 8 = k) :
    bitAt (s.set k b) i = b.toBitVec.getMsbD (i % 8) := by
  subst hi
  rw [bitAt_of_lt (by simpa using h)]
  simp

lemma bitAt_set_ne (b : UInt8) (hi : i / 8 ≠ k) : bitAt (s.set k b) i = bitAt s i := by
  simp [bitAt, getElem?_set_ne (Ne.symm hi)]

lemma bitAt_append_zeros (s : Bytes) (n i : Nat) :
    bitAt (s ++ List.replicate n 0) i = bitAt s i := by
  by_cases h : i / 8 < s.length
  · simp [bitAt, getElem?_append_left h]
  have hle : s.length ≤ i / 8 := Nat.le_of_not_lt h
  have hzero : (s ++ List.replicate n 0).getD (i / 8) 0 = (0 : UInt8) := by
    simp only [getD_eq_getElem?_getD, getElem?_append_right hle, getElem?_replicate]
    split <;> rfl
  rw [bitAt_of_length_le hle, bitAt, hzero]
  exact BitVec.getMsbD_zero

/-! ## Fields -/

lemma fieldAt_congr {o o'} (h : ∀ j < w, bitAt s' (o' + j) = bitAt s (o + j)) :
    fieldAt s' o' w = fieldAt s o w := by
  induction w with
  | zero => rfl
  | succ w ih =>
    rw [fieldAt, fieldAt, ih fun j hj => h j (Nat.lt_succ_of_lt hj), h w (Nat.lt_succ_self w)]

lemma testBit_fieldAt (s : Bytes) (offset w k : Nat) :
    (fieldAt s offset w).testBit k = (decide (k < w) && bitAt s (offset + (w - 1 - k))) := by
  induction w generalizing k with
  | zero => simp [fieldAt]
  | succ w ih =>
    cases k with
    | zero =>
      have hodd : (2 * fieldAt s offset w + (bitAt s (offset + w)).toNat) % 2 =
          (bitAt s (offset + w)).toNat := by
        cases bitAt s (offset + w) <;> simp
      rw [fieldAt, Nat.testBit_zero, hodd]
      simp
    | succ k =>
      have hhalf : (2 * fieldAt s offset w + (bitAt s (offset + w)).toNat) / 2 =
          fieldAt s offset w := by
        cases bitAt s (offset + w)
        · simp
        simp only [Bool.toNat_true]
        omega
      rw [fieldAt, Nat.testBit_succ, hhalf, ih]
      simp [Nat.sub_sub, add_comm 1 k]

lemma fieldAt_lt (s : Bytes) (offset w : Nat) : fieldAt s offset w < 2 ^ w := by
  induction w with
  | zero => simp [fieldAt]
  | succ w ih =>
    have hbit := Bool.toNat_lt (bitAt s (offset + w))
    rw [fieldAt]
    omega

namespace Wrote

lemma refl (s : Bytes) (offset v : Nat) : Wrote s offset 0 v s :=
  ⟨rfl, fun j hj => absurd hj (Nat.not_lt_zero j), fun _ _ => rfl⟩

/-- The high bit first, and then the field behind it. -/
lemma cons (h : Wrote s offset 1 (v.testBit w).toNat s') (h' : Wrote s' (offset + 1) w v s'') :
    Wrote s offset (w + 1) v s'' where
  length := h'.length.trans h.length
  inside j hj := by
    cases j with
    | zero =>
      rw [h'.outside (offset + 0) (.inl (Nat.lt_succ_self offset)), h.inside 0 Nat.zero_lt_one]
      cases hv : v.testBit w <;> simp [hv]
    | succ j =>
      rw [← add_assoc, Nat.add_right_comm, h'.inside j (Nat.lt_of_succ_lt_succ hj)]
      congr 1
      omega
  outside i hi := by
    rw [h'.outside i (by omega), h.outside i (by omega)]

lemma fieldAt_eq (h : Wrote s offset w v s') : fieldAt s' offset w = v % 2 ^ w := by
  apply Nat.eq_of_testBit_eq
  intro k
  rw [testBit_fieldAt, Nat.testBit_mod_two_pow]
  by_cases hk : k < w
  · have hplace : w - 1 - (w - 1 - k) = k := by omega
    rw [h.inside _ (by omega), hplace]
  · simp [hk]

end Wrote

/-! ## Numbers of `w` bits in a wider word -/

section Masks
variable {n : Nat} (x : BitVec n)

lemma getLsbD_highMask (k : Nat) :
    (BitVec.allOnes n <<< w).getLsbD k = (decide (k < n) && decide (w ≤ k)) := by
  by_cases hk : k < n
  · simp [hk, ← decide_not]
  · simp [hk]

lemma and_not_highMask : x &&& ~~~(BitVec.allOnes n <<< w) = (x.setWidth w).setWidth n := by
  apply BitVec.eq_of_getLsbD_eq
  intro k hk
  simp only [BitVec.getLsbD_and, BitVec.getLsbD_not, getLsbD_highMask, BitVec.getLsbD_setWidth, hk]
  by_cases hkw : k < w <;> simp [hkw, Nat.le_of_not_lt]

lemma msb_setWidth_of_pos (hw : 1 ≤ w) : (x.setWidth w).msb = x.getLsbD (w - 1) := by
  rw [BitVec.msb_eq_getLsbD_last]
  simp [Nat.sub_lt hw Nat.one_pos]

lemma or_highMask (hw : 1 ≤ w) (h : x.getLsbD (w - 1) = true) :
    x ||| (BitVec.allOnes n <<< w) = (x.setWidth w).signExtend n := by
  apply BitVec.eq_of_getLsbD_eq
  intro k hk
  simp only [BitVec.getLsbD_or, getLsbD_highMask, BitVec.getLsbD_signExtend, hk, msb_setWidth_of_pos x hw, h]
  by_cases hkw : k < w <;> simp [hkw, Nat.le_of_not_lt]

lemma signExtend_of_not_msb (hw : 1 ≤ w) (h : x.getLsbD (w - 1) = false) :
    (x.setWidth w).signExtend n = (x.setWidth w).setWidth n := by
  apply BitVec.signExtend_eq_setWidth_of_msb_false
  rw [msb_setWidth_of_pos x hw, h]

lemma and_one_shiftLeft_ne_zero (hk : k < n) : x &&& (1#n <<< k) ≠ 0#n ↔ x.getLsbD k = true := by
  have htwo : BitVec.twoPow n k ≠ 0#n := by
    intro h
    have hbit := congrArg (BitVec.getLsbD · k) h
    simp [hk] at hbit
  change x &&& BitVec.twoPow n k ≠ 0#n ↔ _
  rw [BitVec.and_twoPow]
  by_cases hbit : x.getLsbD k = true
  · simp [htwo]
  · simp [hbit]

/-- The value of the low `w` bits as a signed number. -/
lemma toInt_signExtend_setWidth (hw : w ≤ n) :
    ((x.setWidth w).signExtend n).toInt = (x.toNat : Int).bmod (2 ^ w) := by
  rw [BitVec.toInt_signExtend_of_le hw, BitVec.toInt_setWidth]

end Masks

end Redis.Lib.BitStrings
