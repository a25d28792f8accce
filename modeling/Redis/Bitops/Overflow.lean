import Redis.Bitops.Model
import Redis.Lib.BitStrings
import Mathlib.Algebra.Order.Ring.Int

/-! # The overflow checks

The checks predict in 64 bit arithmetic whether a sum leaves the range of a type. Below 64
bits the distances to both ends of the range are themselves words; at 64 bits a distance is
looked at only where it is one. -/
namespace Redis.Bitops
open Lib Lib.BitStrings

namespace BitfieldType

def lo (type : BitfieldType) : Int := if type.sign then -2 ^ (type.bits - 1) else 0

def hi (type : BitfieldType) : Int :=
  if type.sign then 2 ^ (type.bits - 1) - 1 else 2 ^ type.bits - 1

def Fits (type : BitfieldType) (v : Int) : Prop := type.lo ≤ v ∧ v ≤ type.hi

/-- What a field of a type holds after a sum `v` is stored there: the sum, or what the overflow
type makes of it. -/
inductive Stores (type : BitfieldType) (v : Int) : Owtype → Option Int → Prop where
  | exact {owtype} : type.Fits v → Stores type v owtype (some v)
  | wrap {u} : ¬ type.Fits v → type.Fits u → u % 2 ^ type.bits = v % 2 ^ type.bits →
      Stores type v .wrap (some u)
  | satHigh : type.hi < v → Stores type v .sat (some type.hi)
  | satLow : v < type.lo → Stores type v .sat (some type.lo)
  | fail : ¬ type.Fits v → Stores type v .fail none

variable {type : BitfieldType}

lemma unsigned_range (hsign : type.sign = false) :
    type.bits ≤ 63 ∧ type.lo = 0 ∧ type.hi = 2 ^ type.bits - 1 := by
  simpa [lo, hi, hsign] using type.le

lemma signed_range (hsign : type.sign = true) :
    type.bits ≤ 64 ∧ type.lo = -2 ^ (type.bits - 1) ∧ type.hi = 2 ^ (type.bits - 1) - 1 := by
  simpa [lo, hi, hsign] using type.le

end BitfieldType

/-! ## Words and their values -/

lemma toInt_bounds (x : Word) : -2 ^ 63 ≤ x.toInt ∧ x.toInt < 2 ^ 63 :=
  ⟨BitVec.le_toInt x, BitVec.toInt_lt⟩

variable {v : Int} {w : Nat} {incr value : Word} {type : BitfieldType}

lemma bmod_word (hlo : -2 ^ 63 ≤ v) (hhi : v < 2 ^ 63) : v.bmod (2 ^ 64) = v := by
  apply Int.bmod_eq_of_le_mul_two <;> omega

lemma pow_dvd_word (hw : w ≤ 64) : (2 ^ w : Int) ∣ ((2 ^ 64 : Nat) : Int) := by
  exact_mod_cast Nat.pow_dvd_pow 2 hw

lemma toNat_emod_pow (x : Word) (hw : w ≤ 64) : (x.toNat : Int) % 2 ^ w = x.toInt % 2 ^ w := by
  rw [← Int.emod_emod_of_dvd x.toInt (pow_dvd_word hw), BitVec.toInt_eq_toNat_bmod, Int.bmod_emod,
    Int.emod_emod_of_dvd _ (pow_dvd_word hw)]

lemma toInt_add_emod_pow (x y : Word) (hw : w ≤ 64) :
    (x + y).toInt % 2 ^ w = (x.toInt + y.toInt) % 2 ^ w := by
  rw [← Int.emod_emod_of_dvd (x + y).toInt (pow_dvd_word hw), BitVec.toInt_add, Int.bmod_emod,
    Int.emod_emod_of_dvd _ (pow_dvd_word hw)]

lemma toInt_of_toNat_lt {x : Word} (h : x.toNat < 2 ^ 63) : x.toInt = x.toNat := by
  rw [BitVec.toInt_eq_toNat_bmod]
  exact bmod_word (by omega) (by omega)

lemma toNat_of_toInt_nonneg {x : Word} (h : 0 ≤ x.toInt) : (x.toNat : Int) = x.toInt := by
  rw [BitVec.toInt_eq_toNat_cond] at h ⊢
  split at h <;> split <;> omega

lemma pow_le_word {w k : Nat} (hw : w ≤ k) : (1 : Int) ≤ 2 ^ w ∧ (2 : Int) ^ w ≤ 2 ^ k :=
  ⟨one_le_pow₀ (by decide), pow_le_pow_right₀ (by decide) hw⟩

lemma pow_half (hw : w ≤ 64) : (1 : Int) ≤ 2 ^ (w - 1) ∧
    (w ≠ 64 → (2 : Int) ^ (w - 1) ≤ 2 ^ 62) ∧ (w = 64 → (2 : Int) ^ (w - 1) = 2 ^ 63) :=
  ⟨(@pow_le_word (w - 1) 63 (by omega)).1, fun h => (@pow_le_word (w - 1) 62 (by omega)).2,
    fun h => by rw [h]⟩

lemma toInt_one_shiftLeft {k : Nat} (hk : k < 63) : (1#64 <<< k).toInt = 2 ^ k := by
  have h : (BitVec.twoPow 64 k).toInt = 2 ^ k := by
    rw [BitVec.toInt_twoPow, if_neg (by omega), if_neg (by omega)]
  exact h

lemma toInt_sub_of_fits {x y : Word} (hlo : -2 ^ 63 ≤ x.toInt - y.toInt)
    (hhi : x.toInt - y.toInt < 2 ^ 63) : (x - y).toInt = x.toInt - y.toInt := by
  rw [BitVec.toInt_sub, bmod_word hlo hhi]

lemma two_pow_eq_double (hpos : 1 ≤ w) : ((2 ^ w : Nat) : Int) = 2 * 2 ^ (w - 1) := by
  rw [← Nat.sub_add_cancel hpos, Nat.pow_succ]
  push_cast
  rw [mul_comm]

lemma bmod_fits (v : Int) (hpos : 1 ≤ w) :
    -2 ^ (w - 1) ≤ v.bmod (2 ^ w) ∧ v.bmod (2 ^ w) ≤ 2 ^ (w - 1) - 1 := by
  have hle := @Int.le_bmod v _ (Nat.two_pow_pos w)
  have hlt := @Int.bmod_lt v _ (Nat.two_pow_pos w)
  rw [two_pow_eq_double hpos] at hle hlt
  omega

lemma bmod_of_fits (hpos : 1 ≤ w) (hlo : -2 ^ (w - 1) ≤ v)
    (hhi : v ≤ 2 ^ (w - 1) - 1) : v.bmod (2 ^ w) = v := by
  have hdouble := two_pow_eq_double hpos
  apply Int.bmod_eq_of_le_mul_two
  · omega
  omega

lemma bmod_congr {u : Int} (h : u % 2 ^ w = v % 2 ^ w) : u.bmod (2 ^ w) = v.bmod (2 ^ w) := by
  rw [← Int.emod_bmod, ← Int.emod_bmod v]
  push_cast
  rw [h]

/-! ## Unsigned types -/

lemma toNat_unsignedMax (hw : w ≤ 63) : (unsignedMax w).toNat = 2 ^ w - 1 := by
  have hpow : 2 ^ w < 2 ^ 64 := Nat.pow_lt_pow_right (by decide) (by omega)
  have hpos : 0 < 2 ^ w := Nat.two_pow_pos w
  have htwo : (1#64 <<< w).toNat = 2 ^ w := by
    rw [BitVec.toNat_shiftLeft, Nat.shiftLeft_eq]
    simpa using hpow
  rw [unsignedMax, if_neg (by omega), BitVec.toNat_sub_of_le, htwo]
  · rfl
  rw [BitVec.le_def, htwo]
  exact hpos

lemma toInt_unsignedMax (hw : w ≤ 63) : (unsignedMax w).toInt = 2 ^ w - 1 := by
  have hpow : 2 ^ w ≤ 2 ^ 63 := Nat.pow_le_pow_right (by decide) hw
  have hmax := toNat_unsignedMax hw
  rw [toInt_of_toNat_lt (by omega), hmax]
  push_cast [Nat.one_le_two_pow]
  rfl

lemma toInt_unsignedWrap (value incr : Word) (hw : w ≤ 63) :
    (unsignedWrap value incr w).toInt = (value.toInt + incr.toInt) % 2 ^ w := by
  have hpow : 2 ^ w ≤ 2 ^ 63 := Nat.pow_le_pow_right (by decide) hw
  have hnat : (unsignedWrap value incr w).toNat = (value + incr).toNat % 2 ^ w := by
    rw [unsignedWrap, and_not_highMask, BitVec.toNat_setWidth, BitVec.toNat_setWidth]
    exact Nat.mod_eq_of_lt (by omega)
  rw [toInt_of_toNat_lt (by omega), hnat, ← toInt_add_emod_pow value incr (by omega),
    ← toNat_emod_pow _ (by omega)]
  rfl

/-! ## Signed types -/

lemma toInt_signedMax (hpos : 1 ≤ w) (hw : w ≤ 64) : (signedMax w).toInt = 2 ^ (w - 1) - 1 := by
  unfold signedMax
  split
  · subst w
    exact BitVec.toInt_intMax
  have hone : (1#64).toInt = 1 := by decide
  have htwo := @toInt_one_shiftLeft (w - 1) (by omega)
  obtain ⟨hge, hle⟩ := @pow_le_word (w - 1) 62 (by omega)
  have hsub := @toInt_sub_of_fits (1#64 <<< (w - 1)) 1#64
  rw [htwo] at hsub
  exact hsub (by omega) (by omega)

lemma toInt_signedMin (hpos : 1 ≤ w) (hw : w ≤ 64) : (-signedMax w - 1).toInt = -2 ^ (w - 1) := by
  obtain ⟨hge, hle⟩ := @pow_le_word (w - 1) 63 (by omega)
  have hone : (1#64).toInt = 1 := by decide
  have hneg : (-signedMax w).toInt = 1 - 2 ^ (w - 1) := by
    rw [BitVec.toInt_neg, toInt_signedMax hpos hw, bmod_word (by omega) (by omega)]
    omega
  have hsub := @toInt_sub_of_fits (-signedMax w) 1#64
  exact (hsub (by omega) (by omega)).trans (by omega)

lemma toInt_signedWrap (value incr : Word) (hpos : 1 ≤ w) (hw : w ≤ 64) :
    (signedWrap value incr w).toInt = (value.toInt + incr.toInt).bmod (2 ^ w) := by
  by_cases hlt : w < 64
  · have hext : signedWrap value incr w = ((value + incr).setWidth w).signExtend 64 := by
      simp only [signedWrap, hlt, if_true, and_one_shiftLeft_ne_zero _ (show w - 1 < 64 by omega)]
      split
      · rename_i hmsb
        exact or_highMask _ hpos hmsb
      rename_i hmsb
      rw [signExtend_of_not_msb _ hpos (by simpa using hmsb), and_not_highMask]
    rw [hext, toInt_signExtend_setWidth _ hw]
    exact bmod_congr ((toNat_emod_pow (value + incr) hw).trans (toInt_add_emod_pow value incr hw))
  · have hw64 : w = 64 := by omega
    subst hw64
    exact BitVec.toInt_add value incr

/-! ## What the checks return -/

lemma toInt_zero_word : (0 : Word).toInt = 0 := by decide

lemma unsigned_over (hw : w ≤ 63) (hlo : 0 ≤ value.toInt) (hhi : value.toInt ≤ 2 ^ w - 1) :
    (unsignedMax w < value ∨ ((0#64).slt incr ∧ (unsignedMax w - value).slt incr)) ↔
      2 ^ w - 1 < value.toInt + incr.toInt := by
  obtain ⟨hge, hle⟩ := pow_le_word hw
  have hmax := toInt_unsignedMax hw
  have hsub : (unsignedMax w - value).toInt = 2 ^ w - 1 - value.toInt := by
    rw [toInt_sub_of_fits (by omega) (by omega), hmax]
  have hnot : ¬ unsignedMax w < value := by
    have hval := toNat_of_toInt_nonneg hlo
    have hmax' := @toNat_of_toInt_nonneg (unsignedMax w) (by omega)
    rw [BitVec.lt_def]
    omega
  simp only [hnot, false_or, BitVec.slt_iff_toInt_lt, BitVec.toInt_zero]
  omega

lemma unsigned_under (hlo : 0 ≤ value.toInt) :
    (incr.slt 0 ∧ incr.slt (-value)) ↔ value.toInt + incr.toInt < 0 := by
  have hbounds := toInt_bounds value
  have hneg : (-value).toInt = -value.toInt := by
    rw [BitVec.toInt_neg, bmod_word (by omega) (by omega)]
  simp only [BitVec.slt_iff_toInt_lt, toInt_zero_word]
  omega

lemma signed_over (hpos : 1 ≤ w) (hw : w ≤ 64)
    (hlo : -2 ^ (w - 1) ≤ value.toInt) (hhi : value.toInt ≤ 2 ^ (w - 1) - 1) :
    ((signedMax w).slt value ∨ (w ≠ 64 ∧ (signedMax w - value).slt incr) ∨
      (¬ value.slt 0 ∧ (0#64).slt incr ∧ (signedMax w - value).slt incr)) ↔
      2 ^ (w - 1) - 1 < value.toInt + incr.toInt := by
  have hmax := toInt_signedMax hpos hw
  have hincr := toInt_bounds incr
  obtain ⟨hge, hhalf, hfull⟩ := pow_half hw
  simp only [BitVec.slt_iff_toInt_lt, toInt_zero_word, BitVec.toInt_zero]
  by_cases hneg : w = 64 ∧ value.toInt < 0
  · -- the sum cannot pass the greatest word
    omega
  have hsub : (signedMax w - value).toInt = 2 ^ (w - 1) - 1 - value.toInt := by
    rw [toInt_sub_of_fits (by omega) (by omega), hmax]
  omega

lemma signed_under (hpos : 1 ≤ w) (hw : w ≤ 64)
    (hlo : -2 ^ (w - 1) ≤ value.toInt) (hhi : value.toInt ≤ 2 ^ (w - 1) - 1) :
    (value.slt (-signedMax w - 1) ∨ (w ≠ 64 ∧ incr.slt (-signedMax w - 1 - value)) ∨
      (value.slt 0 ∧ incr.slt 0 ∧ incr.slt (-signedMax w - 1 - value))) ↔
      value.toInt + incr.toInt < -2 ^ (w - 1) := by
  have hmin := toInt_signedMin hpos hw
  have hincr := toInt_bounds incr
  obtain ⟨hge, hhalf, hfull⟩ := pow_half hw
  simp only [BitVec.slt_iff_toInt_lt, toInt_zero_word]
  by_cases hneg : w = 64 ∧ 0 ≤ value.toInt
  · -- the sum cannot pass the least word
    omega
  have hsub : (-signedMax w - 1 - value).toInt = -2 ^ (w - 1) - value.toInt := by
    rw [toInt_sub_of_fits (by omega) (by omega), hmin]
  omega

/-- A result of a check: no overflow and the sum fits, or what the field is to hold is in the
limit, where the overflow type stores anything. -/
def Checked (type : BitfieldType) (sum : Int) (owtype : Owtype) (res : Int × Word) : Prop :=
  (res.1 = 0 ∧ type.Fits sum) ∨
    (res.1 ≠ 0 ∧ type.Stores sum owtype (if owtype = .fail then none else some res.2.toInt))

lemma overflowBranch_ne_zero (owtype : Owtype) {ret : Int} (h : ret ≠ 0)
    (wrapped bound limit : Word) : (overflowBranch owtype ret wrapped bound limit).1 ≠ 0 := by
  cases owtype with
  | wrap => exact Int.one_ne_zero
  | sat | fail => exact h

lemma checked_of_branches {sum : Int} (owtype : Owtype) {above below : Prop}
    [Decidable above] [Decidable below] (hover : above ↔ type.hi < sum)
    (hunder : below ↔ sum < type.lo) {wrapped max min limit : Word}
    (hfits : type.Fits wrapped.toInt)
    (hwrap : wrapped.toInt % 2 ^ type.bits = sum % 2 ^ type.bits) (hmax : max.toInt = type.hi)
    (hmin : min.toInt = type.lo) :
    Checked type sum owtype (if above then overflowBranch owtype 1 wrapped max limit
        else if below then overflowBranch owtype (-1) wrapped min limit else (0, limit)) := by
  by_cases ho : above
  · have hout : ¬ type.Fits sum := fun h => absurd h.2 (Int.not_le.mpr (hover.mp ho))
    rw [if_pos ho]
    refine .inr ⟨overflowBranch_ne_zero _ (by decide) _ _ _, ?_⟩
    cases owtype with
    | wrap => exact .wrap hout hfits hwrap
    | sat =>
      simp only [overflowBranch, hmax]
      exact .satHigh (hover.mp ho)
    | fail => exact .fail hout
  rw [if_neg ho]
  by_cases hu : below
  · have hout : ¬ type.Fits sum := fun h => absurd h.1 (Int.not_le.mpr (hunder.mp hu))
    rw [if_pos hu]
    refine .inr ⟨overflowBranch_ne_zero _ (by decide) _ _ _, ?_⟩
    cases owtype with
    | wrap => exact .wrap hout hfits hwrap
    | sat =>
      simp only [overflowBranch, hmin]
      exact .satLow (hunder.mp hu)
    | fail => exact .fail hout
  · rw [if_neg hu]
    exact .inl ⟨rfl, Int.not_lt.mp fun h => hu (hunder.mpr h), Int.not_lt.mp fun h => ho (hover.mpr h)⟩

variable (hv : type.Fits value.toInt) (incr : Word) (owtype : Owtype) (limit : Word)
include hv

lemma Checked.unsigned (hsign : type.sign = false) : Checked type (value.toInt + incr.toInt) owtype
      (checkUnsignedBitfieldOverflow value incr type.bits owtype limit) := by
  obtain ⟨hw, hlo, hhi⟩ := BitfieldType.unsigned_range hsign
  rw [BitfieldType.Fits, hlo, hhi] at hv
  have hwrap := toInt_unsignedWrap value incr hw
  have hpow : (0 : Int) < 2 ^ type.bits := Int.pow_pos (by decide)
  refine checked_of_branches owtype ?_ ?_ ?_ ?_ ?_ ?_
  · rw [hhi]
    exact unsigned_over hw hv.1 hv.2
  · rw [hlo]
    exact unsigned_under hv.1
  · rw [BitfieldType.Fits, hlo, hwrap]
    exact ⟨Int.emod_nonneg _ hpow.ne', by omega⟩
  · rw [hwrap, Int.emod_emod]
  · rw [hhi, toInt_unsignedMax hw]
  · rw [hlo, toInt_zero_word]

lemma Checked.signed (hsign : type.sign = true) : Checked type (value.toInt + incr.toInt) owtype
      (checkSignedBitfieldOverflow value incr type.bits owtype limit) := by
  obtain ⟨hw, hlo, hhi⟩ := BitfieldType.signed_range hsign
  rw [BitfieldType.Fits, hlo, hhi] at hv
  have hwrap := toInt_signedWrap value incr type.pos hw
  refine checked_of_branches owtype ?_ ?_ ?_ ?_ ?_ ?_
  · rw [hhi]
    exact signed_over type.pos hw hv.1 hv.2
  · rw [hlo]
    exact signed_under type.pos hw hv.1 hv.2
  · rw [BitfieldType.Fits, hlo, hhi, hwrap]
    exact bmod_fits _ type.pos
  · rw [hwrap]
    exact_mod_cast @Int.bmod_emod (value.toInt + incr.toInt) (2 ^ type.bits)
  · rw [hhi, toInt_signedMax type.pos hw]
  · rw [hlo, toInt_signedMin type.pos hw]

/-- Of a value of the type, a check says what the sum with any word makes of the field. -/
lemma checkOverflow_spec : Checked type (value.toInt + incr.toInt) owtype
    (type.checkOverflow value incr owtype limit) := by
  unfold BitfieldType.checkOverflow
  cases hsign : type.sign with
  | true => exact .signed hv incr owtype limit hsign
  | false => exact .unsigned hv incr owtype limit hsign

end Redis.Bitops
