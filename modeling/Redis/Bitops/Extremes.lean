import Redis.Bitops.Bitfield

/-! # Arguments out of range

An offset `#n` is multiplied by the width as a word, and only the first byte of a field is
checked. Under OVERFLOW SAT the value of a SET is checked as a sum with zero: a negative value
is a large unsigned one, and the distance from a very negative value to the end of its range is
not a word. -/
namespace Redis.Bitops
open List Lib Outcome Lib.BitStrings Util.Numbers Util.Stdlib

/-! ## Offsets -/

def position (o : Bytes) (bits : Nat) : Option Int :=
  if o.head? = some 35 then (string2ll (o.drop 1)).map (· * bits) else string2ll o

/-- The last byte of a field is below the limit. -/
def Within (limits : Limits) (offset : Int) (bits : Nat) : Prop :=
  (offset + bits - 1) / 8 < limits.protoMaxBulkLen

/-- The limit lies inside the field: its first bit is checked, its last one is not. -/
def Cut (limits : Limits) (n : Int) (bits : Nat) : Prop :=
  n < 8 * limits.protoMaxBulkLen ∧ 8 * limits.protoMaxBulkLen < n + bits

lemma accepted_eq {l : Int} {far : Prop} [Decidable far] {e : BitError} {offset : Nat}
    (h : (if l < 0 ∨ far then .error e else .ok l.toNat) = Except.ok offset) :
    (offset : Int) = l ∧ ¬ far := by
  split at h
  · cases h
  rename_i hnot
  cases h
  exact ⟨Int.toNat_of_nonneg (by omega), fun hfar => hnot (.inr hfar)⟩

lemma getBitOffsetFromArgument_ok {limits : Limits} {o : Bytes} {bits offset : Nat}
    (hpos : 0 < bits) (h : getBitOffsetFromArgument limits o true bits = .ok offset) :
    ∃ n, position o bits = some n ∧ (offset : Int) = n.bmod (2 ^ 64) ∧
      (limits.mustObeyClient = false → (offset : Int) < 8 * limits.protoMaxBulkLen) := by
  have hnear {l : Int} (hl : (offset : Int) = l ∧
      ¬ (limits.mustObeyClient = false ∧ limits.protoMaxBulkLen ≤ l / 8)) :
      limits.mustObeyClient = false → (offset : Int) < 8 * limits.protoMaxBulkLen := by
    intro hobey
    have hnot : ¬ limits.protoMaxBulkLen ≤ l / 8 := fun hle => hl.2 ⟨hobey, hle⟩
    omega
  unfold getBitOffsetFromArgument at h
  unfold position
  by_cases hhash : o.head? = some 35
  · simp only [hhash, hpos, and_self, decide_true, if_true] at h ⊢
    split at h
    · cases h
    rename_i v hread
    exact ⟨v * bits, by rw [hread]; rfl, (accepted_eq h).1, hnear (accepted_eq h)⟩
  · simp only [hhash, false_and, decide_false, Bool.false_eq_true, if_false] at h ⊢
    split at h
    · cases h
    rename_i v hread
    obtain ⟨hmin, hmax, -⟩ := string2ll_eq_some hread
    unfold llongMin at hmin
    unfold llongMax at hmax
    exact ⟨v, hread, (accepted_eq h).1.trans (bmod_word (by omega) (by omega)).symm,
      hnear (accepted_eq h)⟩

/-- An accepted argument is the bit it names, and its field is below the limit, exactly if that
bit is a word and the limit does not cut the field. For a client that must be obeyed the bit may
also be past the limit. -/
theorem bitOffset_exact_iff (limits : Limits) (o : Bytes) (type : BitfieldType) {offset : Nat}
    (h : getBitOffsetFromArgument limits o true type.bits = .ok offset) :
    ∃ n, position o type.bits = some n ∧
      (offset = n ∧ Within limits offset type.bits ↔
        0 ≤ n ∧ n < 2 ^ 63 ∧ ¬ Cut limits n type.bits ∧
          (limits.mustObeyClient = true → n < 8 * limits.protoMaxBulkLen)) := by
  obtain ⟨n, hn, hoffset, hnear⟩ := getBitOffsetFromArgument_ok type.pos h
  have hpos := type.pos
  unfold Within Cut
  refine ⟨n, hn, fun ⟨heq, hwithin⟩ => ?_, fun ⟨hge, hlt, hcut, hobey⟩ => ?_⟩
  · have hword := @Int.bmod_lt n (2 ^ 64) (by decide)
    exact ⟨by omega, by omega, by omega, fun _ => by omega⟩
  · rw [bmod_word (by omega) hlt] at hoffset
    have hfirst : n < 8 * limits.protoMaxBulkLen := by
      cases hclient : limits.mustObeyClient with
      | true => exact hobey hclient
      | false => exact hoffset ▸ hnear hclient
    exact ⟨hoffset, by omega⟩

/-- `#2305843009213693952` of 8 bits is bit 0, and 8 bits at 4294967295 end in byte 512 M. -/
theorem bitOffset_wraps :
    let limits : Limits := ⟨536870912, false⟩
    getBitOffsetFromArgument limits (text "#2305843009213693952".toList) true 8 = .ok 0 ∧
    position (text "#2305843009213693952".toList) 8 = some (2 ^ 64) ∧
    getBitOffsetFromArgument limits (text "4294967295".toList) true 8 = .ok 4294967295 ∧
    ¬ Within limits 4294967295 8 := by
  unfold Within
  decide +kernel

theorem bitOffset_exact_hash : ∃ n : Int, position [35, 51] 8 = some n ∧
    ((24 : Nat) = n ∧ Within ⟨536870912, false⟩ (24 : Nat) 8 ↔
      0 ≤ n ∧ n < 2 ^ 63 ∧ ¬ Cut ⟨536870912, false⟩ n 8 ∧
        (false = true → n < 8 * 536870912)) :=
  bitOffset_exact_iff ⟨536870912, false⟩ [35, 51] ⟨false, 8, by decide, by decide⟩ (by decide)

/-! ## SET under OVERFLOW SAT -/

namespace BitfieldType

def nearest (type : BitfieldType) (v : Int) : Int :=
  if v < type.lo then type.lo else if type.hi < v then type.hi else v

/-- The values that the check of a SET does not mistake for large ones. -/
def Near (type : BitfieldType) (v : Int) : Prop :=
  if type.sign then type.bits = 64 ∨ type.hi - v < 2 ^ 63 else 0 ≤ v

end BitfieldType

variable {type : BitfieldType}

/-- What is written, given what the variable `wrapped` holds before. -/
def saturated (type : BitfieldType) (value wrapped : Word) : Word :=
  let res := type.checkOverflow value 0 .sat wrapped
  if res.1 ≠ 0 then res.2 else value

variable {value wrapped : Word}

lemma saturated_eq {above below : Prop} [Decidable above] [Decidable below]
    {sum max min limit : Word} (h : type.checkOverflow value 0 .sat wrapped =
      if above then overflowBranch .sat 1 sum max limit
      else if below then overflowBranch .sat (-1) sum min limit else (0, limit)) :
    saturated type value wrapped = if above then max else if below then min else value := by
  rw [saturated, h]
  split
  · rfl
  split <;> rfl

lemma saturated_unsigned (hsign : type.sign = false) :
    (saturated type value wrapped).toInt =
      if 0 ≤ value.toInt then type.nearest value.toInt else type.hi := by
  obtain ⟨hw, hlo, hhi⟩ := BitfieldType.unsigned_range hsign
  have hmax := toInt_unsignedMax hw
  obtain ⟨hge, hle⟩ := pow_le_word hw
  have hover : unsignedMax type.bits < value ↔ value.toInt < 0 ∨ type.hi < value.toInt := by
    have hnat := @toNat_of_toInt_nonneg (unsignedMax type.bits) (by omega)
    have hcond := BitVec.toInt_eq_toNat_cond value
    rw [BitVec.lt_def]
    split at hcond <;> omega
  have hcheck : type.checkOverflow value 0 .sat wrapped =
      checkUnsignedBitfieldOverflow value 0 type.bits .sat wrapped := if_neg (by simp [hsign])
  have hzero : (0 : Word).slt 0 = false := rfl
  rw [saturated_eq hcheck, BitfieldType.nearest]
  grind

lemma bmod_neg_iff {d : Int} (hlo : -2 ^ 63 ≤ d) (hhi : d < 2 ^ 64) :
    d.bmod (2 ^ 64) < 0 ↔ d < 0 ∨ 2 ^ 63 ≤ d := by
  unfold Int.bmod
  dsimp only
  split <;> omega

lemma saturated_signed (hsign : type.sign = true) :
    (saturated type value wrapped).toInt =
      if type.bits = 64 ∨ type.hi - value.toInt < 2 ^ 63 then type.nearest value.toInt
      else type.hi := by
  obtain ⟨hw, hlo, hhi⟩ := BitfieldType.signed_range hsign
  have hmax := toInt_signedMax type.pos hw
  have hmin := toInt_signedMin type.pos hw
  have hval := toInt_bounds value
  obtain ⟨hge, hhalf, hfull⟩ := pow_half hw
  have hcheck : type.checkOverflow value 0 .sat wrapped =
      checkSignedBitfieldOverflow value 0 type.bits .sat wrapped := if_pos hsign
  have hfar := @bmod_neg_iff (type.hi - value.toInt) (by omega) (by omega)
  rw [saturated_eq hcheck, BitfieldType.nearest]
  simp only [BitVec.slt_iff_toInt_lt]
  grind

lemma saturated_spec (type : BitfieldType) (value wrapped : Word) :
    type.Fits (saturated type value wrapped).toInt ∧
      ((saturated type value wrapped).toInt = type.nearest value.toInt ↔ type.Near value.toInt) := by
  have hle := type.lo_le_hi
  have hpos := type.pos
  unfold BitfieldType.Fits BitfieldType.Near
  cases hsign : type.sign with
  | false =>
    obtain ⟨-, hlo, hhi⟩ := BitfieldType.unsigned_range hsign
    have hpow := (@pow_le_word 1 type.bits hpos).2
    rw [saturated_unsigned hsign]
    unfold BitfieldType.nearest
    grind
  | true =>
    obtain ⟨hw, hlo, hhi⟩ := BitfieldType.signed_range hsign
    rw [saturated_signed hsign]
    unfold BitfieldType.nearest
    grind

/-- SET anywhere in a command, on any string or a missing key: what the field holds behind it. -/
theorem set_sat_nearest_iff (stack : Nat → Word) (value : Option StringObject)
    (pre post : List BitfieldOp) (offset : Nat) (i64 : Word) (type : BitfieldType) :
    ∃ s dirty s₁ rs₁ c₁ s₂ r c₂ s₃ rs₃ c₃,
      (∀ i, bitAt s i = bitAt (contents (value.map .string)) i) ∧
      processOps stack dirty 0 s pre = .ok (s₁, rs₁, c₁) ∧
      processOp (stack pre.length) dirty s₁ ⟨offset, i64, .set, .sat, type⟩ = .ok (s₂, r, c₂) ∧
      processOps stack dirty (pre.length + 1) s₂ post = .ok (s₃, rs₃, c₃) ∧
      (∀ limits args,
        parseOps limits .wrap args = .ok (pre ++ ⟨offset, i64, .set, .sat, type⟩ :: post) →
        bitfieldGeneric limits false stack (value.map .string) args =
          .ok ⟨some (.string (.raw s₃)), .array (rs₁ ++ r :: rs₃), c₁ + (c₂ + c₃)⟩) ∧
      (type.valueAt s₂ offset = type.nearest i64.toInt ↔ type.Near i64.toInt) := by
  have hne : Opcode.set ≠ .get := by decide
  obtain ⟨s, dirty, s₁, rs₁, c₁, ⟨-, hbits⟩, hpre, hbound, hrest⟩ := @writeOps_split stack
    (value.map .string) (by cases value <;> simp) pre post ⟨offset, i64, .set, .sat, type⟩ hne
  obtain ⟨oldval, hget, -⟩ := getBitfield_spec type hbound
  obtain ⟨s₂, c₂, hstore, hwrote⟩ := @storeNewValue_spec dirty s₁ ⟨offset, i64, .set, .sat, type⟩
    oldval (newValue ⟨offset, i64, .set, .sat, type⟩ oldval (stack pre.length)) hbound (by simp)
  have hstep : processOp (stack pre.length) dirty s₁ ⟨offset, i64, .set, .sat, type⟩ = _ :=
    Eq.trans (by simp only [processOp, fetchAndStore, hget, bind_ok]) hstore
  obtain ⟨s₃, rs₃, c₃, hpost, hrun⟩ := hrest hstep hwrote.length
  refine ⟨s, dirty, s₁, rs₁, c₁, s₂, _, c₂, s₃, rs₃, c₃, hbits, hpre, hstep, hpost,
    fun limits args hparse => (bitfieldGeneric_eq_writeOps hparse
      (mem_append_right _ mem_cons_self) hne).trans hrun, ?_⟩
  obtain ⟨hfits, hiff⟩ := saturated_spec type i64 (stack pre.length)
  rw [← hiff, BitfieldType.valueAt, hwrote.fieldAt_eq]
  exact (BitfieldType.decode_mod hfits) ▸ Iff.rfl

/-- `OVERFLOW SAT SET u8 0 -1` and `SET i8 0 -9223372036854775808`. -/
theorem set_sat_negative :
    let u8 : BitfieldType := ⟨false, 8, by decide, by decide⟩
    let i8 : BitfieldType := ⟨true, 8, by decide, by decide⟩
    writeOps (fun _ => 0) [⟨0, -1, .set, .sat, u8⟩] none =
      .ok ⟨some (.string (.raw [255])), .array [.int 0], 1⟩ ∧ u8.nearest (-1) = 0 ∧
    writeOps (fun _ => 0) [⟨0, BitVec.intMin 64, .set, .sat, i8⟩] none =
      .ok ⟨some (.string (.raw [127])), .array [.int 0], 1⟩ ∧ i8.nearest (-2 ^ 63) = -128 := by
  decide +kernel

end Redis.Bitops
