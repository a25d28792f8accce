import Redis.Bitops.Overflow

/-! # BITFIELD INCRBY

An operation reads a field, and stores the sum there or what its overflow type makes of it. The
string gets room for every write of the command before the first one, so no operation leaves it,
and no bit outside the field changes. -/
namespace Redis.Bitops
open List Lib Outcome Lib.BitStrings

/-! ## Reading a field -/

lemma ofNat_shiftLeft_or_bit (f : Nat) (b : Bool) :
    (BitVec.ofNat 64 f <<< 1) ||| BitVec.ofNat 64 b.toNat = BitVec.ofNat 64 (2 * f + b.toNat) := by
  have hb : b.toNat < 2 ^ 1 := Bool.toNat_lt b
  have hshift : BitVec.ofNat 64 f <<< 1 = BitVec.ofNat 64 (f <<< 1) := by
    apply BitVec.eq_of_toNat_eq
    simp [Nat.shiftLeft_eq]
  rw [hshift, ← BitVec.ofNat_or, ← Nat.shiftLeft_add_eq_or_of_lt hb, Nat.shiftLeft_eq, mul_comm f]

lemma shiftRight_and_one (b : UInt8) {k : Nat} (hk : k < 8) :
    ((b.toBitVec.setWidth 64 : Word) >>> (7 - k)) &&& 1 =
      BitVec.ofNat 64 (b.toBitVec.getMsbD k).toNat := by
  have hbit : ((b.toBitVec.setWidth 64 : Word) >>> (7 - k)).getLsbD 0 = b.toBitVec.getMsbD k := by
    have h64 : 7 - k < 64 := by omega
    simp [BitVec.getMsbD_eq_getLsbD, hk, h64]
  change _ &&& 1#64 = _
  rw [BitVec.and_one_eq_setWidth_ofBool_getLsbD, hbit]
  cases b.toBitVec.getMsbD k <;> rfl

lemma readBits_eq {p : Bytes} {o : Nat} (left j : Nat) (h : o + j + left ≤ 8 * p.length) :
    readBits p (o + j) left (BitVec.ofNat 64 (fieldAt p o j)) =
      .ok (BitVec.ofNat 64 (fieldAt p o (j + left))) := by
  induction left generalizing j with
  | zero => rfl
  | succ left ih =>
    have hbyte : (o + j) / 8 < p.length := by omega
    have hbit : (o + j) % 8 < 8 := Nat.mod_lt _ (by decide)
    have hshift : (o + j) >>> 3 = (o + j) / 8 := Nat.shiftRight_eq_div_pow _ 3
    have hmask : (o + j) &&& 0x7 = (o + j) % 8 := Nat.and_two_pow_sub_one_eq_mod _ 3
    have hrest := ih (j + 1) (by omega)
    simp only [readBits, hshift, hmask, load_of_lt hbyte, bind_ok,
      shiftRight_and_one _ hbit, ← bitAt_of_lt hbyte, ofNat_shiftLeft_or_bit]
    rwa [add_assoc j, add_comm 1] at hrest

variable {p : Bytes} {o w : Nat} {op : BitfieldOp} {s : Bytes} {ops : List BitfieldOp}
  {stack : Nat → Word}

lemma getUnsignedBitfield_eq (h : o + w ≤ 8 * p.length) :
    getUnsignedBitfield p o w = .ok (BitVec.ofNat 64 (fieldAt p o w)) := by
  have hread := @readBits_eq p o w 0 h
  rwa [zero_add] at hread

/-! ## Writing a field -/

lemma getMsbD_writeBit (b : UInt8) {k m : Nat} (hk : k < 8) (hm : m < 8) (bit : Bool) :
    (((b.toBitVec.setWidth 64 : Word) &&& ~~~(1#64 <<< (7 - k)) |||
      (BitVec.ofNat 64 bit.toNat <<< (7 - k))).setWidth 8).getMsbD m =
      if m = k then bit else b.toBitVec.getMsbD m := by
  have h64 : 7 - m < 64 := by omega
  have hone : (1#64 <<< (7 - k)).getLsbD (7 - m) = decide (m = k) := by
    grind
  have hbit : (BitVec.ofNat 64 bit.toNat <<< (7 - k)).getLsbD (7 - m) =
      (bit && decide (m = k)) := by
    cases bit
    · simp
    · exact hone
  simp only [BitVec.getMsbD_eq_getLsbD, hm, BitVec.getLsbD_setWidth,
    BitVec.getLsbD_or, BitVec.getLsbD_and, BitVec.getLsbD_not, hone, hbit, h64]
  by_cases hmk : m = k
  · subst hmk
    simp
    omega
  simp [hmk]
  omega

lemma wrote_bit (h : o / 8 < p.length) (bit : Bool) : Wrote p o 1 bit.toNat (p.set (o / 8)
      ⟨((p[o / 8].toBitVec.setWidth 64 : Word) &&& ~~~(1#64 <<< (7 - o % 8)) |||
        (BitVec.ofNat 64 bit.toNat <<< (7 - o % 8))).setWidth 8⟩) where
  length := length_set
  inside j hj := by
    obtain rfl : j = 0 := by omega
    rw [add_zero, bitAt_set_self _ h rfl, getMsbD_writeBit _ (Nat.mod_lt _ (by decide))
      (Nat.mod_lt _ (by decide)), if_pos rfl]
    cases bit <;> rfl
  outside i hi := by
    by_cases hbyte : i / 8 = o / 8
    · have hplace : i % 8 ≠ o % 8 := by omega
      rw [bitAt_set_self _ h hbyte, getMsbD_writeBit _ (Nat.mod_lt _ (by decide))
        (Nat.mod_lt _ (by decide)), if_neg hplace, bitAt_of_lt (hbyte ▸ h)]
      simp only [hbyte]
    · exact bitAt_set_ne _ hbyte

lemma setUnsignedBitfield_spec (value : Word) (hw : w ≤ 64) (h : o + w ≤ 8 * p.length) :
    ∃ p', setUnsignedBitfield p o w value = .ok p' ∧ Wrote p o w value.toNat p' := by
  induction w generalizing p o with
  | zero => exact ⟨p, rfl, .refl p o _⟩
  | succ w ih =>
    have hbyte : o / 8 < p.length := by omega
    have hshift : o >>> 3 = o / 8 := Nat.shiftRight_eq_div_pow _ 3
    have hmask : o &&& 0x7 = o % 8 := Nat.and_two_pow_sub_one_eq_mod _ 3
    have hbit : (if value &&& (1#64 <<< w) ≠ 0#64 then (1 : Word) else 0) =
        BitVec.ofNat 64 (value.toNat.testBit w).toNat := by
      simp only [and_one_shiftLeft_ne_zero value (show w < 64 by omega), ← BitVec.testBit_toNat]
      cases value.toNat.testBit w <;> rfl
    have hfirst := wrote_bit hbyte (value.toNat.testBit w)
    obtain ⟨p', hrun, hrest⟩ := ih (o := o + 1) (by omega) (by rw [hfirst.length]; omega)
    refine ⟨p', ?_, hfirst.cons hrest⟩
    simp only [setUnsignedBitfield, hshift, hmask, load_of_lt hbyte, hbit]
    exact hrun

/-! ## Values of a type -/

namespace BitfieldType
variable {type : BitfieldType}

/-- The number the bits of a field stand for. -/
def decode (type : BitfieldType) (n : Nat) : Int :=
  if type.sign then (n : Int).bmod (2 ^ type.bits) else n

def valueAt (type : BitfieldType) (s : Bytes) (offset : Nat) : Int :=
  type.decode (fieldAt s offset type.bits)

lemma bits_le (type : BitfieldType) : type.bits ≤ 64 := by
  have hle := type.le
  split at hle <;> omega

lemma fits_decode {n : Nat} (h : n < 2 ^ type.bits) : type.Fits (type.decode n) := by
  unfold Fits lo hi decode
  cases type.sign with
  | true => exact bmod_fits _ type.pos
  | false =>
    have hcast : (n : Int) < 2 ^ type.bits := by exact_mod_cast h
    exact ⟨Int.natCast_nonneg n, Int.le_sub_one_of_lt hcast⟩

/-- A word in the range of the type comes back from its low bits. -/
lemma decode_mod {x : Word} (h : type.Fits x.toInt) :
    type.decode (x.toNat % 2 ^ type.bits) = x.toInt := by
  have hle := type.bits_le
  unfold Fits lo hi at h
  unfold decode
  cases hsign : type.sign with
  | true =>
    simp only [hsign] at h ⊢
    calc ((x.toNat % 2 ^ type.bits : Nat) : Int).bmod (2 ^ type.bits)
        = x.toInt.bmod (2 ^ type.bits) := by
          apply bmod_congr
          push_cast
          rw [Int.emod_emod, toNat_emod_pow x hle]
      _ = x.toInt := bmod_of_fits type.pos h.1 h.2
  | false =>
    simp only [hsign] at h ⊢
    push_cast
    rw [toNat_emod_pow x hle]
    exact Int.emod_eq_of_lt h.1 (Int.lt_of_le_sub_one h.2)

end BitfieldType

lemma getSignedBitfield_spec (hpos : 1 ≤ w) (hw : w ≤ 64) (h : o + w ≤ 8 * p.length) :
    ∃ x, getSignedBitfield p o w = .ok x ∧ x.toInt = (fieldAt p o w : Int).bmod (2 ^ w) := by
  have hpow : 2 ^ w ≤ 2 ^ 64 := Nat.pow_le_pow_right (by decide) hw
  have hlt := fieldAt_lt p o w
  have hnat : (BitVec.ofNat 64 (fieldAt p o w)).toNat = fieldAt p o w := Nat.mod_eq_of_lt (by omega)
  simp only [getSignedBitfield, getUnsignedBitfield_eq h, bind_ok]
  generalize BitVec.ofNat 64 (fieldAt p o w) = x at hnat
  rw [← hnat] at hlt ⊢
  by_cases hw64 : w = 64
  · subst hw64
    exact ⟨x, if_neg fun h => absurd h.1 (Nat.lt_irrefl 64), BitVec.toInt_eq_toNat_bmod x⟩
  have hbit := and_one_shiftLeft_ne_zero x (show w - 1 < 64 by omega)
  rw [← toInt_signExtend_setWidth x hw]
  by_cases hmsb : x.getLsbD (w - 1) = true
  · exact ⟨_, if_pos ⟨by omega, hbit.mpr hmsb⟩, by rw [or_highMask x hpos hmsb]⟩
  refine ⟨x, if_neg fun h => hmsb (hbit.mp h.2), ?_⟩
  rw [signExtend_of_not_msb x hpos (by simpa using hmsb)]
  congr 1
  apply BitVec.eq_of_toNat_eq
  rw [BitVec.toNat_setWidth, BitVec.toNat_setWidth, Nat.mod_eq_of_lt hlt, Nat.mod_eq_of_lt x.isLt]

lemma getBitfield_spec (type : BitfieldType) {p : Bytes} {o : Nat}
    (h : o + type.bits ≤ 8 * p.length) :
    ∃ x, type.getBitfield p o = .ok x ∧ x.toInt = type.valueAt p o := by
  unfold BitfieldType.getBitfield BitfieldType.valueAt BitfieldType.decode
  cases hsign : type.sign with
  | true => exact getSignedBitfield_spec type.pos type.bits_le h
  | false =>
    have hw : type.bits ≤ 63 := by simpa [hsign] using type.le
    have hpow : 2 ^ type.bits ≤ 2 ^ 63 := Nat.pow_le_pow_right (by decide) hw
    have hlt := fieldAt_lt p o type.bits
    refine ⟨_, getUnsignedBitfield_eq h, ?_⟩
    have hnat : (BitVec.ofNat 64 (fieldAt p o type.bits)).toNat = fieldAt p o type.bits :=
      Nat.mod_eq_of_lt (by omega)
    rw [toInt_of_toNat_lt (by omega), hnat]
    rfl

lemma setBitfield_spec (type : BitfieldType) (value : Word) (h : o + type.bits ≤ 8 * p.length) :
    ∃ p', type.setBitfield p o value = .ok p' ∧ Wrote p o type.bits value.toNat p' := by
  unfold BitfieldType.setBitfield setSignedBitfield
  rw [ite_self]
  exact setUnsignedBitfield_spec value type.bits_le h

/-! ## One operation -/

/-- What INCRBY makes of a string, and its reply: the field holds the sum or what the overflow
type makes of it, the reply is the value of the field, and every other bit is as it was; or
nothing is stored. -/
inductive Incremented (op : BitfieldOp) (s : Bytes) : Bytes → Reply → Prop where
  | stored {s' : Bytes} {u : Int} :
      op.type.Stores (op.type.valueAt s op.offset + op.i64.toInt) op.owtype (some u) →
      op.type.valueAt s' op.offset = u → s'.length = s.length →
      (∀ i, i < op.offset ∨ op.offset + op.type.bits ≤ i → bitAt s' i = bitAt s i) →
      Incremented op s s' (.int u)
  | refused :
      op.type.Stores (op.type.valueAt s op.offset + op.i64.toInt) op.owtype none →
      Incremented op s s .nil

lemma BitfieldType.Fits.word {type : BitfieldType} {v : Int} (h : type.Fits v) :
    -2 ^ 63 ≤ v ∧ v < 2 ^ 63 := by
  obtain ⟨hlo, hhi⟩ := h
  cases hsign : type.sign with
  | true =>
    have hrange := BitfieldType.signed_range hsign
    have hpow := (@pow_le_word (type.bits - 1) 63 (by omega)).2
    omega
  | false =>
    have hrange := BitfieldType.unsigned_range hsign
    have hpow := (pow_le_word hrange.1).2
    omega

lemma BitfieldType.lo_le_hi (type : BitfieldType) : type.lo ≤ type.hi := by
  unfold BitfieldType.lo BitfieldType.hi
  have hpow := (pow_le_word (Nat.le_refl type.bits)).1
  have hhalf := (pow_le_word (Nat.le_refl (type.bits - 1))).1
  split <;> omega

lemma BitfieldType.Stores.fits {type : BitfieldType} {v u : Int} {owtype : Owtype}
    (h : type.Stores v owtype (some u)) : type.Fits u := by
  cases h with
  | exact h | wrap _ h _ => exact h
  | satHigh _ => exact ⟨type.lo_le_hi, Int.le_refl _⟩
  | satLow _ => exact ⟨Int.le_refl _, type.lo_le_hi⟩

lemma storeNewValue_spec (dirty : Bool) {s : Bytes} {op : BitfieldOp} (oldval : Word)
    {res : Int × Word × Word} (h : op.offset + op.type.bits ≤ 8 * s.length)
    (hcond : ¬(res.1 ≠ 0 ∧ op.owtype = .fail)) :
    ∃ s' changes, storeNewValue dirty s op oldval res = .ok (s', .int res.2.2.toInt, changes) ∧
      Wrote s op.offset op.type.bits res.2.1.toNat s' := by
  obtain ⟨s', hset, hwrote⟩ := setBitfield_spec op.type res.2.1 h
  rw [storeNewValue, if_neg hcond, hset]
  exact ⟨s', _, rfl, hwrote⟩

lemma newValue_incrby (hop : op.opcode = .incrby) {oldval : Word}
    (hfits : op.type.Fits oldval.toInt) (wrapped : Word) :
    ∃ overflow newval, newValue op oldval wrapped = (overflow, newval, newval) ∧
      op.type.Stores (oldval.toInt + op.i64.toInt) op.owtype
        (if overflow ≠ 0 ∧ op.owtype = .fail then none else some newval.toInt) := by
  have hcheck := checkOverflow_spec hfits op.i64 op.owtype wrapped
  simp only [newValue, hop]
  refine ⟨_, _, rfl, ?_⟩
  rcases hcheck with ⟨hzero, hsum⟩ | ⟨hne, hstores⟩
  · have hadd : (oldval + op.i64).toInt = oldval.toInt + op.i64.toInt := by
      rw [BitVec.toInt_add, bmod_word hsum.word.1 hsum.word.2]
    simp only [hzero, ne_eq, not_true_eq_false, if_false, hadd]
    exact .exact hsum
  · simpa only [hne, ne_eq, not_false_eq_true, true_and, if_true] using hstores

lemma fetchAndStore_incrby (hop : op.opcode = .incrby) (wrapped : Word)
    (dirty : Bool) (h : op.offset + op.type.bits ≤ 8 * s.length) :
    ∃ s' r changes, fetchAndStore wrapped dirty s op = .ok (s', r, changes) ∧
      Incremented op s s' r := by
  obtain ⟨oldval, hget, hold⟩ := getBitfield_spec op.type h
  have hfits : op.type.Fits oldval.toInt := hold ▸ BitfieldType.fits_decode (fieldAt_lt ..)
  obtain ⟨overflow, newval, hnew, hstores⟩ := newValue_incrby hop hfits wrapped
  rw [hold] at hstores
  rw [fetchAndStore, hget, bind_ok, hnew]
  by_cases hfail : overflow ≠ 0 ∧ op.owtype = .fail
  · rw [if_pos hfail] at hstores
    exact ⟨s, .nil, 0, if_pos hfail, .refused hstores⟩
  rw [if_neg hfail] at hstores
  obtain ⟨s', changes, hstore, hwrote⟩ :=
    @storeNewValue_spec dirty s op oldval (overflow, newval, newval) h hfail
  refine ⟨s', _, changes, hstore, .stored hstores ?_ hwrote.length hwrote.outside⟩
  -- the value written is one the type has, so that reading it gives it back
  rw [BitfieldType.valueAt, hwrote.fieldAt_eq, BitfieldType.decode_mod hstores.fits]

lemma bitAt_copyOut (s : Bytes) (byte : Nat) {i : Nat} (hi : i < 72) :
    bitAt (copyOut s byte) i = bitAt s (byte * 8 + i) := by
  have hdiv : (byte * 8 + i) / 8 = byte + i / 8 := by omega
  have hmod : (byte * 8 + i) % 8 = i % 8 := by omega
  rw [copyOut, bitAt_append_zeros]
  have h9 : i / 8 < 9 := by omega
  simp [bitAt, hdiv, getElem?_take_of_lt h9]

lemma length_copyOut (s : Bytes) (byte : Nat) : (copyOut s byte).length = 9 := by
  simp [copyOut]

/-- GET replies the value of the field, whose bits past the end of the string are clear. -/
lemma fetch_spec (s : Bytes) (op : BitfieldOp) :
    fetch s op = .ok (.int (op.type.valueAt s op.offset)) := by
  have hbits := op.type.bits_le
  have hshift : op.offset >>> 3 = op.offset / 8 := Nat.shiftRight_eq_div_pow _ 3
  have hrest : op.offset - op.offset / 8 * 8 = op.offset % 8 := by omega
  obtain ⟨x, hget, hx⟩ := @getBitfield_spec op.type (copyOut s (op.offset / 8)) (op.offset % 8)
    (by rw [length_copyOut]; omega)
  have hfield : fieldAt (copyOut s (op.offset / 8)) (op.offset % 8) op.type.bits =
      fieldAt s op.offset op.type.bits := by
    apply fieldAt_congr
    intro j hj
    rw [bitAt_copyOut _ _ (by omega), ← add_assoc, Nat.div_add_mod']
  simp only [fetch, hshift, hrest, hget, bind_ok, hx, BitfieldType.valueAt, hfield]

/-! ## The loop over the operations -/

/-- The string has the bits an operation writes. -/
def Room (s : Bytes) (op : BitfieldOp) : Prop :=
  op.opcode ≠ .get → op.offset + op.type.bits ≤ 8 * s.length

lemma fetchAndStore_returns (wrapped : Word) (dirty : Bool)
    (h : op.offset + op.type.bits ≤ 8 * s.length) :
    ∃ s' r changes, fetchAndStore wrapped dirty s op = .ok (s', r, changes) ∧
      s'.length = s.length := by
  obtain ⟨oldval, hget, -⟩ := getBitfield_spec op.type h
  rw [fetchAndStore, hget, bind_ok]
  generalize newValue op oldval wrapped = res
  by_cases hfail : res.1 ≠ 0 ∧ op.owtype = .fail
  · exact ⟨s, .nil, 0, if_pos hfail, rfl⟩
  obtain ⟨s', changes, hstore, hwrote⟩ := storeNewValue_spec dirty oldval h hfail
  exact ⟨s', _, changes, hstore, hwrote.length⟩

lemma processOp_returns (wrapped : Word) (dirty : Bool)
    (h : Room s op) : ∃ s' r changes, processOp wrapped dirty s op = .ok (s', r, changes) ∧
      s'.length = s.length := by
  unfold processOp
  cases hop : op.opcode with
  | get =>
    refine ⟨s, .int (op.type.valueAt s op.offset), 0, ?_, rfl⟩
    rw [fetch_spec]
    rfl
  | set | incrby => exact fetchAndStore_returns wrapped dirty (h (by rw [hop]; decide))

lemma processOps_returns (stack : Nat → Word) (dirty : Bool) {s : Bytes}
    {ops : List BitfieldOp} (h : ∀ op ∈ ops, Room s op) (j : Nat) :
    ∃ s' rs changes, processOps stack dirty j s ops = .ok (s', rs, changes) ∧
      s'.length = s.length := by
  induction ops generalizing s j with
  | nil => exact ⟨s, [], 0, rfl, rfl⟩
  | cons op ops ih =>
    obtain ⟨s', r, changes, hop, hlen⟩ := processOp_returns (stack j) dirty (h op mem_cons_self)
    have hroom : ∀ op ∈ ops, Room s' op := by
      intro op hmem hne
      rw [hlen]
      exact h op (mem_cons_of_mem _ hmem) hne
    obtain ⟨s'', rs, more, hops, hlen'⟩ := ih hroom (j + 1)
    refine ⟨s'', r :: rs, changes + more, ?_, hlen'.trans hlen⟩
    simp only [processOps, hop, bind_ok, hops]

lemma processOps_append {dirty : Bool} {j : Nat} {s₁ s₂ : Bytes}
    {pre post : List BitfieldOp} {rs₁ rs₂ : List Reply} {c₁ c₂ : Nat}
    (hpre : processOps stack dirty j s pre = .ok (s₁, rs₁, c₁))
    (hpost : processOps stack dirty (j + pre.length) s₁ post = .ok (s₂, rs₂, c₂)) :
    processOps stack dirty j s (pre ++ post) = .ok (s₂, rs₁ ++ rs₂, c₁ + c₂) := by
  induction pre generalizing j s rs₁ c₁ with
  | nil =>
    cases hpre
    simpa using hpost
  | cons op pre ih =>
    simp only [processOps, bind_eq_ok] at hpre
    obtain ⟨⟨s', r, changes⟩, hop, ⟨t, rs, more⟩, hrest, heq⟩ := hpre
    cases heq
    have htail := ih hrest (by rw [← hpost, length_cons]; congr 1; omega)
    simp only [cons_append, processOps, hop, bind_ok, htail, add_assoc]

/-! ## The command -/

/-- The string a key holds; a key without a value has no bits set. -/
def contents : Option Value → Bytes
  | some (.string o) => o.decoded
  | _ => []

lemma le_raiseWriteOffset (highest : Nat) (op : BitfieldOp) :
    highest ≤ raiseWriteOffset highest op := by
  unfold raiseWriteOffset
  split <;> omega

lemma le_foldl_raiseWriteOffset (ops : List BitfieldOp) (highest : Nat) :
    highest ≤ ops.foldl raiseWriteOffset highest := by
  induction ops generalizing highest with
  | nil => exact Nat.le_refl highest
  | cons op ops ih => exact Nat.le_trans (le_raiseWriteOffset highest op) (ih _)

lemma le_highestWriteOffset (hmem : op ∈ ops)
    (hop : op.opcode ≠ .get) : op.offset + op.type.bits - 1 ≤ highestWriteOffset ops := by
  obtain ⟨pre, post, rfl⟩ := append_of_mem hmem
  rw [highestWriteOffset, foldl_append]
  refine Nat.le_trans ?_ (le_foldl_raiseWriteOffset post _)
  rw [raiseWriteOffset]
  split <;> grind

lemma room_of_length (h : highestWriteOffset ops / 8 + 1 ≤ s.length) : ∀ op ∈ ops, Room s op := by
  intro op hmem hop
  have hle := le_highestWriteOffset hmem hop
  omega

/-- The lookup makes room and sets no bit. -/
lemma lookup_spec {value : Option Value} (hvalue : value ≠ some .other) (maxbit : Nat) :
    ∃ s dirty, lookupStringForBitCommand maxbit value = .ok (s, dirty) ∧
      s.length = max (contents value).length (maxbit / 8 + 1) ∧
      ∀ i, bitAt s i = bitAt (contents value) i := by
  have hshift : maxbit >>> 3 = maxbit / 8 := Nat.shiftRight_eq_div_pow _ 3
  cases value with
  | none =>
    refine ⟨_, true, rfl, by simp [contents, hshift], fun i => ?_⟩
    simpa only [contents, nil_append] using bitAt_append_zeros [] (maxbit >>> 3 + 1) i
  | some value =>
    cases value with
    | other => exact absurd rfl hvalue
    | string o =>
      refine ⟨_, _, rfl, ?_, fun i => bitAt_append_zeros o.decoded _ i⟩
      simp only [sdsgrowzero, contents, length_append, length_replicate]
      omega

lemma bitfieldGeneric_eq_writeOps {limits : Limits} {value : Option Value}
    {args : List Bytes} (hparse : parseOps limits .wrap args = .ok ops)
    (hmem : op ∈ ops) (hop : op.opcode ≠ .get) :
    bitfieldGeneric limits false stack value args = writeOps stack ops value := by
  have hall : ops.all (·.opcode = .get) = false := by
    rw [all_eq_false]
    exact ⟨op, hmem, by simpa using hop⟩
  simp only [bitfieldGeneric, hparse, hall, Bool.false_eq_true, if_false]

/-- A write anywhere in a command, on any value that is a string or missing: it finds the bits
the operations before it left, the string having grown by clear bits only. -/
lemma writeOps_split (stack : Nat → Word) {value : Option Value} (hvalue : value ≠ some .other)
    (pre post : List BitfieldOp) {op : BitfieldOp} (hop : op.opcode ≠ .get) :
    ∃ s dirty s₁ rs₁ c₁,
      (s.length = max (contents value).length
        (highestWriteOffset (pre ++ op :: post) / 8 + 1) ∧
        ∀ i, bitAt s i = bitAt (contents value) i) ∧
      processOps stack dirty 0 s pre = .ok (s₁, rs₁, c₁) ∧
      op.offset + op.type.bits ≤ 8 * s₁.length ∧
      ∀ {s₂ r c₂}, processOp (stack pre.length) dirty s₁ op = .ok (s₂, r, c₂) →
        s₂.length = s₁.length →
        ∃ s₃ rs₃ c₃, processOps stack dirty (pre.length + 1) s₂ post = .ok (s₃, rs₃, c₃) ∧
          writeOps stack (pre ++ op :: post) value =
            .ok ⟨some (.string (.raw s₃)), .array (rs₁ ++ r :: rs₃), c₁ + (c₂ + c₃)⟩ := by
  have hmem : op ∈ pre ++ op :: post := mem_append_right _ mem_cons_self
  obtain ⟨s, dirty, hlookup, hlen, hbits⟩ :=
    lookup_spec hvalue (highestWriteOffset (pre ++ op :: post))
  have hroom : ∀ op' ∈ pre ++ op :: post, Room s op' := room_of_length (by omega)
  obtain ⟨s₁, rs₁, c₁, hpre, hlen₁⟩ := processOps_returns stack dirty
    (fun op' h => hroom op' (mem_append_left _ h)) 0
  refine ⟨s, dirty, s₁, rs₁, c₁, ⟨hlen, hbits⟩, hpre, by rw [hlen₁]; exact hroom op hmem hop,
    fun {s₂ r c₂} hstep hlen₂ => ?_⟩
  obtain ⟨s₃, rs₃, c₃, hpost, -⟩ := @processOps_returns stack dirty s₂ post
    (fun op' h h' => by
      rw [hlen₂, hlen₁]
      exact hroom op' (mem_append_right _ (mem_cons_of_mem _ h)) h') (pre.length + 1)
  have htail : processOps stack dirty (0 + pre.length) s₁ (op :: post) =
      .ok (s₃, r :: rs₃, c₂ + c₃) := by
    simp only [processOps, zero_add, hstep, bind_ok, hpost]
  refine ⟨s₃, rs₃, c₃, hpost, ?_⟩
  simp only [writeOps, hlookup, processOps_append hpre htail, bind_ok]

/-- INCRBY anywhere in a command stores and replies what its overflow type says. -/
theorem incrby_exact (limits : Limits) (stack : Nat → Word) {value : Option Value}
    (hvalue : value ≠ some .other) (pre post : List BitfieldOp) {op : BitfieldOp}
    (hop : op.opcode = .incrby) :
    (∀ args, parseOps limits .wrap args = .ok (pre ++ op :: post) →
      bitfieldGeneric limits false stack value args = writeOps stack (pre ++ op :: post) value) ∧
    ∃ s dirty s₁ rs₁ c₁ s₂ r c₂ s₃ rs₃ c₃, (s.length = max (contents value).length
        (highestWriteOffset (pre ++ op :: post) / 8 + 1) ∧
        ∀ i, bitAt s i = bitAt (contents value) i) ∧
      processOps stack dirty 0 s pre = .ok (s₁, rs₁, c₁) ∧
      (processOp (stack pre.length) dirty s₁ op = .ok (s₂, r, c₂) ∧ Incremented op s₁ s₂ r) ∧
      processOps stack dirty (pre.length + 1) s₂ post = .ok (s₃, rs₃, c₃) ∧
      writeOps stack (pre ++ op :: post) value =
        .ok ⟨some (.string (.raw s₃)), .array (rs₁ ++ r :: rs₃), c₁ + (c₂ + c₃)⟩ := by
  have hne : op.opcode ≠ .get := by rw [hop]; decide
  have hmem : op ∈ pre ++ op :: post := mem_append_right _ mem_cons_self
  refine ⟨fun args hparse => bitfieldGeneric_eq_writeOps hparse hmem hne, ?_⟩
  obtain ⟨s, dirty, s₁, rs₁, c₁, hs, hpre, hbound, hrest⟩ := writeOps_split stack hvalue pre post hne
  obtain ⟨s₂, r, c₂, hstep, hinc⟩ := fetchAndStore_incrby hop (stack pre.length) dirty hbound
  have hstep' : processOp (stack pre.length) dirty s₁ op = .ok (s₂, r, c₂) := by
    simpa only [processOp] using hstep
  have hlen₂ : s₂.length = s₁.length := by
    cases hinc with
    | stored _ _ h _ => exact h
    | refused _ => rfl
  obtain ⟨s₃, rs₃, c₃, hpost, hrun⟩ := hrest hstep' hlen₂
  exact ⟨s, dirty, s₁, rs₁, c₁, s₂, r, c₂, s₃, rs₃, c₃, hs, hpre, ⟨hstep', hinc⟩, hpost, hrun⟩

def saturating : BitfieldOp := ⟨0, 254, .incrby, .sat, ⟨false, 8, by decide, by decide⟩⟩

theorem incrby_exact_saturating :
    (some (.string (.raw [7, 1])) : Option Value) ≠ some .other ∧ saturating.opcode = .incrby ∧
    ∃ s₁ s₂ r c₂, (∀ i, bitAt s₁ i = bitAt [7, 1] i) ∧ Incremented saturating s₁ s₂ r ∧
      writeOps (fun _ => 0) [saturating] (some (.string (.raw [7, 1]))) =
        .ok ⟨some (.string (.raw s₂)), .array [r], c₂⟩ := by
  refine ⟨by decide, rfl, ?_⟩
  obtain ⟨-, s, dirty, s₁, rs₁, c₁, s₂, r, c₂, s₃, rs₃, c₃, ⟨-, hbits⟩, hpre, ⟨-, hinc⟩, hpost,
    hrun⟩ := @incrby_exact ⟨512, false⟩ (fun _ => 0) (some (.string (.raw [7, 1]))) (by decide) [] []
    saturating rfl
  cases hpre
  cases hpost
  exact ⟨s, s₂, r, _, hbits, hinc, hrun⟩

example : writeOps (fun _ => 0) [saturating] (some (.string (.raw [7, 1]))) =
    .ok ⟨some (.string (.raw [255, 1])), .array [.int 255], 1⟩ := by
  decide +kernel

end Redis.Bitops
