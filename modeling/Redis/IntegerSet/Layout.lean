import Redis.IntegerSet.Model

/-! # The array of an intset, element by element -/
namespace Redis.IntegerSet.Layout
open Lib Model

/-! ## One element -/

/-- The numbers that `w` bytes can hold. -/
def InRange (w : Nat) (v : Int) : Prop := -(256 ^ w : Nat) ≤ 2 * v ∧ 2 * v < (256 ^ w : Nat)

@[simp] lemma length_encode (w : Nat) (v : Int) : (encode w v).length = w := length_le w _

variable {v : Int}

lemma decode_encode {w : Nat} (h : InRange w v) : decode w (ofLe (encode w v)) = v := by
  obtain ⟨hlo, hhi⟩ := h
  unfold decode encode
  rw [ofLe_le]
  have hpos : 0 < 256 ^ w := Nat.pow_pos (by decide)
  generalize 256 ^ w = m at hlo hhi hpos
  -- A negative number is stored as its distance from the modulus.
  rcases Int.lt_or_le v 0 with hneg | hnonneg
  · have hmod : v % (m : Int) = v + m := by
      rw [← Int.add_emod_right]
      exact Int.emod_eq_of_lt (by omega) (by omega)
    rw [Nat.mod_eq_of_lt (by omega)]
    omega
  have hmod : v % (m : Int) = v := Int.emod_eq_of_lt hnonneg (by omega)
  rw [Nat.mod_eq_of_lt (by omega)]
  omega

lemma InRange.mono {w w' : Nat} (h : InRange w v) (hw : w ≤ w') : InRange w' v := by
  have hpow : 256 ^ w ≤ 256 ^ w' := Nat.pow_le_pow_right (by decide) hw
  unfold InRange at h ⊢
  omega

lemma inRange_valueEncoding (h : InRange 8 v) (enc : Encoding) :
    (intsetValueEncoding v).width ≤ enc.width ↔ InRange enc.width v := by
  unfold intsetValueEncoding
  split
  · cases enc <;> simp only [Encoding.width, InRange] at h ⊢ <;> omega
  split
  · cases enc <;> simp only [Encoding.width, InRange] at h ⊢ <;> omega
  · cases enc <;> simp only [Encoding.width, InRange] at h ⊢ <;> omega

/-! ## The array -/

def encodeAll (w : Nat) (xs : List Int) : Bytes := xs.flatMap (encode w)

@[simp] lemma encodeAll_nil (w : Nat) : encodeAll w [] = [] := rfl

@[simp] lemma encodeAll_cons (w : Nat) (x : Int) (xs : List Int) :
    encodeAll w (x :: xs) = encode w x ++ encodeAll w xs := rfl

@[simp] lemma encodeAll_append (w : Nat) (xs ys : List Int) :
    encodeAll w (xs ++ ys) = encodeAll w xs ++ encodeAll w ys := List.flatMap_append

@[simp] lemma length_encodeAll (w : Nat) (xs : List Int) :
    (encodeAll w xs).length = xs.length * w := by
  induction xs with
  | nil => simp
  | cons x xs ih => rw [encodeAll_cons, List.length_append, length_encode, ih, List.length_cons,
      Nat.succ_mul, add_comm]

lemma getEncoded_at {is : Intset} {enc : Encoding} {as : List Int} {rest : Bytes}
    (hc : is.contents = encodeAll enc.width as ++ (encode enc.width v ++ rest))
    (hv : InRange enc.width v) : intsetGetEncoded is as.length enc = .ok v := by
  have hload : loadLe is.contents (as.length * enc.width) enc.width =
      .ok (ofLe (encode enc.width v)) := by
    have hfront := loadSlice_front (encode enc.width v) rest
    rw [length_encode] at hfront
    have happ := loadLe_append (encodeAll enc.width as) (encode enc.width v ++ rest) 0 enc.width
    rw [length_encodeAll, add_zero] at happ
    rw [hc, happ, loadLe, hfront]
    rfl
  unfold intsetGetEncoded
  rw [if_neg (by omega), Int.toNat_natCast, hload, Outcome.bind_ok, decode_encode hv]

lemma set_at {is : Intset} {front cell rest : Bytes} {pos : Nat}
    (hc : is.contents = front ++ (cell ++ rest)) (hf : front.length = pos * is.encoding.width)
    (hcell : cell.length = is.encoding.width) :
    intsetSet is pos v =
      .ok { is with contents := front ++ (encode is.encoding.width v ++ rest) } := by
  unfold intsetSet
  rw [Int.toNat_natCast, hc, memcpy_parts hf.symm (by simpa using hcell)]
  rfl

end Redis.IntegerSet.Layout
