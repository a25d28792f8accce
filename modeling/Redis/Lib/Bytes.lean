import Redis.Lib.Outcome

/-! # Byte buffers

Little-endian numbers, and the loads and copies C code makes in a buffer of
known size. A load or copy that leaves the buffer is a `bounds` fault; the
lemmas describe copies on a buffer written as the concatenation of its parts. -/
namespace Redis.Lib
open List

abbrev Bytes := List UInt8

/-- A property of every byte, checked on its 256 values. -/
lemma forall_byte {P : UInt8 → Prop} (h : ∀ n < 256, P (UInt8.ofNat n)) (b : UInt8) : P b := by
  have := h b.toNat b.toNat_lt
  rwa [UInt8.ofNat_toNat] at this

/-- A property of the bytes of a string, checked on each of them. -/
lemma forall_mem_bytes {P : UInt8 → Prop} [DecidablePred P] {s : Bytes}
    (h : s.all (fun c => decide (P c)) = true) : ∀ c ∈ s, P c :=
  fun c hc => of_decide_eq_true (all_eq_true.mp h c hc)

/-- `k` bytes of `n`, low byte first. -/
def le : (k n : Nat) → Bytes
  | 0, _ => []
  | k + 1, n => UInt8.ofNat n :: le k (n / 256)

/-- `b[0] | b[1] << 8 | ...`. -/
def ofLe : Bytes → Nat
  | [] => 0
  | b :: bs => b.toNat + 256 * ofLe bs

@[simp] lemma length_le (k n : Nat) : (le k n).length = k := by
  induction k generalizing n with
  | zero => rfl
  | succ k ih => simp [le, ih]

lemma ofLe_le (k n : Nat) : ofLe (le k n) = n % 256 ^ k := by
  induction k generalizing n with
  | zero => simp [le, ofLe, Nat.mod_one]
  | succ k ih =>
    have hb : (UInt8.ofNat n).toNat = n % 256 := UInt8.toNat_ofNat'
    rw [le, ofLe, ih, hb, Nat.pow_succ, mul_comm (256 ^ k), Nat.mod_mul]

variable {k n : Nat} {buf : Bytes} {p : Nat}

lemma ofLe_le_of_lt (h : n < 256 ^ k) : ofLe (le k n) = n := by
  rw [ofLe_le, Nat.mod_eq_of_lt h]

lemma ofLe_lt (bs : Bytes) : ofLe bs < 256 ^ bs.length := by
  induction bs with
  | nil => simp [ofLe]
  | cons b bs ih =>
    have hb := b.toNat_lt
    rw [ofLe, length_cons]
    omega

lemma le_ofLe {bs : Bytes} (h : bs.length = k) : le k (ofLe bs) = bs := by
  induction bs generalizing k with
  | nil => subst h; rfl
  | cons b bs ih =>
    subst h
    have hb := b.toNat_lt
    have hdiv : (b.toNat + 256 * ofLe bs) / 256 = ofLe bs := by omega
    have hbyte : UInt8.ofNat (b.toNat + 256 * ofLe bs) = b := by
      apply UInt8.toNat_inj.mp
      rw [UInt8.toNat_ofNat']
      omega
    rw [length_cons, le, ofLe, hdiv, hbyte, ih rfl]

/-! ## Loads -/

def loadSlice (buf : Bytes) (p k : Nat) : Outcome Bytes :=
  if p + k ≤ buf.length then .ok ((buf.drop p).take k) else .error .bounds

/-- A little-endian number of `k` bytes at `p`. -/
def loadLe (buf : Bytes) (p k : Nat) : Outcome Nat := do
  let bs ← loadSlice buf p k
  .ok (ofLe bs)

lemma load_lt {b : UInt8} (h : load buf p = .ok b) : p < buf.length :=
  (List.getElem?_eq_some_iff.mp (load_eq_ok.mp h)).1

lemma load_of_lt (h : p < buf.length) : load buf p = .ok buf[p] :=
  load_eq_ok.mpr (List.getElem?_eq_getElem h)

lemma loadSlice_of_le (h : p + k ≤ buf.length) :
    loadSlice buf p k = .ok ((buf.drop p).take k) := if_pos h

lemma loadSlice_eq_ok {bs : Bytes} (h : loadSlice buf p k = .ok bs) :
    p + k ≤ buf.length ∧ bs = (buf.drop p).take k := by
  unfold loadSlice at h
  split at h
  · rename_i hle
    exact ⟨hle, (Except.ok.inj h).symm⟩
  · cases h

lemma loadLe_of_le (h : p + k ≤ buf.length) :
    loadLe buf p k = .ok (ofLe ((buf.drop p).take k)) := by
  rw [loadLe, loadSlice_of_le h]; rfl

lemma loadLe_eq_ok (h : loadLe buf p k = .ok n) :
    p + k ≤ buf.length ∧ n = ofLe ((buf.drop p).take k) := by
  obtain ⟨bs, hs, hn⟩ := Outcome.bind_eq_ok.mp h
  obtain ⟨hle, rfl⟩ := loadSlice_eq_ok hs
  exact ⟨hle, (Except.ok.inj hn).symm⟩

lemma load_append (a b : Bytes) (i : Nat) : load (a ++ b) (a.length + i) = load b i := by
  rw [load, load, getElem?_append_right (Nat.le_add_right ..), Nat.add_sub_cancel_left]

lemma loadSlice_append (a b : Bytes) (i k : Nat) :
    loadSlice (a ++ b) (a.length + i) k = loadSlice b i k := by
  have : (a.length + i + k ≤ (a ++ b).length) ↔ i + k ≤ b.length := by
    rw [length_append]; omega
  simp only [loadSlice, this, drop_length_add_append]

lemma loadLe_append (a b : Bytes) (i k : Nat) :
    loadLe (a ++ b) (a.length + i) k = loadLe b i k := by
  rw [loadLe, loadSlice_append, loadLe]

lemma loadSlice_front (a b : Bytes) : loadSlice (a ++ b) 0 a.length = .ok a := by
  rw [loadSlice_of_le (by simp)]; simp

lemma loadLe_front (b : Bytes) (h : n < 256 ^ k) : loadLe (le k n ++ b) 0 k = .ok n := by
  have := loadSlice_front (le k n) b
  rw [length_le] at this
  rw [loadLe, this, Outcome.bind_ok, ofLe_le_of_lt h]

/-! ## Copies -/

/-- `realloc`: bytes past the old end hold nothing in particular. -/
def resize (buf : Bytes) (n : Nat) : Bytes := buf.take n ++ List.replicate (n - buf.length) 0

def memcpy (buf : Bytes) (dst : Nat) (src : Bytes) : Outcome Bytes :=
  if dst + src.length ≤ buf.length then
    .ok (buf.take dst ++ src ++ buf.drop (dst + src.length))
  else .error .bounds

def memmove (buf : Bytes) (dst src n : Nat) : Outcome Bytes :=
  if src + n ≤ buf.length then memcpy buf dst ((buf.drop src).take n) else .error .bounds

lemma memcpy_parts {a b c src : Bytes} {dst : Nat} (hd : dst = a.length)
    (hb : b.length = src.length) : memcpy (a ++ (b ++ c)) dst src = .ok (a ++ (src ++ c)) := by
  subst hd
  rw [memcpy]
  rw [drop_length_add_append, ← hb]
  simp

lemma memmove_eq {src : Bytes} {dst : Nat} (hp : p + n ≤ buf.length)
    (hs : (buf.drop p).take n = src) : memmove buf dst p n = memcpy buf dst src := by
  rw [memmove, if_pos hp, hs]

/-- A part `t` moves over what is in front of it and behind it. -/
lemma memmove_parts {a r t z : Bytes} {dst src len : Nat} (hdst : dst = a.length + len)
    (hsrc : src = a.length + r.length) (hn : n = t.length) (hlen : len ≤ r.length + z.length) :
    ∃ g y : Bytes, g.length = len ∧ len + y.length = r.length + z.length ∧
      memmove (a ++ (r ++ (t ++ z))) dst src n = .ok (a ++ (g ++ (t ++ y))) := by
  subst hdst hsrc hn
  refine ⟨(r ++ (t ++ z)).take len, (r ++ (t ++ z)).drop (len + t.length), ?_, ?_, ?_⟩
  · simp only [length_take, length_append]
    omega
  · simp only [length_drop, length_append]
    omega
  have htail : ((a ++ (r ++ (t ++ z))).drop (a.length + r.length)).take t.length = t := by
    rw [drop_length_add_append, drop_left, take_left]
  rw [memmove_eq (by simp only [length_append]; omega) htail, memcpy,
    if_pos (by simp only [length_append]; omega), take_length_add_append, add_assoc,
    drop_length_add_append, append_assoc, append_assoc]

lemma resize_of_le (h : n ≤ buf.length) : resize buf n = buf.take n := by
  rw [resize, Nat.sub_eq_zero_of_le h]; simp

lemma resize_of_ge (h : buf.length ≤ n) :
    resize buf n = buf ++ List.replicate (n - buf.length) 0 := by
  rw [resize, take_of_length_le h]

lemma resize_left {a b : Bytes} (h : n = a.length) : resize (a ++ b) n = a := by
  rw [resize_of_le (by rw [length_append]; omega), h, take_left]

end Redis.Lib
