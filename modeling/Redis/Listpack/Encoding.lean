import Redis.Listpack.Traversal

/-! # Encoded elements

Every byte string has one encoding: as an integer if it is the decimal text of
a 64-bit integer, as a string otherwise. Reading an encoding back gives the
string, and reading the back-length behind it gives its size. -/
namespace Redis.Listpack.Encoding
open List
open Lib Outcome Lib.Decimal Util.Numbers Model Traversal

/-! ## Integers as text -/

/-- The loop stops where `string2ll`'s stops, with the same value. -/
lemma int64Digits_eq (s : Bytes) : ∀ (rounds plen v : Nat), s.length ≤ plen + rounds →
    plen ≤ s.length →
    int64Digits s rounds plen v =
      (parseDigits v (s.drop plen)).map fun r => (s.length - r.2.length, r.1) := by
  intro rounds
  induction rounds with
  | zero =>
    intro plen v hlen hle
    have hend : plen = s.length := by omega
    simp [int64Digits, parseDigits, hend]
  | succ rounds ih =>
    intro plen v hlen hle
    rw [int64Digits]
    rcases Nat.lt_or_eq_of_le hle with hlt | rfl
    · rw [getElem?_eq_getElem hlt, drop_eq_getElem_cons hlt, parseDigits]
      dsimp only
      split
      · split
        · rfl
        split
        · rfl
        · exact ih (plen + 1) _ (by omega) hlt
      simp only [Option.map_some, length_cons, length_drop]
      congr 2
      omega
    · simp [parseDigits]

lemma int64Magnitude_eq (s : Bytes) (plen limit : Nat) (h : plen ≤ s.length) :
    int64Magnitude s plen limit = parseMagnitude limit (s.drop plen) := by
  rw [int64Magnitude]
  rcases Nat.lt_or_eq_of_le h with hlt | rfl
  · rw [getElem?_eq_getElem hlt, drop_eq_getElem_cons hlt, parseMagnitude]
    dsimp only
    split
    · rw [int64Digits_eq s _ _ _ (by omega) hlt]
      rcases parseDigits _ _ with _ | ⟨v, _ | ⟨c, rest⟩⟩
      · rfl
      · simp
      simp only [Option.map_some, length_cons]
      rw [if_pos (by omega)]
    · rfl
  · simp [parseMagnitude]

lemma lpStringToInt64_eq_string2ll (s : Bytes) : lpStringToInt64 s = string2ll s := by
  unfold lpStringToInt64 string2ll
  split
  · rfl
  rename_i hlen
  cases s with
  | nil => simp at hlen
  | cons c p =>
    have hzero : ((c :: p).length = 1 ∧ (c :: p)[0]? = some 48) ↔ c :: p = [48] := by
      simp [and_comm]
    simp only [hzero]
    split
    · rfl
    by_cases hc : c = 45
    · subst hc
      simp only [getElem?_cons_zero, if_true]
      split
      · have hp : p = [] := by simpa using ‹(45 :: p).length = 1›
        simp [hp, parseMagnitude]
      rw [int64Magnitude_eq _ _ _ (by simp)]
      rfl
    simp only [getElem?_cons_zero, Option.some.injEq, hc, if_false]
    rw [int64Magnitude_eq _ _ _ (by simp)]
    split
    · simp_all
    · rfl

variable {v : Int} {k : Nat} {x lp : Bytes} {q : Nat}

lemma lpStringToInt64_eq_some {s} (h : lpStringToInt64 s = some v) :
    llongMin ≤ v ∧ v ≤ llongMax ∧ signedDecimal v = s :=
  string2ll_eq_some (lpStringToInt64_eq_string2ll s ▸ h)

lemma lpStringToInt64_signedDecimal (hmin : llongMin ≤ v) (hmax : v ≤ llongMax) :
    lpStringToInt64 (signedDecimal v) = some v := by
  rw [lpStringToInt64_eq_string2ll, string2ll_signedDecimal hmin hmax]

/-- `string2ll` takes exactly what `ll2string` writes, and gives the integer back. -/
theorem string2ll_inverts_ll2string : (∀ (s : Bytes) (v : Int), string2ll s = some v ↔
      llongMin ≤ v ∧ v ≤ llongMax ∧ ∃ dstlen, ll2string dstlen v = some s) ∧
    (∀ v : Int, llongMin ≤ v ∧ v ≤ llongMax →
      ∀ dstlen, longStrSize ≤ dstlen → ∃ s, ll2string dstlen v = some s) ∧
    ∀ s : Bytes, lpStringToInt64 s = string2ll s := by
  refine ⟨fun s v => ⟨fun h => ?_, fun h => ?_⟩, fun v hv dstlen hlen => ?_,
    lpStringToInt64_eq_string2ll⟩
  · obtain ⟨hmin, hmax, rfl⟩ := string2ll_eq_some h
    refine ⟨hmin, hmax, (signedDecimal v).length + 1, ?_⟩
    rw [ll2string_spec, if_pos (Nat.lt_succ_self _)]
  · obtain ⟨hmin, hmax, dstlen, hs⟩ := h
    rw [ll2string_spec, Option.ite_none_right_eq_some, Option.some.injEq] at hs
    rw [← hs.2, string2ll_signedDecimal hmin hmax]
  have hsmall := ll2string_eq hv.1 hv.2
  rw [ll2string_spec, Option.ite_none_right_eq_some] at hsmall
  have hfits : (signedDecimal v).length < dstlen := lt_of_lt_of_le hsmall.1 hlen
  exact ⟨signedDecimal v, by rw [ll2string_spec, if_pos hfits]⟩

/-! ## Reading behind a front part -/

lemma lpCurrentEncodedSizeUnsafe_append (a ys : Bytes) :
    lpCurrentEncodedSizeUnsafe (a ++ ys) a.length = lpCurrentEncodedSizeUnsafe ys 0 := by
  have h0 := load_append a ys 0
  rw [add_zero] at h0
  simp only [lpCurrentEncodedSizeUnsafe, h0, load_append, loadLe_append]

def LpValue.shift (k : Nat) : LpValue → LpValue
  | .str off len => .str (k + off) len
  | .int val => .int val

lemma lpGet_append (a ys : Bytes) :
    lpGet (a ++ ys) a.length = lpGet ys 0 >>= fun v => .ok (LpValue.shift a.length v) := by
  have h0 := load_append a ys 0
  rw [add_zero] at h0
  simp only [lpGet, load_append, loadLe_append, bind_assoc]
  congr 1
  funext b
  cases encodingOf b <;> simp only [bind_assoc, bind_ok, LpValue.shift]

/-- The text of the element at the start of a buffer. -/
def textOf (ys : Bytes) : Outcome Bytes := lpGetString ys 0

lemma lpGetString_append (a ys : Bytes) : lpGetString (a ++ ys) a.length = textOf ys := by
  rw [lpGetString, lpGet_append, bind_assoc]
  congr 1
  funext v
  cases v with
  | str off len => exact loadSlice_append a ys off len
  | int val => rfl

/-- An encoding: the size function and the reader agree with it whatever
follows. -/
structure Encodes (enc x : Bytes) : Prop where
  size : ∀ post, lpCurrentEncodedSizeUnsafe (enc ++ post) 0 = .ok enc.length
  text : ∀ post, textOf (enc ++ post) = .ok x
  kind : ∃ b t, enc = b :: t ∧ encodingOf b ≠ .eof ∧ encodingOf b ≠ .invalid ∧
    (encodingOf b = .str32 → ∃ len, ∀ post, loadLe (enc ++ post) 1 4 = .ok len ∧
      enc.length = 5 + len)

/-! ## Integers -/

lemma toSigned_wrap (hmin : -(2 ^ k : Nat) ≤ v) (hmax : v < (2 ^ k : Nat)) :
    toSigned (if v < 0 then (2 ^ (k + 1) : Nat) + v else v).toNat (2 ^ k) (2 ^ (k + 1) - 1) = v := by
  unfold toSigned
  split
  · omega
  · omega

lemma textOf_int {ys} (hmin : llongMin ≤ v) (hmax : v ≤ llongMax)
    (h : lpGet ys 0 = .ok (.int v)) : textOf ys = .ok (signedDecimal v) := by
  rw [textOf, lpGetString, h, bind_ok]
  dsimp only
  rw [lpIntbufSize, ll2string_eq hmin hmax, Option.getD_some]

lemma load_cons_zero (b : UInt8) (ys : Bytes) : load (b :: ys) 0 = .ok b := rfl

lemma loadLe_cons {u} (b : UInt8) (post : Bytes) (h : u < 256 ^ k) :
    loadLe (b :: (le k u ++ post)) 1 k = .ok u := by
  rw [← loadLe_front post h]
  exact loadLe_append [b] (le k u ++ post) 0 k

lemma encodes_marked {b u negstart negmax}
    (hmin : llongMin ≤ v) (hmax : v ≤ llongMax) (hu : u < 256 ^ k)
    (hval : toSigned u negstart negmax = v)
    (hkind : encodingOf b ≠ .eof ∧ encodingOf b ≠ .invalid ∧ encodingOf b ≠ .str32)
    (hsize : ∀ ys, lpCurrentEncodedSizeUnsafe (b :: ys) 0 = .ok (k + 1))
    (hget : ∀ ys, lpGet (b :: ys) 0 = loadLe (b :: ys) 1 k >>= fun uval =>
      .ok (.int (toSigned uval negstart negmax))) :
    Encodes (b :: le k u) (signedDecimal v) where
  size := fun post => by
    rw [cons_append, hsize, length_cons, length_le]
  text := fun post => by
    refine textOf_int hmin hmax ?_
    rw [cons_append, hget, loadLe_cons b post hu, bind_ok, hval]
  kind := ⟨b, le k u, rfl, hkind.1, hkind.2.1, fun h => absurd h hkind.2.2⟩

lemma uint7_facts : ∀ n < 128, encodingOf (UInt8.ofNat n) = .uint7 ∧
    (UInt8.ofNat n &&& 0x7F).toNat = n := by decide +kernel

lemma int13_facts : ∀ n < 32, encodingOf (UInt8.ofNat (n ||| 0xC0)) = .int13 ∧
    (UInt8.ofNat (n ||| 0xC0) &&& 0x1F).toNat = n := by decide +kernel

lemma encodes_uint7 (h0 : 0 ≤ v) (h1 : v ≤ 127) :
    Encodes [UInt8.ofNat v.toNat] (signedDecimal v) := by
  obtain ⟨hk, hval⟩ := uint7_facts v.toNat (by omega)
  refine ⟨fun post => ?_, fun post => ?_, _, [], rfl, by rw [hk]; decide, by rw [hk]; decide,
    fun h => by rw [hk] at h; cases h⟩
  · rw [singleton_append, lpCurrentEncodedSizeUnsafe, load_cons_zero, bind_ok, hk]
    rfl
  refine textOf_int (by unfold llongMin; omega) (by unfold llongMax; omega) ?_
  rw [singleton_append, lpGet, load_cons_zero, bind_ok, hk]
  dsimp only
  rw [toSigned, if_neg (by unfold uint64Max; omega)]
  congr 2
  omega

lemma encodes_int13 (h0 : -4096 ≤ v) (h1 : v ≤ 4095) :
    Encodes [UInt8.ofNat ((if v < 0 then 2 ^ 13 + v else v).toNat >>> 8 ||| 0xC0),
      UInt8.ofNat ((if v < 0 then 2 ^ 13 + v else v).toNat &&& 0xFF)] (signedDecimal v) := by
  obtain ⟨u, hu⟩ : ∃ u, u = (if v < 0 then 2 ^ 13 + v else v).toNat := ⟨_, rfl⟩
  have hsigned : toSigned u (2 ^ 12) 8191 = v := by
    have := toSigned_wrap (k := 12) (v := v) (by omega) (by omega)
    rw [hu]
    exact this
  rw [← hu]
  have hshift : u >>> 8 = u / 256 := Nat.shiftRight_eq_div_pow u 8
  have hlow : u &&& 0xFF = u % 256 := Nat.and_two_pow_sub_one_eq_mod u 8
  obtain ⟨hk, hval⟩ := int13_facts (u >>> 8) (by omega)
  have hb1 : (UInt8.ofNat (u &&& 0xFF)).toNat = u % 256 := by
    rw [UInt8.toNat_ofNat']; omega
  have hwhole : (u >>> 8) <<< 8 ||| u % 256 = u := by
    rw [Nat.or_comm, or_shiftLeft (by omega)]; omega
  refine ⟨fun post => ?_, fun post => ?_, _, _, rfl, by rw [hk]; decide, by rw [hk]; decide,
    fun h => by rw [hk] at h; cases h⟩
  · rw [cons_append, lpCurrentEncodedSizeUnsafe, load_cons_zero, bind_ok, hk]
    rfl
  refine textOf_int (by unfold llongMin; omega) (by unfold llongMax; omega) ?_
  rw [cons_append, lpGet, load_cons_zero, bind_ok, hk]
  show Except.ok (LpValue.int (toSigned ((UInt8.ofNat (u >>> 8 ||| 0xC0) &&& 0x1F).toNat <<< 8 |||
    (UInt8.ofNat (u &&& 0xFF)).toNat) (2 ^ 12) 8191)) = _
  rw [hval, hb1, hwhole, hsigned]

lemma encodes_integer (hmin : llongMin ≤ v) (hmax : v ≤ llongMax) :
    Encodes (lpEncodeIntegerGetType v) (signedDecimal v) := by
  have hmin' := hmin
  have hmax' := hmax
  unfold llongMin at hmin'
  unfold llongMax at hmax'
  unfold lpEncodeIntegerGetType
  split
  · rename_i h
    exact encodes_uint7 h.1 h.2
  split
  · rename_i h
    exact encodes_int13 h.1 h.2
  split
  · exact encodes_marked hmin hmax (by split <;> omega)
      (toSigned_wrap (k := 15) (by omega) (by omega)) (by decide) (fun _ => rfl) (fun _ => rfl)
  split
  · exact encodes_marked hmin hmax (by split <;> omega)
      (toSigned_wrap (k := 23) (by omega) (by omega)) (by decide) (fun _ => rfl) (fun _ => rfl)
  split
  · exact encodes_marked hmin hmax (by split <;> omega)
      (toSigned_wrap (k := 31) (by omega) (by omega)) (by decide) (fun _ => rfl) (fun _ => rfl)
  have hu : (v % 2 ^ 64).toNat = (if v < 0 then (2 ^ 64 : Nat) + v else v).toNat := by
    split <;> omega
  rw [hu]
  exact encodes_marked hmin hmax (by split <;> omega)
    (toSigned_wrap (k := 63) (by omega) (by omega)) (by decide) (fun _ => rfl) (fun _ => rfl)

/-! ## Strings -/

lemma str6_facts : ∀ n < 64, encodingOf (UInt8.ofNat (n ||| 0x80)) = .str6 ∧
    (UInt8.ofNat (n ||| 0x80) &&& 0x3F).toNat = n := by decide +kernel

lemma str12_facts : ∀ n < 16, encodingOf (UInt8.ofNat (n ||| 0xE0)) = .str12 ∧
    (UInt8.ofNat (n ||| 0xE0) &&& 0xF).toNat = n := by decide +kernel

lemma textOf_str (hd : Bytes) {post}
    (h : lpGet (hd ++ x ++ post) 0 = .ok (.str hd.length x.length)) :
    textOf (hd ++ x ++ post) = .ok x := by
  rw [textOf, lpGetString, h]
  rw [append_assoc]
  exact (loadSlice_append hd (x ++ post) 0 x.length).trans (loadSlice_front x post)

lemma encodes_string (hx : 5 + x.length < 2 ^ 32) : Encodes (lpEncodeString x) x := by
  unfold lpEncodeString
  split
  · rename_i hlen
    obtain ⟨hk, hval⟩ := str6_facts x.length hlen
    refine ⟨fun post => ?_, fun post => ?_, _, x, rfl, by rw [hk]; decide, by rw [hk]; decide,
      fun h => by rw [hk] at h; cases h⟩
    · rw [cons_append, lpCurrentEncodedSizeUnsafe, load_cons_zero, bind_ok, hk]
      rw [hval, length_cons, add_comm]
    refine textOf_str [UInt8.ofNat (x.length ||| 0x80)] ?_
    show lpGet (UInt8.ofNat (x.length ||| 0x80) :: (x ++ post)) 0 = _
    rw [lpGet, load_cons_zero, bind_ok, hk]
    rw [hval]
    rfl
  split
  · have hshift : x.length >>> 8 = x.length / 256 := Nat.shiftRight_eq_div_pow _ 8
    have hlow : x.length &&& 0xFF = x.length % 256 := Nat.and_two_pow_sub_one_eq_mod _ 8
    obtain ⟨hk, hval⟩ := str12_facts (x.length >>> 8) (by omega)
    have hb1 : (UInt8.ofNat (x.length &&& 0xFF)).toNat = x.length % 256 := by
      rw [UInt8.toNat_ofNat']; omega
    have hwhole : (x.length >>> 8) <<< 8 ||| x.length % 256 = x.length := by
      rw [Nat.or_comm, or_shiftLeft (by omega)]; omega
    have hload : ∀ ys, load (UInt8.ofNat (x.length >>> 8 ||| 0xE0) ::
        UInt8.ofNat (x.length &&& 0xFF) :: ys) (0 + 1) = .ok (UInt8.ofNat (x.length &&& 0xFF)) :=
      fun _ => rfl
    refine ⟨fun post => ?_, fun post => ?_, _, _, rfl, by rw [hk]; decide, by rw [hk]; decide,
      fun h => by rw [hk] at h; cases h⟩
    · rw [cons_append, cons_append, lpCurrentEncodedSizeUnsafe, load_cons_zero, bind_ok, hk]
      dsimp only
      rw [hload, bind_ok, hval, hb1, length_cons, length_cons]
      congr 1
      omega
    refine textOf_str [UInt8.ofNat (x.length >>> 8 ||| 0xE0), UInt8.ofNat (x.length &&& 0xFF)] ?_
    show lpGet (UInt8.ofNat (x.length >>> 8 ||| 0xE0) :: UInt8.ofNat (x.length &&& 0xFF) ::
      (x ++ post)) 0 = _
    rw [lpGet, load_cons_zero, bind_ok, hk]
    dsimp only
    rw [hload, bind_ok, hval, hb1, hwhole]
    rfl
  have hle : ∀ post, loadLe (0xF0 :: (le 4 x.length ++ post)) 1 4 = .ok x.length :=
    fun post => loadLe_cons 0xF0 post (by omega)
  have hk : encodingOf 0xF0 = .str32 := by decide
  refine ⟨fun post => ?_, fun post => ?_, 0xF0, le 4 x.length ++ x, rfl, by decide,
    by decide, fun _ => ⟨x.length, fun post => ⟨?_, ?_⟩⟩⟩
  · rw [cons_append, cons_append, lpCurrentEncodedSizeUnsafe, load_cons_zero, bind_ok, hk]
    dsimp only
    rw [append_assoc, hle, bind_ok, length_cons, length_append, length_le]
    congr 1
    omega
  · refine textOf_str (0xF0 :: le 4 x.length) ?_
    show lpGet (0xF0 :: (le 4 x.length ++ x ++ post)) 0 = _
    rw [lpGet, load_cons_zero, bind_ok, hk]
    dsimp only
    rw [append_assoc, hle, bind_ok, length_cons, length_le]
  · exact hle (x ++ post)
  · rw [cons_append, length_cons, length_append, length_le]
    omega

/-! ## Elements and entries -/

lemma length_lpEncodeString (x : Bytes) : (lpEncodeString x).length =
    if x.length < 64 then 1 + x.length
    else if x.length < 4096 then 2 + x.length else 5 + x.length := by
  unfold lpEncodeString
  split
  · rw [length_cons, add_comm]
  split
  · rw [length_cons, length_cons]
    omega
  rw [cons_append, length_cons, length_append, length_le]
  omega

/-- The encoding `lpInsert` stores for a byte string. -/
def encode (x : Bytes) : Bytes :=
  match lpStringToInt64 x with
  | some v => lpEncodeIntegerGetType v
  | none => lpEncodeString x

lemma encode_length_le (x : Bytes) : (encode x).length ≤ 9 + x.length := by
  unfold encode
  split
  · unfold lpEncodeIntegerGetType
    repeat' split
    all_goals simp
    all_goals omega
  rw [length_lpEncodeString]
  split
  · omega
  · split <;> omega

lemma encodes (hx : 5 + x.length < 2 ^ 32) : Encodes (encode x) x := by
  unfold encode
  split
  · rename_i v hv
    obtain ⟨hmin, hmax, htext⟩ := lpStringToInt64_eq_some hv
    rw [← htext]
    exact encodes_integer hmin hmax
  · exact encodes_string hx

/-- An integer argument is stored like its text. -/
lemma encode_signedDecimal (hmin : llongMin ≤ v) (hmax : v ≤ llongMax) :
    encode (signedDecimal v) = lpEncodeIntegerGetType v := by
  rw [encode, lpStringToInt64_signedDecimal hmin hmax]

lemma encoded_str (x : Bytes) : (Payload.str x).encoded = (encode x, (encode x).length) := by
  cases hv : lpStringToInt64 x with
  | some v => simp only [Payload.encoded, lpEncodeGetType, encode, hv]
  | none =>
    simp only [Payload.encoded, lpEncodeGetType, encode, hv, length_lpEncodeString]
    by_cases h1 : x.length < 64
    · simp only [h1, if_true]
    by_cases h2 : x.length < 4096
    · simp only [h1, h2, if_true, if_false]
    · simp only [h1, h2, if_false]

def entry (x : Bytes) : Bytes := encode x ++ lpEncodeBacklen (encode x).length

lemma length_entry (x : Bytes) :
    (entry x).length = (encode x).length + backlenSize (encode x).length :=
  length_append

/-! ## Back-lengths -/

lemma low_facts : ∀ n < 128, UInt8.ofNat (n ||| 128) &&& 128 ≠ 0 ∧
    (UInt8.ofNat (n ||| 128) &&& 127).toNat = n := by decide +kernel

lemma top_facts : ∀ n < 128, UInt8.ofNat n &&& 128 = 0 ∧
    (UInt8.ofNat n &&& 127).toNat = n := by decide +kernel

/-- A continued byte hands the rest to the bytes before it. -/
lemma decode_low {rounds shift val x} (hv : val < 2 ^ shift)
    (h : load lp q = .ok (UInt8.ofNat (x &&& 127 ||| 128))) :
    decodeBacklenLoop lp (rounds + 1) shift val (q + 1) =
      decodeBacklenLoop lp rounds (shift + 7) (val + x % 128 * 2 ^ shift) q := by
  have hx : x &&& 127 = x % 128 := Nat.and_two_pow_sub_one_eq_mod x 7
  obtain ⟨h1, h2⟩ := low_facts (x % 128) (Nat.mod_lt _ (by decide))
  rw [hx] at h
  rw [decodeBacklenLoop, h, bind_ok]
  rw [if_neg h1, h2, or_shiftLeft hv]

lemma decode_top {rounds shift val x} (hv : val < 2 ^ shift)
    (hx : x < 128) (h : load lp q = .ok (UInt8.ofNat x)) :
    decodeBacklenLoop lp (rounds + 1) shift val (q + 1) = .ok (val + x * 2 ^ shift) := by
  obtain ⟨h1, h2⟩ := top_facts x hx
  rw [decodeBacklenLoop, h, bind_ok]
  rw [if_pos h1, h2, or_shiftLeft hv]

lemma lpDecodeBacklen_of_loads {l} (hl : l < 2 ^ 35)
    (h : ∀ i b, (lpEncodeBacklen l)[i]? = some b → load lp (q + i) = .ok b) :
    lpDecodeBacklen lp (q + backlenSize l) = .ok l := by
  unfold backlenSize lpDecodeBacklen
  unfold lpEncodeBacklen at h ⊢
  split at h
  · rename_i h1
    have b0 := h 0 _ rfl
    rw [if_pos h1]
    show decodeBacklenLoop lp 5 0 0 (q + 0 + 1) = .ok l
    rw [decode_top (by omega) (by omega) b0]
    congr 1
    omega
  rename_i h1
  split at h
  · rename_i h2
    have b0 := h 0 _ rfl
    have b1 := h 1 _ rfl
    rw [if_neg h1, if_pos h2]
    show decodeBacklenLoop lp 5 0 0 (q + 1 + 1) = .ok l
    rw [decode_low (by omega) b1, decode_top (by omega) (by omega) b0]
    congr 1
    omega
  rename_i h2
  split at h
  · rename_i h3
    have b0 := h 0 _ rfl
    have b1 := h 1 _ rfl
    have b2 := h 2 _ rfl
    rw [if_neg h1, if_neg h2, if_pos h3]
    show decodeBacklenLoop lp 5 0 0 (q + 2 + 1) = .ok l
    rw [decode_low (by omega) b2, decode_low (by omega) b1, decode_top (by omega) (by omega) b0]
    congr 1
    omega
  rename_i h3
  split at h
  · rename_i h4
    have b0 := h 0 _ rfl
    have b1 := h 1 _ rfl
    have b2 := h 2 _ rfl
    have b3 := h 3 _ rfl
    rw [if_neg h1, if_neg h2, if_neg h3, if_pos h4]
    show decodeBacklenLoop lp 5 0 0 (q + 3 + 1) = .ok l
    rw [decode_low (by omega) b3, decode_low (by omega) b2, decode_low (by omega) b1,
      decode_top (by omega) (by omega) b0]
    congr 1
    omega
  rename_i h4
  have b0 := h 0 _ rfl
  have b1 := h 1 _ rfl
  have b2 := h 2 _ rfl
  have b3 := h 3 _ rfl
  have b4 := h 4 _ rfl
  rw [if_neg h1, if_neg h2, if_neg h3, if_neg h4]
  show decodeBacklenLoop lp 5 0 0 (q + 4 + 1) = .ok l
  rw [decode_low (by omega) b4, decode_low (by omega) b3, decode_low (by omega) b2,
    decode_low (by omega) b1, decode_top (by omega) (by omega) b0]
  congr 1
  omega

lemma lpDecodeBacklen_append (a post : Bytes) {l} (hl : l < 2 ^ 35) :
    lpDecodeBacklen (a ++ (lpEncodeBacklen l ++ post)) (a.length + backlenSize l) = .ok l := by
  refine lpDecodeBacklen_of_loads hl fun i b h => ?_
  have hi := (List.getElem?_eq_some_iff.mp h).1
  rw [load_append, load_eq_ok, getElem?_append_left hi, h]

lemma entryAt_append {a post} (ha : lpHdrSize ≤ a.length) (hpost : post ≠ [])
    (hx : 5 + x.length < 2 ^ 32) :
    ∃ b, EntryAt (a ++ (entry x ++ post)) a.length (encode x).length b := by
  obtain ⟨b, t, hb, hne, hni, hwhole⟩ := (encodes hx).kind
  have hpos : 0 < post.length := length_pos_iff.mpr hpost
  have hassoc : entry x ++ post = encode x ++ (lpEncodeBacklen (encode x).length ++ post) :=
    append_assoc ..
  have hlen := encode_length_le x
  refine ⟨b, ha, ?_, hne, hni, ?_, fun hs => ?_, ?_, ?_⟩
  · have := load_append a (entry x ++ post) 0
    rw [add_zero] at this
    rw [this, hassoc, hb]
    rfl
  · rw [lpCurrentEncodedSizeUnsafe_append, hassoc]
    exact (encodes hx).size _
  · obtain ⟨len, hl⟩ := hwhole hs
    refine ⟨len, ?_, (hl []).2⟩
    rw [loadLe_append, hassoc]
    exact (hl _).1
  · rw [nextOf, length_append, length_append, length_entry]
    omega
  · rw [hassoc, ← append_assoc]
    have := lpDecodeBacklen_append (a ++ encode x) post (l := (encode x).length) (by omega)
    rwa [length_append] at this

end Redis.Listpack.Encoding
