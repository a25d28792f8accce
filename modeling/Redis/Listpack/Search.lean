import Redis.Listpack.Refinement

/-! # Reading back and finding entries

What is written for an element is read back by `lpGetWithSize`, by the size functions and,
backwards, by `lpDecodeBacklen`. `lpFind` compares strings with string entries and integers
with integer entries, which comes to comparing texts. -/
namespace Redis.Listpack.Search
open Option List Lib Outcome Util.Numbers Model Traversal
open Encoding Layout Mutation
open Refinement

/-! ## The code -/

/-- What `lpGetWithSize` stores in `*entry_size`: a constant for an integer, and nothing for
a byte that starts no encoding. -/
def entrySize : Encoding → LpValue → Option Nat
  | .uint7, _ => some 2
  | .str6, .str _ count => some (1 + count + backlenSize (count + 1))
  | .int13, _ => some 3
  | .int16, _ => some 4
  | .int24, _ => some 5
  | .int32, _ => some 6
  | .int64, _ => some 10
  | .str12, .str _ count => some (2 + count + backlenSize (count + 2))
  | .str32, .str _ count => some (5 + count + backlenSize (count + 5))
  | _, _ => none

/-- `lpGetWithSize` without `intbuf`. -/
def lpGetWithSize (lp : Bytes) (p : Nat) : Outcome (LpValue × Option Nat) := do
  let b ← load lp p
  let value ← lpGet lp p
  .ok (value, entrySize (encodingOf b) value)

/-- The integer form of the searched string, `none` being `vencoding = UCHAR_MAX`. -/
def searchedInt (s : Bytes) : Option Int :=
  if 32 ≤ s.length ∨ s.length = 0 then none else lpStringToInt64 s

/-- The end of a round of `lpFind`: whether `p` is the end marker. -/
def atEnd (lp : Bytes) (lpbytes p : Nat) : Outcome Bool := do
  if lpbytes ≤ p + 8 then lpAssertValidEntry lp lpbytes p
  else check (lpHdrSize ≤ p ∧ p < lpbytes)
  let b ← load lp p
  .ok (decide (b = lpEOF))

/-- `lpFind`'s comparison of the entry at `p`: whether it is the one, the size of the entry,
which keeps its old value where none is stored, and the integer form if it was computed. -/
def compareAt (lp s : Bytes) (lpbytes p size : Nat) (vll : Option (Option Int)) :
    Outcome (Bool × Nat × Option (Option Int)) := do
  match ← lpGetWithSize lp p with
  | (.str off len, entrySize) =>
    let size := entrySize.getD size
    check (lpHdrSize ≤ p ∧ p + size < lpbytes)
    if s.length = len then
      let value ← loadSlice lp off len
      .ok (decide (value = s), size, vll)
    else .ok (false, size, vll)
  | (.int ll, entrySize) =>
    let form := vll.getD (searchedInt s)
    .ok (decide (form = some ll), entrySize.getD size, some form)

/-- The loop of `lpFind`. `skipcnt` is an `int` that takes the value of the `unsigned int`
`skip`, so it counts modulo 2^32. -/
def findLoop (lp s : Bytes) (lpbytes skip : Nat) :
    (fuel p skipcnt size : Nat) → (vll : Option (Option Int)) → Outcome (Option Nat)
  | 0, _, _, _, _ => .error .loop
  | fuel + 1, p, skipcnt, size, vll =>
    if skipcnt = 0 then do
      let (found, size, vll) ← compareAt lp s lpbytes p size vll
      if found then .ok (some p)
      else
        let stop ← atEnd lp lpbytes (p + size)
        if stop then .ok none else findLoop lp s lpbytes skip fuel (p + size) skip size vll
    else do
      let q ← lpSkip lp p
      let stop ← atEnd lp lpbytes q
      if stop then .ok none
      else findLoop lp s lpbytes skip fuel q ((skipcnt + 2 ^ 32 - 1) % 2 ^ 32) size vll

/-- `lpFind`; `none` is NULL. -/
def lpFind (lp : Bytes) (p : Nat) (s : Bytes) (skip : UInt32) : Outcome (Option Nat) := do
  let lpbytes ← lpBytes lp
  findLoop lp s lpbytes skip.toNat lp.length p 0 123456789 none

/-! ## Entries read back -/

variable {lp : Bytes} {n p : Nat} {b : UInt8} {s : Bytes} {q : Nat}

lemma lpGetWithSize_entry (h : EntryAt lp p n b) :
    ∃ v, lpGet lp p = .ok v ∧ LpValue.Within p (p + n) v ∧
      lpGetWithSize lp p = .ok (v, some (n + backlenSize n)) := by
  obtain ⟨v, hv, hwithin⟩ := lpGet_entry h
  refine ⟨v, hv, hwithin, ?_⟩
  rw [lpGetWithSize, h.head, bind_ok, hv, bind_ok]
  have hsize := h.size
  rw [lpCurrentEncodedSizeUnsafe, h.head, bind_ok] at hsize
  rw [lpGet, h.head, bind_ok] at hv
  cases he : encodingOf b <;> rw [he] at hsize hv <;> dsimp only at hsize hv
  case str6 =>
    cases hsize; cases hv
    simp only [entrySize, add_comm]
  case str12 =>
    obtain ⟨b1, hb1, hsize⟩ := bind_eq_ok.mp hsize
    rw [hb1] at hv
    cases hsize; cases hv
    simp only [entrySize, add_comm]
  case str32 =>
    obtain ⟨len, hl, hn⟩ := h.whole he
    rw [hl] at hv
    cases hv
    rw [entrySize, hn, add_comm len 5]
  case eof => exact absurd he h.not_eof
  case invalid => exact absurd he h.not_invalid
  all_goals
    cases hsize
    rfl

/-- The size needs no more than the bytes `lpCurrentEncodedSizeBytes` names. -/
lemma size_of_front {enc} (hb : load enc 0 = .ok b)
    (h : lpCurrentEncodedSizeUnsafe enc 0 = .ok n) (hb0 : encodingOf b ≠ .invalid) :
    lpCurrentEncodedSizeUnsafe (enc.take (lpCurrentEncodedSizeBytes b)) 0 = .ok n := by
  have hload {k i : Nat} (hi : i < k) : load (enc.take k) i = load enc i := by
    simp [load, hi]
  have hpos : 0 < lpCurrentEncodedSizeBytes b :=
    Nat.pos_of_ne_zero fun h0 => hb0 (lpCurrentEncodedSizeBytes_eq_zero.mp h0)
  rw [lpCurrentEncodedSizeUnsafe, hb, bind_ok] at h
  rw [lpCurrentEncodedSizeUnsafe, hload hpos, hb, bind_ok]
  cases he : encodingOf b <;> rw [he] at h <;> dsimp only at h ⊢
  case str12 =>
    have hbytes : lpCurrentEncodedSizeBytes b = 2 := by rw [lpCurrentEncodedSizeBytes, he]
    rw [hbytes, hload (by decide)]
    exact h
  case str32 =>
    have hbytes : lpCurrentEncodedSizeBytes b = 5 := by rw [lpCurrentEncodedSizeBytes, he]
    obtain ⟨len, hlen, hn⟩ := bind_eq_ok.mp h
    obtain ⟨hle, hval⟩ := loadLe_eq_ok hlen
    have hsame : ((enc.take 5).drop (0 + 1)).take 4 = (enc.drop (0 + 1)).take 4 := by
      simp [drop_take, take_take]
    rw [hbytes, loadLe_of_le (by simp; omega), hsame, ← hval]
    exact hn
  all_goals exact h

/-- What the readers find at `p`: the text `x`, an encoding of `n` bytes, and behind it a
back-length that says so. -/
structure ReadsBack (lp : Bytes) (p : Nat) (x : Bytes) (n : Nat) : Prop where
  text : lpGetString lp p = .ok x
  size : lpCurrentEncodedSizeUnsafe lp p = .ok n
  entry : ∃ v, lpGetWithSize lp p = .ok (v, some (n + backlenSize n))
  skip : lpSkip lp p = .ok (p + n + backlenSize n)
  back : lpDecodeBacklen lp (p + n + backlenSize n) = .ok n

lemma readsBack_append {a post x} (ha : lpHdrSize ≤ a.length) (hpost : post ≠ [])
    (hx : 5 + x.length < 2 ^ 32) :
    ReadsBack (a ++ (entry x ++ post)) a.length x (encode x).length := by
  obtain ⟨b, hentry⟩ := entryAt_append ha hpost hx
  obtain ⟨v, -, -, hsize⟩ := lpGetWithSize_entry hentry
  refine ⟨?_, hentry.size, ⟨v, hsize⟩, lpSkip_entry hentry, hentry.back⟩
  rw [lpGetString_append, entry, append_assoc]
  exact (encodes hx).text _

lemma refused_of_big {r xs x} (h : InsertResult r xs p) (hx : x ∈ xs) (hbig : uint32Max < (encode x).length) :
    r = .ok none := by
  have hle := length_encode_le_body hx
  rwa [InsertResult, if_pos (by rw [lpSize]; omega)] at h

lemma lpInsert_refuses {ys zs y} (ele : Element) (wh : Where)
    (h : Represents lp (ys ++ y :: zs)) (hbig : uint32Max < (encode ele.text).length) :
    lpInsert lp ele.payload (offset ys) wh = .ok none := by
  cases wh with
  | before => exact refused_of_big (lpInsert_before ys h ele.stores) (by simp) hbig
  | after => exact refused_of_big (lpInsert_after h ele.stores) (by simp) hbig
  | replace => exact refused_of_big (lpReplace_eq h ele.stores) (by simp) hbig

/-- For every byte string and every 64-bit integer: the size announced is the size written,
and the entry, wherever it lies in a listpack, reads back as the text of the element, with
that size from its first bytes and from the back-length. An encoding of 4 GB or more is never
written. -/
theorem entry_reads_back (ele : Element) : ele.payload.encoded.1.length = ele.payload.encoded.2 ∧
    (ele.payload.encoded.2 ≤ uint32Max → (∀ pre post : Bytes, lpHdrSize ≤ pre.length → post ≠ [] →
        ReadsBack (pre ++ (ele.payload.encoded.1 ++ lpEncodeBacklen ele.payload.encoded.2 ++ post))
          pre.length ele.text ele.payload.encoded.2) ∧
      ∃ b, load ele.payload.encoded.1 0 = .ok b ∧
        lpCurrentEncodedSizeUnsafe (ele.payload.encoded.1.take (lpCurrentEncodedSizeBytes b)) 0 =
          .ok ele.payload.encoded.2) ∧
    (uint32Max < ele.payload.encoded.2 → ∀ (lp : Bytes) (xs : List Bytes), Represents lp xs →
      lpAppend lp ele.payload = .ok none ∧
      ∀ (ys zs : List Bytes) (y : Bytes) (wh : Where), xs = ys ++ y :: zs →
        lpInsert lp ele.payload (offset ys) wh = .ok none) := by
  rw [ele.stores.encoded]
  refine ⟨rfl, fun hfits => ?_, fun hbig lp xs h => ⟨?_, ?_⟩⟩
  · have hx := length_lt_of_encode hfits
    refine ⟨fun pre post hpre hpost => readsBack_append hpre hpost hx, ?_⟩
    obtain ⟨b, t, hb, -, hvalid, -⟩ := (encodes hx).kind
    have hload : load (encode ele.text) 0 = .ok b := by rw [hb]; rfl
    have hsize := (encodes hx).size []
    rw [append_nil] at hsize
    exact ⟨b, hload, size_of_front hload hsize hvalid⟩
  · exact refused_of_big (lpAppend_eq h ele.stores) (by simp) hbig
  · rintro ys zs y wh rfl
    exact lpInsert_refuses ele wh h hbig

/-! ## Comparing with an entry -/

lemma toSigned_range {u k} (hu : u < 2 ^ (k + 1)) (hk : k ≤ 63) :
    llongMin ≤ toSigned u (2 ^ k) (2 ^ (k + 1) - 1) ∧
      toSigned u (2 ^ k) (2 ^ (k + 1) - 1) ≤ llongMax := by
  have hle : 2 ^ k ≤ 2 ^ 63 := Nat.pow_le_pow_right (by decide) hk
  unfold toSigned llongMin llongMax
  split <;> constructor <;> omega

lemma lpGet_int_range {v} (h : EntryAt lp p n b)
    (hv : lpGet lp p = .ok (.int v)) : llongMin ≤ v ∧ v ≤ llongMax := by
  have hle {q k u : Nat} (hu : loadLe lp q k = .ok u) : u < 256 ^ k := by
    obtain ⟨hle, rfl⟩ := loadLe_eq_ok hu
    have hlen : ((lp.drop q).take k).length = k := by
      rw [length_take, length_drop]
      omega
    have hlt := ofLe_lt ((lp.drop q).take k)
    rwa [hlen] at hlt
  rw [lpGet, h.head, bind_ok] at hv
  cases he : encodingOf b <;> rw [he] at hv <;> dsimp only at hv
  case uint7 =>
    cases hv
    have hlt := and_127_lt b
    rw [toSigned]
    unfold llongMin llongMax
    omega
  case int13 =>
    obtain ⟨b1, hb1, hv⟩ := bind_eq_ok.mp hv
    cases hv
    have hhigh : (b &&& 0x1F).toNat < 2 ^ 5 := by
      exact Nat.lt_of_le_of_lt Nat.and_le_right (by decide)
    have hlow := b1.toNat_lt
    have hlt : (b &&& 0x1F).toNat <<< 8 ||| b1.toNat < 2 ^ 13 :=
      Nat.or_lt_two_pow (by omega) (by omega)
    exact toSigned_range (k := 12) hlt (by decide)
  case int16 =>
    obtain ⟨u, hu, hv⟩ := bind_eq_ok.mp hv
    cases hv
    exact toSigned_range (k := 15) (hle hu) (by decide)
  case int24 =>
    obtain ⟨u, hu, hv⟩ := bind_eq_ok.mp hv
    cases hv
    exact toSigned_range (k := 23) (hle hu) (by decide)
  case int32 =>
    obtain ⟨u, hu, hv⟩ := bind_eq_ok.mp hv
    cases hv
    exact toSigned_range (k := 31) (hle hu) (by decide)
  case int64 =>
    obtain ⟨u, hu, hv⟩ := bind_eq_ok.mp hv
    cases hv
    exact toSigned_range (k := 63) (hle hu) (by decide)
  case str6 => cases hv
  case str12 =>
    obtain ⟨b1, hb1, hv⟩ := bind_eq_ok.mp hv
    cases hv
  case str32 =>
    obtain ⟨u, hu, hv⟩ := bind_eq_ok.mp hv
    cases hv
  case eof => exact absurd he h.not_eof
  case invalid => exact absurd he h.not_invalid

lemma searchedInt_eq_some {v} (hmin : llongMin ≤ v) (hmax : v ≤ llongMax) :
    searchedInt s = some v ↔ signedDecimal v = s := by
  rw [searchedInt]
  constructor
  · intro h
    split at h
    · cases h
    · exact (lpStringToInt64_eq_some h).2.2
  rintro rfl
  have hfits := ll2string_eq hmin hmax
  rw [ll2string_spec, ite_none_right_eq_some] at hfits
  have hread := lpStringToInt64_signedDecimal hmin hmax
  have hne : (signedDecimal v).length ≠ 0 := by
    intro h0
    rw [length_eq_zero_iff.mp h0] at hread
    cases hread
  rw [if_neg (by omega), hread]

def hasText (lp s : Bytes) (p : Nat) : Bool :=
  match lpGetString lp p with
  | .ok x => decide (x = s)
  | .error _ => false

lemma hasText_iff : hasText lp s p = true ↔ lpGetString lp p = .ok s := by
  unfold hasText
  cases lpGetString lp p <;> simp

lemma lpGetString_entry (h : EntryAt lp p n b) : ∃ x, lpGetString lp p = .ok x := by
  obtain ⟨v, hv, hwithin⟩ := lpGet_entry h
  rw [lpGetString, hv]
  cases v with
  | str off len =>
    have hin := h.inside
    unfold nextOf at hin
    exact ⟨_, loadSlice_of_le (by have := hwithin.2; omega)⟩
  | int v => exact ⟨_, rfl⟩

lemma hasText_str {off len} (s : Bytes)
    (h : EntryAt lp p n b) (hv : lpGet lp p = .ok (.str off len)) :
    loadSlice lp off len = .ok ((lp.drop off).take len) ∧ ((lp.drop off).take len).length = len ∧
      hasText lp s p = decide ((lp.drop off).take len = s) := by
  obtain ⟨v, hv', hwithin⟩ := lpGet_entry h
  cases hv.symm.trans hv'
  have hin := h.inside
  unfold nextOf at hin
  have hend := hwithin.2
  have hslice : off + len ≤ lp.length := by omega
  refine ⟨loadSlice_of_le hslice, ?_, ?_⟩
  · rw [length_take, length_drop]
    omega
  · simp only [hasText, lpGetString, hv, bind_ok, loadSlice_of_le hslice]

lemma hasText_int {ll} (s : Bytes) (h : EntryAt lp p n b) (hv : lpGet lp p = .ok (.int ll)) :
    hasText lp s p = decide (searchedInt s = some ll) := by
  obtain ⟨hmin, hmax⟩ := lpGet_int_range h hv
  simp only [hasText, lpGetString, hv, bind_ok, lpIntbufSize, ll2string_eq hmin hmax,
    getD_some, searchedInt_eq_some hmin hmax]

/-- The comparison is one of texts, whichever encodings are involved. -/
lemma compareAt_entry {vll}
    (size : Nat) (h : EntryAt lp p n b) (hvll : vll = none ∨ vll = some (searchedInt s)) :
    ∃ vll', compareAt lp s lp.length p size vll = .ok (hasText lp s p, n + backlenSize n, vll') ∧
      (vll' = none ∨ vll' = some (searchedInt s)) := by
  obtain ⟨v, hv, -, hget⟩ := lpGetWithSize_entry h
  rw [compareAt, hget, bind_ok]
  cases v with
  | str off len =>
    obtain ⟨hslice, hlen, htext⟩ := hasText_str s h hv
    have hin := h.inside
    unfold nextOf at hin
    have hcheck : lpHdrSize ≤ p ∧ p + (n + backlenSize n) < lp.length := ⟨h.start, by omega⟩
    simp only [getD_some, check_pos hcheck, bind_ok]
    split
    · exact ⟨vll, by rw [hslice, htext]; rfl, hvll⟩
    rename_i hne
    have hdiff : (lp.drop off).take len ≠ s := fun heq => hne (heq ▸ hlen)
    exact ⟨vll, by rw [htext, decide_eq_false hdiff], hvll⟩
  | int ll =>
    have hform : vll.getD (searchedInt s) = searchedInt s := by
      rcases hvll with rfl | rfl <;> rfl
    refine ⟨some (searchedInt s), ?_, Or.inr rfl⟩
    simp only [hform, hasText_int s h hv, getD_some]

/-! ## The search -/

/-- Every `(skip + 1)`-th entry, the first one after `k` others. -/
def candidates (skip : Nat) : Nat → List Nat → List Nat
  | _, [] => []
  | 0, p :: ps => p :: candidates skip skip ps
  | k + 1, _ :: ps => candidates skip k ps

lemma getElem?_candidates (skip : Nat) (i k : Nat) (ps : List Nat) :
    (candidates skip k ps)[i]? = ps[k + i * (skip + 1)]? := by
  induction ps generalizing i k with
  | nil => simp [candidates]
  | cons p ps ih =>
    cases k with
    | zero =>
      cases i with
      | zero => simp [candidates]
      | succ i =>
        rw [candidates, getElem?_cons_succ, ih, Nat.succ_mul, zero_add, ← add_assoc,
          getElem?_cons_succ, add_comm skip]
    | succ k =>
      rw [candidates, ih, Nat.add_right_comm, getElem?_cons_succ]

lemma atEnd_eq (hq : lpHdrSize ≤ q)
    (hb : load lp q = .ok b) (hvalid : lpAssertValidEntry lp lp.length q = .ok ()) :
    atEnd lp lp.length q = .ok (decide (b = lpEOF)) := by
  rw [atEnd, hvalid, check_pos ⟨hq, load_lt hb⟩, hb]
  split <;> rfl

lemma lpAssertValidEntry_end (hq : lpHdrSize ≤ q)
    (hb : load lp q = .ok lpEOF) : lpAssertValidEntry lp lp.length q = .ok () := by
  have hrange : ¬ OutOfRange lp.length q := by
    have := load_lt hb
    unfold OutOfRange
    omega
  rw [lpAssertValidEntry, lpValidateNext, if_neg hrange, hb]
  rfl

lemma atEnd_path {ps} (hq : lpHdrSize ≤ q)
    (hl : load lp (lp.length - 1) = .ok lpEOF) (h : Path lp q ps (lp.length - 1)) :
    atEnd lp lp.length q = .ok (decide (ps = [])) := by
  cases h with
  | nil => exact atEnd_eq hq hl (lpAssertValidEntry_end hq hl)
  | cons entry rest =>
    rw [atEnd_eq hq entry.head (lpAssertValidEntry_entry entry), decide_eq_false entry.ne_eof,
      decide_eq_false (cons_ne_nil _ _)]

/-- The loop from the entry at `p` on: `skipcnt` entries are passed over before the next
comparison. -/
lemma findLoop_eq {skip} (hskip : skip < 2 ^ 32) (hl : load lp (lp.length - 1) = .ok lpEOF) :
    ∀ (fuel p skipcnt size : Nat) (ps : List Nat) (vll : Option (Option Int)),
      Path lp p (p :: ps) (lp.length - 1) → ps.length < fuel → skipcnt ≤ skip →
      (vll = none ∨ vll = some (searchedInt s)) →
      findLoop lp s lp.length skip fuel p skipcnt size vll =
        .ok ((candidates skip skipcnt (p :: ps)).find? (hasText lp s)) := by
  intro fuel
  induction fuel with
  | zero =>
    intro p skipcnt size ps vll _ hfuel
    exact absurd hfuel (Nat.not_lt_zero _)
  | succ fuel ih =>
    intro p skipcnt size ps vll hpath hfuel hcnt hvll
    cases hpath with
    | @cons _ n _ b _ entry rest =>
      have hstart : lpHdrSize ≤ nextOf p n := le_trans entry.start (Nat.le_of_lt (lt_nextOf p n))
      have hend := atEnd_path hstart hl rest
      -- What follows the entry at `p`, whether or not it was compared.
      have hrest (cnt size : Nat) (vll : Option (Option Int)) (hcnt : cnt ≤ skip)
          (hvll : vll = none ∨ vll = some (searchedInt s)) :
          (if decide (ps = []) = true then .ok none
            else findLoop lp s lp.length skip fuel (nextOf p n) cnt size vll) =
          (.ok ((candidates skip cnt ps).find? (hasText lp s)) : Outcome (Option Nat)) := by
        cases ps with
        | nil => simp [candidates]
        | cons q ps =>
          have hq : q = nextOf p n := by
            cases rest
            rfl
          subst hq
          rw [length_cons] at hfuel
          exact ih _ _ _ _ _ rest (by omega) hcnt hvll
      rw [findLoop]
      split
      · rename_i hzero
        obtain ⟨vll', hcmp, hvll'⟩ := compareAt_entry size entry hvll
        rw [hcmp, hzero, candidates, find?_cons]
        dsimp only [bind_ok]
        cases hasText lp s p with
        | true => rfl
        | false =>
          rw [← add_assoc]
          rw [← nextOf, hend]
          exact hrest skip _ vll' le_rfl hvll'
      · rename_i hne
        obtain ⟨k, rfl⟩ := Nat.exists_eq_succ_of_ne_zero hne
        have hmod : (k + 1 + 2 ^ 32 - 1) % 2 ^ 32 = k := by omega
        rw [lpSkip_entry entry, bind_ok, hend, hmod]
        exact hrest k size vll (by omega) hvll

lemma lpFind_eq {a ps} (h : Valid lp (a ++ p :: ps)) (s : Bytes) (skip : UInt32) :
    lpFind lp p s skip = .ok ((candidates skip.toNat 0 (p :: ps)).find? (hasText lp s)) := by
  obtain ⟨r, ha, hpath⟩ := Path.append_iff.mp h.path
  have hr : r = p := by
    cases hpath
    rfl
  subst hr
  have hle := hpath.le
  rw [length_cons] at hle
  rw [lpFind, lpBytes, h.total]
  exact findLoop_eq skip.toNat_lt h.last _ _ _ _ _ _ hpath (by omega) (Nat.zero_le _) (.inl rfl)

/-- `lpFind` returns the first entry with the text `s` among the starting entry and every
`(skip + 1)`-th entry behind it, and NULL if there is none. -/
theorem lpFind_first {lp : Bytes} {a ps : List Nat} {p : Nat} (h : Valid lp (a ++ p :: ps))
    (s : Bytes) (skip : UInt32) :
    (∀ q ∈ a ++ p :: ps, ∃ x, lpGetString lp q = .ok x) ∧
    ((∃ i q, lpFind lp p s skip = .ok (some q) ∧
        (p :: ps)[i * (skip.toNat + 1)]? = some q ∧ lpGetString lp q = .ok s ∧
        ∀ j < i, ∀ q', (p :: ps)[j * (skip.toNat + 1)]? = some q' → lpGetString lp q' ≠ .ok s) ∨
      (lpFind lp p s skip = .ok none ∧
        ∀ j q', (p :: ps)[j * (skip.toNat + 1)]? = some q' → lpGetString lp q' ≠ .ok s)) := by
  refine ⟨fun q hq => ?_, ?_⟩
  · obtain ⟨n, b, hentry⟩ := h.entry hq
    exact lpGetString_entry hentry
  have hplace (i : Nat) : (candidates skip.toNat 0 (p :: ps))[i]? =
      (p :: ps)[i * (skip.toNat + 1)]? := by
    rw [getElem?_candidates, zero_add]
  rw [lpFind_eq h]
  cases hfind : (candidates skip.toNat 0 (p :: ps)).find? (hasText lp s) with
  | none =>
    refine .inr ⟨rfl, fun j q' hq' => ?_⟩
    rw [← hplace] at hq'
    have hno := find?_eq_none.mp hfind q' (mem_of_getElem? hq')
    rwa [hasText_iff] at hno
  | some q =>
    obtain ⟨htext, i, hi, hq, hbefore⟩ := find?_eq_some_iff_getElem.mp hfind
    refine .inl ⟨i, q, rfl, ?_, hasText_iff.mp htext, fun j hj q' hq' => ?_⟩
    · rw [← hplace, getElem?_eq_getElem hi, hq]
    rw [← hplace, getElem?_eq_getElem (hj.trans hi), some.injEq] at hq'
    have hno := hbefore j hj
    rwa [hq', Bool.not_eq_true', Bool.eq_false_iff, Ne, hasText_iff] at hno

/-- The listpack of `a`, `12` and `a`, with `12` stored as an integer. -/
def sampleListpack : Bytes := [15, 0, 0, 0, 3, 0, 0x81, 97, 2, 12, 1, 0x81, 97, 2, 0xFF]

theorem lpFind_first_sample : Valid sampleListpack ([] ++ 6 :: [9, 11]) ∧
    lpFind sampleListpack 6 [49, 50] 0 = .ok (some 9) ∧
    lpFind sampleListpack 6 [49, 50] 1 = .ok none ∧
    ∃ x, lpGetString sampleListpack 9 = .ok x := by
  have hvalid : Valid sampleListpack ([] ++ 6 :: [9, 11]) := by
    have hrep : Represents sampleListpack [[97], [49, 50], [97]] :=
      ⟨3, by decide, Or.inr (by decide), by decide⟩
    exact hrep.valid
  refine ⟨hvalid, by decide +kernel, by decide +kernel, ?_⟩
  exact (lpFind_first hvalid [49, 50] 0).1 9 (by simp)

end Redis.Listpack.Search
