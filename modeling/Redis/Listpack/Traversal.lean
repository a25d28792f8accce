import Redis.Lib.Indexing
import Redis.Listpack.Model

/-! # Walking a listpack

A walk needs a path of entries, each accepted by `lpValidateNext`, from the header to the end
marker, wherever the buffer came from. `Valid lp ps` says that the offsets `ps` form such a
path; the traversal functions then move along `ps` and never fault, and `lpValidateIntegrity`
accepts only such buffers. -/
namespace Redis.Listpack.Traversal
open List Lib Outcome Util.Numbers Model

/-! ## Back-lengths -/

lemma backlenSize_pos (l : Nat) : 0 < backlenSize l := by
  unfold backlenSize lpEncodeBacklen
  repeat' split
  all_goals simp

lemma backlenSize_le (l : Nat) : backlenSize l ≤ 5 := by
  unfold backlenSize lpEncodeBacklen
  repeat' split
  all_goals simp

lemma or_shiftLeft {val shift} (h : val < 2 ^ shift) (x : Nat) :
    val ||| x <<< shift = val + x * 2 ^ shift := by
  rw [Nat.shiftLeft_eq, mul_comm x, Nat.or_comm, ← Nat.two_pow_add_eq_or_of_lt h, add_comm]

lemma and_127_lt (b : UInt8) : (b &&& 127).toNat < 2 ^ 7 := by
  exact Nat.lt_of_le_of_lt Nat.and_le_right (by decide)

variable {lp : Bytes} {p : Nat} {b : UInt8} {n q : Nat} {a c ps : List Nat}

/-- The bits collected so far stay, and the result has at most seven more for
each byte read, or is the marker of a number too long. -/
lemma decodeBacklenLoop_bound : ∀ {rounds shift val e v : Nat}, val < 2 ^ shift →
    decodeBacklenLoop lp rounds shift val e = .ok v →
    v = uint64Max ∨ (v < 2 ^ (shift + 7 * rounds) ∧ v % 2 ^ shift = val)
  | 0, _, _, _, v, _, h => by
    exact .inl (Except.ok.inj h).symm
  | rounds + 1, shift, val, e, v, hval, h => by
    cases e with
    | zero => cases h
    | succ p =>
      obtain ⟨b, _, h⟩ := bind_eq_ok.mp h
      rw [or_shiftLeft hval] at h
      have hnew : val + (b &&& 127).toNat * 2 ^ shift < 2 ^ (shift + 7) := by
        have hmul : (b &&& 127).toNat * 2 ^ shift ≤ (2 ^ 7 - 1) * 2 ^ shift :=
          Nat.mul_le_mul_right _ (Nat.le_sub_one_of_lt (and_127_lt b))
        rw [Nat.pow_add]
        omega
      have hmod : (val + (b &&& 127).toNat * 2 ^ shift) % 2 ^ shift = val := by
        rw [Nat.add_mul_mod_self_right, Nat.mod_eq_of_lt hval]
      split at h
      · have hv := (Except.ok.inj h).symm
        subst hv
        refine .inr ⟨hnew.trans_le (Nat.pow_le_pow_right (by omega) (by omega)), hmod⟩
      rcases decodeBacklenLoop_bound hnew h with hv | ⟨hlt, hv⟩
      · exact .inl hv
      refine .inr ⟨?_, ?_⟩
      · rw [show shift + 7 * (rounds + 1) = shift + 7 + 7 * rounds by omega]; exact hlt
      · rw [← hmod, ← hv, Nat.mod_mod_of_dvd _ (Nat.pow_dvd_pow 2 (by omega))]

/-- The low bits of a back-length are those of the byte before it. -/
lemma lpDecodeBacklen_bound {v} (h : lpDecodeBacklen lp (p + 1) = .ok v) : ∃ b, load lp p = .ok b ∧
      (v = uint64Max ∨ (v < 2 ^ 35 ∧ v % 128 = (b &&& 127).toNat)) := by
  obtain ⟨b, hb, h⟩ := bind_eq_ok.mp h
  refine ⟨b, hb, ?_⟩
  have h7 := and_127_lt b
  have hz : (0 ||| (b &&& 127).toNat <<< 0) = (b &&& 127).toNat := by simp
  simp only [hz] at h
  split at h
  · have hv := (Except.ok.inj h).symm
    subst hv
    exact .inr ⟨h7.trans (by decide), Nat.mod_eq_of_lt h7⟩
  · exact decodeBacklenLoop_bound h7 h

/-! ## Entries -/

/-- The offset behind an entry at `p` whose encoding has `n` bytes. -/
def nextOf (p n : Nat) : Nat := p + n + backlenSize n

/-- A valid entry: `n` is the true size of its encoding, the entry ends before
the last byte of the buffer, and reading backwards from its end gives `n`. -/
structure EntryAt (lp : Bytes) (p n : Nat) (b : UInt8) : Prop where
  start : lpHdrSize ≤ p
  head : load lp p = .ok b
  not_eof : encodingOf b ≠ .eof
  not_invalid : encodingOf b ≠ .invalid
  size : lpCurrentEncodedSizeUnsafe lp p = .ok n
  whole : encodingOf b = .str32 → ∃ len, loadLe lp (p + 1) 4 = .ok len ∧ n = 5 + len
  inside : nextOf p n < lp.length
  back : lpDecodeBacklen lp (nextOf p n) = .ok n

lemma encodingOf_eq_eof : encodingOf b = .eof ↔ b = lpEOF :=
  forall_byte (P := fun b => encodingOf b = .eof ↔ b = lpEOF) (by decide +kernel) b

lemma encodingOf_eq_str32 : encodingOf b = .str32 ↔ b = 0xF0 :=
  forall_byte (P := fun b => encodingOf b = .str32 ↔ b = 0xF0) (by decide +kernel) b

lemma lpCurrentEncodedSizeBytes_eq_zero :
    lpCurrentEncodedSizeBytes b = 0 ↔ encodingOf b = .invalid := by
  unfold lpCurrentEncodedSizeBytes
  split <;> simp_all

lemma str12_len_lt (b b1 : UInt8) : (b &&& 0xF).toNat <<< 8 ||| b1.toNat < 2 ^ 12 := by
  have h : (b &&& 0xF).toNat < 2 ^ 4 := by
    exact Nat.lt_of_le_of_lt Nat.and_le_right (by decide)
  have h1 : b1.toNat < 2 ^ 8 := b1.toNat_lt
  rw [Nat.or_comm, or_shiftLeft h1]
  omega

lemma and_3F_lt (b : UInt8) : (b &&& 0x3F).toNat < 2 ^ 6 := by
  exact Nat.lt_of_le_of_lt Nat.and_le_right (by decide)

/-- The size of an encoding covers its length bytes, unless the 32-bit length
wraps around. -/
lemma lpCurrentEncodedSizeUnsafe_bound
    (hb : load lp p = .ok b) (h : lpCurrentEncodedSizeUnsafe lp p = .ok n) :
    n < 2 ^ 32 ∧ (encodingOf b ≠ .str32 → lpCurrentEncodedSizeBytes b ≤ n) ∧
      (encodingOf b = .str32 → ∃ len, loadLe lp (p + 1) 4 = .ok len ∧ n = (5 + len) % 2 ^ 32) := by
  rw [lpCurrentEncodedSizeUnsafe, hb, bind_ok] at h
  unfold lpCurrentEncodedSizeBytes
  have h6 := and_3F_lt b
  cases he : encodingOf b <;> rw [he] at h <;> dsimp only at h
  case str12 =>
    obtain ⟨b1, _, h⟩ := bind_eq_ok.mp h
    have := str12_len_lt b b1
    cases h
    exact ⟨by omega, fun _ => by dsimp only; omega, nofun⟩
  case str32 =>
    obtain ⟨len, hl, h⟩ := bind_eq_ok.mp h
    cases h
    exact ⟨Nat.mod_lt _ (by decide), fun hs => absurd rfl hs, fun _ => ⟨len, hl, rfl⟩⟩
  all_goals
    cases h
    exact ⟨by omega, fun _ => by dsimp only; omega, nofun⟩

/-- A length that makes the size wrap around is refused: the byte where the
back-length would be is one of the length bytes, and does not spell the wrapped
size. -/
lemma no_wrap {len v} (hb : load lp p = .ok b)
    (he : encodingOf b = .str32) (hl : loadLe lp (p + 1) 4 = .ok len)
    (hn : n = (5 + len) % 2 ^ 32) (hd : lpDecodeBacklen lp (p + n + 1) = .ok v)
    (hv : v = n) (hmax : v ≠ uint64Max) : n = 5 + len := by
  obtain ⟨hle, hlen⟩ := loadLe_eq_ok hl
  have hlt : len < 2 ^ 32 := by
    have := ofLe_lt ((lp.drop (p + 1)).take 4)
    rw [length_take, length_drop, Nat.min_eq_left (by omega)] at this
    rw [hlen]
    exact this
  by_cases hw : 5 + len < 2 ^ 32
  · rw [hn, Nat.mod_eq_of_lt hw]
  exfalso
  obtain ⟨c, hc, hbits⟩ := lpDecodeBacklen_bound hd
  have hlow : n % 128 = (c &&& 127).toNat := hv ▸ (hbits.resolve_left hmax).2
  have hF0 : b = 0xF0 := encodingOf_eq_str32.mp he
  -- the four length bytes, by the value of the length
  have hbytes : ∀ i < 4, load lp (p + 1 + i) = load (le 4 len) i := by
    intro i hi
    have h4 : ((lp.drop (p + 1)).take 4).length = 4 := by
      rw [length_take, length_drop, Nat.min_eq_left (by omega)]
    have hsame : le 4 len = (lp.drop (p + 1)).take 4 := by
      rw [hlen]
      exact le_ofLe h4
    rw [hsame, load, load, getElem?_take_of_lt hi, getElem?_drop]
  have hcases : n = 0 ∨ n = 1 ∨ n = 2 ∨ n = 3 ∨ n = 4 := by omega
  have hlenEq : len = 2 ^ 32 - 5 + n := by omega
  rcases hcases with rfl | rfl | rfl | rfl | rfl
  · rw [add_zero, hb] at hc
    cases hc
    rw [hF0] at hlow
    revert hlow
    decide
  all_goals
    rw [show ∀ k, p + (k + 1) = p + 1 + k from fun k => by omega] at hc
    rw [hbytes _ (by decide), hlenEq] at hc
    cases hc
    revert hlow
    decide

lemma EntryAt.bytes_le (h : EntryAt lp p n b) :
    0 < lpCurrentEncodedSizeBytes b ∧ lpCurrentEncodedSizeBytes b ≤ n := by
  refine ⟨Nat.pos_of_ne_zero fun hz => h.not_invalid (lpCurrentEncodedSizeBytes_eq_zero.mp hz), ?_⟩
  by_cases hs : encodingOf b = .str32
  · obtain ⟨len, _, hn⟩ := h.whole hs
    unfold lpCurrentEncodedSizeBytes
    rw [hs]
    dsimp only
    omega
  · exact (lpCurrentEncodedSizeUnsafe_bound h.head h.size).2.1 hs

lemma lt_nextOf (p n : Nat) : p < nextOf p n := by
  have := backlenSize_pos n
  unfold nextOf
  omega

lemma EntryAt.ne_eof (h : EntryAt lp p n b) :
    b ≠ lpEOF := fun he => h.not_eof (encodingOf_eq_eof.mpr he)

lemma lpValidateNext_entry (h : EntryAt lp p n b) :
    lpValidateNext lp lp.length (some p) = .ok (some (some (nextOf p n))) := by
  have hstart := h.start
  have hin := h.inside
  have hlt := lt_nextOf p n
  have hbl := backlenSize_le n
  obtain ⟨hpos, hle⟩ := h.bytes_le
  have hn := (lpCurrentEncodedSizeUnsafe_bound h.head h.size).1
  have hback := h.back
  unfold nextOf at hin hlt hback ⊢
  have hr1 : ¬ OutOfRange lp.length p := by unfold OutOfRange; omega
  have hr2 : ¬ OutOfRange lp.length (p + lpCurrentEncodedSizeBytes b) := by
    unfold OutOfRange; omega
  have hr3 : ¬ OutOfRange lp.length (p + (n + backlenSize n)) := by unfold OutOfRange; omega
  rw [add_assoc] at hback
  simp only [lpValidateNext, hr1, if_false, h.head, bind_ok, h.ne_eof, hpos.ne', hr2,
    h.size, hr3, hback, add_assoc]
  rw [if_neg (fun hc => hc (Nat.mod_eq_of_lt (by omega)))]

lemma entry_of_validate (h : lpValidateNext lp lp.length (some p) = .ok (some (some q))) :
    ∃ n b, EntryAt lp p n b ∧ q = nextOf p n := by
  rw [lpValidateNext] at h
  split at h
  · cases h
  rename_i hr
  obtain ⟨b, hb, h⟩ := bind_eq_ok.mp h
  split at h
  · cases h
  rename_i hne
  dsimp only at h
  split at h
  · cases h
  rename_i hbytes
  split at h
  · cases h
  obtain ⟨n, hn, h⟩ := bind_eq_ok.mp h
  split at h
  · cases h
  rename_i hr3
  obtain ⟨v, hv, h⟩ := bind_eq_ok.mp h
  split at h
  · cases h
  rename_i heq
  have hq : q = p + (n + backlenSize n) := (Option.some.inj (Option.some.inj (Except.ok.inj h))).symm
  obtain ⟨hlt, hbound, hstr⟩ := lpCurrentEncodedSizeUnsafe_bound hb hn
  have hbl' := backlenSize_pos n
  obtain ⟨m, hm⟩ : ∃ m, backlenSize n = m + 1 := ⟨backlenSize n - 1, by omega⟩
  have hv' := hv
  rw [hm] at hv'
  obtain ⟨c, hc, hcases⟩ := lpDecodeBacklen_bound hv'
  have hmax : v ≠ uint64Max := by
    rintro rfl
    unfold uint64Max at heq
    omega
  have hvn : v = n := by
    omega
  have hrange : lpHdrSize ≤ p ∧ p + (n + backlenSize n) < lp.length := by
    unfold OutOfRange at hr hr3
    omega
  refine ⟨n, b, ⟨hrange.1, hb, fun he => hne (encodingOf_eq_eof.mp he),
    fun he => hbytes (lpCurrentEncodedSizeBytes_eq_zero.mpr he), hn, fun hs => ?_, ?_, ?_⟩, ?_⟩
  · obtain ⟨len, hl, hnl⟩ := hstr hs
    refine ⟨len, hl, ?_⟩
    by_cases hw : 5 + len < 2 ^ 32
    · rw [hnl, Nat.mod_eq_of_lt hw]
    have hsmall : n ≤ 127 := by
      obtain ⟨hle, hlen⟩ := loadLe_eq_ok hl
      have := ofLe_lt ((lp.drop (p + 1)).take 4)
      rw [length_take, length_drop, Nat.min_eq_left (by omega)] at this
      omega
    have hone : backlenSize n = 1 := by
      rw [backlenSize, lpEncodeBacklen, if_pos hsmall]; rfl
    refine no_wrap hb hs hl hnl ?_ hvn hmax
    rwa [hone] at hv
  · rw [nextOf, add_assoc]; exact hrange.2
  · rw [nextOf, add_assoc, ← hvn]
    rw [hvn] at hv ⊢
    exact hv
  · rw [hq, nextOf, add_assoc]

lemma lpAssertValidEntry_entry (h : EntryAt lp p n b) :
    lpAssertValidEntry lp lp.length p = .ok () := by
  rw [lpAssertValidEntry, lpValidateNext_entry h, bind_ok]
  exact check_pos rfl

lemma lpSkip_entry (h : EntryAt lp p n b) : lpSkip lp p = .ok (nextOf p n) := by
  rw [lpSkip, h.size]; rfl

/-! ## Paths of entries -/

/-- The entries at `ps` lie one behind the other, from `p` to `q`. -/
inductive Path (lp : Bytes) : Nat → List Nat → Nat → Prop where
  | nil (p : Nat) : Path lp p [] p
  | cons {p n q : Nat} {b : UInt8} {ps : List Nat} (entry : EntryAt lp p n b)
      (rest : Path lp (nextOf p n) ps q) : Path lp p (p :: ps) q

lemma Path.append_iff : Path lp p (a ++ c) q ↔ ∃ r, Path lp p a r ∧ Path lp r c q := by
  induction a generalizing p with
  | nil =>
    refine ⟨fun h => ⟨p, .nil p, h⟩, ?_⟩
    rintro ⟨r, hr, h⟩
    cases hr
    exact h
  | cons x a ih =>
    constructor
    · intro h
      cases h with
      | cons entry rest =>
        obtain ⟨r, h1, h2⟩ := ih.mp rest
        exact ⟨r, .cons entry h1, h2⟩
    rintro ⟨r, h1, h2⟩
    cases h1 with
    | cons entry rest => exact .cons entry (ih.mpr ⟨r, rest, h2⟩)

lemma Path.le (h : Path lp p ps q) : p + ps.length ≤ q := by
  induction h with
  | nil p => exact Nat.le_refl p
  | @cons p n q b ps entry rest ih =>
    have := lt_nextOf p n
    rw [length_cons]
    omega

/-- A listpack whose entries are at the offsets `ps`. -/
structure Valid (lp : Bytes) (ps : List Nat) : Prop where
  total : lpGetTotalBytes lp = .ok lp.length
  path : Path lp lpHdrSize ps (lp.length - 1)
  last : load lp (lp.length - 1) = .ok lpEOF
  count : ∃ n, lpGetNumElements lp = .ok n ∧ (n = lpHdrNumeleUnknown ∨ n = ps.length)

lemma Valid.pos (h : Valid lp ps) : 0 < lp.length := Nat.zero_lt_of_lt (load_lt h.last)

/-- What the functions that step onto `q` do there: NULL at the end marker, the
validated entry otherwise. -/
lemma land_path (ht : lpGetTotalBytes lp = .ok lp.length)
    (hl : load lp (lp.length - 1) = .ok lpEOF) (h : Path lp q ps (lp.length - 1)) :
    (do
      let b ← load lp q
      if b = lpEOF then .ok none
      else do
        let bytes ← lpBytes lp
        lpAssertValidEntry lp bytes q
        .ok (some q)) = (Except.ok ps.head? : Outcome (Option Nat)) := by
  cases h with
  | nil => rw [hl]; rfl
  | cons entry rest =>
    rw [entry.head, bind_ok, if_neg entry.ne_eof, lpBytes, ht, bind_ok,
      lpAssertValidEntry_entry entry]
    rfl

lemma lpFirst_eq (h : Valid lp ps) : lpFirst lp = .ok ps.head? := land_path h.total h.last h.path

lemma lpNext_eq (h : Valid lp (a ++ p :: c)) : lpNext lp p = .ok c.head? := by
  obtain ⟨r, _, h2⟩ := Path.append_iff.mp h.path
  cases h2 with
  | cons entry rest =>
    rw [lpNext, lpSkip_entry entry]
    exact land_path h.total h.last rest

lemma lpPrev_path (ht : lpGetTotalBytes lp = .ok lp.length) (h : Path lp lpHdrSize a q) :
    lpPrev lp q = .ok a.getLast? := by
  rcases eq_nil_or_concat a with rfl | ⟨a', o, rfl⟩
  · cases h
    rfl
  rw [concat_eq_append] at h ⊢
  obtain ⟨r, h1, h2⟩ := Path.append_iff.mp h
  cases h2 with
  | @cons _ n _ b _ entry rest =>
    cases rest
    have hstart := entry.start
    have hlt := lt_nextOf o n
    have hbl := backlenSize_le n
    have hn := (lpCurrentEncodedSizeUnsafe_bound entry.head entry.size).1
    have hmod : (n + backlenSize n) % 2 ^ 64 = n + backlenSize n := Nat.mod_eq_of_lt (by omega)
    have hle : n + backlenSize n ≤ nextOf o n := by unfold nextOf; omega
    have hsub : nextOf o n - (n + backlenSize n) = o := by unfold nextOf; omega
    rw [lpPrev, if_neg (by omega), entry.back]
    simp only [bind_ok, hmod, check_pos hle, lpBytes, ht, hsub, lpAssertValidEntry_entry entry]
    rw [getLast?_append, getLast?_singleton, Option.some_or]

lemma lpPrev_eq (h : Valid lp (a ++ p :: c)) : lpPrev lp p = .ok a.getLast? := by
  obtain ⟨r, h1, h2⟩ := Path.append_iff.mp h.path
  cases h2
  exact lpPrev_path h.total h1

lemma lpLast_eq (h : Valid lp ps) : lpLast lp = .ok ps.getLast? := by
  rw [lpLast, h.total]
  exact lpPrev_path h.total h.path

/-! ## Whole walks -/

/-- `for (; p; p = lpNext(lp,p))`. -/
def walkNext (lp : Bytes) : (fuel : Nat) → Option Nat → Outcome (List Nat)
  | _, none => .ok []
  | 0, some _ => .error .loop
  | fuel + 1, some p => do
    let q ← lpNext lp p
    let rest ← walkNext lp fuel q
    .ok (p :: rest)

/-- `for (; p; p = lpPrev(lp,p))`. -/
def walkPrev (lp : Bytes) : (fuel : Nat) → Option Nat → Outcome (List Nat)
  | _, none => .ok []
  | 0, some _ => .error .loop
  | fuel + 1, some p => do
    let q ← lpPrev lp p
    let rest ← walkPrev lp fuel q
    .ok (p :: rest)

def walkForward (lp : Bytes) : Outcome (List Nat) := do
  let p ← lpFirst lp
  walkNext lp lp.length p

def walkBackward (lp : Bytes) : Outcome (List Nat) := do
  let p ← lpLast lp
  walkPrev lp lp.length p

lemma Valid.length_le (h : Valid lp ps) : ps.length ≤ lp.length := by
  have := h.path.le
  omega

lemma walkNext_eq : ∀ {a c : List Nat} {fuel : Nat}, Valid lp (a ++ c) →
    c.length ≤ fuel → walkNext lp fuel c.head? = .ok c
  | _, [], _, _, _ => by simp [walkNext]
  | a, p :: c, 0, _, hf => by simp at hf
  | a, p :: c, fuel + 1, h, hf => by
    have h' : Valid lp ((a ++ [p]) ++ c) := by rwa [append_assoc]
    rw [head?_cons, walkNext, lpNext_eq h, bind_ok, walkNext_eq h' (Nat.le_of_succ_le_succ hf)]
    rfl

lemma lengthLoop_eq : ∀ {a c : List Nat} {fuel count : Nat}, Valid lp (a ++ c) →
    c.length ≤ fuel → lengthLoop lp fuel count c.head? = .ok (count + c.length)
  | _, [], _, _, _, _ => by simp [lengthLoop]
  | a, p :: c, 0, _, _, hf => by simp at hf
  | a, p :: c, fuel + 1, count, h, hf => by
    have h' : Valid lp ((a ++ [p]) ++ c) := by rwa [append_assoc]
    rw [head?_cons, lengthLoop, lpNext_eq h, bind_ok,
      lengthLoop_eq h' (Nat.le_of_succ_le_succ hf), length_cons]
    congr 1
    omega

lemma seekForward_eq : ∀ {n : Nat} {a ps : List Nat}, Valid lp (a ++ ps) →
    seekForward lp n ps.head? = .ok ps[n]?
  | n, _, [], _ => by simp [seekForward]
  | 0, _, p :: ps, _ => by simp [seekForward]
  | n + 1, a, p :: ps, h => by
    have h' : Valid lp ((a ++ [p]) ++ ps) := by rwa [append_assoc]
    rw [head?_cons, seekForward, lpNext_eq h, bind_ok, seekForward_eq h']
    rfl

lemma walkPrev_eq {fuel} (h : Valid lp (a ++ c))
    (hf : a.length ≤ fuel) : walkPrev lp fuel a.getLast? = .ok a.reverse := by
  induction fuel generalizing a c with
  | zero =>
    rw [length_eq_zero_iff.mp (Nat.le_zero.mp hf)]
    rfl
  | succ fuel ih =>
    rcases eq_nil_or_concat a with rfl | ⟨a', p, rfl⟩
    · rfl
    rw [concat_eq_append] at h hf ⊢
    rw [append_assoc] at h
    rw [length_append, length_singleton] at hf
    rw [getLast?_append, getLast?_singleton, Option.some_or, walkPrev,
      lpPrev_eq h, bind_ok, ih h (by omega), reverse_append]
    rfl

lemma seekBackward_eq (h : Valid lp (a ++ c)) :
    seekBackward lp n a.getLast? = .ok a.reverse[n]? := by
  induction n generalizing a c with
  | zero =>
    rcases eq_nil_or_concat a with rfl | ⟨a', p, rfl⟩
    · rfl
    rw [concat_eq_append, getLast?_append, getLast?_singleton, reverse_append]
    rfl
  | succ n ih =>
    rcases eq_nil_or_concat a with rfl | ⟨a', p, rfl⟩
    · rfl
    rw [concat_eq_append] at h ⊢
    rw [append_assoc] at h
    rw [getLast?_append, getLast?_singleton, Option.some_or, seekBackward,
      lpPrev_eq h, bind_ok, ih h, reverse_append]
    rfl

lemma walkForward_eq (h : Valid lp ps) : walkForward lp = .ok ps := by
  rw [walkForward, lpFirst_eq h]
  exact walkNext_eq (a := []) h h.length_le

lemma walkBackward_eq (h : Valid lp ps) : walkBackward lp = .ok ps.reverse := by
  have h' : Valid lp (ps ++ []) := by rwa [append_nil]
  rw [walkBackward, lpLast_eq h]
  exact walkPrev_eq h' h.length_le

lemma seekScan_forward (h : Valid lp ps) {i} (hi : 0 ≤ i) :
    seekScan lp true i = .ok (atIndex ps i) := by
  rw [seekScan, if_pos rfl, lpFirst_eq h, bind_ok, seekForward_eq (a := []) h, atIndex, if_pos hi]

lemma seekScan_backward (h : Valid lp ps) {i} (hi : i < 0) :
    seekScan lp false i = .ok (atIndex ps i) := by
  have h' : Valid lp (ps ++ []) := by rwa [append_nil]
  have hto : -1 - ((-1 - i).toNat : Int) = i := by omega
  rw [seekScan, if_neg (by decide), lpLast_eq h, bind_ok, seekBackward_eq h', reverse_getElem?, hto]

/-- `lpSeek` finds every index from either end, whichever way it scans. -/
lemma lpSeek_eq (h : Valid lp ps) (i : Int) : lpSeek lp i = .ok (atIndex ps i) := by
  obtain ⟨n, hn, hcount⟩ := h.count
  rw [lpSeek, hn, bind_ok]
  by_cases hu : n = lpHdrNumeleUnknown
  · rw [if_neg (fun hc => hc hu)]
    by_cases hi : i < 0
    · rw [show decide (¬ i < 0) = false by simp [hi]]
      exact seekScan_backward h hi
    rw [show decide (¬ i < 0) = true by simp [hi]]
    exact seekScan_forward h (by omega)
  have hlen : n = ps.length := hcount.resolve_left hu
  subst hlen
  rw [if_pos hu]
  generalize hj : (if i < 0 then (ps.length : Int) + i else i) = j
  by_cases h0 : j < 0
  · rw [if_pos h0, atIndex_eq_none (by split at hj <;> omega)]
  have hij : atIndex ps i = atIndex ps j := by
    split at hj
    · rw [← hj, atIndex_add_length (by assumption) (by omega)]
    · rw [hj]
  rw [if_neg h0, hij]
  by_cases h1 : (ps.length : Int) ≤ j
  · rw [if_pos h1, atIndex_eq_none (.inl h1)]
  rw [if_neg h1]
  split
  · rw [seekScan_backward h (by omega), atIndex_add_length (by omega) (by omega)]
    congr 2
    omega
  · exact seekScan_forward h (by omega)

/-! ## Values -/

/-- A string result is a slice behind `lo` that ends at `hi`. -/
def LpValue.Within (lo hi : Nat) : LpValue → Prop
  | .str off len => lo < off ∧ off + len = hi
  | .int _ => True

lemma lpGet_entry (h : EntryAt lp p n b) :
    ∃ v, lpGet lp p = .ok v ∧ LpValue.Within p (p + n) v := by
  have hin := h.inside
  have hsize := h.size
  unfold nextOf at hin
  rw [lpCurrentEncodedSizeUnsafe, h.head, bind_ok] at hsize
  rw [lpGet, h.head, bind_ok]
  cases he : encodingOf b <;> rw [he] at hsize <;> dsimp only at hsize ⊢
  case uint7 => exact ⟨_, rfl, trivial⟩
  case str6 =>
    cases hsize
    exact ⟨_, rfl, by omega, by omega⟩
  case int13 =>
    cases hsize
    rw [load_of_lt (show p + 1 < lp.length by omega)]
    exact ⟨_, rfl, trivial⟩
  case str12 =>
    obtain ⟨b1, hb1, hsize⟩ := bind_eq_ok.mp hsize
    cases hsize
    rw [hb1]
    exact ⟨_, rfl, by omega, by omega⟩
  case str32 =>
    obtain ⟨len, hl, hn⟩ := h.whole he
    rw [hl]
    exact ⟨_, rfl, by omega, by omega⟩
  case eof => exact absurd he h.not_eof
  case invalid => exact absurd he h.not_invalid
  all_goals
    cases hsize
    rw [loadLe_of_le (by omega)]
    exact ⟨_, rfl, trivial⟩

lemma Valid.entry (h : Valid lp ps) (hp : p ∈ ps) : ∃ n b, EntryAt lp p n b := by
  obtain ⟨a, c, rfl⟩ := append_of_mem hp
  obtain ⟨r, _, h2⟩ := Path.append_iff.mp h.path
  cases h2 with
  | cons entry rest => exact ⟨_, _, entry⟩

end Redis.Listpack.Traversal
