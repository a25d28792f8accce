import Redis.Listpack.Layout

/-! # Changing a listpack

Every modification cuts the buffer at entry boundaries and puts the parts
together again, so on the level of lists it is an insertion, a removal, an
exchange or a concatenation. -/
namespace Redis.Listpack.Mutation
open List Lib Outcome Util.Numbers Model Traversal
open Encoding Layout

/-! ## Gaps -/

lemma makeRoom_eq {a r t len new} (hnew : new = a.length + len + t.length) :
    ∃ g : Bytes, g.length = len ∧
      makeRoom (a ++ (r ++ t)) (a ++ (r ++ t)).length new a.length len r.length =
        .ok (a ++ (g ++ t)) := by
  have hold : (a ++ (r ++ t)).length = a.length + r.length + t.length := by
    rw [length_append, length_append, add_assoc]
  unfold makeRoom
  generalize (a ++ (r ++ t)).length = old at hold
  obtain ⟨z, hz, hgrow⟩ : ∃ z : Bytes, z.length = new - old ∧
      (if old < new then resize (a ++ (r ++ t)) new else a ++ (r ++ t)) =
        a ++ (r ++ (t ++ z)) := by
    split
    · refine ⟨List.replicate (new - old) 0, length_replicate, ?_⟩
      rw [resize_of_ge (by simp only [length_append]; omega)]
      simp only [length_append, append_assoc, ← add_assoc, hold]
    · exact ⟨[], by rw [length_nil]; omega, by rw [append_nil]⟩
  obtain ⟨g, y, hg, hy, hmove⟩ := @memmove_parts (old - a.length - r.length) a r t z
    (a.length + len) (a.length + r.length) len rfl rfl (by omega) (by omega)
  refine ⟨g, hg, ?_⟩
  dsimp only
  rw [hgrow, hmove, bind_ok]
  split
  · rw [← append_assoc, ← append_assoc, resize_left (by simp only [length_append]; omega),
      append_assoc]
  · rw [length_eq_zero_iff.mp (by omega : y.length = 0), append_nil]

/-! ## lpInsert -/

/-- The count field after an insertion or deletion. -/
def newCount (c : Nat) (delete : Bool) (wh : Where) : Nat :=
  if wh ≠ .replace ∨ delete then
    if c ≠ lpHdrNumeleUnknown then if delete then (c + 2 ^ 32 - 1) % 2 ^ 32 else c + 1 else c
  else c

variable {c : Nat} {x : Bytes} {ele : Payload} {zs : List Bytes} {lp : Bytes} {ys : List Bytes}

lemma updateCount_header {size} (rest : Bytes) (hc : c ≤ lpHdrNumeleUnknown)
    (delete : Bool) (wh : Where) : updateCount (header size c ++ rest) delete wh =
      .ok (header size (newCount c delete wh) ++ rest) := by
  unfold updateCount newCount
  split
  · rw [lpGetNumElements_header rest hc, bind_ok]
    split
    · split <;> exact lpSetNumElements_header ..
    · rfl
  · rfl

/-- The bytes stored for an element: its encoding and back-length, or nothing
for a deletion. -/
def stored (ele : Payload) : Bytes :=
  if ele.isDelete then [] else ele.encoded.1 ++ lpEncodeBacklen ele.encoded.2

lemma lpInsertAt_parts (size c : Nat) (a r t : Bytes) (ele : Payload) (wh : Where) (z : UInt8)
    (hsize : size = lpHdrSize + a.length + r.length + (z :: t).length) (hmax : size ≤ uint32Max)
    (hc : c ≤ lpHdrNumeleUnknown) (henc : ele.encoded.2 = ele.encoded.1.length)
    (hdel : ele.isDelete = true → ele.encoded.1 = [])
    (hrep : replacedLen (header size c ++ (a ++ (r ++ z :: t))) (lpHdrSize + a.length) wh =
      .ok r.length) :
    lpInsertAt (header size c ++ (a ++ (r ++ z :: t))) ele (lpHdrSize + a.length) wh =
      if uint32Max < size + (stored ele).length - r.length then .ok none
      else .ok (some (header (size + (stored ele).length - r.length)
          (newCount c ele.isDelete wh) ++ (a ++ (stored ele ++ z :: t)),
        if ele.isDelete ∧ z = lpEOF then none else some (lpHdrSize + a.length))) := by
  obtain ⟨back, hback⟩ : ∃ back, back =
    if ele.isDelete then [] else lpEncodeBacklen ele.encoded.2 := ⟨_, rfl⟩
  have hstored : stored ele = ele.encoded.1 ++ back := by
    rw [stored, hback]
    split
    · rename_i hd
      rw [hdel hd]; rfl
    · rfl
  obtain ⟨p, hp⟩ : ∃ p, p = header size c ++ a := ⟨_, rfl⟩
  have hpos : p.length = lpHdrSize + a.length := by rw [hp, length_append, length_header]
  have hassoc : ∀ y : Bytes, header size c ++ (a ++ y) = p ++ y := fun y => by rw [hp, append_assoc]
  have htotal : (p ++ (r ++ z :: t)).length = size := by
    rw [length_append, length_append]; omega
  unfold lpInsertAt
  dsimp only
  rw [lpGetTotalBytes_header _ hmax, bind_ok, hrep, bind_ok, ← hback]
  generalize ele.encoded = e at henc hdel hback hstored ⊢
  obtain ⟨enc, len⟩ := e
  dsimp only at *
  subst henc
  have hlen : (stored ele).length = enc.length + back.length := by rw [hstored, length_append]
  have hnew : size + enc.length + back.length - r.length =
      size + (stored ele).length - r.length := by omega
  rw [hnew]
  split
  · rfl
  obtain ⟨g, hg, hroom⟩ : ∃ g : Bytes, g.length = enc.length + back.length ∧
      makeRoom (p ++ (r ++ z :: t)) (p ++ (r ++ z :: t)).length
        (size + (stored ele).length - r.length) p.length (enc.length + back.length) r.length =
        .ok (p ++ (g ++ z :: t)) :=
    makeRoom_eq (by omega)
  rw [htotal, hpos] at hroom
  rw [hassoc, hroom, bind_ok]
  -- the byte at the gap decides `*newp` only when nothing is stored in it
  obtain ⟨b, hb, hbz⟩ : ∃ b, load (p ++ (g ++ z :: t)) (lpHdrSize + a.length) = .ok b ∧
      (ele.isDelete = true → b = z) := by
    have hload := load_append p (g ++ z :: t) 0
    rw [hpos] at hload
    cases g with
    | nil => exact ⟨z, hload, fun _ => rfl⟩
    | cons y g =>
      refine ⟨y, hload, fun hd => ?_⟩
      rw [hdel hd, hback, if_pos hd] at hg
      cases hg
  have hcopy1 : memcpy (p ++ (g ++ z :: t)) (lpHdrSize + a.length) enc =
      .ok (p ++ (enc ++ (g.drop enc.length ++ z :: t))) := by
    have h1 : (g.take enc.length).length = enc.length := by
      rw [length_take]; omega
    have h2 := memcpy_parts (c := g.drop enc.length ++ z :: t) hpos.symm h1
    rwa [← append_assoc (g.take enc.length), take_append_drop] at h2
  have hcopy2 : memcpy (p ++ (enc ++ (g.drop enc.length ++ z :: t)))
      (lpHdrSize + a.length + enc.length) back = .ok (header size c ++ (a ++ (stored ele ++ z :: t))) := by
    have h1 : (g.drop enc.length).length = back.length := by
      rw [length_drop]; omega
    have h2 : lpHdrSize + a.length + enc.length = (p ++ enc).length := by rw [length_append, hpos]
    have h3 := memcpy_parts (c := z :: t) h2 h1
    simpa only [hassoc, hstored, append_assoc] using h3
  rw [hb, bind_ok, hcopy1, bind_ok, hcopy2, bind_ok,
    updateCount_header _ hc, bind_ok, lpSetTotalBytes_header, bind_ok]
  have hnewp : (ele.isDelete = true ∧ b = lpEOF) ↔ (ele.isDelete = true ∧ z = lpEOF) := by
    refine and_congr_right fun hd => ?_
    rw [hbz hd]
  simp only [hnewp]

/-! ## On lists -/

/-- The payload stores the byte string `x`. -/
structure StoresElement (ele : Payload) (x : Bytes) : Prop where
  not_delete : ele.isDelete = false
  encoded : ele.encoded = (encode x, (encode x).length)

lemma storesElement_str (x : Bytes) : StoresElement (.str x) x := ⟨rfl, encoded_str x⟩

lemma storesElement_int {v} (hmin : llongMin ≤ v) (hmax : v ≤ llongMax) :
    StoresElement (.int (lpEncodeIntegerGetType v)) (signedDecimal v) :=
  ⟨rfl, by rw [encode_signedDecimal hmin hmax]; rfl⟩

lemma StoresElement.stored (h : StoresElement ele x) : stored ele = entry x := by
  rw [Mutation.stored, h.not_delete, h.encoded]; rfl

lemma offset_append (ys zs : List Bytes) : offset (ys ++ zs) = offset ys + (body zs).length := by
  rw [offset, offset, body_append, length_append, add_assoc]

lemma lpOf_append (c : Nat) (ys zs : List Bytes) :
    lpOf c (ys ++ zs) = header (lpSize (ys ++ zs)) c ++ (body ys ++ (body zs ++ [lpEOF])) := by
  rw [lpOf, body_append, append_assoc]

lemma lpSize_append (ys zs : List Bytes) :
    lpSize (ys ++ zs) = lpHdrSize + (body ys).length + (body zs ++ [lpEOF]).length := by
  rw [lpSize, body_append, length_append, length_append, length_singleton]
  omega

lemma lpSize_insert (ys zs : List Bytes) (x : Bytes) :
    lpSize (ys ++ x :: zs) = lpSize (ys ++ zs) + (entry x).length := by
  simp only [lpSize, body_append, body_cons, length_append]
  omega

lemma tail_eq_cons (zs : List Bytes) : ∃ z t, body zs ++ [lpEOF] = z :: t := by
  cases h : body zs ++ [lpEOF] with
  | nil => simp at h
  | cons z t => exact ⟨z, t, rfl⟩

lemma tail_eq_eof (hs : ∀ x ∈ zs, 5 + x.length < 2 ^ 32) {z t}
    (h : body zs ++ [lpEOF] = z :: t) : z = lpEOF ↔ zs = [] := by
  cases zs with
  | nil =>
    cases h
    exact ⟨fun _ => rfl, fun _ => rfl⟩
  | cons w zs =>
    obtain ⟨b, u, henc, heof, _⟩ := (encodes (hs w mem_cons_self)).kind
    rw [body_cons, entry, henc] at h
    cases h
    exact ⟨fun hb => absurd (encodingOf_eq_eof.mpr hb) heof, fun hw => by cases hw⟩

lemma entryAt_offset (h : Represents lp (ys ++ x :: zs)) :
    ∃ b, EntryAt lp (offset ys) (encode x).length b := by
  obtain ⟨c, rfl, _, hs⟩ := h
  have hpos : (header (lpSize (ys ++ x :: zs)) c ++ body ys).length = offset ys := by
    rw [length_append, length_header, offset]
  have hsmall := small_of_size hs x (by simp)
  rw [lpOf_append, body_cons, append_assoc, ← append_assoc (header _ _), ← hpos]
  exact entryAt_append (by rw [hpos, offset]; omega) (by simp) hsmall

lemma nextOf_offset (ys : List Bytes) (x : Bytes) :
    nextOf (offset ys) (encode x).length = offset (ys ++ [x]) := by
  rw [nextOf, offset_append, body_cons, body_nil, append_nil, length_entry, add_assoc]

lemma countOk_insert (h : CountOk c (ys ++ zs)) :
    CountOk (newCount c false .before) (ys ++ x :: zs) := by
  have hn : newCount c false .before = if c ≠ lpHdrNumeleUnknown then c + 1 else c := by
    rfl
  rw [hn]
  rcases h with h | ⟨h, hlt⟩
  · rw [if_neg (fun hc => hc h)]; exact .inl h
  rw [if_pos (Nat.ne_of_lt hlt)]
  have hlen : (ys ++ x :: zs).length = c + 1 := by
    rw [h]; simp only [length_append, length_cons]; omega
  rcases Nat.lt_or_ge (c + 1) lpHdrNumeleUnknown with hc | hc
  · exact .inr ⟨hlen.symm, hc⟩
  · exact .inl (by omega)

variable {y : Bytes}

lemma countOk_replace (h : CountOk c (ys ++ y :: zs)) :
    CountOk (newCount c false .replace) (ys ++ x :: zs) := by
  have hn : newCount c false .replace = c := by
    rw [newCount, if_neg (by decide)]
  rw [hn]
  rcases h with h | ⟨h, hlt⟩
  · exact .inl h
  refine .inr ⟨?_, hlt⟩
  rw [h]; simp only [length_append, length_cons]

lemma countOk_delete (h : CountOk c (ys ++ y :: zs)) :
    CountOk (newCount c true .replace) (ys ++ zs) := by
  have hn : newCount c true .replace =
      if c ≠ lpHdrNumeleUnknown then (c + 2 ^ 32 - 1) % 2 ^ 32 else c := by
    simp only [newCount, or_true, if_true]
  rw [hn]
  rcases h with h | ⟨h, hlt⟩
  · rw [if_neg (fun hc => hc h)]; exact .inl h
  rw [if_pos (Nat.ne_of_lt hlt)]
  simp only [length_append, length_cons] at h
  unfold lpHdrNumeleUnknown at hlt
  refine .inr ⟨?_, ?_⟩
  · rw [length_append]; omega
  · unfold lpHdrNumeleUnknown; omega

/-- What an insertion returns: NULL when the listpack would pass 2^32 - 1
bytes, otherwise a listpack of the new list and the offset of the element. -/
def InsertResult (r : Outcome (Option (Bytes × Option Nat))) (xs : List Bytes) (p : Nat) : Prop :=
  if uint32Max < lpSize xs then r = .ok none
  else ∃ lp', r = .ok (some (lp', some p)) ∧ Represents lp' xs

/-- The entries of `old` make room for those of `new`. -/
lemma lpInsertAt_splice (ys old new zs : List Bytes) {wh} (hc : c ≤ lpHdrNumeleUnknown)
    (hs : lpSize (ys ++ (old ++ zs)) ≤ uint32Max) (hnew : stored ele = body new)
    (henc : ele.encoded.2 = ele.encoded.1.length) (hdel : ele.isDelete = true → ele.encoded.1 = [])
    (hrep : replacedLen (lpOf c (ys ++ (old ++ zs))) (offset ys) wh = .ok (body old).length) :
    lpInsertAt (lpOf c (ys ++ (old ++ zs))) ele (offset ys) wh =
      if uint32Max < lpSize (ys ++ (new ++ zs)) then .ok none
      else .ok (some (lpOf (newCount c ele.isDelete wh) (ys ++ (new ++ zs)),
        if ele.isDelete ∧ zs = [] then none else some (offset ys))) := by
  obtain ⟨z, t, hzt⟩ := tail_eq_cons zs
  have hform : ∀ c mid, lpOf c (ys ++ (mid ++ zs)) =
      header (lpSize (ys ++ (mid ++ zs))) c ++ (body ys ++ (body mid ++ z :: t)) := fun c mid => by
    rw [lpOf_append, body_append, append_assoc, hzt]
  have hsize : ∀ mid, lpSize (ys ++ (mid ++ zs)) =
      lpHdrSize + (body ys).length + (body mid).length + (z :: t).length := fun mid => by
    rw [lpSize_append, body_append, append_assoc, hzt, length_append]
    omega
  have hz := tail_eq_eof (fun x hx => small_of_size hs x (by simp [hx])) hzt
  rw [hform] at hrep
  have hparts := lpInsertAt_parts _ c _ _ t ele wh z (hsize old) hs hc henc hdel hrep
  have hgrown : lpSize (ys ++ (old ++ zs)) + (body new).length - (body old).length =
      lpSize (ys ++ (new ++ zs)) := by
    rw [hsize, hsize]
    omega
  rw [hnew, hgrown, ← hform, ← hform] at hparts
  simp only [hz] at hparts
  exact hparts

lemma insertResult_splice (old : List Bytes) {wh} (hx : StoresElement ele x)
    (hc : c ≤ lpHdrNumeleUnknown) (hs : lpSize (ys ++ (old ++ zs)) ≤ uint32Max)
    (hcount : CountOk (newCount c false wh) (ys ++ x :: zs))
    (hrep : replacedLen (lpOf c (ys ++ (old ++ zs))) (offset ys) wh = .ok (body old).length) :
    InsertResult (lpInsertAt (lpOf c (ys ++ (old ++ zs))) ele (offset ys) wh) (ys ++ x :: zs)
      (offset ys) := by
  have hnew : stored ele = body [x] := by rw [hx.stored, body_cons, body_nil, append_nil]
  rw [lpInsertAt_splice ys old [x] zs hc hs hnew (by rw [hx.encoded])
    (fun hd => by rw [hx.not_delete] at hd; cases hd) hrep, hx.not_delete]
  unfold InsertResult
  split
  · rename_i hbig
    exact if_pos hbig
  rename_i hfit
  refine ⟨_, (if_neg hfit).trans ?_, _, rfl, hcount, Nat.le_of_not_lt hfit⟩
  simp only [Bool.false_eq_true, false_and, if_false, singleton_append]

lemma lpInsert_before (ys : List Bytes) (h : Represents lp (ys ++ zs)) (hx : StoresElement ele x) :
    InsertResult (lpInsert lp ele (offset ys) .before) (ys ++ x :: zs) (offset ys) := by
  obtain ⟨c, rfl, hc, hs⟩ := h
  rw [lpInsert, hx.not_delete]
  exact insertResult_splice [] hx hc.le hs (countOk_insert hc) rfl

section
variable (h : Represents lp (ys ++ y :: zs))
include h

lemma lpInsert_after (hx : StoresElement ele x) :
    InsertResult (lpInsert lp ele (offset ys) .after) (ys ++ y :: x :: zs)
      (offset (ys ++ [y])) := by
  obtain ⟨b, hentry⟩ := entryAt_offset h
  have hin := hentry.inside
  rw [nextOf_offset, h.length] at hin
  have hck : lpHdrSize ≤ offset (ys ++ [y]) ∧ offset (ys ++ [y]) < lpSize (ys ++ y :: zs) :=
    ⟨Nat.le_add_right .., hin⟩
  have hplace : lpInsert lp ele (offset ys) .after = lpInsert lp ele (offset (ys ++ [y])) .before := by
    simp only [lpInsert, hx.not_delete, Bool.false_eq_true, if_false, insertPlace,
      lpSkip_entry hentry, nextOf_offset, bind_ok, h.totalBytes, check_pos hck]
  rw [append_cons] at h
  have hbefore := lpInsert_before _ h hx
  rw [← append_cons] at hbefore
  rw [hplace]
  exact hbefore

lemma replacedLen_eq :
    replacedLen lp (offset ys) .replace = .ok (body [y]).length := by
  obtain ⟨b, hentry⟩ := entryAt_offset h
  have hin := hentry.inside
  rw [nextOf, h.length] at hin
  have hmax := h.size_le
  unfold uint32Max at hmax
  have hmod : ((encode y).length + backlenSize (encode y).length) % 2 ^ 32 = (body [y]).length := by
    rw [body_cons, body_nil, append_nil, length_entry]
    exact Nat.mod_eq_of_lt (by omega)
  have hck : lpHdrSize ≤ offset ys ∧ offset ys + (body [y]).length < lpSize (ys ++ y :: zs) := by
    exact ⟨by rw [offset]; omega, by omega⟩
  simp only [replacedLen, hentry.size, bind_ok, hmod, h.totalBytes, check_pos hck]

lemma lpReplace_eq (hx : StoresElement ele x) :
    InsertResult (lpReplace lp (offset ys) ele) (ys ++ x :: zs) (offset ys) := by
  have hrep := replacedLen_eq h
  obtain ⟨c, rfl, hc, hs⟩ := h
  rw [lpReplace, lpInsert, hx.not_delete]
  exact insertResult_splice [y] hx hc.le hs (countOk_replace hc) hrep

lemma lpDelete_eq :
    ∃ lp', lpDelete lp (offset ys) = .ok (some (lp', if zs = [] then none else some (offset ys))) ∧
      Represents lp' (ys ++ zs) := by
  have hrep := replacedLen_eq h
  obtain ⟨c, rfl, hc, hs⟩ := h
  have hfit : lpSize (ys ++ zs) ≤ uint32Max := by rw [lpSize_insert] at hs; omega
  refine ⟨lpOf (newCount c true .replace) (ys ++ zs), ?_, _, rfl, countOk_delete hc, hfit⟩
  have hrun := @lpInsertAt_splice c .delete ys [y] [] zs .replace hc.le hs rfl rfl (fun _ => rfl) hrep
  rw [nil_append, if_neg (Nat.not_lt.mpr hfit)] at hrun
  show lpInsertAt (lpOf c (ys ++ y :: zs)) .delete (offset ys) .replace = _
  simpa [Payload.isDelete] using hrun

end

/-! ## Both ends -/

lemma lpAppend_eq {xs} (h : Represents lp xs)
    (hx : StoresElement ele x) : InsertResult (lpAppend lp ele) (xs ++ [x]) (offset xs) := by
  rw [lpAppend, h.totalBytes, bind_ok]
  rw [← append_nil xs] at h
  exact lpInsert_before _ h hx

lemma lpPrepend_eq {xs} (h : Represents lp xs) (hx : StoresElement ele x) :
    InsertResult (lpPrepend lp ele) (x :: xs) (offset []) := by
  rw [lpPrepend, lpFirst_eq h.valid]
  cases xs with
  | nil => exact lpAppend_eq h hx
  | cons y ys => exact lpInsert_before [] h hx

end Redis.Listpack.Mutation
