import Redis.Listpack.Mutation

/-! # Lengths, ranges and merging

The functions that look at many entries: `lpLength`, which may refresh the
count field, `lpDeleteRange` with its two ways of removing entries, and
`lpMerge`. -/
namespace Redis.Listpack.Ranges
open List Lib Outcome Model Traversal
open Encoding Layout Mutation

lemma lpNew_represents : Represents lpNew [] := by
  refine ⟨0, rfl, Or.inr ⟨rfl, by decide⟩, by decide⟩

variable {lp : Bytes} {xs ys zs : List Bytes}

lemma lpSeek_cases (h : Represents lp xs) (i : Int) :
    (normIndex xs.length i = none ∧ lpSeek lp i = .ok none) ∨
      ∃ ys y zs, xs = ys ++ y :: zs ∧ normIndex xs.length i = some ys.length ∧
        lpSeek lp i = .ok (some (offset ys)) := by
  rw [lpSeek_eq h.valid, atIndex_eq_bind, length_offsets]
  rcases normIndex_cases xs i with hn | ⟨ys, y, zs, hxs, hn⟩
  · exact .inl ⟨hn, by rw [hn, Option.bind_none]⟩
  refine .inr ⟨ys, y, zs, hxs, hn, ?_⟩
  have hlen : (offsets lpHdrSize ys).length = ys.length := length_offsets _ _
  rw [hn, Option.bind_some, hxs, offsets_append, ← hlen, getElem?_append_right le_rfl,
    Nat.sub_self]
  rfl

/-! ## lpLength -/

lemma lpLength_eq (h : Represents lp xs) :
    ∃ lp', lpLength lp = .ok (lp', xs.length) ∧ Represents lp' xs := by
  have hvalid := h.valid
  have hcount : (do
      let p ← lpFirst lp
      lengthLoop lp lp.length 0 p) = .ok xs.length := by
    rw [lpFirst_eq hvalid]
    rw [← length_offsets lpHdrSize xs, ← zero_add (offsets lpHdrSize xs).length]
    exact lengthLoop_eq (a := []) hvalid hvalid.length_le
  obtain ⟨c, rfl, hc, hs⟩ := h
  have hnum : lpGetNumElements (lpOf c xs) = .ok c := lpGetNumElements_header _ hc.le
  unfold lpLength
  rw [hnum, bind_ok]
  rcases hc with hc | ⟨hc, hlt⟩
  · obtain ⟨p, hp, hloop⟩ := bind_eq_ok.mp hcount
    rw [if_neg (fun hne => hne hc), hp, bind_ok, hloop, bind_ok]
    split
    · rename_i hsmall
      refine ⟨lpOf xs.length xs, ?_, _, rfl, Or.inr ⟨rfl, hsmall⟩, hs⟩
      rfl
    · exact ⟨_, rfl, c, rfl, Or.inl hc, hs⟩
  · rw [if_pos (Nat.ne_of_lt hlt)]
    exact ⟨_, by rw [hc], c, rfl, Or.inr ⟨hc, hlt⟩, hs⟩

/-! ## lpDeleteRange -/

lemma load_offset (h : Represents lp (ys ++ zs)) :
    ∃ b, load lp (offset ys) = .ok b ∧ (b = lpEOF ↔ zs = []) := by
  obtain ⟨c, rfl, _, hs⟩ := h
  obtain ⟨z, t, hzt⟩ := tail_eq_cons zs
  refine ⟨z, ?_, tail_eq_eof (fun x hx => small_of_size hs x (mem_append_right _ hx)) hzt⟩
  have hload := load_append (header (lpSize (ys ++ zs)) c ++ body ys) (z :: t) 0
  rw [length_append] at hload
  rw [lpOf_append, hzt]
  exact hload

lemma deleteScan_eq : ∀ (num deleted : Nat) {ys ws : List Bytes},
    Represents lp (ys ++ ws) → ws ≠ [] →
    deleteScan lp (lpSize (ys ++ ws)) num (offset ys) deleted =
      .ok (offset (ys ++ ws.take num), deleted + (ws.take num).length)
  | 0, deleted, ys, ws, _, _ => by
    rw [take_zero, append_nil]
    rfl
  | num + 1, deleted, ys, w :: ws, h, _ => by
    obtain ⟨_, hentry⟩ := entryAt_offset h
    rw [append_cons] at h
    obtain ⟨b, hb, heof⟩ := load_offset h
    rw [deleteScan, lpSkip_entry hentry, nextOf_offset, bind_ok, hb, bind_ok]
    cases ws with
    | nil => rw [if_pos (heof.mpr rfl), take_succ_cons, take_nil]; rfl
    | cons v vs =>
      obtain ⟨_, hnext⟩ := entryAt_offset h
      have hck := lpAssertValidEntry_entry hnext
      rw [h.length] at hck
      have hrec := deleteScan_eq num (deleted + 1) h (cons_ne_nil _ _)
      rw [if_neg (fun he => nomatch heof.mp he), append_cons ys w (v :: vs), hck,
        bind_ok, hrec, take_succ_cons, append_cons ys w (List.take _ _),
        length_cons]
      congr 2
      omega

lemma uncount_eq (size : Nat) {c rs} (rest : Bytes)
    (h : CountOk c (ys ++ (rs ++ zs))) : ∃ v, CountOk v (ys ++ zs) ∧
      uncount (header size c ++ rest) rs.length = .ok (header size v ++ rest) := by
  unfold uncount
  rw [lpGetNumElements_header rest h.le, bind_ok]
  rcases h with h | ⟨h, hlt⟩
  · exact ⟨c, Or.inl h, if_neg fun hc => hc h⟩
  simp only [length_append] at h
  have hne := Nat.ne_of_lt hlt
  unfold lpHdrNumeleUnknown at hlt
  have hsub : (c + 2 ^ 64 - rs.length) % 2 ^ 64 = (ys ++ zs).length := by
    rw [length_append]; omega
  refine ⟨(ys ++ zs).length, Or.inr ⟨rfl, by unfold lpHdrNumeleUnknown; omega⟩, ?_⟩
  rw [if_pos hne, hsub]
  exact lpSetNumElements_header ..

lemma lpSize_remove (ys rs zs : List Bytes) :
    lpSize (ys ++ (rs ++ zs)) = lpSize (ys ++ zs) + (body rs).length := by
  simp only [lpSize, body_append, length_append]
  omega

lemma resize_body (v : Nat) (xs : List Bytes) (g : Bytes) :
    resize (header (lpSize xs) v ++ (body xs ++ [lpEOF] ++ g)) (lpSize xs) = lpOf v xs := by
  exact resize_left (length_lpOf v xs).symm

lemma memmove_tail (c : Nat) (ys rs zs : List Bytes) :
    ∃ g, memmove (lpOf c (ys ++ (rs ++ zs))) (offset ys) (offset (ys ++ rs))
      (lpSize (ys ++ (rs ++ zs)) - 1 - offset (ys ++ rs) + 1) =
        .ok (header (lpSize (ys ++ (rs ++ zs))) c ++ (body (ys ++ zs) ++ [lpEOF] ++ g)) := by
  have hform : lpOf c (ys ++ (rs ++ zs)) = header (lpSize (ys ++ (rs ++ zs))) c ++ body ys ++
      (body rs ++ (body zs ++ [lpEOF])) := by
    rw [lpOf_append, body_append, append_assoc, append_assoc]
  have hpos : (header (lpSize (ys ++ (rs ++ zs))) c ++ body ys).length = offset ys := by
    rw [length_append, length_header, offset]
  have htail : lpSize (ys ++ (rs ++ zs)) - 1 - offset (ys ++ rs) + 1 =
      (body zs ++ [lpEOF]).length := by
    simp only [lpSize, offset, body_append, length_append, length_singleton]
    omega
  obtain ⟨g, y, hg, -, hmove⟩ := @memmove_parts _ _ (body rs) (body zs ++ [lpEOF]) [] _
    (offset (ys ++ rs)) 0 hpos.symm (by rw [offset_append, ← hpos]) htail (Nat.zero_le _)
  obtain rfl : g = [] := length_eq_zero_iff.mp hg
  rw [append_nil, ← hform] at hmove
  refine ⟨y, ?_⟩
  rw [hmove, body_append]
  simp only [append_assoc, nil_append]

lemma lpDeleteRangeWithEntry_eq {ws num}
    (h : Represents lp (ys ++ ws)) (hws : ws ≠ []) (hnum : num ≠ 0) :
    ∃ lp', lpDeleteRangeWithEntry lp (offset ys) num =
        .ok (lp', if ws.drop num = [] then none else some (offset ys)) ∧
      Represents lp' (ys ++ ws.drop num) := by
  have hscan := deleteScan_eq num 0 h hws
  obtain ⟨rs, zs, hrs, hzs, rfl⟩ : ∃ rs zs, rs = ws.take num ∧ zs = ws.drop num ∧ ws = rs ++ zs :=
    ⟨_, _, rfl, rfl, (take_append_drop num ws).symm⟩
  rw [← hrs, zero_add] at hscan
  rw [← hzs]
  have htotal := h.totalBytes
  obtain ⟨c, rfl, hc, hs⟩ := h
  have hsize := lpSize_remove ys rs zs
  have hnew : lpSize (ys ++ (rs ++ zs)) - (offset (ys ++ rs) - offset ys) = lpSize (ys ++ zs) := by
    rw [offset_append]
    omega
  obtain ⟨g, hmove⟩ := memmove_tail c ys rs zs
  obtain ⟨v, hv, hcount⟩ := uncount_eq (lpSize (ys ++ zs))
    (body (ys ++ zs) ++ [lpEOF] ++ g) hc
  have hrep : Represents (lpOf v (ys ++ zs)) (ys ++ zs) := ⟨v, rfl, hv, by omega⟩
  obtain ⟨b, hb, hbz⟩ := load_offset hrep
  refine ⟨_, ?_, hrep⟩
  unfold lpDeleteRangeWithEntry
  rw [lpBytes, htotal, bind_ok, if_neg hnum, hscan, bind_ok]
  dsimp only
  rw [hmove, bind_ok, hnew, lpSetTotalBytes_header, bind_ok, hcount, bind_ok,
    resize_body, hb, bind_ok]
  simp only [hbz]

lemma truncate_eq {c y} (v : Nat) :
    (do
      let lp ← memcpy (lpOf c (ys ++ y :: zs)) (offset ys) [lpEOF]
      let lp ← lpSetTotalBytes lp (offset ys + 1)
      let lp ← lpSetNumElements lp v
      .ok (resize lp (offset ys + 1))) = (.ok (lpOf v ys) : Outcome Bytes) := by
  obtain ⟨z, t, hzt⟩ := tail_eq_cons (y :: zs)
  have hpos : offset ys = (header (lpSize (ys ++ y :: zs)) c ++ body ys).length := by
    rw [length_append, length_header, offset]
  have hcopy : memcpy (lpOf c (ys ++ y :: zs)) (offset ys) [lpEOF] =
      .ok (header (lpSize (ys ++ y :: zs)) c ++ (body ys ++ [lpEOF] ++ t)) := by
    have hparts : memcpy (header (lpSize (ys ++ y :: zs)) c ++ body ys ++ ([z] ++ t)) (offset ys)
        [lpEOF] = .ok (header (lpSize (ys ++ y :: zs)) c ++ body ys ++ ([lpEOF] ++ t)) :=
      memcpy_parts hpos rfl
    rw [lpOf_append, hzt]
    simpa only [append_assoc, singleton_append] using hparts
  rw [hcopy, bind_ok, lpSetTotalBytes_header, bind_ok, lpSetNumElements_header]
  exact congrArg _ (resize_body v ys t)

lemma lpDeleteRange_eq (h : Represents lp xs) (i : Int)
    (num : Nat) : ∃ lp', lpDeleteRange lp i num = .ok lp' ∧ Represents lp' (removeRange xs i num) := by
  have hrep := h
  obtain ⟨c, rfl, hc, hs⟩ := h
  unfold lpDeleteRange removeRange
  rw [show lpGetNumElements (lpOf c xs) = .ok c from lpGetNumElements_header _ hc.le, bind_ok]
  by_cases h0 : num = 0
  · refine ⟨lpOf c xs, if_pos h0, ?_⟩
    cases normIndex xs.length i with
    | none => exact hrep
    | some k => simpa only [h0, add_zero, take_append_drop] using hrep
  rw [if_neg h0]
  rcases lpSeek_cases hrep i with ⟨hn, hseek⟩ | ⟨ys, y, zs, rfl, hn, hseek⟩
  · rw [hseek, hn]
    exact ⟨_, rfl, hrep⟩
  obtain ⟨lp', hdel, hrep'⟩ := lpDeleteRangeWithEntry_eq hrep (cons_ne_nil y zs) h0
  rw [hseek, hn, bind_ok]
  dsimp only
  rw [take_left, drop_length_add_append, hdel]
  rcases hc with hc | ⟨hc, hlt⟩
  · -- an unknown count: the entries are removed one by one
    simp only [hc]
    exact ⟨lp', rfl, hrep'⟩
  have hne := Nat.ne_of_lt hlt
  have hidx : (if c ≠ lpHdrNumeleUnknown ∧ i < 0 then (c : Int) + i else i) = ys.length := by
    rw [← (normIndex_eq_some hn).1, ← hc]
    simp only [ne_eq, hne, not_false_eq_true, true_and]
  rw [hidx]
  split
  · have hdrop : (y :: zs).drop num = [] := by
      refine drop_of_length_le ?_
      rw [length_append] at hc
      omega
    rw [hdrop, append_nil]
    refine ⟨_, truncate_eq ys.length, _, rfl, Or.inr ⟨rfl, ?_⟩, ?_⟩
    · rw [length_append] at hc
      omega
    rw [lpSize_append] at hs
    rw [lpSize]
    simp only [length_append, length_singleton] at hs
    omega
  · exact ⟨lp', rfl, hrep'⟩

/-! ## lpMerge -/

lemma lpSize_merge (xs ys : List Bytes) :
    lpSize xs + lpSize ys - lpHdrSize - 1 = lpSize (xs ++ ys) := by
  simp only [lpSize, body_append, length_append]
  omega

lemma loadSlice_entries (c : Nat) (ys : List Bytes) :
    loadSlice (lpOf c ys) lpHdrSize (lpSize ys - lpHdrSize) = .ok (body ys ++ [lpEOF]) := by
  have hlen : lpSize ys - lpHdrSize = (body ys ++ [lpEOF]).length := by
    rw [lpSize, length_append, length_singleton]
    omega
  have happ := loadSlice_append (header (lpSize ys) c) (body ys ++ [lpEOF]) 0
    (body ys ++ [lpEOF]).length
  rw [length_header, add_zero] at happ
  rw [hlen, lpOf, happ]
  have hfront := loadSlice_front (body ys ++ [lpEOF]) []
  rwa [append_nil] at hfront

lemma mergeInto_eq (c d : Nat) (xs ys : List Bytes) :
    ∃ size v, mergeInto (lpOf c xs) (lpOf d ys) (lpSize xs) (lpSize ys) (lpSize (xs ++ ys)) =
      .ok (header size v ++ (body (xs ++ ys) ++ [lpEOF])) := by
  have hmerge := lpSize_merge xs ys
  have hx : lpSize xs - 1 = (header (lpSize xs) c ++ body xs).length := by
    rw [length_append]; rfl
  have hy : lpHdrSize + (body ys ++ [lpEOF]).length = lpSize ys := by
    rw [length_append, length_singleton, lpSize, add_assoc]
  have hmin : lpHdrSize + 1 ≤ lpSize xs := by unfold lpSize; omega
  have hpos : 0 < (body ys ++ [lpEOF]).length := by simp
  unfold mergeInto
  split
  · -- the end marker of the first and the new bytes make room for the second
    refine ⟨lpSize xs, c, ?_⟩
    rw [loadSlice_entries, bind_ok]
    obtain ⟨g, hg, hgrow⟩ : ∃ g : Bytes, g.length = (body ys ++ [lpEOF]).length ∧
        resize (lpOf c xs) (lpSize (xs ++ ys)) = header (lpSize xs) c ++ body xs ++ (g ++ []) := by
      refine ⟨[lpEOF] ++ List.replicate (lpSize (xs ++ ys) - (lpOf c xs).length) 0, ?_, ?_⟩
      · rw [length_append, length_replicate, length_singleton, length_lpOf]
        omega
      rw [resize_of_ge (by rw [length_lpOf]; omega), lpOf]
      simp only [append_assoc, append_nil]
    rw [hgrow, memcpy_parts hx hg, body_append, append_nil]
    simp only [append_assoc]
  -- the second moves up and the first is copied in front
  refine ⟨lpSize xs, c, ?_⟩
  have hgrow : resize (lpOf d ys) (lpSize (xs ++ ys)) = header (lpSize ys) d ++
      ((body ys ++ [lpEOF]) ++ List.replicate (lpSize (xs ++ ys) - (lpOf d ys).length) 0) := by
    rw [resize_of_ge (by rw [length_lpOf]; omega), lpOf, append_assoc]
  have hhead : loadSlice (lpOf c xs) 0 (lpSize xs - 1) = .ok (header (lpSize xs) c ++ body xs) := by
    rw [hx, lpOf]
    exact loadSlice_front _ _
  obtain ⟨g, y, hg, hy, hmove⟩ := @memmove_parts (lpSize ys - lpHdrSize) [] (header (lpSize ys) d)
    (body ys ++ [lpEOF]) (List.replicate (lpSize (xs ++ ys) - (lpOf d ys).length) 0)
    (lpSize xs - 1) lpHdrSize (lpSize xs - 1) (zero_add _).symm (by rfl)
    (by omega) (by rw [length_header, length_replicate, length_lpOf]; omega)
  rw [length_header, length_replicate, length_lpOf] at hy
  obtain rfl : y = [] := length_eq_zero_iff.mp (by omega)
  rw [append_nil, nil_append] at hmove
  rw [hgrow, hmove, bind_ok, hhead, bind_ok, body_append]
  simpa only [nil_append, append_assoc] using
    @memcpy_parts [] g (body ys ++ [lpEOF]) (header (lpSize xs) c ++ body xs) 0 rfl (hg.trans hx)

lemma mergeBytes_eq {first second} (hx : Represents first xs) (hy : Represents second ys) :
    if lpSize (xs ++ ys) < uint32Max then
      ∃ lp', mergeBytes first second = .ok lp' ∧ Represents lp' (xs ++ ys)
    else mergeBytes first second = .error .assertion := by
  obtain ⟨first', hxl, c, rfl, _⟩ := lpLength_eq hx
  obtain ⟨second', hyl, d, rfl, _⟩ := lpLength_eq hy
  obtain ⟨size, v, hinto⟩ := mergeInto_eq c d xs ys
  have hstart : mergeBytes first second = (do
      check (lpSize (xs ++ ys) < uint32Max)
      let target ← lpSetNumElements (header size v ++ (body (xs ++ ys) ++ [lpEOF]))
        (if xs.length + ys.length < uint16Max then xs.length + ys.length else uint16Max)
      lpSetTotalBytes target (lpSize (xs ++ ys))) := by
    unfold mergeBytes
    rw [lpBytes, hx.totalBytes, bind_ok, hxl, bind_ok]
    dsimp only
    rw [lpBytes, hy.totalBytes, bind_ok, hyl, bind_ok]
    rw [lpSize_merge, hinto]
    rfl
  rw [hstart]
  split
  · rename_i hfit
    rw [check_pos hfit, bind_ok, lpSetNumElements_header, bind_ok]
    refine ⟨_, rfl, _, rfl, ?_, hfit.le⟩
    split
    · rename_i hsmall
      exact .inr ⟨(length_append ..).symm, hsmall⟩
    · exact .inl rfl
  · rename_i hfit
    rw [check, if_neg hfit]
    rfl

end Redis.Listpack.Ranges
