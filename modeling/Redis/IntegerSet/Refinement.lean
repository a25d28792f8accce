import Redis.IntegerSet.Search
import Redis.Lib.Simulation
import Mathlib.Data.Finset.Card

/-! # An intset is a finite set of integers -/
namespace Redis.IntegerSet.Refinement
open List Lib Outcome Model Layout Search

/-! ## Rewriting the array in a wider encoding -/

lemma split_back {bytes : Bytes} {n : Nat} (h : n ≤ bytes.length) :
    ∃ front back, bytes = front ++ back ∧ back.length = n :=
  ⟨_, _, (take_append_drop (bytes.length - n) bytes).symm, by rw [length_drop]; omega⟩

/-- Going from the back, the elements that are still to be read lie in front of everything
that has been written: an element's place in the wider array is not before its place in the
narrower one. -/
lemma upgradeLoop_spec {ow : Encoding} {prepend : Nat} (xs : List Int) :
    ∀ (is : Intset) (gap done : Bytes), ow.width ≤ is.encoding.width →
      is.contents = encodeAll ow.width xs ++ (gap ++ done) →
      xs.length * ow.width + gap.length = (xs.length + prepend) * is.encoding.width →
      (∀ x ∈ xs, InRange ow.width x) →
      ∃ front, front.length = prepend * is.encoding.width ∧ upgradeLoop ow prepend xs.length is =
          .ok { is with contents := front ++ (encodeAll is.encoding.width xs ++ done) } := by
  induction xs using List.reverseRecOn with
  | nil =>
    intro is gap done _ hc hlen _
    refine ⟨gap, by simpa using hlen, ?_⟩
    simp only [encodeAll_nil, nil_append] at hc ⊢
    rw [← hc]
    rfl
  | append_singleton xs x ih =>
    intro is gap done hw hc hlen hr
    have hx : InRange ow.width x := hr x (by simp)
    rw [encodeAll_append, encodeAll_cons, encodeAll_nil, append_nil, append_assoc] at hc
    rw [length_append, length_singleton] at hlen ⊢
    have hget := getEncoded_at hc hx
    -- The cell to write is the end of what lies between the unread and the written part.
    have hmul : xs.length * ow.width ≤ xs.length * is.encoding.width := Nat.mul_le_mul_left _ hw
    obtain ⟨mid, hmid⟩ : ∃ mid, mid = encode ow.width x ++ gap := ⟨_, rfl⟩
    have hmidLen : mid.length = ow.width + gap.length := by rw [hmid]; simp
    have hroom : xs.length * ow.width + mid.length =
        (xs.length + prepend) * is.encoding.width + is.encoding.width := by
      rw [Nat.add_right_comm, Nat.add_one_mul, Nat.add_one_mul] at hlen
      omega
    have hge : is.encoding.width ≤ mid.length := by
      rw [add_mul] at hroom
      omega
    obtain ⟨gap', cell, hparts, hcell⟩ := split_back hge
    have hgap' : xs.length * ow.width + gap'.length = (xs.length + prepend) * is.encoding.width := by
      rw [hparts, length_append] at hroom
      omega
    have hc' : is.contents = (encodeAll ow.width xs ++ gap') ++ (cell ++ done) := by
      rw [hc, ← append_assoc (encode ow.width x), ← hmid, hparts]
      simp only [append_assoc]
    have hset := set_at (v := x) hc' (by rw [length_append, length_encodeAll, hgap']) hcell
    have hrest := ih { is with contents :=
        (encodeAll ow.width xs ++ gap') ++ (encode is.encoding.width x ++ done) }
      gap' (encode is.encoding.width x ++ done) hw (append_assoc ..) hgap'
      (forall_mem_append.mp hr).1
    obtain ⟨front, hfront, hrun⟩ := hrest
    refine ⟨front, hfront, ?_⟩
    rw [upgradeLoop, hget, bind_ok, hset, bind_ok, hrun]
    simp

variable {v : Int} {xs as bs : List Int} {enc : Encoding} {is : Intset}

/-- A value that does not fit the encoding is below or above everything that does. -/
lemma cut_of_wide {w : Nat} (hv : ¬InRange w v) (hr : ∀ x ∈ xs, InRange w x) :
    Cut v xs (if v < 0 then [] else xs) (if v < 0 then xs else []) false := by
  have hwide : ∀ x ∈ xs, if v < 0 then v < x else x < v := by
    intro x hx
    have := hr x hx
    unfold InRange at this hv
    split <;> omega
  split at hwide
  · next hneg =>
    simp only [if_pos hneg]
    exact .absent rfl nofun hwide
  next hneg =>
  simp only [if_neg hneg]
  exact .absent (append_nil _).symm hwide nofun

lemma pairwise_insert (h : Cut v xs as bs false)
    (hs : xs.Pairwise (· < ·)) : (as ++ v :: bs).Pairwise (· < ·) := by
  cases h with
  | absent split below above =>
    rw [split, pairwise_append] at hs
    refine pairwise_append.mpr ⟨hs.1, pairwise_cons.mpr ⟨above, hs.2.1⟩, ?_⟩
    intro a ha b hb
    rcases mem_cons.mp hb with rfl | hb
    · exact below a ha
    · exact hs.2.2 a ha b hb

lemma holds_insert (h : Cut v xs as bs false)
    (hs : xs.Pairwise (· < ·)) (hr : ∀ x ∈ xs, InRange enc.width x) (hv : InRange enc.width v)
    (hlen : xs.length + 1 < 2 ^ 32) :
    Holds ⟨enc, (xs.length + 1) % 2 ^ 32, encodeAll enc.width (as ++ v :: bs)⟩ (as ++ v :: bs) := by
  have hsplit := h.split_absent
  refine ⟨?_, rfl, ?_, pairwise_insert h hs⟩
  · dsimp only
    rw [Nat.mod_eq_of_lt hlen, hsplit, length_append, length_append, length_cons]
    omega
  intro x hx
  rw [hsplit] at hr
  rcases mem_append.mp hx with hx | hx
  · exact hr x (mem_append_left _ hx)
  rcases mem_cons.mp hx with rfl | hx
  · exact hv
  · exact hr x (mem_append_right _ hx)

lemma resize_room {w : Nat} (hc : is.contents = encodeAll w xs) (hw : w ≤ is.encoding.width)
    (hlen : xs.length + 1 < 2 ^ 32) : ∃ room : Bytes,
      xs.length * w + room.length = (xs.length + 1) * is.encoding.width ∧
      intsetResize is ((xs.length + 1) % 2 ^ 32) =
        { is with contents := encodeAll w xs ++ room } := by
  have hmul := Nat.mul_le_mul_left xs.length hw
  refine ⟨List.replicate ((xs.length + 1) * is.encoding.width - (encodeAll w xs).length) 0, ?_, ?_⟩
  · rw [length_replicate, length_encodeAll, Nat.add_one_mul]
    omega
  unfold intsetResize
  rw [hc, Nat.mod_eq_of_lt hlen, resize_of_ge]
  rw [length_encodeAll, Nat.add_one_mul]
  omega

lemma upgradeAndAdd_spec (h : Holds is xs)
    (hv : InRange 8 v) (hwide : ¬InRange is.encoding.width v) (hlen : xs.length + 1 < 2 ^ 32) :
    ∃ is' as bs, intsetUpgradeAndAdd is v = .ok is' ∧ Cut v xs as bs false ∧
      Holds is' (as ++ v :: bs) := by
  have hcut := cut_of_wide hwide h.inRange
  have hnew : InRange (intsetValueEncoding v).width v := (inRange_valueEncoding hv _).mp le_rfl
  have hle : is.encoding.width ≤ (intsetValueEncoding v).width := by
    have hnot := mt (inRange_valueEncoding hv is.encoding).mp hwide
    omega
  generalize henc : intsetValueEncoding v = enc
  rw [henc] at hnew hle
  have hr : ∀ x ∈ xs, InRange enc.width x := fun x hx => (h.inRange x hx).mono hle
  have hmul : xs.length * is.encoding.width ≤ xs.length * enc.width := Nat.mul_le_mul_left _ hle
  obtain ⟨pad, hpadLen, hresize⟩ := @resize_room xs { is with encoding := enc } _ h.contents hle hlen
  refine ⟨_, _, _, ?_, hcut, holds_insert hcut h.increasing hr hnew hlen⟩
  unfold intsetUpgradeAndAdd
  rw [henc]
  dsimp only at hpadLen hresize ⊢
  rw [h.length] at hresize ⊢
  rw [hresize]
  by_cases hneg : v < 0
  · -- The elements move up by one, and the value goes in front of them.
    obtain ⟨front, hfront, hrun⟩ : ∃ front : Bytes, front.length = 1 * enc.width ∧
        upgradeLoop is.encoding 1 xs.length ⟨enc, xs.length, encodeAll is.encoding.width xs ++ pad⟩ =
          .ok ⟨enc, xs.length, front ++ (encodeAll enc.width xs ++ [])⟩ :=
      upgradeLoop_spec xs ⟨enc, xs.length, encodeAll is.encoding.width xs ++ pad⟩ pad [] hle
        (by rw [append_nil]) hpadLen h.inRange
    have hset : intsetSet ⟨enc, xs.length, front ++ (encodeAll enc.width xs ++ [])⟩ (0 : Nat) v =
        .ok ⟨enc, xs.length, [] ++ (encode enc.width v ++ (encodeAll enc.width xs ++ []))⟩ :=
      set_at rfl (by simp) (by rw [hfront, one_mul])
    simp only [if_pos hneg]
    rw [hrun, bind_ok]
    simp only [if_true]
    rw [← Int.natCast_zero, hset]
    simp
  obtain ⟨gap, room, hparts, hroom⟩ := @split_back pad enc.width (by
    rw [Nat.add_one_mul] at hpadLen
    omega)
  have hgap : xs.length * is.encoding.width + gap.length = (xs.length + 0) * enc.width := by
    rw [hparts, length_append, Nat.add_one_mul] at hpadLen
    rw [add_zero]
    omega
  obtain ⟨front, hfront, hrun⟩ : ∃ front : Bytes, front.length = 0 * enc.width ∧
      upgradeLoop is.encoding 0 xs.length ⟨enc, xs.length, encodeAll is.encoding.width xs ++ pad⟩ =
        .ok ⟨enc, xs.length, front ++ (encodeAll enc.width xs ++ room)⟩ :=
    upgradeLoop_spec xs ⟨enc, xs.length, encodeAll is.encoding.width xs ++ pad⟩ gap room hle
      (by rw [hparts]) hgap h.inRange
  obtain rfl : front = [] := length_eq_zero_iff.mp (by rw [hfront, zero_mul])
  have hcells : [] ++ (encodeAll enc.width xs ++ room) =
      encodeAll enc.width xs ++ (room ++ []) := by rw [nil_append, append_nil]
  have hset : intsetSet ⟨enc, xs.length, [] ++ (encodeAll enc.width xs ++ room)⟩ xs.length v =
      .ok ⟨enc, xs.length, encodeAll enc.width xs ++ (encode enc.width v ++ [])⟩ :=
    set_at hcells (length_encodeAll _ _) hroom
  simp only [if_neg hneg]
  rw [hrun, bind_ok]
  rw [if_neg (by decide), hset]
  simp

/-! ## Moving the tail -/

lemma moveTail_bytes {len pos w : Nat} (hpos : pos ≤ len) (hlen : len * 8 < 2 ^ 32)
    (hw : w ≤ 8) : uint32 (len - pos) * w % 2 ^ 32 = (len - pos) * w := by
  have hmul : (len - pos) * w ≤ len * 8 := Nat.mul_le_mul (Nat.sub_le _ _) hw
  have hcast : (len : Int) - pos = (len - pos : Nat) := by omega
  rw [hcast, uint32_natCast (by omega), Nat.mod_eq_of_lt (by omega)]

lemma width_le (enc : Encoding) : enc.width ≤ 8 := by
  cases enc <;> decide

lemma moveTail_up {room : Bytes}
    (hroom : room.length = enc.width) (hlen : (as ++ bs).length * 8 < 2 ^ 32) :
    ∃ cell : Bytes, cell.length = enc.width ∧
      intsetMoveTail ⟨enc, (as ++ bs).length, encodeAll enc.width (as ++ bs) ++ room⟩
        as.length (as.length + 1) =
      .ok ⟨enc, (as ++ bs).length, encodeAll enc.width as ++ (cell ++ encodeAll enc.width bs)⟩ := by
  have hbytes : uint32 ((as ++ bs).length - as.length) * enc.width % 2 ^ 32 =
      bs.length * enc.width := by
    rw [moveTail_bytes (by simp) hlen (width_le enc)]
    simp
  obtain ⟨cell, y, hcell, hy, hmove⟩ := @memmove_parts _ (encodeAll enc.width as) []
    (encodeAll enc.width bs) room ((as.length + 1) * enc.width) (as.length * enc.width) enc.width
    (by rw [length_encodeAll, Nat.add_one_mul]) (length_encodeAll ..).symm
    (length_encodeAll ..).symm (by omega)
  obtain rfl : y = [] := length_eq_zero_iff.mp (by rw [length_nil] at hy; omega)
  rw [nil_append, append_nil] at hmove
  refine ⟨cell, hcell, ?_⟩
  unfold intsetMoveTail
  dsimp only
  rw [hbytes, encodeAll_append, append_assoc, hmove, bind_ok]

lemma moveTail_down {x : Int} (hlen : (as ++ x :: bs).length * 8 < 2 ^ 32) :
    ∃ tail : Bytes, intsetMoveTail
        ⟨enc, (as ++ x :: bs).length, encodeAll enc.width (as ++ x :: bs)⟩ (as.length + 1) as.length =
      .ok ⟨enc, (as ++ x :: bs).length, encodeAll enc.width (as ++ bs) ++ tail⟩ := by
  have htail : (as ++ x :: bs).length - (as.length + 1) = bs.length := by
    rw [length_append, length_cons]
    omega
  have hbytes : uint32 ((as ++ x :: bs).length - (as.length + 1 : Nat)) * enc.width % 2 ^ 32 =
      bs.length * enc.width := by
    rw [moveTail_bytes (by simp) hlen (width_le enc), htail]
  -- The copy goes over the first elements of what follows `as`, and leaves one cell behind.
  obtain ⟨g, tail, hg, -, hmove⟩ := @memmove_parts _ (encodeAll enc.width as) (encode enc.width x)
    (encodeAll enc.width bs) [] (as.length * enc.width) ((as.length + 1) * enc.width) 0
    (length_encodeAll ..).symm (by rw [length_encodeAll, length_encode, Nat.add_one_mul])
    (length_encodeAll ..).symm (Nat.zero_le _)
  obtain rfl : g = [] := length_eq_zero_iff.mp hg
  rw [append_nil, nil_append] at hmove
  refine ⟨tail, ?_⟩
  unfold intsetMoveTail
  dsimp only
  rw [hbytes, encodeAll_append, encodeAll_cons, hmove, bind_ok, encodeAll_append, append_assoc]

/-! ## The operations -/

lemma add_spec (h : Holds is xs) (hv : InRange 8 v) (hlen : xs.length * 8 < 2 ^ 32) :
    (v ∈ xs ∧ intsetAdd is v = .ok (is, false)) ∨
    (∃ is' as bs, intsetAdd is v = .ok (is', true) ∧ Cut v xs as bs false ∧
      Holds is' (as ++ v :: bs)) := by
  unfold intsetAdd
  split
  · next hwide =>
    have hnot : ¬InRange is.encoding.width v :=
      fun hr => Nat.not_le_of_gt hwide ((inRange_valueEncoding hv _).mpr hr)
    obtain ⟨is', as, bs, hadd, hcut, hholds⟩ := upgradeAndAdd_spec h hv hnot (by omega)
    exact .inr ⟨is', as, bs, by rw [hadd]; rfl, hcut, hholds⟩
  next hfits =>
  have hr : InRange is.encoding.width v := (inRange_valueEncoding hv _).mp (Nat.le_of_not_gt hfits)
  obtain ⟨found, as, bs, hsearch, hcut⟩ := search_spec h v (by omega)
  rw [hsearch, bind_ok]
  cases found with
  | true => exact .inl ⟨hcut.mem_iff.mp rfl, rfl⟩
  | false =>
    refine .inr ⟨_, as, bs, ?_, hcut, holds_insert hcut h.increasing h.inRange hr (by omega)⟩
    have hsplit := hcut.split_absent
    obtain ⟨enc, len, contents⟩ := is
    obtain ⟨hl, hc, -, -⟩ := h
    dsimp only at hl hc ⊢
    subst hl hc
    obtain ⟨room, hroom, hresize⟩ := @resize_room xs ⟨enc, xs.length, encodeAll enc.width xs⟩ _ rfl
      le_rfl (by omega)
    have hroomLen : room.length = enc.width := by
      dsimp only at hroom
      rw [Nat.add_one_mul] at hroom
      omega
    -- Either way there is a cell for the value behind the elements below it.
    have hset : ∀ cell : Bytes, cell.length = enc.width → intsetSet
        ⟨enc, xs.length, encodeAll enc.width as ++ (cell ++ encodeAll enc.width bs)⟩ as.length v =
        .ok ⟨enc, xs.length, encodeAll enc.width as ++
          (encode enc.width v ++ encodeAll enc.width bs)⟩ :=
      fun cell hcell => set_at rfl (length_encodeAll _ _) hcell
    simp only [Bool.false_eq_true, if_false]
    rw [hresize]
    dsimp only
    split
    · have hmove : ∃ cell : Bytes, cell.length = enc.width ∧ intsetMoveTail
          ⟨enc, xs.length, encodeAll enc.width xs ++ room⟩ as.length (as.length + 1) =
          .ok ⟨enc, xs.length, encodeAll enc.width as ++ (cell ++ encodeAll enc.width bs)⟩ := by
        rw [hsplit] at hlen ⊢
        exact moveTail_up hroomLen hlen
      obtain ⟨cell, hcell, hmove⟩ := hmove
      rw [hmove, bind_ok, hset cell hcell, bind_ok, encodeAll_append, encodeAll_cons]
    next hend =>
    have hnil : bs = [] := by
      rw [hsplit, length_append] at hend
      exact length_eq_zero_iff.mp (by omega)
    have hcontents : encodeAll enc.width xs ++ room =
        encodeAll enc.width as ++ (room ++ encodeAll enc.width bs) := by
      rw [hsplit, hnil, append_nil, encodeAll_nil, append_nil]
    rw [bind_ok, hcontents, hset room hroomLen, bind_ok, encodeAll_append, encodeAll_cons]

lemma remove_spec (h : Holds is xs) (hv : InRange 8 v) (hlen : xs.length * 8 < 2 ^ 32) :
    (v ∉ xs ∧ intsetRemove is v = .ok (is, false)) ∨
    (∃ is' as bs, intsetRemove is v = .ok (is', true) ∧ Cut v xs as bs true ∧
      Holds is' (as ++ bs)) := by
  unfold intsetRemove
  split
  · obtain ⟨found, as, bs, hsearch, hcut⟩ := search_spec h v (by omega)
    rw [hsearch, bind_ok]
    cases found with
    | false =>
      refine .inl ⟨fun hmem => ?_, rfl⟩
      exact Bool.false_ne_true (hcut.mem_iff.mpr hmem)
    | true =>
      have hsplit := hcut.split_there
      have hsub : (as ++ bs).Sublist xs := by
        rw [hsplit]
        exact List.Sublist.append_left (sublist_cons_self v bs) as
      obtain ⟨enc, len, contents⟩ := is
      obtain ⟨hl, hc, hr, hs⟩ := h
      dsimp only at hl hc hr ⊢
      subst hl hc
      have hcount : xs.length - 1 = (as ++ bs).length := by
        rw [hsplit, length_append, length_append, length_cons]
        omega
      have hholds : Holds ⟨enc, xs.length - 1, encodeAll enc.width (as ++ bs)⟩ (as ++ bs) :=
        ⟨hcount, rfl, fun x hx => hr x (hsub.subset hx), hs.sublist hsub⟩
      refine .inr ⟨_, as, bs, ?_, hcut, hholds⟩
      -- Whatever is behind the remaining elements is cut off.
      have hresize : ∀ tail : Bytes, intsetResize
          ⟨enc, xs.length, encodeAll enc.width (as ++ bs) ++ tail⟩ (xs.length - 1) =
          ⟨enc, xs.length, encodeAll enc.width (as ++ bs)⟩ := by
        intro tail
        unfold intsetResize
        rw [hcount, resize_left (length_encodeAll enc.width (as ++ bs)).symm]
      simp only [if_true]
      split
      · have hmove : ∃ tail : Bytes, intsetMoveTail
            ⟨enc, xs.length, encodeAll enc.width xs⟩ (as.length + 1) as.length =
            .ok ⟨enc, xs.length, encodeAll enc.width (as ++ bs) ++ tail⟩ := by
          rw [hsplit] at hlen ⊢
          exact moveTail_down hlen
        obtain ⟨tail, hmove⟩ := hmove
        rw [hmove, bind_ok, hresize]
      next hend =>
      have hnil : bs = [] := by
        rw [hcount, length_append] at hend
        exact length_eq_zero_iff.mp (by omega)
      have hcontents : encodeAll enc.width xs =
          encodeAll enc.width (as ++ bs) ++ encode enc.width v := by
        rw [hsplit, hnil]
        simp
      rw [bind_ok, hcontents, hresize]
  · next hwide =>
    refine .inl ⟨fun hmem => hwide ?_, rfl⟩
    exact (inRange_valueEncoding hv _).mpr (h.inRange v hmem)

/-! ## Finite sets -/

inductive Op where
  | add (v : Int64)
  | remove (v : Int64)
  deriving DecidableEq

def step : Op → Intset → Outcome (Intset × Bool)
  | .add v, is => intsetAdd is v.toInt
  | .remove v, is => intsetRemove is v.toInt

/-- What the operations mean for a set of integers. -/
def specStep : Op → Finset Int → Finset Int × Bool
  | .add v, s => (insert v.toInt s, decide (v.toInt ∉ s))
  | .remove v, s => (s.erase v.toInt, decide (v.toInt ∈ s))

lemma inRange_toInt (v : Int64) : InRange 8 v.toInt := by
  have hlo := v.le_toInt
  have hhi := v.toInt_lt
  unfold InRange
  omega

lemma step_spec (h : Holds is xs) (hlen : xs.length * 8 < 2 ^ 32)
    (op : Op) : ∃ is' xs', step op is = .ok (is', (specStep op xs.toFinset).2) ∧ Holds is' xs' ∧
      xs'.toFinset = (specStep op xs.toFinset).1 := by
  cases op with
  | add v =>
    rcases add_spec h (inRange_toInt v) hlen with ⟨hmem, hadd⟩ | ⟨is', as, bs, hadd, hcut, hholds⟩
    · refine ⟨is, xs, ?_, h, ?_⟩
      · simp [step, specStep, hadd, hmem]
      · exact (Finset.insert_eq_of_mem (mem_toFinset.mpr hmem)).symm
    have hnew : v.toInt ∉ xs := fun hmem => Bool.false_ne_true (hcut.mem_iff.mpr hmem)
    refine ⟨is', _, ?_, hholds, ?_⟩
    · simp [step, specStep, hadd, hnew]
    ext x
    simp only [specStep, hcut.split_absent, mem_toFinset, Finset.mem_insert, mem_append, mem_cons]
    exact or_left_comm
  | remove v =>
    rcases remove_spec h (inRange_toInt v) hlen with ⟨hmem, hrem⟩ | ⟨is', as, bs, hrem, hcut, hholds⟩
    · refine ⟨is, xs, ?_, h, ?_⟩
      · simp [step, specStep, hrem, hmem]
      · exact (Finset.erase_eq_of_notMem fun hx => hmem (mem_toFinset.mp hx)).symm
    have hmem : v.toInt ∈ xs := hcut.mem_iff.mp rfl
    refine ⟨is', _, ?_, hholds, ?_⟩
    · simp [step, specStep, hrem, hmem]
    cases hcut with
    | there split below above =>
      ext x
      simp only [specStep, split, mem_toFinset, Finset.mem_erase, mem_append, mem_cons]
      constructor
      · rintro (hx | hx)
        · exact ⟨Int.ne_of_lt (below x hx), .inl hx⟩
        · exact ⟨Int.ne_of_gt (above x hx), .inr (.inr hx)⟩
      rintro ⟨hne, hx | hx | hx⟩
      · exact .inl hx
      · exact absurd hx hne
      · exact .inr hx

lemma Holds.nodup (h : Holds is xs) : xs.Nodup := h.increasing.imp Int.ne_of_lt

/-- The array of an intset and its queries, for a set of integers. -/
structure Represents (is : Intset) (xs : List Int) (s : Finset Int) : Prop where
  increasing : xs.Pairwise (· < ·)
  elements : ∀ v, v ∈ xs ↔ v ∈ s
  length : intsetLen is = s.card
  blob : is.contents.length = is.length * is.encoding.width
  get : ∀ i, intsetGet is i = .ok xs[i]?
  wide : ∀ v ∈ s, (intsetValueEncoding v).width ≤ is.encoding.width
  find : ∀ v : Int64, intsetFind is v.toInt = .ok (decide (v.toInt ∈ s))
  search : ∀ v : Int64, intsetSearch is v.toInt =
    .ok (decide (v.toInt ∈ s), (s.filter (· < v.toInt)).card)

lemma Cut.card_below {found : Bool} (h : Cut v xs as bs found)
    (hnd : xs.Nodup) : as.length = (xs.toFinset.filter (· < v)).card := by
  have hbelow : ∀ a ∈ as, a < v := by cases h <;> assumption
  have habove : ∀ b ∈ bs, v < b := by cases h <;> assumption
  have hsub : as.Sublist xs := by
    cases h with
    | there split _ _ | absent split _ _ => exact split ▸ sublist_append_left _ _
  have hmem : ∀ x, x ∈ xs → x < v → x ∈ as := by
    intro x hx hlt
    cases h with
    | there split _ _ =>
      rw [split] at hx
      rcases mem_append.mp hx with hx | hx
      · exact hx
      rcases mem_cons.mp hx with rfl | hx
      · exact absurd hlt (Int.lt_irrefl _)
      · exact absurd (habove x hx) (Int.lt_asymm hlt)
    | absent split _ _ =>
      rw [split] at hx
      rcases mem_append.mp hx with hx | hx
      · exact hx
      · exact absurd (habove x hx) (Int.lt_asymm hlt)
  have hfilter : xs.toFinset.filter (· < v) = as.toFinset := by
    ext x
    simp only [Finset.mem_filter, mem_toFinset]
    exact ⟨fun hx => hmem x hx.1 hx.2, fun hx => ⟨hsub.subset hx, hbelow x hx⟩⟩
  rw [hfilter, toFinset_card_of_nodup (hnd.sublist hsub)]

lemma card_toFinset (h : Holds is xs) : xs.toFinset.card = xs.length :=
  toFinset_card_of_nodup (Holds.nodup h)

lemma represents_of_holds (h : Holds is xs)
    (hlen : xs.length * 8 < 2 ^ 32) : Represents is xs xs.toFinset where
  increasing := h.increasing
  elements _ := mem_toFinset.symm
  length := h.length.trans (card_toFinset h).symm
  blob := by rw [h.contents, length_encodeAll, h.length]
  get i := by
    unfold intsetGet
    rw [h.length]
    split
    · next hi => rw [h.getAt hi, bind_ok, getElem?_eq_getElem hi]
    · next hi => rw [getElem?_eq_none (Nat.le_of_not_lt hi)]
  wide v hv := by
    have hr := h.inRange v (mem_toFinset.mp hv)
    exact (inRange_valueEncoding (hr.mono (width_le _)) _).mpr hr
  find v := by
    unfold intsetFind
    split
    · obtain ⟨found, as, bs, hsearch, hcut⟩ := search_spec h v.toInt (by omega)
      rw [hsearch]
      have hiff := hcut.mem_iff
      rw [← mem_toFinset] at hiff
      exact congrArg Except.ok (Bool.eq_iff_iff.mpr (hiff.trans decide_eq_true_iff.symm))
    next hwide =>
    have hnot : v.toInt ∉ xs.toFinset := fun hmem =>
      hwide ((inRange_valueEncoding (inRange_toInt v) _).mpr (h.inRange _ (mem_toFinset.mp hmem)))
    rw [decide_eq_false hnot]
  search v := by
    obtain ⟨found, as, bs, hsearch, hcut⟩ := search_spec h v.toInt (by omega)
    have hiff := hcut.mem_iff
    rw [← mem_toFinset] at hiff
    have hfound : found = decide (v.toInt ∈ xs.toFinset) :=
      Bool.eq_iff_iff.mpr (hiff.trans decide_eq_true_iff.symm)
    rw [hsearch, hfound, Cut.card_below hcut (Holds.nodup h)]

/-- The sizes of the sets a run goes through, the last one included. -/
def Bounded (ops : List Op) (s : Finset Int) : Prop :=
  ∀ k ≤ ops.length, (Simulation.specRun specStep (ops.take k) s).1.card * 8 < 2 ^ 32

instance (ops : List Op) (s : Finset Int) : Decidable (Bounded ops s) :=
  inferInstanceAs (Decidable (∀ k ≤ ops.length,
    (Simulation.specRun specStep (ops.take k) s).1.card * 8 < 2 ^ 32))

lemma run_spec (ops : List Op) :
    ∀ {is : Intset} {xs : List Int}, Holds is xs → Bounded ops xs.toFinset →
      ∃ is' xs', Simulation.run step ops is =
          .ok (is', (Simulation.specRun specStep ops xs.toFinset).2) ∧
        Holds is' xs' ∧ xs'.toFinset = (Simulation.specRun specStep ops xs.toFinset).1 := by
  induction ops with
  | nil => exact fun h _ => ⟨_, _, rfl, h, rfl⟩
  | cons op ops ih =>
    intro is xs h hb
    have hlen : xs.length * 8 < 2 ^ 32 := card_toFinset h ▸ hb 0 (Nat.zero_le _)
    obtain ⟨is', xs', hstep, hholds, hset⟩ := step_spec h hlen op
    have hb' : Bounded ops xs'.toFinset := by
      intro k hk
      rw [hset]
      exact hb (k + 1) (Nat.succ_le_succ hk)
    obtain ⟨is'', xs'', hrun, hholds', hset'⟩ := ih hholds hb'
    rw [hset] at hrun hset'
    refine ⟨is'', xs'', ?_, hholds', hset'⟩
    simp only [Simulation.run, hstep, bind_ok, hrun, Simulation.specRun]

/-- Every intset that additions and removals build is the set they build, with the same
success flags. -/
theorem intset_refines_finset (ops : List Op) (hb : Bounded ops ∅) :
    ∃ is xs, Simulation.run step ops intsetNew = .ok (is, (Simulation.specRun specStep ops ∅).2) ∧
      Represents is xs (Simulation.specRun specStep ops ∅).1 := by
  obtain ⟨is, xs, hrun, hholds, hset⟩ := run_spec ops holds_new hb
  rw [toFinset_nil] at hrun hset
  have hlast : xs.length * 8 < 2 ^ 32 := by
    have hcard := hb ops.length le_rfl
    rw [take_length] at hcard
    rw [← card_toFinset hholds, hset]
    exact hcard
  refine ⟨is, xs, hrun, ?_⟩
  rw [← hset]
  exact represents_of_holds hholds hlast

/-- Two upgrades, one by a value below and one by a value above all the others. -/
def upgrades : List Op := [.add 5, .add (-70000), .add 5000000000, .add 5, .remove 5]

theorem intset_refines_upgrades :
    ∃ is xs, Simulation.run step upgrades intsetNew = .ok (is, [true, true, true, false, true]) ∧
      Represents is xs {-70000, 5000000000} := by
  have hspec : Simulation.specRun specStep upgrades ∅ =
      ({-70000, 5000000000}, [true, true, true, false, true]) := by decide
  have h := intset_refines_finset upgrades (by decide)
  rwa [hspec] at h

end Redis.IntegerSet.Refinement
