import Redis.Replication.Buffer

/-! # What the blocks hold

Without reference counts the list of blocks is a list of pieces: the last bytes of the stream,
cut into consecutive parts. A position is a piece and an index, and stands for the bytes from
there to the end. -/
namespace Redis.Replication.Pieces
open List Lib Buffer

/-- A block without its reference count. -/
structure Piece where
  id : Nat
  offset : Nat
  data : Redis.Lib.Buffer

def piece (b : ReplBufBlock) : Piece := ⟨b.id, b.replOffset, b.data⟩

def pieces (blocks : List ReplBufBlock) : List Piece := blocks.map piece

def contents (ps : List Piece) : Bytes := ps.flatMap fun p => p.data.bytes

/-- The pieces follow each other from `off` on, none is empty, and all but the
last are full. -/
def Chain : Nat → List Piece → Prop
  | _, [] => True
  | off, p :: rest => p.offset = off ∧ 0 < p.data.used ∧
      (rest ≠ [] → p.data.used = p.data.size) ∧ Chain (off + p.data.used) rest

@[simp] lemma contents_nil : contents [] = [] := rfl

@[simp] lemma contents_cons (p : Piece) (ps : List Piece) :
    contents (p :: ps) = p.data.bytes ++ contents ps := flatMap_cons

@[simp] lemma contents_append (ps qs : List Piece) :
    contents (ps ++ qs) = contents ps ++ contents qs := flatMap_append

@[simp] lemma pieces_nil : pieces [] = [] := rfl

@[simp] lemma pieces_cons (b : ReplBufBlock) (blocks : List ReplBufBlock) :
    pieces (b :: blocks) = piece b :: pieces blocks := rfl

@[simp] lemma pieces_append (xs ys : List ReplBufBlock) :
    pieces (xs ++ ys) = pieces xs ++ pieces ys := map_append

@[simp] lemma pieces_setRefcount (id : Nat) (f : Nat → Nat) (blocks : List ReplBufBlock) :
    pieces (setRefcount id f blocks) = pieces blocks := by
  rw [pieces, setRefcount, map_map]
  refine map_congr_left fun b _ => ?_
  simp only [Function.comp_apply]
  split <;> rfl

variable {ps : List Piece} {p : Piece} {before rest : List Piece} {id : Nat}

lemma Chain.tail {off} (h : Chain off (p :: ps)) : Chain (off + p.data.used) ps := h.2.2.2

lemma Chain.full : ∀ {off : Nat}, Chain off ps → ∀ p ∈ ps.dropLast, p.data.used = p.data.size := by
  induction ps with
  | nil => exact nofun
  | cons q rest ih =>
    intro off h p hp
    cases rest with
    | nil => exact (nomatch hp)
    | cons x rest =>
      rcases mem_cons.mp hp with rfl | hp
      · exact h.2.2.1 (cons_ne_nil _ _)
      · exact ih h.tail p hp

lemma Chain.offset_of_split :
    ∀ {off : Nat} {p : Piece} {after : List Piece}, Chain off (before ++ p :: after) →
      p.offset = off + (contents before).length ∧ Chain p.offset (p :: after) := by
  induction before with
  | nil =>
    intro off p after h
    exact ⟨h.1, h.1 ▸ h⟩
  | cons q before ih =>
    intro off p after h
    obtain ⟨hp, hc⟩ := ih h.tail
    refine ⟨?_, hc⟩
    rw [hp, contents_cons, length_append, Redis.Lib.Buffer.used]
    omega

lemma Chain.extendLast {p p' : Piece} {x : Bytes}
    (hoffset : p'.offset = p.offset) (hdata : p'.data.bytes = p.data.bytes ++ x) :
    ∀ {off : Nat}, Chain off (before ++ [p]) → Chain off (before ++ [p']) := by
  induction before with
  | nil =>
    intro off h
    refine ⟨hoffset.trans h.1, ?_, fun hne => absurd rfl hne, trivial⟩
    have hpos := h.2.1
    rw [Redis.Lib.Buffer.used] at hpos ⊢
    rw [hdata, length_append]
    omega
  | cons y before ih =>
    intro off h
    exact ⟨h.1, h.2.1, fun _ => h.2.2.1 (by simp), ih h.tail⟩

lemma Chain.snoc (hpos : 0 < p.data.used) :
    ∀ {off : Nat}, Chain off before → (∀ q ∈ before.getLast?, q.data.used = q.data.size) →
      p.offset = off + (contents before).length → Chain off (before ++ [p]) := by
  induction before with
  | nil =>
    intro off _ _ hoff
    exact ⟨hoff, hpos, fun hne => absurd rfl hne, trivial⟩
  | cons y before ih =>
    intro off h hfull hoff
    have hlast : ∀ q ∈ before.getLast?, q.data.used = q.data.size := by
      intro q hq
      refine hfull q ?_
      rw [getLast?_cons, Option.mem_def.mp hq]
      rfl
    refine ⟨h.1, h.2.1, fun _ => ?_, ih h.tail hlast ?_⟩
    · by_cases hnil : before = []
      · subst hnil
        exact hfull y rfl
      · exact h.2.2.1 hnil
    rw [hoff, contents_cons, length_append, Redis.Lib.Buffer.used]
    omega

/-! ## Positions -/

/-- The pieces from the one numbered `id` on. -/
def suffixFrom (id : Nat) : List Piece → List Piece
  | [] => []
  | p :: rest => if p.id = id then p :: rest else suffixFrom id rest

lemma fromNode_eq {blocks} (h : suffixFrom id (pieces blocks) = p :: rest) :
    ∃ b after, fromNode id blocks = .ok (b :: after) ∧ piece b = p ∧ pieces after = rest ∧
      b ∈ blocks ∧ b.id = id := by
  induction blocks with
  | nil => cases h
  | cons b blocks ih =>
    rw [pieces_cons, suffixFrom] at h
    rw [fromNode]
    by_cases hid : b.id = id
    · rw [if_pos (show (piece b).id = id from hid), List.cons.injEq] at h
      rw [if_pos hid]
      exact ⟨b, blocks, rfl, h.1, h.2, mem_cons_self, hid⟩
    rw [if_neg (show ¬ (piece b).id = id from hid)] at h
    rw [if_neg hid]
    obtain ⟨b', after, h1, h2, h3, h4, h5⟩ := ih h
    exact ⟨b', after, h1, h2, h3, mem_cons_of_mem _ h4, h5⟩

lemma suffixFrom_split
    (h : suffixFrom id ps = p :: rest) : ∃ before, ps = before ++ p :: rest ∧ p.id = id := by
  induction ps with
  | nil => cases h
  | cons x ps ih =>
    rw [suffixFrom] at h
    split at h
    · rename_i hid
      cases h
      exact ⟨[], rfl, hid⟩
    obtain ⟨before, hsplit, hid⟩ := ih h
    exact ⟨x :: before, by rw [hsplit]; rfl, hid⟩

/-- The bytes from index `pos` of the piece numbered `id` to the end are `t`. -/
def Reads (ps : List Piece) (id pos : Nat) (t : Bytes) : Prop :=
  ∃ p rest, suffixFrom id ps = p :: rest ∧ pos ≤ p.data.used ∧ (contents (p :: rest)).drop pos = t

/-- The first piece is not needed by a position behind it. -/
lemma Reads.behind {pos t}
    (h : Reads (p :: ps) id pos t) (hne : p.id ≠ id) : Reads ps id pos t := by
  obtain ⟨q, rest, hs, hpos, ht⟩ := h
  rw [suffixFrom, if_neg hne] at hs
  exact ⟨q, rest, hs, hpos, ht⟩

lemma suffixFrom_append_of_found {qs}
    (h : suffixFrom id ps = p :: rest) : suffixFrom id (ps ++ qs) = p :: rest ++ qs := by
  induction ps with
  | nil => cases h
  | cons x ps ih =>
    rw [suffixFrom] at h
    rw [cons_append, suffixFrom]
    split at h
    · rename_i hid
      rw [if_pos hid, ← cons_append, h]
    rename_i hid
    rw [if_neg hid, ih h]

lemma Reads.snoc {pos t} (h : Reads ps id pos t)
    (p : Piece) : Reads (ps ++ [p]) id pos (t ++ p.data.bytes) := by
  obtain ⟨q, rest, hs, hpos, ht⟩ := h
  refine ⟨q, rest ++ [p], suffixFrom_append_of_found hs, hpos, ?_⟩
  have hle : pos ≤ (contents (q :: rest)).length := by
    rw [contents_cons, length_append]
    exact hpos.trans (Nat.le_add_right _ _)
  rw [← cons_append, contents_append, drop_append_of_le_length hle, ht]
  simp

lemma Reads.extend {p p' : Piece} {x : Bytes} (hid : p'.id = p.id)
    (hdata : p'.data.bytes = p.data.bytes ++ x) :
    ∀ {id pos : Nat} {t : Bytes}, Reads (before ++ [p]) id pos t →
      Reads (before ++ [p']) id pos (t ++ x) := by
  induction before with
  | nil =>
    rintro id pos t ⟨q, rest, hs, hpos, ht⟩
    rw [nil_append, suffixFrom] at hs
    split at hs
    · rename_i hp
      cases hs
      refine ⟨p', [], by rw [nil_append, suffixFrom, if_pos (hid.trans hp)], ?_, ?_⟩
      · rw [Redis.Lib.Buffer.used, hdata, length_append]
        exact hpos.trans (Nat.le_add_right _ _)
      rw [contents_cons, contents_nil, append_nil] at ht ⊢
      rw [hdata, drop_append_of_le_length hpos, ht]
    · cases hs
  | cons y before ih =>
    rintro id pos t ⟨q, rest, hs, hpos, ht⟩
    rw [cons_append, suffixFrom] at hs
    by_cases hy : y.id = id
    · rw [if_pos hy] at hs
      obtain ⟨rfl, rfl⟩ := hs
      refine ⟨y, before ++ [p'], by rw [cons_append, suffixFrom, if_pos hy], hpos, ?_⟩
      have hall : contents (y :: (before ++ [p'])) = contents (y :: (before ++ [p])) ++ x := by
        simp [hdata]
      have hle : pos ≤ (contents (y :: (before ++ [p]))).length := by
        rw [contents_cons, length_append]
        exact hpos.trans (Nat.le_add_right _ _)
      rw [hall, drop_append_of_le_length hle, ht]
    · rw [if_neg hy] at hs
      obtain ⟨q', rest', hs', hpos', ht'⟩ := ih ⟨q, rest, hs, hpos, ht⟩
      exact ⟨q', rest', by rw [cons_append, suffixFrom, if_neg hy, hs'], hpos', ht'⟩

/-! ## The retained part of the stream -/

/-- The pieces are the last `hist` bytes of a stream whose first byte has the
offset `base + 1`, under increasing numbers. -/
structure Holds (base : Nat) (stream : Bytes) (hist : Nat) (ps : List Piece) : Prop where
  hist_le : hist ≤ stream.length
  bytes : contents ps = stream.drop (stream.length - hist)
  chain : Chain (base + 1 + (stream.length - hist)) ps
  ids : (ps.map Piece.id).Pairwise (· < ·)

section Holds
variable {base hist : Nat} {stream : Bytes}

lemma holds_nil (base : Nat) (stream : Bytes) : Holds base stream 0 [] :=
  ⟨Nat.zero_le _, by rw [Nat.sub_zero, drop_length]; rfl, trivial, List.Pairwise.nil⟩

lemma Holds.length (h : Holds base stream hist ps) : (contents ps).length = hist := by
  rw [h.bytes, length_drop]
  have := h.hist_le
  omega

lemma Holds.trim (h : Holds base stream hist (p :: ps))
    (hps : ps ≠ []) : p.data.used = p.data.size ∧ Holds base stream (hist - p.data.size) ps := by
  have hfull := h.chain.2.2.1 hps
  have hlen := h.length
  have hle := h.hist_le
  have hused : p.data.used = p.data.bytes.length := rfl
  rw [contents_cons, length_append] at hlen
  refine ⟨hfull, by omega, ?_, ?_, (pairwise_cons.mp h.ids).2⟩
  · have hb := h.bytes
    rw [contents_cons] at hb
    have hcut := congrArg (List.drop p.data.bytes.length) hb
    rw [drop_left, drop_drop] at hcut
    rw [hcut]
    congr 1
    omega
  have hc := h.chain.tail
  rw [show base + 1 + (stream.length - (hist - p.data.size)) =
    base + 1 + (stream.length - hist) + p.data.used by omega]
  exact hc

lemma Holds.extendLast {p p' : Piece} {x : Bytes}
    (h : Holds base stream hist (before ++ [p])) (hid : p'.id = p.id)
    (hoffset : p'.offset = p.offset) (hdata : p'.data.bytes = p.data.bytes ++ x) :
    Holds base (stream ++ x) (hist + x.length) (before ++ [p']) := by
  have hle := h.hist_le
  have hstart : (stream ++ x).length - (hist + x.length) = stream.length - hist := by
    rw [length_append]
    omega
  refine ⟨by rw [length_append]; omega, ?_, ?_, ?_⟩
  · rw [hstart, drop_append_of_le_length (by omega), ← h.bytes]
    simp [hdata]
  · rw [hstart]
    exact h.chain.extendLast hoffset hdata
  have := h.ids
  simpa [hid] using this

lemma Holds.snoc (h : Holds base stream hist ps)
    (hfull : ∀ q ∈ ps.getLast?, q.data.used = q.data.size) (hid : ∀ q ∈ ps, q.id < p.id)
    (hoffset : p.offset = base + stream.length + 1) (hne : p.data.bytes ≠ []) :
    Holds base (stream ++ p.data.bytes) (hist + p.data.bytes.length) (ps ++ [p]) := by
  have hle := h.hist_le
  have hstart : (stream ++ p.data.bytes).length - (hist + p.data.bytes.length) =
      stream.length - hist := by
    rw [length_append]
    omega
  refine ⟨by rw [length_append]; omega, ?_, ?_, ?_⟩
  · rw [hstart, drop_append_of_le_length (by omega), ← h.bytes]
    simp
  · rw [hstart]
    refine h.chain.snoc (length_pos_iff.mpr hne) hfull ?_
    rw [h.length]
    omega
  rw [map_append, pairwise_append]
  refine ⟨h.ids, by simp, ?_⟩
  intro a ha b hb
  obtain ⟨q, hq, rfl⟩ := mem_map.mp ha
  obtain ⟨p', hp', rfl⟩ := mem_map.mp hb
  rw [mem_singleton.mp hp']
  exact hid q hq

lemma suffixFrom_of_split {after} (h : ((before ++ p :: after).map Piece.id).Pairwise (· < ·)) :
    suffixFrom p.id (before ++ p :: after) = p :: after := by
  induction before with
  | nil => rw [nil_append, suffixFrom, if_pos rfl]
  | cons y before ih =>
    rw [cons_append, map_cons, pairwise_cons] at h
    have hlt := h.1 p.id (mem_map.mpr ⟨p, by simp, rfl⟩)
    rw [cons_append, suffixFrom, if_neg (Nat.ne_of_lt hlt), ih h.2]

lemma Holds.reads_offset {after off}
    (h : Holds base stream hist (before ++ p :: after)) (hle : p.offset ≤ off)
    (hoff : off ≤ p.offset + p.data.used) :
    Reads (before ++ p :: after) p.id (off - p.offset) (stream.drop (off - (base + 1))) := by
  refine ⟨p, after, suffixFrom_of_split h.ids, by omega, ?_⟩
  obtain ⟨hp, -⟩ := h.chain.offset_of_split
  have hb := h.bytes
  rw [contents_append] at hb
  have hcut := congrArg (List.drop (contents before).length) hb
  rw [drop_left, drop_drop] at hcut
  rw [hcut, drop_drop]
  congr 1
  omega

end Holds

end Redis.Replication.Pieces
