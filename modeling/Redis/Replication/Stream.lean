import Redis.Replication.Pieces

/-! # The stream reaches every replica

`Core` holds between the steps inside a call and `Sound` between calls. The bytes
are followed through the pieces, the references through the counts. -/
namespace Redis.Replication.Stream
open Option List Lib Outcome Buffer Pieces

/-! ## What holds -/

/-- The replicas, and the backlog, that point to a block. -/
def references (s : Server) (id : Nat) : Nat :=
  s.slaves.countP (fun r => r.refReplBufNode = some id) +
    if s.backlog.refReplBufNode = some id then 1 else 0

/-- A replica with a position was sent what comes before it; one without a
position gets the next byte that is fed. -/
def Follows (base : Nat) (stream : Bytes) (ps : List Piece) (r : Replica) : Prop :=
  match r.refReplBufNode with
  | some node => r.canFeed = true ∧ base + 1 ≤ r.attachedAt ∧
      r.attachedAt ≤ base + stream.length + 1 ∧
      ∃ t, Reads ps node r.refBlockPos t ∧ r.sent ++ t = stream.drop (r.attachedAt - (base + 1))
  | none => r.sent = [] ∧ (r.canFeed = true → r.attachedAt = base + stream.length + 1)

/-- A server that was fed `stream` after the offset `base`. -/
structure Core (base : Nat) (stream : Bytes) (s : Server) : Prop where
  offset : s.masterReplOffset = base + stream.length
  holds : Holds base stream s.backlog.histlen (pieces s.blocks)
  fresh : ∀ b ∈ s.blocks, b.id < s.replBlockId
  first : s.backlog.refReplBufNode = s.blocks.head?.map ReplBufBlock.id
  index : ∀ e ∈ s.backlog.blocksIndex, ∃ p ∈ pieces s.blocks, p.id = e.2 ∧ p.offset = e.1
  counted : ∀ b ∈ s.blocks, b.refcount = references s b.id
  unique : (s.slaves.map Replica.id).Nodup
  replicas : ∀ r ∈ s.slaves, Follows base stream (pieces s.blocks) r

structure Sound (base : Nat) (stream : Bytes) (s : Server) : Prop extends Core base stream s where
  backlogOffset : s.backlog.offset = base + 1 + (stream.length - s.backlog.histlen)

section
variable {base : Nat} {stream : Bytes} {r : Replica} {s : Server} {x : Bytes}

lemma Follows.behind {p ps}
    (h : Follows base stream (p :: ps) r) (hne : r.refReplBufNode ≠ some p.id) :
    Follows base stream ps r := by
  unfold Follows at h ⊢
  split
  · rename_i node hnode
    rw [hnode] at h hne
    obtain ⟨h0, h1, h2, t, ht, hsent⟩ := h
    exact ⟨h0, h1, h2, t, ht.behind fun heq => hne (by rw [heq]), hsent⟩
  rename_i hnode
  rwa [hnode] at h

/-! ## Trimming -/

lemma trimLoop_core (maxBlocks : Nat) : ∀ {s : Server}, Core base stream s →
    ∃ s', trimLoop maxBlocks s = .ok s' ∧ Core base stream s' := by
  induction maxBlocks with
  | zero => exact fun {s} h => ⟨s, rfl, h⟩
  | succ maxBlocks ih =>
    intro s h
    unfold trimLoop
    split
    · split
      · exact ⟨s, rfl, h⟩
      · exact ⟨s, rfl, h⟩
      rename_i fo next rest hblocks
      have hfirst := h.first
      rw [hblocks, head?_cons, map_some] at hfirst
      rw [check_pos hfirst]
      split
      · exact ⟨s, rfl, h⟩
      rename_i hone
      have hone : fo.refcount = 1 := Classical.not_not.mp hone
      split
      · exact ⟨s, rfl, h⟩
      have hholds := h.holds
      rw [hblocks, pieces_cons, pieces_cons] at hholds
      obtain ⟨hfull, htrim⟩ := hholds.trim (cons_ne_nil _ _)
      have hfull : fo.data.used = fo.data.size := hfull
      rw [check_pos hfull]
      refine ih ?_
      have hids := hholds.ids
      simp only [map_cons, pairwise_cons] at hids
      obtain ⟨hfo, hnext, -⟩ := hids
      have hfonext : fo.id < next.id := hfo _ mem_cons_self
      -- the only reference to the first block is the one of the backlog
      have hcount := h.counted fo (by rw [hblocks]; exact mem_cons_self)
      rw [references, if_pos hfirst] at hcount
      have hnone : ∀ r ∈ s.slaves, r.refReplBufNode ≠ some fo.id := by
        have hzero : s.slaves.countP (fun r => r.refReplBufNode = some fo.id) = 0 := by omega
        intro r hr heq
        exact absurd (countP_eq_zero.mp hzero r hr) (by simp [heq])
      refine ⟨h.offset, htrim, ?_, rfl, ?_, ?_, h.unique, ?_⟩
      · have hfresh := h.fresh
        rw [hblocks] at hfresh
        exact forall_mem_cons.mpr (forall_mem_cons.mp (forall_mem_cons.mp hfresh).2)
      · intro e he
        obtain ⟨he, hkey⟩ := mem_filter.mp he
        obtain ⟨p, hp, hid, hoff⟩ := h.index e he
        rw [hblocks] at hp
        rcases mem_cons.mp hp with rfl | hp
        · exact absurd hoff.symm (by simpa [piece] using hkey)
        · exact ⟨p, hp, hid, hoff⟩
      · intro b hb
        rw [references]
        rcases mem_cons.mp hb with rfl | hb
        · have hc := h.counted next (by rw [hblocks]; simp)
          rw [references, hfirst, if_neg (by simp; omega)] at hc
          simp only [if_true]
          omega
        have hc := h.counted b (by rw [hblocks]; simp [hb])
        have hlt : next.id < b.id := hnext b.id (mem_map.mpr
          ⟨piece b, mem_map.mpr ⟨b, hb, rfl⟩, rfl⟩)
        rw [references, hfirst, if_neg (by simp; omega)] at hc
        rw [if_neg (by simp; omega)]
        exact hc
      · intro r hr
        have hf := h.replicas r hr
        rw [hblocks] at hf
        exact hf.behind (hnone r hr)
    · exact ⟨s, rfl, h⟩

lemma trim_sound (maxBlocks : Nat) (h : Core base stream s) :
    ∃ s', incrementalTrimReplicationBacklog maxBlocks s = .ok s' ∧ Sound base stream s' := by
  obtain ⟨s', hrun, h'⟩ := trimLoop_core maxBlocks h
  refine ⟨_, by rw [incrementalTrimReplicationBacklog, hrun, bind_ok], ⟨?_, ?_⟩⟩
  · exact { h' with }
  have hoff := h'.offset
  have hle := h'.holds.hist_le
  simp only
  omega

/-! ## Feeding -/

/-- In the middle of a round: `x` was copied behind `stream`, and replicas without
a position were not given one yet. -/
def FollowsMid (base : Nat) (stream x : Bytes) (ps : List Piece) (r : Replica) : Prop :=
  match r.refReplBufNode with
  | some _ => Follows base (stream ++ x) ps r
  | none => Follows base stream ps r

structure Mid (base : Nat) (stream x : Bytes) (s : Server) : Prop where
  offset : s.masterReplOffset = base + (stream ++ x).length
  holds : Holds base (stream ++ x) s.backlog.histlen (pieces s.blocks)
  fresh : ∀ b ∈ s.blocks, b.id < s.replBlockId
  index : ∀ e ∈ s.backlog.blocksIndex, ∃ p ∈ pieces s.blocks, p.id = e.2 ∧ p.offset = e.1
  counted : ∀ b ∈ s.blocks, b.refcount = references s b.id
  unique : (s.slaves.map Replica.id).Nodup
  replicas : ∀ r ∈ s.slaves, FollowsMid base stream x (pieces s.blocks) r

lemma followsMid_nil {ps : List Piece} {r : Replica} :
    FollowsMid base stream [] ps r ↔ Follows base stream ps r := by
  unfold FollowsMid
  split
  · rw [append_nil]
  · rfl

lemma Core.mid (h : Core base stream s) : Mid base stream [] s := by
  exact ⟨by rw [append_nil]; exact h.offset, by rw [append_nil]; exact h.holds, h.fresh,
    h.index, h.counted, h.unique, fun r hr => followsMid_nil.mpr (h.replicas r hr)⟩

lemma FollowsMid.more {x y : Bytes} {ps ps' : List Piece} {r : Replica}
    (h : FollowsMid base stream x ps r)
    (hreads : ∀ id pos t, Reads ps id pos t → Reads ps' id pos (t ++ y)) :
    FollowsMid base stream (x ++ y) ps' r := by
  unfold FollowsMid at h ⊢
  split
  · rename_i node hnode
    unfold Follows at h ⊢
    rw [hnode] at h ⊢
    obtain ⟨h0, h1, h2, t, ht, hsent⟩ := h
    refine ⟨h0, h1, ?_, t ++ y, hreads _ _ _ ht, ?_⟩
    · rw [← append_assoc, length_append]
      omega
    rw [← append_assoc, hsent, ← append_assoc stream]
    exact (drop_append_of_le_length (by omega)).symm
  rename_i hnode
  unfold Follows at h ⊢
  rw [hnode] at h ⊢
  exact h

/-- References that lead to blocks lead to blocks with a number in use. -/
lemma Mid.referenced_lt (h : Mid base stream x s)
    (hr : r ∈ s.slaves) {node} (hnode : r.refReplBufNode = some node) : node < s.replBlockId := by
  have hf := h.replicas r hr
  rw [FollowsMid] at hf
  simp only [Follows, hnode] at hf
  obtain ⟨-, -, -, t, ⟨p, rest, hs, -⟩, -⟩ := hf
  obtain ⟨b, after, -, -, -, hb, hid⟩ := fromNode_eq hs
  exact hid ▸ h.fresh b hb

lemma feedTail_mid (h : Core base stream s) (bytes : Bytes) :
    ∃ s' n start, feedTail s bytes = .ok (s', bytes.drop n, start) ∧
      Mid base stream (bytes.take n) s' ∧ s'.backlog.refReplBufNode = s.backlog.refReplBufNode ∧
      s'.blocks.head?.map ReplBufBlock.id = s.blocks.head?.map ReplBufBlock.id ∧
      (∀ pos, start = some pos → Reads (pieces s'.blocks) pos.1 pos.2 (bytes.take n) ∧
        (bytes ≠ [] → 0 < n)) ∧
      (start = none → n = 0) ∧
      (bytes.drop n ≠ [] → ∀ q ∈ (pieces s'.blocks).getLast?, q.data.used = q.data.size) := by
  have hzero : Mid base stream (bytes.take 0) s := by exact h.mid
  unfold feedTail
  cases hlast : s.blocks.getLast? with
  | none =>
    have hnil : s.blocks = [] := getLast?_eq_none_iff.mp hlast
    refine ⟨s, 0, none, rfl, hzero, rfl, rfl, nofun, fun _ => rfl, fun _ q hq => ?_⟩
    rw [hnil] at hq
    cases hq
  | some tail =>
    obtain ⟨before, hb⟩ : ∃ before, before = s.blocks.dropLast := ⟨_, rfl⟩
    have hsplit : s.blocks = before ++ [tail] := by
      rw [hb]
      exact (dropLast_append_getLast? tail hlast).symm
    have hpieces : ∀ b, pieces (before ++ [b]) = pieces before ++ [piece b] :=
      fun b => pieces_append before [b]
    have hfits := tail.data.fits
    dsimp only
    split
    · obtain ⟨n, hn⟩ : ∃ n, n = if bytes.length ≤ tail.data.available then bytes.length
          else tail.data.available := ⟨_, rfl⟩
      have hlen : (bytes.take n).length = n := by
        rw [length_take, hn]
        split <;> omega
      have hfit : (bytes.take n).length ≤ tail.data.available := by
        rw [hlen, hn]
        split <;> omega
      obtain ⟨data, hdata, hsize, hbytes⟩ := Buffer.append_ok hfit
      simp only [← hn, hdata, bind_ok, ← hb]
      obtain ⟨new, hnew⟩ : ∃ new, new = { tail with data := data } := ⟨_, rfl⟩
      have hid : (piece new).id = (piece tail).id := by rw [hnew]; rfl
      have hoff : (piece new).offset = (piece tail).offset := by rw [hnew]; rfl
      have hgrown : (piece new).data.bytes = (piece tail).data.bytes ++ bytes.take n := by
        rw [hnew]
        exact hbytes
      have hreads : ∀ id pos t, Reads (pieces s.blocks) id pos t →
          Reads (pieces (before ++ [new])) id pos (t ++ bytes.take n) := by
        intro id pos t ht
        rw [hsplit, hpieces] at ht
        rw [hpieces]
        exact Reads.extend hid hgrown ht
      have hholds := h.holds
      rw [hsplit, hpieces] at hholds
      have hall : ∀ {P : ReplBufBlock → Prop}, (P tail → P new) → (∀ b ∈ s.blocks, P b) →
          ∀ b ∈ before ++ [new], P b := by
        intro P hP hs
        rw [hsplit, forall_mem_append, forall_mem_singleton] at hs
        exact forall_mem_append.mpr ⟨hs.1, forall_mem_singleton.mpr (hP hs.2)⟩
      rw [← hnew]
      refine ⟨_, n, some (tail.id, tail.data.used), rfl, ⟨?_, ?_, hall (by rw [hnew]; exact id) h.fresh,
        ?_, hall (by rw [hnew]; exact id) h.counted, h.unique, ?_⟩, rfl, ?_, ?_, nofun, ?_⟩
      · show s.masterReplOffset + n = base + (stream ++ bytes.take n).length
        rw [length_append, h.offset]
        omega
      · have := hholds.extendLast hid hoff hgrown
        rwa [hlen, ← hpieces] at this
      · intro e he
        obtain ⟨p, hp, hpid, hpoff⟩ := h.index e he
        rw [hsplit, hpieces] at hp
        rw [hpieces]
        rcases mem_append.mp hp with hp | hp
        · exact ⟨p, mem_append_left _ hp, hpid, hpoff⟩
        rw [mem_singleton.mp hp] at hpid hpoff
        exact ⟨piece new, by simp, hid.trans hpid, hoff.trans hpoff⟩
      · intro r hr
        exact (h.mid.replicas r hr).more hreads
      · rw [hsplit, hnew]
        cases before <;> rfl
      · intro pos hpos
        cases hpos
        refine ⟨?_, fun hne => ?_⟩
        · have hend : Reads (pieces s.blocks) tail.id tail.data.used [] := by
            rw [hsplit, hpieces]
            refine ⟨piece tail, [], suffixFrom_of_split hholds.ids, le_rfl, ?_⟩
            rw [contents_cons, contents_nil, append_nil]
            exact drop_length
          exact hreads _ _ _ hend
        have := length_pos_iff.mpr hne
        rw [hn, Buffer.available]
        split <;> omega
      · intro hmore q hq
        rw [hpieces, getLast?_concat] at hq
        -- bytes are left, so the tail took all it had room for
        have hall : n = tail.data.available := by
          rw [hn]
          split
          · rename_i hle
            refine absurd (drop_eq_nil_of_le ?_) hmore
            rw [hn, if_pos hle]
          · rfl
        rw [← Option.some.inj hq, hnew]
        show data.used = data.size
        rw [Buffer.used, hbytes, length_append, hlen, hall, Buffer.available, Buffer.used]
        omega
    · rename_i hfull
      refine ⟨s, 0, none, rfl, hzero, rfl, rfl, nofun, fun _ => rfl, fun _ q hq => ?_⟩
      rw [hsplit, hpieces, getLast?_concat] at hq
      rw [← Option.some.inj hq]
      show tail.data.used = tail.data.size
      rw [Buffer.used] at hfull ⊢
      omega

lemma newBlockSize_pos (s : Server) (len : Nat) : 0 < newBlockSize s len := by
  unfold newBlockSize protoReplyChunkBytes
  omega

lemma feedNewBlock_mid (excess : Nat → Nat) {bytes} (h : Mid base stream x s) (hne : bytes ≠ [])
    (hfull : ∀ q ∈ (pieces s.blocks).getLast?, q.data.used = q.data.size)
    (hback : ∀ id, s.backlog.refReplBufNode = some id → id < s.replBlockId) :
    ∃ s' n tail, feedNewBlock excess s bytes = .ok (s', bytes.drop n, tail) ∧ 0 < n ∧
      Mid base stream (x ++ bytes.take n) s' ∧ s'.blocks = s.blocks ++ [tail] ∧
      s'.backlog.refReplBufNode = s.backlog.refReplBufNode ∧
      Reads (pieces s'.blocks) tail.id 0 (bytes.take n) ∧
      ∀ id pos t, Reads (pieces s.blocks) id pos t →
        Reads (pieces s'.blocks) id pos (t ++ bytes.take n) := by
  unfold feedNewBlock
  dsimp only
  generalize hsize : newBlockSize s bytes.length + excess s.replBlockId = size
  generalize hn : (if bytes.length ≤ size then bytes.length else size) = n
  have hpos : 0 < n := by
    have h1 := newBlockSize_pos s bytes.length
    have h2 := length_pos_iff.mpr hne
    split at hn <;> omega
  have hlen : (bytes.take n).length = n := by
    rw [length_take]
    split at hn <;> omega
  have hfit : (bytes.take n).length ≤ size := by
    split at hn <;> omega
  rw [Buffer.create_ok hfit, bind_ok]
  obtain ⟨tail, htail⟩ : ∃ tail, tail = ReplBufBlock.mk s.replBlockId 0 (s.masterReplOffset + 1)
      ⟨size, bytes.take n, hfit⟩ := ⟨_, rfl⟩
  rw [← htail]
  have hdata : (piece tail).data.bytes = bytes.take n := by rw [htail]; rfl
  have hreads : ∀ id pos t, Reads (pieces s.blocks) id pos t →
      Reads (pieces (s.blocks ++ [tail])) id pos (t ++ bytes.take n) := by
    intro id pos t ht
    rw [pieces_append, ← hdata]
    exact ht.snoc (piece tail)
  have htaken : bytes.take n ≠ [] := fun hnil => by
    rw [hnil] at hlen
    simp at hlen
    omega
  have hholds : Holds base (stream ++ (x ++ bytes.take n)) (s.backlog.histlen + n)
      (pieces (s.blocks ++ [tail])) := by
    have hnew := h.holds.snoc (p := piece tail) hfull (fun q hq => by
        obtain ⟨b, hb, rfl⟩ := mem_map.mp hq
        rw [htail]
        exact h.fresh b hb)
      (by rw [htail]; show s.masterReplOffset + 1 = _; rw [h.offset]) (by rw [hdata]; exact htaken)
    rw [hdata, hlen, append_assoc] at hnew
    rw [pieces_append]
    exact hnew
  refine ⟨_, n, tail, rfl, hpos, ⟨?_, hholds, ?_, ?_, ?_, h.unique, ?_⟩, rfl, rfl, ?_, hreads⟩
  · rw [h.offset]
    simp only [length_append]
    omega
  · refine forall_mem_append.mpr ⟨fun b hb => Nat.lt_succ_of_lt (h.fresh b hb), ?_⟩
    rw [htail]
    exact forall_mem_singleton.mpr (Nat.lt_succ_self _)
  · intro e he
    obtain ⟨p, hp, hid, hoff⟩ := h.index e he
    exact ⟨p, by
      rw [pieces_append]
      exact mem_append_left _ hp, hid, hoff⟩
  · intro b hb
    rcases mem_append.mp hb with hb | hb
    · exact h.counted b hb
    -- nobody knows the new block yet
    have hzero : s.slaves.countP (fun r => r.refReplBufNode = some s.replBlockId) = 0 := by
      refine countP_eq_zero.mpr fun r hr heq => ?_
      exact absurd (h.referenced_lt hr (by simpa using heq)) (Nat.lt_irrefl _)
    have hnot : s.backlog.refReplBufNode ≠ some s.replBlockId := fun heq =>
      absurd (hback _ heq) (Nat.lt_irrefl _)
    rw [mem_singleton.mp hb, htail, references, hzero, if_neg hnot]
  · intro r hr
    exact (h.replicas r hr).more hreads
  · rw [pieces_append] at hholds ⊢
    refine ⟨piece tail, [], suffixFrom_of_split hholds.ids, Nat.zero_le _, ?_⟩
    rw [contents_cons, contents_nil, append_nil, drop_zero, hdata]

/-! ## New references -/

lemma newReferences_cons (r : Replica) (rest : List Replica) : newReferences (r :: rest) =
      newReferences rest + if r.canFeed ∧ r.refReplBufNode = none then 1 else 0 := by
  unfold newReferences
  rw [filter_cons]
  by_cases h : r.canFeed = true ∧ r.refReplBufNode = none
  · rw [if_pos (decide_eq_true h), if_pos h, length_cons]
  · rw [if_neg (by rw [decide_eq_true_iff]; exact h), if_neg h, add_zero]

lemma countP_feedSlaves (node pos id : Nat) (slaves : List Replica) :
    (feedSlaves node pos slaves).countP (fun r => r.refReplBufNode = some id) =
      slaves.countP (fun r => r.refReplBufNode = some id) +
        if id = node then newReferences slaves else 0 := by
  induction slaves with
  | nil => simp [feedSlaves, newReferences]
  | cons r rest ih =>
    rw [feedSlaves, countP_cons, countP_cons, ih, newReferences_cons]
    by_cases hnew : r.canFeed = true ∧ r.refReplBufNode = none
    · rw [if_pos hnew, if_pos hnew, hnew.2]
      by_cases hid : id = node
      · subst hid
        simp
        omega
      · simp [hid, Ne.symm hid]
    · rw [if_neg hnew, if_neg hnew, add_zero]
      omega

lemma map_id_feedSlaves (node pos : Nat) (slaves : List Replica) :
    (feedSlaves node pos slaves).map Replica.id = slaves.map Replica.id := by
  induction slaves with
  | nil => rfl
  | cons r rest ih =>
    rw [feedSlaves, map_cons, ih]
    split <;> rfl

lemma mem_feedSlaves {node pos slaves} (h : r ∈ feedSlaves node pos slaves) :
    ∃ r' ∈ slaves, r = if r'.canFeed ∧ r'.refReplBufNode = none then
      { r' with refReplBufNode := some node, refBlockPos := pos } else r' := by
  induction slaves with
  | nil => cases h
  | cons x rest ih =>
    rcases mem_cons.mp h with rfl | h
    · exact ⟨x, mem_cons_self, rfl⟩
    obtain ⟨r', hr', heq⟩ := ih h
    exact ⟨r', mem_cons_of_mem _ hr', heq⟩

lemma mem_indexInsert {offset id index e}
    (h : e ∈ indexInsert offset id index) : e = (offset, id) ∨ e ∈ index := by
  induction index with
  | nil => exact .inl (mem_singleton.mp h)
  | cons kv rest ih =>
    rw [indexInsert] at h
    split at h
    · rcases mem_cons.mp h with h | h
      · exact .inl h
      · exact .inr h
    split at h
    · rcases mem_cons.mp h with h | h
      · exact .inl h
      · exact .inr (mem_cons_of_mem _ h)
    rcases mem_cons.mp h with h | h
    · exact .inr (h ▸ mem_cons_self)
    · exact (ih h).imp_right (mem_cons_of_mem _)

lemma refcount_setRefcount {id : Nat} {f g : Nat → Nat} {blocks : List ReplBufBlock}
    (h : ∀ b ∈ blocks, b.refcount = g b.id) {b : ReplBufBlock} (hb : b ∈ setRefcount id f blocks) :
    b.refcount = if b.id = id then f (g b.id) else g b.id := by
  obtain ⟨b0, hb0, rfl⟩ := mem_map.mp hb
  have h0 := h b0 hb0
  by_cases hid : b0.id = id
  · simp only [if_pos hid, h0]
  · simp only [if_neg hid, h0]

lemma head_setRefcount (id : Nat) (f : Nat → Nat) (blocks : List ReplBufBlock) :
    (setRefcount id f blocks).head?.map ReplBufBlock.id = blocks.head?.map ReplBufBlock.id := by
  cases blocks with
  | nil => rfl
  | cons b rest =>
    simp only [setRefcount, map_cons]
    split <;> rfl

lemma id_mem_setRefcount {id} {f : Nat → Nat} {blocks b} (hb : b ∈ setRefcount id f blocks) :
    ∃ b0 ∈ blocks, b0.id = b.id := by
  obtain ⟨b0, hb0, rfl⟩ := mem_map.mp hb
  refine ⟨b0, hb0, ?_⟩
  split <;> rfl

lemma Core.recount (h : Core base stream s) {blocks slaves}
    (hpieces : pieces blocks = pieces s.blocks)
    (hcounted : ∀ b ∈ blocks, b.refcount = references { s with slaves := slaves } b.id)
    (hunique : (slaves.map Replica.id).Nodup)
    (hreplicas : ∀ r ∈ slaves, Follows base stream (pieces s.blocks) r) :
    Core base stream { s with slaves := slaves, blocks := blocks } := by
  have hids : blocks.map ReplBufBlock.id = s.blocks.map ReplBufBlock.id := by
    simpa [pieces, piece, Function.comp_def] using congrArg (List.map Piece.id) hpieces
  refine ⟨h.offset, hpieces ▸ h.holds, ?_, ?_, hpieces ▸ h.index, hcounted, hunique,
    hpieces ▸ hreplicas⟩
  · intro b hb
    have hmem : b.id ∈ s.blocks.map ReplBufBlock.id := hids ▸ mem_map_of_mem hb
    obtain ⟨b0, hb0, heq⟩ := mem_map.mp hmem
    exact heq ▸ h.fresh b0 hb0
  rw [← head?_map, hids, head?_map]
  exact h.first

lemma attachReplicas_mid (h : Mid base stream x s) {start}
    (hstart : Reads (pieces s.blocks) start.1 start.2 x) :
    Mid base (stream ++ x) [] (attachReplicas s start) := by
  unfold attachReplicas
  refine ⟨by rw [append_nil]; exact h.offset, ?_, ?_, ?_, ?_, ?_, ?_⟩
  · rw [append_nil, pieces_setRefcount]
    exact h.holds
  · intro b hb
    dsimp only at hb
    obtain ⟨b0, hb0, hid⟩ := id_mem_setRefcount hb
    exact hid ▸ h.fresh b0 hb0
  · rw [pieces_setRefcount]
    exact h.index
  · intro b hb
    dsimp only at hb
    rw [refcount_setRefcount h.counted hb]
    simp only [references, countP_feedSlaves]
    split <;> omega
  · rw [map_id_feedSlaves]
    exact h.unique
  rw [pieces_setRefcount]
  intro r hr
  obtain ⟨r', hr', rfl⟩ := mem_feedSlaves hr
  have hf := h.replicas r' hr'
  unfold FollowsMid at hf
  refine followsMid_nil.mpr ?_
  split
  · rename_i hnew
    simp only [Follows, hnew.2] at hf
    obtain ⟨hsent, hat⟩ := hf
    have hat := hat hnew.1
    simp only [Follows]
    refine ⟨hnew.1, by omega, by rw [length_append]; omega, x, hstart, ?_⟩
    rw [hsent, nil_append, hat,
      show base + stream.length + 1 - (base + 1) = stream.length by omega, drop_left]
  rename_i hold
  split at hf
  · exact hf
  rename_i hnode
  simp only [Follows, hnode] at hf ⊢
  exact ⟨hf.1, fun hc => absurd ⟨hc, hnode⟩ hold⟩

/-- The backlog starts with the first block, or will when it is attached. -/
def FromFirst (s : Server) (start : Nat × Nat) (tail : Option ReplBufBlock) : Prop :=
  s.backlog.refReplBufNode = s.blocks.head?.map ReplBufBlock.id ∨
    s.backlog.refReplBufNode = none ∧ tail ≠ none ∧ start.2 = 0 ∧
      s.blocks.head?.map ReplBufBlock.id = some start.1

lemma attachBacklog_core (h : Mid base stream [] s) {start tail} (hfirst : FromFirst s start tail)
    (hsome : s.blocks ≠ []) :
    ∃ s', attachBacklog s start tail = .ok s' ∧ Core base stream s' ∧
      pieces s'.blocks = pieces s.blocks := by
  have hoffset := h.offset
  have hholds := h.holds
  rw [append_nil] at hoffset hholds
  have hreplicas : ∀ r ∈ s.slaves, Follows base stream (pieces s.blocks) r :=
    fun r hr => followsMid_nil.mp (h.replicas r hr)
  unfold attachBacklog
  split
  · rename_i hnone
    rcases hfirst with hhead | ⟨-, htail, hzero, hhead⟩
    · rw [hnone] at hhead
      obtain ⟨b, rest, hb⟩ := exists_cons_of_ne_nil hsome
      rw [hb] at hhead
      cases hhead
    rw [check_pos ⟨htail, hzero⟩]
    refine ⟨_, rfl, ⟨hoffset, ?_, ?_, ?_, ?_, ?_, h.unique, ?_⟩, pieces_setRefcount _ _ _⟩
    · rw [pieces_setRefcount]
      exact hholds
    · intro b hb
      obtain ⟨b0, hb0, hid⟩ := id_mem_setRefcount hb
      exact hid ▸ h.fresh b0 hb0
    · rw [head_setRefcount, hhead]
    · rw [pieces_setRefcount]
      exact h.index
    · intro b hb
      rw [refcount_setRefcount h.counted hb]
      simp only [references, eq_comm]
      split <;> simp_all
    · rw [pieces_setRefcount]
      exact hreplicas
  · rename_i hsome'
    refine ⟨s, rfl, ⟨hoffset, hholds, h.fresh, ?_, h.index, h.counted, h.unique, hreplicas⟩, rfl⟩
    exact hfirst.resolve_right fun hn => hsome' hn.1

lemma indexTail_core (h : Core base stream s) {tail}
    (htail : ∀ t ∈ tail, piece t ∈ pieces s.blocks) : Core base stream (indexTail tail s) := by
  unfold indexTail
  split
  · exact h
  rename_i t
  unfold createReplicationBacklogIndex
  split
  · refine { h with index := ?_ }
    intro e he
    rcases mem_indexInsert he with rfl | he
    · exact ⟨piece t, htail t rfl, rfl, rfl⟩
    · exact h.index e he
  · exact { h with }

lemma feedReferences_sound {x : Bytes} {s : Server} (h : Mid base stream x s)
    {start : Nat × Nat} {tail : Option ReplBufBlock}
    (hstart : Reads (pieces s.blocks) start.1 start.2 x) (hfirst : FromFirst s start tail)
    (htail : ∀ t ∈ tail, t ∈ s.blocks) :
    ∃ s', feedReferences s start tail = .ok s' ∧ Sound base (stream ++ x) s' := by
  obtain ⟨p, rest, hs, -⟩ := id hstart
  obtain ⟨b, after, hfrom, -, -, hb, -⟩ := fromNode_eq hs
  have hblocks : (attachReplicas s start).blocks =
      setRefcount start.1 (· + newReferences s.slaves) s.blocks := rfl
  have hsome : (attachReplicas s start).blocks ≠ [] := by
    rw [hblocks, setRefcount, ne_eq, map_eq_nil_iff]
    exact ne_nil_of_mem hb
  rw [FromFirst, ← head_setRefcount start.1 (· + newReferences s.slaves) s.blocks] at hfirst
  obtain ⟨s1, hrun1, h1, hp1⟩ := attachBacklog_core (attachReplicas_mid h hstart) hfirst hsome
  have hpieces : pieces s1.blocks = pieces s.blocks := by
    rw [hp1, hblocks, pieces_setRefcount]
  have hindexed := indexTail_core h1 fun t ht => by
    rw [hpieces]
    exact mem_map.mpr ⟨t, htail t ht, rfl⟩
  obtain ⟨s2, hrun2, h2⟩ := trim_sound replBacklogTrimBlocksPerCall hindexed
  refine ⟨s2, ?_, h2⟩
  rw [feedReferences, hfrom, bind_ok, hrun1, bind_ok, hrun2]

lemma feedRound_sound (excess : Nat → Nat) (h : Sound base stream s) {bytes} (hne : bytes ≠ []) :
    ∃ s' n, feedRound excess s bytes = .ok (s', bytes.drop n) ∧ 0 < n ∧
      Sound base (stream ++ bytes.take n) s' := by
  obtain ⟨s1, n1, start, hrun1, hmid1, hback1, hhead1, hstart, hnone, hfull⟩ :=
    feedTail_mid h.toCore bytes
  have hfirst1 : s1.backlog.refReplBufNode = s1.blocks.head?.map ReplBufBlock.id := by
    rw [hback1, hhead1, h.first]
  unfold feedRound
  simp only [hrun1, bind_ok]
  split
  · rename_i hdone
    cases start with
    | none =>
      rw [hnone rfl] at hdone
      exact absurd (eq_nil_of_length_eq_zero hdone) hne
    | some start =>
      obtain ⟨hreads, hpos⟩ := hstart start rfl
      obtain ⟨s2, hrun2, h2⟩ := @feedReferences_sound base stream _ s1 hmid1 start none hreads
        (.inl hfirst1) (nofun)
      exact ⟨s2, n1, by simp only [hrun2, bind_ok], hpos hne, h2⟩
  rename_i hmore
  have hrest : bytes.drop n1 ≠ [] := fun hnil => hmore (by rw [hnil]; rfl)
  have hback : ∀ id, s1.backlog.refReplBufNode = some id → id < s1.replBlockId := by
    intro id hid
    rw [hfirst1] at hid
    obtain ⟨b, hb, rfl⟩ := map_eq_some_iff.mp hid
    exact hmid1.fresh b (mem_of_mem_head? hb)
  obtain ⟨s2, n2, tail, hrun2, hpos2, hmid2, hblocks2, hback2, hnew, hreads2⟩ :=
    feedNewBlock_mid excess hmid1 hrest (hfull hrest) hback
  simp only [hrun2]
  have htaken : bytes.take n1 ++ (bytes.drop n1).take n2 = bytes.take (n1 + n2) := take_add.symm
  have hpos : Reads (pieces s2.blocks) (start.getD (tail.id, 0)).1 (start.getD (tail.id, 0)).2
      (bytes.take n1 ++ (bytes.drop n1).take n2) := by
    cases start with
    | none =>
      rw [hnone rfl, take_zero]
      rwa [hnone rfl] at hnew
    | some start => exact hreads2 _ _ _ (hstart start rfl).1
  have hfirst2 : FromFirst s2 (start.getD (tail.id, 0)) (some tail) := by
    rw [FromFirst, hback2, hfirst1, hblocks2]
    cases hb : s1.blocks with
    | nil =>
      refine .inr ⟨rfl, some_ne_none _, ?_⟩
      cases start with
      | none => exact ⟨rfl, rfl⟩
      | some start =>
        obtain ⟨⟨p, rest, hs, -⟩, -⟩ := hstart start rfl
        rw [hb] at hs
        cases hs
    | cons b rest => exact .inl rfl
  obtain ⟨s3, hrun3, h3⟩ := feedReferences_sound hmid2 hpos hfirst2 fun t ht => by
    rw [hblocks2, ← Option.some.inj ht]
    simp
  refine ⟨s3, n1 + n2, ?_, by omega, ?_⟩
  · simp only [hrun3, bind_ok, drop_drop]
  rw [← htaken]
  exact h3

lemma feedLoop_sound (excess : Nat → Nat) (rounds : Nat) :
    ∀ {s : Server} {stream bytes : Bytes}, Sound base stream s → bytes.length < rounds →
      ∃ s', feedLoop excess rounds s bytes = .ok s' ∧ Sound base (stream ++ bytes) s' := by
  induction rounds with
  | zero => exact fun _ h => absurd h (Nat.not_lt_zero _)
  | succ rounds ih =>
    intro s stream bytes h hlen
    unfold feedLoop
    split
    · rename_i hnil
      rw [eq_nil_of_length_eq_zero hnil, append_nil]
      exact ⟨s, rfl, h⟩
    rename_i hne
    have hsome : bytes ≠ [] := fun hnil => hne (by rw [hnil]; rfl)
    obtain ⟨s1, n, hrun, hpos, h1⟩ := feedRound_sound excess h hsome
    have hshort : (bytes.drop n).length < rounds := by
      rw [length_drop]
      omega
    obtain ⟨s2, hrun2, h2⟩ := ih h1 hshort
    refine ⟨s2, by rw [hrun]; exact hrun2, ?_⟩
    rwa [append_assoc, take_append_drop] at h2

lemma feedReplicationBuffer_sound (excess : Nat → Nat) (h : Sound base stream s)
    (bytes : Bytes) : ∃ s', feedReplicationBuffer excess s bytes = .ok s' ∧
      Sound base (stream ++ bytes) s' :=
  feedLoop_sound excess _ h (Nat.lt_succ_self _)

end

end Redis.Replication.Stream
