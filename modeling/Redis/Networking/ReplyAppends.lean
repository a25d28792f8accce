import Redis.Networking.ReplyCells

/-! # Adding replies and filling deferred lengths

Each function that adds to the output has one lemma that says what it does to
the cells that are pending. -/
namespace Redis.Networking.ReplyAppends
open List Lib Outcome Replies ReplyCells

/-! ## Filling the last node -/

/-- `nodes'` is `nodes` with `s` behind it: no node came, went or moved. -/
structure Extends (nodes nodes' : List ListNode) (s : Bytes) : Prop where
  cells : cells nodes' = cells nodes ++ bytes s
  sizes : sizes nodes' = sizes nodes
  addrs : nodes'.map ListNode.addr = nodes.map ListNode.addr
  first : firstUsed nodes ≤ firstUsed nodes'

lemma Extends.refl (nodes : List ListNode) : Extends nodes nodes [] := ⟨by simp, rfl, rfl, le_rfl⟩

variable {nodes : List ListNode} {s : Bytes} {a : Nat} {c : Client}

lemma getLast?_eq_some {node} (h : nodes.getLast? = some node) : nodes = nodes.dropLast ++ [node] :=
  (dropLast_append_getLast? node h).symm

lemma firstUsed_last (nodes : List ListNode) (a : Nat) {t t'} (h : t.used ≤ t'.used) :
    firstUsed (nodes ++ [⟨a, some t⟩]) ≤ firstUsed (nodes ++ [⟨a, some t'⟩]) := by
  match nodes with
  | [] => exact h
  | ⟨_, none⟩ :: _ | ⟨_, some b⟩ :: _ => exact le_rfl

lemma extends_last {t t'} (h : nodes.getLast? = some ⟨a, some t⟩) (hsize : t'.size = t.size)
    (hbytes : t'.bytes = t.bytes ++ s) : Extends nodes (nodes.dropLast ++ [⟨a, some t'⟩]) s := by
  have hn := getLast?_eq_some h
  generalize nodes.dropLast = before at hn ⊢
  subst hn
  refine ⟨?_, ?_, ?_, ?_⟩
  · simp [hbytes]
  · simp [hsize]
  · simp
  · exact firstUsed_last before a (by simp [Buffer.used, hbytes])

/-! ## Appending -/

lemma appendToTail_extends (reply : List ListNode) (s : Bytes) :
    ∃ reply' n, appendToTail reply s = .ok (reply', s.drop n) ∧
      Extends reply reply' (s.take n) := by
  unfold appendToTail
  split
  · rename_i a t hlast
    obtain ⟨n, hn⟩ : ∃ n, n = if s.length ≤ t.available then s.length else t.available := ⟨_, rfl⟩
    have hfit : (s.take n).length ≤ t.available := by
      rw [length_take, hn]
      split <;> omega
    obtain ⟨t', ht, hsize, hbytes⟩ := Buffer.append_ok hfit
    refine ⟨reply.dropLast ++ [⟨a, some t'⟩], n, ?_, extends_last hlast hsize hbytes⟩
    simp only [← hn, ht, bind_ok]
  · exact ⟨reply, 0, by rw [drop_zero], by exact Extends.refl reply⟩

lemma sameOutput_freeClientAsync (c : Client) : SameOutput c (freeClientAsync c) := by
  unfold freeClientAsync
  split <;> exact ⟨rfl, rfl, rfl, rfl, rfl⟩

lemma sameOutput_close (overLimit : Bool) (c : Client) :
    SameOutput c (closeClientOnOutputBufferLimitReached overLimit c) := by
  unfold closeClientOnOutputBufferLimitReached
  split
  · exact ⟨rfl, rfl, rfl, rfl, rfl⟩
  split
  · exact ⟨rfl, rfl, rfl, rfl, rfl⟩
  split
  · exact sameOutput_freeClientAsync c
  · exact ⟨rfl, rfl, rfl, rfl, rfl⟩

lemma addReplyProtoToList_appends (h : Sound c) (s : Bytes) (excess : Nat) (overLimit : Bool) :
    ∃ c', addReplyProtoToList c s excess overLimit = .ok c' ∧ Sound c' ∧
      pending c' = pending c ++ bytes s := by
  obtain ⟨reply, n, hrun, hext⟩ := appendToTail_extends c.reply s
  unfold addReplyProtoToList
  simp only [hrun, bind_ok]
  split
  · rename_i hnil
    have hall : s.take n = s := by
      have := take_append_drop n s
      rwa [eq_nil_of_length_eq_zero hnil, append_nil] at this
    rw [hall] at hext
    refine ⟨_, rfl, h.of_list rfl rfl ?_ ?_ ?_ ?_, ?_⟩
    · exact hext.addrs ▸ h.nodup
    · exact hext.addrs ▸ h.below
    · exact h.total.trans hext.sizes.symm
    · exact fun _ _ => hext.first
    · exact pending_append h (by rw [hext.cells, append_assoc]) rfl
  obtain ⟨size, hsize⟩ : ∃ size, size = if (s.drop n).length < protoReplyChunkBytes then
      protoReplyChunkBytes else (s.drop n).length := ⟨_, rfl⟩
  have hroom : (s.drop n).length ≤ size + excess := by
    rw [hsize]
    split <;> omega
  simp only [← hsize, Buffer.create_ok hroom]
  refine ⟨_, rfl, (sameOutput_close overLimit _).transfer ?_⟩
  obtain ⟨hnodup, hbelow⟩ := nodup_append_fresh h hext.addrs (some ⟨size + excess, s.drop n, hroom⟩)
  refine ⟨h.of_list rfl rfl hnodup hbelow ?_ ?_, ?_⟩
  · simp [hext.sizes, h.total]
  · exact fun _ _ => Nat.le_trans hext.first (firstUsed_le_append _ _)
  refine pending_append h ?_ rfl
  simp [hext.cells, bytes_take_drop]

/-- The static buffer takes a part of `s`, none of it once there is a list. -/
lemma addReplyToBuffer_appends (h : Sound c) (s : Bytes) :
    ∃ c' n, addReplyToBuffer c s = .ok (c', n) ∧ Sound c' ∧
      pending c' = pending c ++ bytes (s.take n) := by
  unfold addReplyToBuffer
  split
  · exact ⟨c, 0, rfl, h, by simp⟩
  have hnil : c.reply = [] := eq_nil_of_length_eq_zero (by omega)
  obtain ⟨n, hn⟩ : ∃ n, n = if c.buf.available < s.length then c.buf.available else s.length :=
    ⟨_, rfl⟩
  have hfit : (s.take n).length ≤ c.buf.available := by
    rw [length_take, hn]
    split <;> omega
  obtain ⟨buf, hbuf, -, hbytes⟩ := Buffer.append_ok hfit
  simp only [← hn, hbuf]
  refine ⟨_, _, rfl, ⟨h.nodup, h.below, h.total, ?_⟩, ?_⟩
  · rcases h.sent with h0 | hlt
    · exact .inl h0
    right
    -- without a list the static buffer is what `sentlen` counts in
    have hpos : 0 < c.buf.used ∧ c.sentlen < c.buf.used := by
      unfold firstLen at hlt
      rw [hnil] at hlt
      split at hlt
      · exact ⟨by assumption, hlt⟩
      · exact absurd hlt (Nat.not_lt_zero _)
    have hle : c.buf.used ≤ buf.used := by simp [Buffer.used, hbytes]
    unfold firstLen
    rw [if_pos (show 0 < buf.used by omega)]
    exact Nat.lt_of_lt_of_le hpos.2 hle
  · refine pending_append h ?_ rfl
    simp [hbytes, hnil]

/-- Whether a fragment given to `addReplyProto` becomes part of the output. -/
def takesReplies (c : Client) : Bool :=
  prepareClientToWrite c && !c.flags.closeAfterReply && !c.flags.slave

lemma addReplyProto_appends (h : Sound c) (s : Bytes) (excess : Nat) (overLimit : Bool) :
    ∃ c', addReplyProto c s excess overLimit = .ok c' ∧ Sound c' ∧
      pending c' = pending c ++ if takesReplies c then bytes s else [] := by
  unfold addReplyProto addReplyToBufferOrList takesReplies
  cases hprep : prepareClientToWrite c with
  | false => exact ⟨c, by simp, h, by simp⟩
  | true =>
    cases hafter : c.flags.closeAfterReply with
    | true => exact ⟨c, by simp, h, by simp⟩
    | false =>
      cases hslave : c.flags.slave with
      | true =>
        exact ⟨_, by simp only [if_true, Bool.false_eq_true, if_false],
          (sameOutput_freeClientAsync c).transfer ⟨h, by simp⟩⟩
      | false =>
        obtain ⟨c1, n, hrun, h1, hp1⟩ := addReplyToBuffer_appends h s
        simp only [if_true, Bool.false_eq_true, if_false, hrun, bind_ok, Bool.not_false,
          Bool.and_self]
        split
        · obtain ⟨c2, hrun2, h2, hp2⟩ := addReplyProtoToList_appends h1 (s.drop n) excess overLimit
          exact ⟨c2, hrun2, h2, by rw [hp2, hp1, append_assoc, bytes_take_drop]⟩
        exact ⟨c1, rfl, h1, by rw [hp1, take_of_length_le (by omega)]⟩

/-! ## Deferred lengths -/

lemma trimReplyUnusedTailSpace_keeps (h : Sound c) (excess : Nat) :
    ∃ c', trimReplyUnusedTailSpace c excess = .ok c' ∧ Sound c' ∧ pending c' = pending c := by
  unfold trimReplyUnusedTailSpace
  split
  · rename_i a t hlast
    split
    · have hroom : t.bytes.length ≤ t.used + excess := Nat.le_add_right _ _
      simp only [Buffer.create_ok hroom]
      have hn := getLast?_eq_some hlast
      generalize c.reply.dropLast = before at hn ⊢
      have htotal := h.total
      rw [hn] at htotal
      simp only [sizes_append, sizes_cons, sizes_nil, nodeSize_some] at htotal
      refine ⟨_, rfl, h.of_list rfl rfl ?_ ?_ ?_ ?_, ?_⟩
      · have := h.nodup
        rw [hn] at this
        simpa using this
      · have := h.below
        rw [hn] at this
        simpa using this
      · simp only [sizes_append, sizes_cons, sizes_nil, nodeSize_some]
        omega
      · intro _ _
        rw [hn]
        exact firstUsed_last before a le_rfl
      · rw [pending, pending, hn]
        simp
    · exact ⟨c, rfl, h, rfl⟩
  · exact ⟨c, rfl, h, rfl⟩

/-- The cell that stands for a placeholder. -/
def holeOf : Option Nat → List Cell
  | none => []
  | some addr => [.hole addr]

lemma addReplyDeferredLen_appends (h : Sound c) (excess : Nat) :
    ∃ c' node, addReplyDeferredLen c excess = .ok (c', node) ∧ Sound c' ∧
      pending c' = pending c ++ holeOf node := by
  unfold addReplyDeferredLen
  split
  · split
    · exact ⟨_, none, rfl, (sameOutput_freeClientAsync c).transfer ⟨h, by simp [holeOf]⟩⟩
    obtain ⟨c1, hrun, h1, hp1⟩ := trimReplyUnusedTailSpace_keeps h excess
    simp only [hrun]
    obtain ⟨hnodup, hbelow⟩ := nodup_append_fresh h1 rfl none
    refine ⟨_, some c1.fresh, rfl, h1.of_list rfl rfl hnodup hbelow ?_ ?_, ?_⟩
    · simp [h1.total]
    · exact fun _ _ => firstUsed_le_append _ _
    rw [← hp1]
    refine pending_append h1 ?_ rfl
    simp [holeOf]
  · exact ⟨c, none, rfl, h, by simp [holeOf]⟩

lemma findNode_of_mem {v}
    (hmem : (⟨a, v⟩ : ListNode) ∈ nodes) (hnodup : (nodes.map ListNode.addr).Nodup) :
    ∃ before after, findNode a nodes = some (before, v, after) ∧
      nodes = before ++ ⟨a, v⟩ :: after := by
  induction nodes with
  | nil => exact (nomatch hmem)
  | cons node rest ih =>
    rw [map_cons, nodup_cons] at hnodup
    rcases mem_cons.mp hmem with heq | hrest
    · subst heq
      exact ⟨[], rest, by simp [findNode], rfl⟩
    have hne : node.addr ≠ a := fun hab =>
      hnodup.1 (hab ▸ mem_map.mpr ⟨_, hrest, rfl⟩)
    obtain ⟨before, after, hfind, hsplit⟩ := ih hrest hnodup.2
    exact ⟨node :: before, after, by simp [findNode, hne, hfind], by rw [hsplit]; rfl⟩

lemma fillPrev_extends (before : List ListNode) (s : Bytes) :
    ∃ filled n, fillPrev before s = .ok (filled, s.drop n) ∧ Extends before filled (s.take n) := by
  have hnone : Extends before before (s.take 0) := by
    exact Extends.refl before
  unfold fillPrev
  split
  · rename_i a t hlast
    split
    · obtain ⟨n, hn⟩ : ∃ n, n = if s.length < t.size - t.used then s.length else t.size - t.used :=
        ⟨_, rfl⟩
      have hfit : (s.take n).length ≤ t.available := by
        rw [length_take, hn, Buffer.available]
        split <;> omega
      obtain ⟨t', ht, hsize, hbytes⟩ := Buffer.append_ok hfit
      refine ⟨before.dropLast ++ [⟨a, some t'⟩], n, ?_, extends_last hlast hsize hbytes⟩
      simp only [← hn, ht, bind_ok]
    · exact ⟨before, 0, by rw [drop_zero], hnone⟩
  · exact ⟨before, 0, by rw [drop_zero], hnone⟩

lemma gluesToNext_eq_some {after rest length addr next}
    (h : gluesToNext after length = some (addr, next, rest)) :
    after = ⟨addr, some next⟩ :: rest ∧ length ≤ next.available := by
  unfold gluesToNext at h
  split at h
  · split at h
    · rename_i hroom
      cases h
      exact ⟨rfl, hroom.1⟩
    · cases h
  · cases h

lemma firstUsed_fill {before filled} (h : Extends before filled s)
    (a : Nat) (after rest : List ListNode) :
    firstUsed (before ++ ⟨a, none⟩ :: after) ≤ firstUsed (filled ++ rest) := by
  by_cases hnil : before = []
  · rw [hnil]
    exact Nat.zero_le _
  rw [firstUsed_append before _ hnil]
  exact Nat.le_trans h.first (firstUsed_le_append _ _)

lemma pending_fill {c'} (h : Sound c) (hcells : bytes c'.buf.bytes ++ cells c'.reply =
      fillHole a s (bytes c.buf.bytes ++ cells c.reply))
    (hsent : c'.sentlen = c.sentlen) : pending c' = fillHole a s (pending c) := by
  obtain ⟨x, rest, hx, hlen, hp⟩ := h.split
  rw [hp, pending, hcells, hx, hsent, ← hlen, fillHole_append,
    fillHole_of_not_mem (hole_not_mem_bytes a x), drop_left' (length_bytes x)]

lemma fillHole_cells (s : Bytes) {before after}
    (h : ((before ++ ⟨a, none⟩ :: after).map ListNode.addr).Nodup) (x : Bytes) :
    fillHole a s (bytes x ++ cells (before ++ ⟨a, none⟩ :: after)) =
      bytes x ++ (cells before ++ (bytes s ++ cells after)) := by
  rw [map_append, map_cons, nodup_append, nodup_cons] at h
  have hbefore : a ∉ before.map ListNode.addr := fun ha =>
    h.2.2 a ha a mem_cons_self rfl
  rw [cells_append, cells_cons, nodeCells_none, fillHole_append, fillHole_append, fillHole_append,
    fillHole_of_not_mem (hole_not_mem_bytes a x),
    fillHole_of_not_mem (not_hole_mem_cells hbefore), fillHole_hole,
    fillHole_of_not_mem (not_hole_mem_cells h.2.1.1)]

lemma setDeferredReply_fills (h : Sound c)
    (ha : Cell.hole a ∈ pending c) (s : Bytes) (excess : Nat) (overLimit : Bool) :
    ∃ c', setDeferredReply c (some a) s excess overLimit = .ok c' ∧ Sound c' ∧
      pending c' = fillHole a s (pending c) := by
  have hmem : (⟨a, none⟩ : ListNode) ∈ c.reply := by
    rcases mem_append.mp (mem_of_mem_drop ha) with hb | hl
    · exact absurd hb (hole_not_mem_bytes _ _)
    · exact hole_mem_cells hl
  obtain ⟨before, after, hfind, hsplit⟩ := findNode_of_mem hmem h.nodup
  obtain ⟨filled, n, hfill, hext⟩ := fillPrev_extends before s
  have hnodup := hsplit ▸ h.nodup
  have hbelow := hsplit ▸ h.below
  have htotal := h.total
  have hcells := fun x => fillHole_cells s hnodup x
  rw [hsplit, sizes_append, sizes_cons, nodeSize_none] at htotal
  rw [map_append] at hnodup hbelow
  have hsub : (before.map ListNode.addr ++ after.map ListNode.addr).Sublist
      (before.map ListNode.addr ++ a :: after.map ListNode.addr) :=
    (List.Sublist.refl _).append (sublist_cons_self _ _)
  unfold setDeferredReply
  simp only [hfind, bind_ok, hfill]
  split
  · rename_i hall
    have hs : s.take n = s := by
      have := take_append_drop n s
      rwa [eq_nil_of_length_eq_zero hall.2, append_nil] at this
    rw [hs] at hext
    refine ⟨_, rfl, h.of_list rfl rfl ?_ ?_ ?_ ?_, pending_fill h ?_ rfl⟩
    · rw [map_append, hext.addrs]
      exact hsub.nodup hnodup
    · rw [map_append, hext.addrs]
      exact fun x hx => hbelow x (hsub.subset hx)
    · simp only [sizes_append, hext.sizes]
      omega
    · exact fun _ _ => hsplit ▸ firstUsed_fill hext a after after
    · rw [hsplit, hcells, cells_append, hext.cells, append_assoc]
  split
  · rename_i na next rest hglue
    obtain ⟨rfl, hroom⟩ := gluesToNext_eq_some hglue
    obtain ⟨next', hnext, hsize, hbytes⟩ := Buffer.prepend_ok hroom
    simp only [hnext]
    refine ⟨_, rfl, h.of_list rfl rfl ?_ ?_ ?_ ?_, pending_fill h ?_ rfl⟩
    · rw [map_append, hext.addrs]
      exact hsub.nodup hnodup
    · rw [map_append, hext.addrs]
      exact fun x hx => hbelow x (hsub.subset hx)
    · simp only [sizes_append, sizes_cons, nodeSize_some, hext.sizes] at htotal ⊢
      omega
    · exact fun _ _ => hsplit ▸ firstUsed_fill hext a _ _
    · rw [hsplit, hcells, cells_append, hext.cells]
      simp [hbytes, ← bytes_take_drop s n]
  have hroom : (s.drop n).length ≤ (s.drop n).length + excess := Nat.le_add_right _ _
  simp only [Buffer.create_ok hroom]
  refine ⟨_, rfl, (sameOutput_close overLimit _).transfer
    ⟨h.of_list rfl rfl ?_ ?_ ?_ ?_, pending_fill h ?_ rfl⟩⟩
  · rw [map_append, hext.addrs]
    exact hnodup
  · rw [map_append, hext.addrs]
    exact hbelow
  · simp only [sizes_append, sizes_cons, nodeSize_some, hext.sizes]
    omega
  · exact fun _ _ => hsplit ▸ firstUsed_fill hext a after _
  · rw [hsplit, hcells, cells_append, hext.cells]
    simp [← bytes_take_drop s n]

end Redis.Networking.ReplyAppends
