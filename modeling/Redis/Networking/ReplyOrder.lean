import Redis.Networking.ReplyAppends
import Redis.Util.Numbers

/-! # Replies leave in the order they were added

A call that writes sends the first pending bytes. With that, a run keeps what was
written, followed by what is pending, equal to what was asked for. -/
namespace Redis.Networking.ReplyOrder
open List Lib Outcome Lib.Decimal Util.Numbers Replies
open ReplyCells ReplyAppends

/-! ## Writing -/

/-- Collecting the blocks drops nothing but empty ones, and the vector is a
first part of what is there. -/
lemma gather_spec {nodes : List ListNode} (hfilled : Filled nodes) :
    ∀ {iovcnt len offset : Nat}, offset = 0 ∨ offset < firstUsed nodes →
      ∃ iov kept freed, gather iovcnt len offset nodes = .ok (iov, kept, freed) ∧
        iov.flatten <+: (contents nodes).drop offset ∧ contents kept = contents nodes ∧
        sizes nodes = sizes kept + freed ∧ kept.Sublist nodes ∧
        (offset = 0 ∨ firstUsed kept = firstUsed nodes) := by
  induction nodes with
  | nil =>
    intro iovcnt len offset _
    exact ⟨[], [], 0, rfl, by simp, rfl, rfl, List.Sublist.refl _, Or.inr rfl⟩
  | cons node rest ih =>
    intro iovcnt len offset hoff
    obtain ⟨⟨a, o, rfl⟩, hrest⟩ := hfilled.cons
    unfold gather
    split
    · dsimp only
      split
      · rename_i hempty
        have hzero : offset = 0 := by
          rcases hoff with h | h
          · exact h
          · exact absurd h (by simp [firstUsed, hempty])
        have hnil : o.bytes = [] := eq_nil_of_length_eq_zero hempty
        obtain ⟨iov, kept, freed, hrun, hpre, hcont, hsize, hsub, -⟩ :=
          @ih hrest iovcnt len 0 (.inl rfl)
        refine ⟨iov, kept, freed + o.size, by simp only [hrun, bind_ok], ?_, ?_, ?_,
          hsub.cons _, Or.inl hzero⟩
        · rw [hzero, contents, hnil]
          exact hpre
        · rw [hcont, contents, hnil]
          rfl
        rw [sizes_cons, nodeSize_some]
        omega
      obtain ⟨iov, kept, freed, hrun, hpre, hcont, hsize, hsub, -⟩ :=
        @ih hrest (iovcnt + 1) (len + (o.bytes.drop offset).length) 0 (.inl rfl)
      have hle : offset ≤ o.bytes.length := by
        rcases hoff with h | h
        · rw [h]; exact Nat.zero_le _
        · exact h.le
      refine ⟨o.bytes.drop offset :: iov, ⟨a, some o⟩ :: kept, freed,
        by simp only [hrun, bind_ok], ?_, ?_, ?_, hsub.cons_cons _, Or.inr rfl⟩
      · rw [contents, drop_append_of_le_length hle]
        exact (prefix_append_right_inj _).mpr hpre
      · rw [contents, hcont, contents]
      · rw [sizes_cons, sizes_cons, hsize, add_assoc]
    · exact ⟨[], _, 0, rfl, nil_prefix, rfl, rfl, List.Sublist.refl _, Or.inr rfl⟩

lemma release_spec {nodes : List ListNode} (hfilled : Filled nodes) :
    ∀ {remaining sentlen : Nat}, sentlen = 0 ∨ sentlen < firstUsed nodes →
      sentlen + remaining ≤ (contents nodes).length →
      ∃ sentlen' kept freed, release remaining sentlen nodes = .ok (sentlen', kept, freed) ∧
        (contents kept).drop sentlen' = (contents nodes).drop (sentlen + remaining) ∧
        (sentlen' = 0 ∨ sentlen' < firstUsed kept) ∧ sizes nodes = sizes kept + freed ∧
        kept.Sublist nodes := by
  induction nodes with
  | nil =>
    intro remaining sentlen hsent hle
    have h0 : remaining = 0 := by simp [contents] at hle; omega
    subst h0
    exact ⟨sentlen, [], 0, rfl, rfl, hsent, rfl, List.Sublist.refl _⟩
  | cons node rest ih =>
    intro remaining sentlen hsent hle
    obtain ⟨⟨a, o, rfl⟩, hrest⟩ := hfilled.cons
    have hwithin : sentlen ≤ o.used := by
      rcases hsent with h | h
      · omega
      · exact h.le
    unfold release
    split
    · dsimp only
      split
      · refine ⟨sentlen + remaining, _, 0, rfl, rfl, Or.inr ?_, rfl, List.Sublist.refl _⟩
        rw [firstUsed]
        omega
      have hused : o.used = o.bytes.length := rfl
      rw [contents, length_append] at hle
      obtain ⟨sentlen', kept, freed, hrun, hdrop, hsent', hsize, hsub⟩ :=
        @ih hrest (remaining - (o.used - sentlen)) 0 (.inl rfl) (by omega)
      refine ⟨sentlen', kept, freed + o.size, by simp only [hrun, bind_ok], ?_, hsent',
        ?_, hsub.cons _⟩
      · have hpast : o.bytes.drop (sentlen + remaining) = [] := drop_eq_nil_of_le (by omega)
        rw [hdrop, contents, drop_append, hpast]
        congr 1
        omega
      · rw [sizes_cons, nodeSize_some]
        omega
    · have h0 : remaining = 0 := by omega
      subst h0
      exact ⟨sentlen, _, 0, rfl, rfl, hsent, rfl, List.Sublist.refl _⟩

variable {c : Client}

/-- What `releaseBuffer` makes of the static buffer, in terms of all bytes. -/
lemma releaseBuffer_spec (h : Sound c) {n : Nat}
    (hle : c.sentlen + n ≤ (c.buf.bytes ++ contents c.reply).length) :
    ∃ c' remaining, releaseBuffer c n = (c', remaining) ∧ Sound c' ∧ c'.reply = c.reply ∧
      c'.replyBytes = c.replyBytes ∧ (0 < c'.buf.used → remaining = 0) ∧
      c'.sentlen + remaining ≤ (c'.buf.bytes ++ contents c'.reply).length ∧
      (c'.buf.bytes ++ contents c'.reply).drop (c'.sentlen + remaining) =
        (c.buf.bytes ++ contents c.reply).drop (c.sentlen + n) := by
  have hused : c.buf.used = c.buf.bytes.length := rfl
  rw [length_append] at hle
  unfold releaseBuffer
  split
  · rename_i hpos
    have hwithin : c.sentlen < c.buf.used := by
      rcases h.sent with h0 | hlt
      · omega
      · rwa [firstLen, if_pos hpos] at hlt
    dsimp only
    split
    · refine ⟨_, _, rfl, ⟨h.nodup, h.below, h.total, Or.inl rfl⟩, rfl, rfl,
        fun hp => absurd hp (Nat.lt_irrefl 0), ?_, ?_⟩
      · simp only [Buffer.reset, nil_append]
        omega
      have hpast : c.buf.bytes.drop (c.sentlen + n) = [] := drop_eq_nil_of_le (by omega)
      simp only [Buffer.reset, nil_append]
      rw [drop_append, hpast]
      congr 1
      omega
    have hzero : n - (c.buf.used - c.sentlen) = 0 := by omega
    rw [hzero]
    refine ⟨_, _, rfl, ⟨h.nodup, h.below, h.total, Or.inr ?_⟩, rfl, rfl, fun _ => rfl, ?_, rfl⟩
    · rw [firstLen, if_pos hpos]
      show c.sentlen + n < c.buf.used
      omega
    rw [length_append]
    exact hle
  · rename_i hzero
    refine ⟨c, n, rfl, h, rfl, rfl, fun hp => absurd hp hzero, ?_, rfl⟩
    rw [length_append]
    exact hle

/-- The vector of `_writevToClient` starts the pending bytes, and what it skips
was empty. -/
lemma gather_client (h : Sound c) (hfilled : Filled c.reply) : ∃ blocks kept freed,
      gather (if 0 < c.buf.used then [c.buf.bytes.drop c.sentlen] else []).length
        (if 0 < c.buf.used then [c.buf.bytes.drop c.sentlen] else []).flatten.length
        (if 0 < c.buf.used then 0 else c.sentlen) c.reply = .ok (blocks, kept, freed) ∧
      ((if 0 < c.buf.used then [c.buf.bytes.drop c.sentlen] else []) ++ blocks).flatten <+:
        (c.buf.bytes ++ contents c.reply).drop c.sentlen ∧
      contents kept = contents c.reply ∧ Filled kept ∧
      Sound { c with reply := kept, replyBytes := c.replyBytes - freed } := by
  by_cases hpos : 0 < c.buf.used
  · have hwithin : c.sentlen ≤ c.buf.bytes.length := by
      rcases h.sent with h0 | hlt
      · omega
      rw [firstLen, if_pos hpos] at hlt
      exact hlt.le
    simp only [if_pos hpos]
    obtain ⟨blocks, kept, freed, hrun, hpre, hcont, hsize, hsub, -⟩ :=
      @gather_spec c.reply hfilled [c.buf.bytes.drop c.sentlen].length
        [c.buf.bytes.drop c.sentlen].flatten.length 0 (.inl rfl)
    refine ⟨blocks, kept, freed, hrun, ?_, hcont, hfilled.sublist hsub, ?_⟩
    · rw [flatten_append, flatten_singleton, drop_append_of_le_length hwithin]
      exact (prefix_append_right_inj _).mpr hpre
    refine h.of_sublist hsub rfl (by simp only [h.total]; omega) ?_
    have hsent := h.sent
    rw [firstLen, if_pos hpos] at hsent
    rwa [firstLen, if_pos hpos]
  have hnil : c.buf.bytes = [] := eq_nil_of_length_eq_zero (by unfold Buffer.used at hpos; omega)
  have hsent := h.sent
  rw [firstLen, if_neg hpos] at hsent
  simp only [if_neg hpos]
  obtain ⟨blocks, kept, freed, hrun, hpre, hcont, hsize, hsub, hfirst⟩ :=
    @gather_spec c.reply hfilled 0 0 c.sentlen hsent
  refine ⟨blocks, kept, freed, hrun, ?_, hcont, hfilled.sublist hsub, ?_⟩
  · rw [hnil]
    exact hpre
  refine h.of_sublist hsub rfl (by simp only [h.total]; omega) ?_
  rw [firstLen, if_neg hpos]
  rcases hfirst with h0 | heq
  · exact .inl h0
  · exact heq ▸ hsent

/-- The list after the static buffer was dealt with: bytes are released from it
only when the buffer is empty. -/
lemma release_client (h : Sound c) (hfilled : Filled c.reply) {remaining : Nat}
    (hzero : 0 < c.buf.used → remaining = 0)
    (hle : c.sentlen + remaining ≤ (c.buf.bytes ++ contents c.reply).length) :
    ∃ sentlen kept freed, release remaining c.sentlen c.reply = .ok (sentlen, kept, freed) ∧
      (c.buf.bytes ++ contents kept).drop sentlen =
        (c.buf.bytes ++ contents c.reply).drop (c.sentlen + remaining) ∧
      (sentlen = 0 ∨ sentlen < if 0 < c.buf.used then c.buf.used else firstUsed kept) ∧
      sizes c.reply = sizes kept + freed ∧ kept.Sublist c.reply := by
  have hs := h.sent
  by_cases hpos : 0 < c.buf.used
  · rw [firstLen, if_pos hpos] at hs
    refine ⟨c.sentlen, c.reply, 0, ?_, by rw [hzero hpos]; rfl, ?_, rfl, List.Sublist.refl _⟩
    · rw [hzero hpos]
      cases c.reply <;> rfl
    · rwa [if_pos hpos]
  have hnil : c.buf.bytes = [] := eq_nil_of_length_eq_zero (by unfold Buffer.used at hpos; omega)
  rw [firstLen, if_neg hpos] at hs
  rw [hnil] at hle
  simp only [if_neg hpos, hnil]
  exact release_spec hfilled hs hle

/-- One call that writes: it sends the first pending bytes, and they are no
longer pending. -/
structure Sends (c c' : Client) (sent : Bytes) : Prop where
  sound : Sound c'
  filled : Filled c'.reply
  pending : pending c = bytes sent ++ pending c'

lemma Sends.refl (h : Sound c) (hfilled : Filled c.reply) : Sends c c [] := ⟨h, hfilled, rfl⟩

lemma Sends.trans {c' c'' : Client} {s t : Bytes} (h : Sends c c' s) (h' : Sends c' c'' t) :
    Sends c c'' (s ++ t) :=
  ⟨h'.sound, h'.filled, by rw [h.pending, h'.pending, bytes_append, append_assoc]⟩

lemma writevToClient_sends (h : Sound c) (hfilled : Filled c.reply) (accepts : Nat) :
    ∃ c' sent, writevToClient c accepts = .ok (c', sent) ∧ Sends c c' (sent.getD []) := by
  obtain ⟨blocks, kept, freed, hrun, hpre, hcont, hkept, hsound⟩ := gather_client h hfilled
  obtain ⟨c1, hc1⟩ : ∃ c1, c1 = { c with reply := kept, replyBytes := c.replyBytes - freed } :=
    ⟨_, rfl⟩
  rw [← hc1] at hsound
  have hfilled1 : Filled c1.reply := by rw [hc1]; exact hkept
  have hall : c1.buf.bytes ++ contents c1.reply = c.buf.bytes ++ contents c.reply := by
    rw [hc1, hcont]
  have hsent1 : c1.sentlen = c.sentlen := by rw [hc1]
  have hpend : pending c = pending c1 := by
    rw [pending_of_filled hfilled, pending_of_filled hfilled1, hall, hsent1]
  have hnone : Sends c c1 [] := ⟨hsound, hfilled1, hpend⟩
  obtain ⟨iov, hiov⟩ : ∃ iov, iov = (if 0 < c.buf.used then [c.buf.bytes.drop c.sentlen] else []) ++
      blocks := ⟨_, rfl⟩
  rw [← hiov] at hpre
  unfold writevToClient
  simp only [hrun, bind_ok, ← hc1, ← hiov]
  split
  · exact ⟨c1, some [], rfl, hnone⟩
  generalize hsent : iov.flatten.take accepts = sent
  split
  · exact ⟨c1, none, rfl, hnone⟩
  have hstart : sent <+: (c1.buf.bytes ++ contents c1.reply).drop c1.sentlen := by
    rw [hall, hsent1, ← hsent]
    exact ( take_prefix _ _).trans hpre
  have hlen := hstart.length_le
  rw [length_drop] at hlen
  obtain ⟨c2, remaining, hbuf, hs2, hreply, -, hzero, hle2, hdrop⟩ :=
    releaseBuffer_spec (n := sent.length) hsound (by omega)
  obtain ⟨sentlen, kept', freed', hrel, hdrop', hsent', hsize', hsub'⟩ :=
    release_client hs2 (hreply ▸ hfilled1) hzero hle2
  simp only [hbuf, hrel]
  have hkept' : Filled kept' := (hreply ▸ hfilled1 : Filled c2.reply).sublist hsub'
  refine ⟨_, some sent, rfl, ⟨hs2.of_sublist hsub' rfl ?_ hsent', hkept', ?_⟩⟩
  · have htotal := hs2.total
    simp only
    omega
  rw [hpend, pending_of_filled hfilled1, pending_of_filled hkept', ← bytes_append]
  rw [hdrop', hdrop, ← drop_drop]
  exact congrArg bytes (prefix_iff_eq_append.mp hstart).symm

lemma writeOnce_sends (h : Sound c) (hfilled : Filled c.reply) (accepts : Nat) :
    ∃ c' sent, writeOnce c accepts = .ok (c', sent) ∧ Sends c c' (sent.getD []) := by
  unfold writeOnce
  split
  · obtain ⟨c', sent, hrun, hsends⟩ := writevToClient_sends h hfilled accepts
    refine ⟨c', sent, ?_, hsends⟩
    simp only [hrun, bind_ok]
    cases sent with
    | none => rfl
    | some sent =>
      dsimp only
      split
      · rename_i hempty
        have hzero : c'.replyBytes = 0 := by
          rw [hsends.sound.total, eq_nil_of_length_eq_zero hempty]
          rfl
        rw [check_pos hzero, bind_ok]
      · rfl
  have hnil : c.reply = [] := eq_nil_of_length_eq_zero (by omega)
  split
  · rename_i hpos
    have hpend : pending c = bytes (c.buf.bytes.drop c.sentlen) := by
      rw [pending_of_filled hfilled, hnil, contents, append_nil]
    obtain ⟨sent, hsent⟩ : ∃ sent, sent = (c.buf.bytes.drop c.sentlen).take accepts := ⟨_, rfl⟩
    have hstart : sent <+: c.buf.bytes.drop c.sentlen := hsent ▸ take_prefix _ _
    have hlen := hstart.length_le
    rw [length_drop] at hlen
    have hused : c.buf.used = c.buf.bytes.length := rfl
    simp only [← hsent]
    split
    · exact ⟨c, none, rfl, Sends.refl h hfilled⟩
    split
    · refine ⟨_, some sent, rfl, { h with sent := .inl rfl }, hfilled, ?_⟩
      rw [hpend, pending, hnil]
      have hsame : c.buf.bytes.drop c.sentlen = sent := by
        refine (hstart.eq_of_length ?_).symm
        rw [length_drop]
        omega
      rw [hsame]
      simp [Buffer.reset]
    refine ⟨_, some sent, rfl, { h with sent := .inr ?_ }, hfilled, ?_⟩
    · rw [firstLen, if_pos hpos]
      show c.sentlen + sent.length < c.buf.used
      omega
    rw [hpend, pending, hnil, cells_nil]
    rw [← prefix_iff_eq_append.mp hstart]
    simp [bytes]
  · exact ⟨c, some [], rfl, Sends.refl h hfilled⟩

lemma writeOnce_zero {c' : Client} {sent : Option Bytes}
    (h : writeOnce c 0 = .ok (c', sent)) : sent.getD [] = [] := by
  unfold writeOnce at h
  split at h
  · obtain ⟨⟨c1, sent1⟩, hrun, h⟩ := bind_eq_ok.mp h
    have hnone : sent1.getD [] = [] := by
      obtain ⟨⟨blocks, kept, freed⟩, -, hrun⟩ := bind_eq_ok.mp hrun
      dsimp only at hrun
      generalize (if 0 < c.buf.used then [c.buf.bytes.drop c.sentlen] else []) ++ blocks = iov at hrun
      split at hrun <;> cases hrun <;> rfl
    cases sent1 with
    | none => cases h; rfl
    | some s =>
      dsimp only at h
      split at h
      · obtain ⟨u, -, h⟩ := bind_eq_ok.mp h
        cases h
        exact hnone
      cases h
      exact hnone
  · split at h
    · cases h
      rfl
    cases h
    rfl

lemma writeLoop_sends (overMaxmemory : Bool) (accepted : List Nat) :
    ∀ {c : Client} (_ : Sound c) (_ : Filled c.reply) (totwritten : Nat),
      ∃ c' sent, writeLoop c overMaxmemory totwritten accepted = .ok (c', sent) ∧
        Sends c c' sent := by
  induction accepted with
  | nil =>
    intro c h hfilled totwritten
    unfold writeLoop
    split
    · -- the socket takes nothing, whatever the call answers
      obtain ⟨c', sent, hrun, hsends⟩ := writeOnce_sends h hfilled 0
      have hnone : sent.getD [] = [] := writeOnce_zero hrun
      rw [hnone] at hsends
      exact ⟨c', [], by simp only [hrun, bind_ok], hsends⟩
    · exact ⟨c, [], rfl, Sends.refl h hfilled⟩
  | cons accepts rest ih =>
    intro c h hfilled totwritten
    unfold writeLoop
    split
    · obtain ⟨c1, sent, hrun, hsends⟩ := writeOnce_sends h hfilled accepts
      simp only [hrun, bind_ok]
      cases sent with
      | none => exact ⟨c1, [], rfl, hsends⟩
      | some sent =>
        dsimp only
        split
        · exact ⟨c1, sent, rfl, hsends⟩
        obtain ⟨c2, more, hrun2, hsends2⟩ :=
          ih hsends.sound hsends.filled (totwritten + sent.length)
        exact ⟨c2, sent ++ more, by simp only [hrun2, bind_ok], hsends.trans hsends2⟩
    · exact ⟨c, [], rfl, Sends.refl h hfilled⟩

lemma writeToClient_sends (h : Sound c) (hfilled : Filled c.reply)
    (overMaxmemory : Bool) (accepted : List Nat) :
    ∃ c' sent, writeToClient c overMaxmemory accepted = .ok (c', sent) ∧ Sends c c' sent := by
  obtain ⟨c1, sent, hrun, hsends⟩ := writeLoop_sends overMaxmemory accepted h hfilled 0
  unfold writeToClient
  simp only [hrun, bind_ok]
  split
  · exact ⟨c1, sent, rfl, hsends⟩
  rename_i hnone
  -- with nothing pending, `sentlen` is zero already
  have hzero : c1.sentlen = 0 := by
    have hle := hsends.sound.sentlen_le hsends.filled
    simp only [clientHasPendingReplies, Bool.or_eq_true, decide_eq_true_eq, not_or, Nat.not_lt,
      Nat.le_zero] at hnone
    rw [eq_nil_of_length_eq_zero hnone.1, eq_nil_of_length_eq_zero hnone.2] at hle
    exact Nat.le_zero.mp hle
  have hsame : { c1 with sentlen := 0 } = c1 := by rw [← hzero]
  rw [hsame]
  refine ⟨_, sent, rfl, ?_⟩
  split
  · have hfree := sameOutput_freeClientAsync c1
    exact ⟨hfree.sound hsends.sound, hfree.reply ▸ hsends.filled, hfree.pending ▸ hsends.pending⟩
  · exact hsends

/-! ## Runs -/

lemma aggregateHeader_eq (length : Nat) (lead : UInt8) :
    aggregateHeader length lead = headerText lead length := by
  unfold aggregateHeader
  dsimp only
  split
  · rename_i h
    refine take_of_length_le ?_
    have hlt : length < 32 := h.2
    have hdigits : (decimal length).length ≤ if length < 10 then 1 else 2 := by
      split
      · rename_i hsmall
        rw [decimal_of_lt hsmall]
        exact le_rfl
      · exact Nat.le_of_eq (length_decimal_eq (k := 1) (by omega) (by omega))
    simp only [headerText, length_cons, length_append, length_nil]
    split at hdigits <;> split <;> omega
  · rfl

/-- The calls that touch the output of a client. `setFlags` is everything else
that happens to the client between them. -/
inductive Op where
  | setFlags (flags : ClientFlags) (conn : Bool)
  | addReply (s : Bytes) (excess : Nat) (overLimit : Bool)
  | addDeferredLen (excess : Nat)
  | setDeferred (node : Option Nat) (s : Bytes) (excess : Nat) (overLimit : Bool)
  | setDeferredLen (node : Option Nat) (length : Int) (lead : UInt8) (excess : Nat)
      (overLimit : Bool)
  | write (overMaxmemory : Bool) (accepted : List Nat)

/-- A client, what was asked to be sent to it, and what was sent. -/
structure World where
  client : Client
  stream : List Cell
  written : Bytes

/-- The header in the place of the placeholder. -/
def setHeader (node : Option Nat) (s : Bytes) (stream : List Cell) : List Cell :=
  match node with
  | none => stream
  | some addr => fillHole addr s stream

def perform (op : Op) (w : World) : Outcome World :=
  match op with
  | .setFlags flags conn => .ok { w with client := { w.client with flags := flags, conn := conn } }
  | .addReply s excess overLimit => do
    let c ← addReplyProto w.client s excess overLimit
    .ok { w with
      client := c
      stream := w.stream ++ if takesReplies w.client then bytes s else [] }
  | .addDeferredLen excess => do
    let (c, node) ← addReplyDeferredLen w.client excess
    .ok { w with client := c, stream := w.stream ++ holeOf node }
  | .setDeferred node s excess overLimit => do
    let c ← setDeferredReply w.client node s excess overLimit
    .ok { w with client := c, stream := setHeader node s w.stream }
  | .setDeferredLen node length lead excess overLimit => do
    let c ← setDeferredAggregateLen w.client node length lead excess overLimit
    .ok { w with client := c, stream := setHeader node (headerText lead length.toNat) w.stream }
  | .write overMaxmemory accepted => do
    let (c, sent) ← writeToClient w.client overMaxmemory accepted
    .ok { w with client := c, written := w.written ++ sent }

/-- What the callers keep to: a placeholder is filled once, with a length that
is not negative, and all of them are filled when data is written. Replicas are
written to from another buffer. -/
def Allowed (op : Op) (w : World) : Prop :=
  match op with
  | .setFlags _ _ => True
  | .addReply _ _ _ => True
  | .addDeferredLen _ => True
  | .setDeferred node _ _ _ => ∀ a ∈ node, Cell.hole a ∈ w.stream
  | .setDeferredLen node length _ _ _ => 0 ≤ length ∧ ∀ a ∈ node, Cell.hole a ∈ w.stream
  | .write _ _ => w.client.flags.slave = false ∧ ∀ x ∈ w.stream, x.isHole = false

instance (op : Op) (w : World) : Decidable (Allowed op w) := by
  unfold Allowed
  cases op <;> infer_instance

def runAll : List Op → World → Outcome World
  | [], w => .ok w
  | op :: ops, w => do
    let w ← perform op w
    runAll ops w

def AllowedRun : List Op → World → Prop
  | [], _ => True
  | op :: ops, w => Allowed op w ∧
    match perform op w with
    | .ok w' => AllowedRun ops w'
    | .error _ => True

instance decidableAllowedRun : (ops : List Op) → (w : World) → Decidable (AllowedRun ops w)
  | [], _ => .isTrue trivial
  | op :: ops, w => by
    unfold AllowedRun
    cases perform op w with
    | error f => infer_instance
    | ok w' =>
      have := decidableAllowedRun ops w'
      infer_instance

structure InOrder (w : World) : Prop where
  sound : Sound w.client
  stream : bytes w.written ++ pending w.client = w.stream

variable {w : World}

lemma InOrder.hole_pending (h : InOrder w) {a : Nat} (ha : Cell.hole a ∈ w.stream) :
    Cell.hole a ∈ pending w.client := by
  rw [← h.stream] at ha
  exact (mem_append.mp ha).resolve_left (hole_not_mem_bytes _ _)

lemma InOrder.filled (h : InOrder w) (hno : ∀ x ∈ w.stream, x.isHole = false) :
    Filled w.client.reply := by
  intro node hnode hvalue
  obtain ⟨s, rest, hs, -, hp⟩ := h.sound.split
  have hcell : Cell.hole node.addr ∈ cells w.client.reply := by
    refine mem_flatMap.mpr ⟨node, hnode, ?_⟩
    rw [nodeCells, hvalue]
    exact mem_singleton_self _
  have hall : Cell.hole node.addr ∈ bytes s ++ rest := hs ▸ mem_append_right _ hcell
  have hrest := (mem_append.mp hall).resolve_left (hole_not_mem_bytes _ _)
  have hstream : Cell.hole node.addr ∈ w.stream := by
    rw [← h.stream, hp]
    exact mem_append_right _ hrest
  cases hno _ hstream

/-- Filling a placeholder of the client fills the hole of the stream. -/
lemma InOrder.setDeferred (h : InOrder w) {node : Option Nat}
    (hnode : ∀ a ∈ node, Cell.hole a ∈ w.stream) (s : Bytes) (excess : Nat) (overLimit : Bool) :
    ∃ c, setDeferredReply w.client node s excess overLimit = .ok c ∧
      InOrder { w with client := c, stream := setHeader node s w.stream } := by
  cases node with
  | none => exact ⟨w.client, rfl, h⟩
  | some a =>
    obtain ⟨c, hrun, hs, hp⟩ :=
      setDeferredReply_fills h.sound (h.hole_pending (hnode a rfl)) s excess overLimit
    refine ⟨c, hrun, hs, ?_⟩
    show bytes w.written ++ pending c = fillHole a s w.stream
    rw [hp, ← h.stream, fillHole_append, fillHole_of_not_mem (hole_not_mem_bytes _ _)]

lemma perform_inOrder {op : Op} (h : InOrder w) (ha : Allowed op w) :
    ∃ w', perform op w = .ok w' ∧ InOrder w' := by
  unfold perform
  cases op with
  | setFlags flags conn => exact ⟨_, rfl, { h.sound with }, h.stream⟩
  | addReply s excess overLimit =>
    obtain ⟨c, hrun, hs, hp⟩ := addReplyProto_appends h.sound s excess overLimit
    simp only [hrun]
    refine ⟨_, rfl, hs, ?_⟩
    rw [hp, ← append_assoc, h.stream]
  | addDeferredLen excess =>
    obtain ⟨c, node, hrun, hs, hp⟩ := addReplyDeferredLen_appends h.sound excess
    simp only [hrun]
    refine ⟨_, rfl, hs, ?_⟩
    rw [hp, ← append_assoc, h.stream]
  | setDeferred node s excess overLimit =>
    obtain ⟨c, hrun, hw⟩ := h.setDeferred ha s excess overLimit
    exact ⟨_, by simp only [hrun, bind_ok], hw⟩
  | setDeferredLen node length lead excess overLimit =>
    obtain ⟨c, hrun, hw⟩ := h.setDeferred ha.2 (headerText lead length.toNat) excess overLimit
    refine ⟨_, ?_, hw⟩
    simp only [setDeferredAggregateLen, check_pos ha.1, aggregateHeader_eq, hrun, bind_ok]
  | write overMaxmemory accepted =>
    obtain ⟨c, sent, hrun, hsends⟩ :=
      writeToClient_sends h.sound (h.filled ha.2) overMaxmemory accepted
    simp only [hrun]
    refine ⟨_, rfl, hsends.sound, ?_⟩
    rw [bytes_append, append_assoc, ← hsends.pending, h.stream]

lemma runAll_inOrder {ops : List Op} :
    ∀ {w : World}, InOrder w → AllowedRun ops w → ∃ w', runAll ops w = .ok w' ∧ InOrder w' := by
  induction ops with
  | nil => exact fun h _ => ⟨_, rfl, h⟩
  | cons op ops ih =>
    intro w h ha
    obtain ⟨w1, hrun, h1⟩ := perform_inOrder h ha.1
    have ha1 := ha.2
    rw [hrun] at ha1
    obtain ⟨w2, hrun2, h2⟩ := ih h1 ha1
    exact ⟨w2, by simp only [runAll, hrun, bind_ok, hrun2], h2⟩

def newWorld (flags : ClientFlags) (conn : Bool) (usable : Nat) : World :=
  ⟨createClient flags conn usable, [], []⟩

/-- Whatever is added, deferred, filled and written, what went to the socket
followed by what is pending is what was asked for, and `reply_bytes` is the size
of the list. -/
theorem replies_in_order (flags : ClientFlags) (conn : Bool) (usable : Nat) (ops : List Op)
    (h : AllowedRun ops (newWorld flags conn usable)) :
    ∃ w, runAll ops (newWorld flags conn usable) = .ok w ∧
      bytes w.written ++ pending w.client = w.stream ∧
      w.client.replyBytes = sizes w.client.reply := by
  have hnew : InOrder (newWorld flags conn usable) := ⟨sound_createClient flags conn usable, rfl⟩
  obtain ⟨w, hrun, hw⟩ := runAll_inOrder hnew h
  exact ⟨w, hrun, hw.stream, hw.sound.total⟩

/-- Two nested placeholders, the inner one filled first, in a client whose static
buffer holds one byte; the socket takes three bytes and then the rest. -/
def nestedRun : List Op :=
  [.addReply [97] 0 false, .addDeferredLen 0, .addReply [98] 0 false, .addDeferredLen 0,
    .addReply [99] 0 false, .setDeferred (some 2) [43, 44] 0 false,
    .setDeferred (some 0) [42] 0 false, .write false [3], .write false [100]]

theorem replies_in_order_nested : AllowedRun nestedRun (newWorld {} true 1) ∧
      ∃ w, runAll nestedRun (newWorld {} true 1) = .ok w ∧
        bytes w.written ++ pending w.client = w.stream ∧
        w.client.replyBytes = sizes w.client.reply := by
  have h : AllowedRun nestedRun (newWorld {} true 1) := by decide +kernel
  exact ⟨h, replies_in_order {} true 1 nestedRun h⟩

end Redis.Networking.ReplyOrder
