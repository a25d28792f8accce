import Redis.Networking.RequestOrder

/-! # Sessions

A session reads from a socket and executes what it parsed. Commands may block the
client, be postponed and open transactions; a master's query buffer is kept until it was passed
on to the replicas. None of this loses or repeats a byte. -/
namespace Redis.Networking.RequestRuns
open List Lib Outcome Lib.Decimal Util.Numbers
open Requests Encoders RequestOrder

/-- The client as it is once it is not blocked: `unblockClient` resets it. -/
def settled (c : Client) : Client := if c.blocked then resetClient c else c

/-- The command that was parsed and postponed. -/
def postponed (c : Client) : List (List Bytes) := if c.pending then [c.argv] else []

/-- The offsets of a master's stream and what was passed on of it. -/
structure Proxied (stream : Bytes) (w : Session) (socket : Bytes) : Prop where
  applied : w.client.replApplied ≤ w.client.qbPos
  reploff : w.client.reploff =
    w.client.readReploff - w.client.querybuf.length + w.client.replApplied
  fed : w.fed ++ (w.client.querybuf.drop w.client.replApplied ++ socket) = stream

/-- A session that has executed the first commands of `all`, with the rest in its
query buffer and in the socket. -/
structure Sound (all : List (List Bytes)) (stream : Bytes) (w : Session) (socket : Bytes) :
    Prop where
  closeAfterReply : w.client.closeAfterReply = false
  closeAsap : w.client.closeAsap = false
  protocolError : w.client.protocolError = none
  pos : w.client.qbPos ≤ w.client.querybuf.length
  pending : w.client.pending = true → w.client.blocked = true
  reading : ∃ cmds, all = w.executed ++ (postponed w.client ++ cmds) ∧
    Reading (settled w.client) cmds (w.client.unread ++ socket)
  proxied : w.client.master = true → Proxied stream w socket

/-- The parser has gone as far as it can. -/
def Starved (all : List (List Bytes)) (w : Session) (socket : Bytes) : Prop :=
  w.client.blocked = false → socket = [] → w.executed = all

/-- A session of the client of a master or not, between two events. -/
structure Held (all : List (List Bytes)) (stream : Bytes) (master : Bool) (w : Session)
    (socket : Bytes) : Prop extends Sound all stream w socket where
  starved : Starved all w socket
  master : w.client.master = master

lemma reading_of_reset {c cmds stream}
    (h : stream = encodeCommands cmds) : Reading (resetClient c) cmds stream :=
  .between ⟨rfl, rfl, rfl⟩ (.inl rfl) h

lemma stream_of_reset {c cmds stream} (h : Reading (resetClient c) cmds stream) :
    stream = encodeCommands cmds := by
  cases h with
  | between _ _ hstream => exact hstream
  | inside _ hreq _ => cases hreq

/-- A reset client between commands is settled, blocked or not. -/
lemma reading_settled {c cmds stream}
    (h : stream = encodeCommands cmds) (hreset : c.blocked = false → c = resetClient c) :
    Reading (settled c) cmds stream := by
  unfold settled
  split
  · exact reading_of_reset h
  rename_i hb
  rw [hreset (by simpa using hb)]
  exact reading_of_reset h

lemma reading_settled_congr {c c' cmds stream} (h : Reading (settled c) cmds stream)
    (hblocked : c'.blocked = c.blocked) (hargv : c'.argv = c.argv)
    (hmissing : c'.multibulklen = c.multibulklen) (hbulk : c'.bulklen = c.bulklen)
    (hreq : c'.reqtype = c.reqtype) (hslots : c'.argvLen = c.argvLen) :
    Reading (settled c') cmds stream := by
  unfold settled at h ⊢
  rw [hblocked]
  split
  · rename_i hb
    rw [if_pos hb] at h
    exact reading_congr h rfl rfl rfl rfl hslots
  rename_i hb
  rw [if_neg hb] at h
  exact reading_congr h hargv hmissing hbulk hreq hslots

lemma Sound.reading_of_free {all stream w socket} (h : Sound all stream w socket)
    (hb : w.client.blocked = false) : w.client.pending = false ∧
      ∃ cmds, all = w.executed ++ cmds ∧ Reading w.client cmds (w.client.unread ++ socket) := by
  have hfree : ¬ w.client.pending = true := fun hp => by
    rw [h.pending hp] at hb
    cases hb
  have hreading := h.reading
  rw [settled, if_neg (by simp [hb]), postponed, if_neg hfree] at hreading
  exact ⟨by simpa using hfree, hreading⟩

/-! ## Executing a command -/

lemma commandProcessed_spec {c : Client} {cmds : List (List Bytes)} {socket : Bytes}
    (hpos : c.qbPos ≤ c.querybuf.length)
    (happlied : c.master = true → c.replApplied ≤ c.qbPos ∧
      c.reploff = c.readReploff - c.querybuf.length + c.replApplied)
    (hstream : c.unread ++ socket = encodeCommands cmds) :
    ∃ c' fed, commandProcessed c = .ok (c', fed) ∧ c'.closeAfterReply = c.closeAfterReply ∧
      c'.closeAsap = c.closeAsap ∧ c'.protocolError = c.protocolError ∧ c'.master = c.master ∧
      c'.querybuf = c.querybuf ∧ c'.qbPos = c.qbPos ∧ c'.pending = c.pending ∧
      Reading (settled c') cmds (c'.unread ++ socket) ∧
      (c.master = true → c'.replApplied ≤ c'.qbPos ∧
        c'.reploff = c'.readReploff - c'.querybuf.length + c'.replApplied ∧
        fed ++ c'.querybuf.drop c'.replApplied = c.querybuf.drop c.replApplied) := by
  unfold commandProcessed
  cases hb : c.blocked with
  | true =>
    exact ⟨c, [], rfl, rfl, rfl, rfl, rfl, rfl, rfl, rfl,
      reading_settled hstream (fun h => by rw [h] at hb; cases hb),
      fun hm => ⟨(happlied hm).1, (happlied hm).2, rfl⟩⟩
  | false =>
    simp only [Bool.false_eq_true, if_false]
    by_cases hup : c.master = true ∧ (!c.multi) = true
    · obtain ⟨hle, hoff⟩ := happlied hup.1
      have hupdate : updateReploff (resetClient c) = { resetClient c with
          reploff := c.readReploff - c.querybuf.length + c.qbPos } := if_pos hup
      have hdiff : c.readReploff - c.querybuf.length + c.qbPos - (resetClient c).reploff =
          ((c.qbPos - c.replApplied : Nat) : Int) := by
        show c.readReploff - c.querybuf.length + c.qbPos - c.reploff = _
        omega
      rw [hupdate]
      rw [hdiff]
      unfold feedApplied
      split
      · rw [if_pos ⟨Int.natCast_nonneg _, by
          show c.replApplied + (c.qbPos - c.replApplied) ≤ c.querybuf.length
          omega⟩]
        refine ⟨_, _, rfl, rfl, rfl, rfl, rfl, rfl, rfl, rfl, reading_settled hstream fun _ => rfl,
          fun _ => ⟨?_, ?_, ?_⟩⟩
        · show c.replApplied + (c.qbPos - c.replApplied) ≤ c.qbPos
          omega
        · show c.readReploff - c.querybuf.length + c.qbPos = c.readReploff - c.querybuf.length +
            ((c.replApplied + (c.qbPos - c.replApplied) : Nat) : Int)
          omega
        show (c.querybuf.drop c.replApplied).take (c.qbPos - c.replApplied) ++
          c.querybuf.drop (c.replApplied + (c.qbPos - c.replApplied)) =
          c.querybuf.drop c.replApplied
        rw [← drop_drop, take_append_drop]
      rename_i hzero
      have hsame : ((c.qbPos - c.replApplied : Nat) : Int) = 0 := by
        by_contra hne
        exact hzero ⟨hup.1, hne⟩
      refine ⟨_, _, rfl, rfl, rfl, rfl, rfl, rfl, rfl, rfl, reading_settled hstream fun _ => rfl,
        fun _ => ⟨hle, ?_, rfl⟩⟩
      show c.readReploff - c.querybuf.length + c.qbPos =
        c.readReploff - c.querybuf.length + c.replApplied
      omega
    · -- in a transaction the offset stays, and nothing is passed on
      have hupdate : updateReploff (resetClient c) = resetClient c := if_neg hup
      rw [hupdate, Int.sub_self, feedApplied, if_neg (fun h => h.2 rfl)]
      exact ⟨_, _, rfl, rfl, rfl, rfl, rfl, rfl, rfl, rfl, reading_settled hstream fun _ => rfl,
        fun hm => ⟨(happlied hm).1, (happlied hm).2, rfl⟩⟩

lemma processCommand_spec {all : List (List Bytes)} {stream : Bytes} {w : Session}
    {cmds : List (List Bytes)} {socket : Bytes} (hafter : w.client.closeAfterReply = false)
    (hasap : w.client.closeAsap = false) (herr : w.client.protocolError = none)
    (hpos : w.client.qbPos ≤ w.client.querybuf.length) (hfree : w.client.pending = false)
    (hall : all = w.executed ++ w.client.argv :: cmds)
    (hstream : w.client.unread ++ socket = encodeCommands cmds)
    (hproxied : w.client.master = true → Proxied stream w socket) :
    ∃ w', processCommandAndResetClient w = .ok w' ∧ Sound all stream w' socket ∧
      w'.client.unread = w.client.unread ∧ w'.client.master = w.client.master := by
  unfold processCommandAndResetClient processCommand
  cases w.effects.headD (.execute false w.client.multi) with
  | postpone =>
    refine ⟨_, rfl, ⟨hafter, hasap, herr, hpos, fun _ => rfl,
      ⟨cmds, hall, reading_of_reset hstream⟩, fun hm => ?_⟩, rfl, rfl⟩
    have hp := hproxied hm
    exact { hp with fed := (append_nil w.fed).symm ▸ hp.fed }
  | execute blocks multi =>
    obtain ⟨c', fed, hrun, h1, h2, h3, h4, h5, h6, h7, hreading, hmore⟩ :=
      @commandProcessed_spec { w.client with blocked := blocks, multi := multi } cmds socket hpos
        (fun hm => ⟨(hproxied hm).applied, (hproxied hm).reploff⟩) hstream
    have hfree' : ¬ c'.pending = true := by
      rw [h7]
      exact (by simp [hfree])
    dsimp only
    rw [hrun]
    refine ⟨_, rfl, ⟨h1.trans hafter, h2.trans hasap, h3.trans herr, ?_, fun hp => absurd hp hfree',
      ⟨cmds, ?_, hreading⟩, fun hm => ?_⟩, ?_, h4⟩
    · rw [h5, h6]
      exact hpos
    · rw [hall, postponed, if_neg hfree']
      simp
    · obtain ⟨ha, ho, hf⟩ := hmore (h4 ▸ hm)
      refine ⟨ha, ho, ?_⟩
      rw [append_assoc, ← append_assoc fed, hf]
      exact (hproxied (h4 ▸ hm)).fed
    · rw [Client.unread, Client.unread, h5, h6]

/-! ## The loop over the query buffer -/

section Events
variable {s : Server} {all : List (List Bytes)} {stream : Bytes} {master : Bool}
  {socket : Bytes} {w : Session}

/-- There is a command left, and its request is an array, as the parser finds out from its
first byte. -/
lemma Sound.setReqtype (h : Sound all stream w socket) (hb : w.client.blocked = false)
    (hne : w.client.unread ≠ []) :
    ∃ c cmd cmds, setReqtype w.client = c ∧ c.reqtype = some .multibulk ∧
      c.unread = w.client.unread ∧ c.blocked = false ∧ c.pending = false ∧
      c.master = w.client.master ∧
      all = w.executed ++ cmd :: cmds ∧ Reading c (cmd :: cmds) (c.unread ++ socket) ∧
      Sound all stream { w with client := c } socket := by
  obtain ⟨hfree, cmds, hall, hreading⟩ := h.reading_of_free hb
  cases cmds with
  | nil => exact absurd (append_eq_nil_iff.mp hreading.stream_nil).1 hne
  | cons cmd cmds =>
    refine ⟨{ w.client with reqtype := some .multibulk }, cmd, cmds, ?_, rfl, rfl, hb, hfree, rfl,
      hall, hreading.setMultibulk,
      { h with reading := ⟨cmd :: cmds, ?_, ?_⟩, proxied := fun hm => ?_ }⟩
    · rw [Requests.setReqtype]
      rcases hreading.reqtype with hnone | hsome
      · rw [if_pos hnone, if_pos (hreading.head hnone hne)]
      · rw [if_neg (by rw [hsome]; exact Option.some_ne_none _), ← hsome]
    · rw [postponed, if_neg (by simp [hfree])]
      exact hall
    · rw [settled, if_neg (by simp [hb])]
      exact hreading.setMultibulk
    · have hp := h.proxied hm
      exact { hp with }

lemma Proxied.parsed {c c' : Client} (h : Proxied stream { w with client := c } socket)
    (hf : Frame c c') (hm : c.master = true) : Proxied stream { w with client := c' } socket := by
  obtain ⟨hbuf, hadv⟩ := hf.querybuf hm
  refine ⟨?_, ?_, ?_⟩
  · rw [hf.replApplied]
    exact Nat.le_trans h.applied hadv
  · rw [hf.reploff, hf.readReploff, hbuf, hf.replApplied]
    exact h.reploff
  · rw [hbuf, hf.replApplied]
    exact h.fed

lemma processLoop_spec (hlimits : ∀ cmd ∈ all, Within s master cmd) (rounds : Nat) :
    ∀ {w : Session}, Sound all stream w socket → w.client.master = master →
      w.client.unread.length < rounds →
      ∃ w', processLoop s rounds w = .ok w' ∧ Held all stream master w' socket := by
  induction rounds with
  | zero => exact fun _ _ h => absurd h (Nat.not_lt_zero _)
  | succ rounds ih =>
    intro w h hm hlen
    unfold processLoop
    split
    · rename_i hend
      refine ⟨w, rfl, h, fun hb hs => ?_, hm⟩
      obtain ⟨-, cmds, hall, hreading⟩ := h.reading_of_free hb
      have hnil : w.client.unread ++ socket = [] := by
        rw [Client.unread, drop_eq_nil_of_le hend, hs, append_nil]
      rw [hnil] at hreading
      rw [hall, hreading.eq_nil, append_nil]
    split
    · rename_i hb
      exact ⟨w, rfl, h, fun hb' => absurd (hb.symm.trans hb') (by decide), hm⟩
    rename_i hb
    have hnot : ¬ w.client.pending = true := fun hp => hb (h.pending hp)
    simp only [if_neg hnot, h.closeAfterReply, h.closeAsap, Bool.or_self, Bool.false_eq_true,
      if_false]
    have hne : w.client.unread ≠ [] := by
      intro hnil
      have := congrArg List.length hnil
      rw [Client.unread, length_drop, length_nil] at this
      omega
    obtain ⟨c, cmd, cmds, hkind, hreq, hunread, hcb, hcp, hcm, hall, hreading, hc⟩ :=
      h.setReqtype (by simpa using hb) hne
    have hcmd : Within s c.master cmd := by
      rw [hcm, hm]
      exact hlimits cmd (hall ▸ mem_append_right _ mem_cons_self)
    obtain ⟨c', parsed, hrun, hp⟩ := processMultibulkBuffer_spec hreq hreading hc.pos hcmd
    rw [hkind, parseRequest, if_neg (by rw [hreq]; decide), hrun, bind_ok]
    have hf := hp.frame
    have hm' : c'.master = master := hf.master.trans (hcm.trans hm)
    have hafter := hf.closeAfterReply.trans hc.closeAfterReply
    have hasap := hf.closeAsap.trans hc.closeAsap
    have herr := hf.protocolError.trans hc.protocolError
    have hproxied : c'.master = true → Proxied stream { w with client := c' } socket := by
      rw [hf.master]
      exact fun hmt => (hc.proxied hmt).parsed hf hmt
    cases parsed with
    | notReady =>
      obtain ⟨hsock, hr⟩ := hp.notReady rfl
      refine ⟨_, rfl, ⟨hafter, hasap, herr, hp.pos, ?_, ⟨cmd :: cmds, ?_, ?_⟩, hproxied⟩,
        fun _ hs => absurd hs hsock, hm'⟩
      · exact fun hpending => absurd hpending (by simp [hf.pending, hcp])
      · rw [postponed, if_neg (by simp [hf.pending, hcp])]
        exact hall
      · rw [settled, if_neg (by simp [hf.blocked, hcb])]
        exact hr
    | ready =>
      obtain ⟨hargv, hstream⟩ := hp.ready rfl
      have hsome : ¬ (c'.argv.length = 0) := by
        rw [hargv]
        exact fun h0 => hcmd.nonempty (eq_nil_of_length_eq_zero h0)
      rw [if_neg hsome]
      obtain ⟨w2, hrun2, h2, hu2, hm2⟩ := @processCommand_spec all stream
        { w with client := c' } cmds socket hafter hasap herr hp.pos (hf.pending.trans hcp)
        (by rw [hargv]; exact hall) hstream hproxied
      rw [hrun2]
      refine ih h2 (hm2.trans hm') ?_
      have hshorter := hreading.length_lt
      rw [← hstream, hunread, length_append, length_append] at hshorter
      rw [hu2]
      show c'.unread.length < rounds
      omega

/-! ## Reads -/

/-- Two clients that differ in the query buffer only, with the same bytes
unread. -/
lemma Sound.rebase (h : Sound all stream w socket) {buf pos applied} (hpos : pos ≤ buf.length)
    (hunread : buf.drop pos = w.client.unread) (hproxied : w.client.master = true → Proxied stream
      { w with client := { w.client with querybuf := buf, qbPos := pos, replApplied := applied } }
      socket) :
    Sound all stream
      { w with client := { w.client with querybuf := buf, qbPos := pos, replApplied := applied } }
      socket := by
  obtain ⟨cmds, hall, hreading⟩ := h.reading
  refine ⟨h.closeAfterReply, h.closeAsap, h.protocolError, hpos, h.pending, ⟨cmds, hall, ?_⟩,
    hproxied⟩
  show Reading _ cmds (buf.drop pos ++ socket)
  rw [hunread]
  exact reading_settled_congr hreading rfl rfl rfl rfl rfl rfl

lemma trimQuerybuf_frame (c : Client) :
    (trimQuerybuf c).blocked = c.blocked ∧ (trimQuerybuf c).master = c.master := by
  unfold trimQuerybuf
  split
  · split <;> exact ⟨rfl, rfl⟩
  · split <;> exact ⟨rfl, rfl⟩

lemma trimQuerybuf_sound (h : Sound all stream w socket) :
    Sound all stream { w with client := trimQuerybuf w.client } socket := by
  unfold trimQuerybuf
  have hle := h.pos
  split
  · rename_i hm
    have hp := h.proxied hm
    have happ := hp.applied
    split
    · refine h.rebase ?_ ?_ fun _ => ⟨Nat.zero_le _, ?_, hp.fed⟩
      · rw [length_drop]
        omega
      · rw [drop_drop]
        congr 1
        omega
      have hoff := hp.reploff
      show w.client.reploff = w.client.readReploff -
        (w.client.querybuf.drop w.client.replApplied).length + ((0 : Nat) : Int)
      rw [length_drop]
      omega
    · exact h
  · rename_i hm
    split
    · exact h.rebase (Nat.zero_le _) rfl fun hm' => absurd hm' hm
    · exact h

lemma processInputBuffer_spec (hlimits : ∀ cmd ∈ all, Within s master cmd)
    (h : Sound all stream w socket) (hm : w.client.master = master) :
    ∃ w', processInputBuffer s w = .ok w' ∧ Held all stream master w' socket := by
  have hlen : w.client.unread.length < w.client.querybuf.length + 1 := by
    rw [Client.unread, length_drop]
    omega
  obtain ⟨w', hrun, hw'⟩ := processLoop_spec hlimits _ h hm hlen
  obtain ⟨hblocked, hmaster⟩ := trimQuerybuf_frame w'.client
  exact ⟨_, by rw [processInputBuffer, hrun, bind_ok], trimQuerybuf_sound hw'.toSound,
    fun hb => hw'.starved (hblocked ▸ hb), hmaster.trans hw'.master⟩

lemma readlen_pos (c : Client) (alloc excess : Nat) : 0 < readlen c alloc excess := by
  unfold readlen protoIobufLen
  dsimp only
  split_ifs <;> omega

/-- How much a read takes from the socket. -/
def nread (c : Client) (socket : Bytes) (chunk alloc excess : Nat) : Nat :=
  min (min chunk (readlen c alloc excess)) socket.length

lemma Sound.read (h : Sound all stream w socket) {n} (hn : n ≤ socket.length) :
    Sound all stream { w with client :=
      let c := { w.client with querybuf := w.client.querybuf ++ socket.take n }
      if c.master then { c with readReploff := c.readReploff + n } else c } (socket.drop n) := by
  obtain ⟨cmds, hall, hreading⟩ := h.reading
  have hlen : (w.client.querybuf ++ socket.take n).length = w.client.querybuf.length + n := by
    rw [length_append, length_take, Nat.min_eq_left hn]
  have hpos : w.client.qbPos ≤ (w.client.querybuf ++ socket.take n).length :=
    hlen ▸ Nat.le_add_right_of_le h.pos
  have hdrop : ∀ {k}, k ≤ w.client.qbPos → (w.client.querybuf ++ socket.take n).drop k ++
      socket.drop n = w.client.querybuf.drop k ++ socket := by
    intro k hk
    rw [drop_append_of_le_length (hk.trans h.pos), append_assoc, take_append_drop]
  rw [Client.unread, ← hdrop le_rfl] at hreading
  dsimp only
  split
  · rename_i hm
    have hp := h.proxied hm
    refine ⟨h.closeAfterReply, h.closeAsap, h.protocolError, hpos, h.pending,
      ⟨cmds, hall, reading_settled_congr hreading rfl rfl rfl rfl rfl rfl⟩,
      fun _ => ⟨hp.applied, ?_, ?_⟩⟩
    · have hoff := hp.reploff
      show w.client.reploff = w.client.readReploff + n -
        (w.client.querybuf ++ socket.take n).length + w.client.replApplied
      omega
    exact (congrArg (w.fed ++ ·) (hdrop hp.applied)).trans hp.fed
  · rename_i hm
    exact ⟨h.closeAfterReply, h.closeAsap, h.protocolError, hpos, h.pending,
      ⟨cmds, hall, reading_settled_congr hreading rfl rfl rfl rfl rfl rfl⟩,
      fun hm' => absurd hm' hm⟩

lemma readQueryFromClient_spec (hlimits : ∀ cmd ∈ all, Within s master cmd)
    (h : Sound all stream w socket) (hm : w.client.master = master) (hsock : socket ≠ [])
    {chunk alloc excess} (hchunk : 0 < chunk) (hfits : master = false → w.client.querybuf.length +
      nread w.client socket chunk alloc excess ≤ s.clientMaxQuerybufLen) :
    ∃ w' socket', readQueryFromClient s w socket chunk alloc excess = .ok (w', socket') ∧
      Held all stream master w' socket' := by
  unfold readQueryFromClient
  obtain ⟨n, hn⟩ : ∃ n, n = nread w.client socket chunk alloc excess := ⟨_, rfl⟩
  have hpos : n ≠ 0 := by
    have := readlen_pos w.client alloc excess
    have := length_pos_iff.mpr hsock
    rw [hn, nread]
    omega
  have hle : n ≤ socket.length := by
    rw [hn, nread]
    omega
  rw [show min (min chunk (readlen w.client alloc excess)) socket.length = n from hn.symm]
  dsimp only
  rw [if_neg hpos]
  have hread := h.read hle
  obtain ⟨c, hc⟩ : ∃ c, c = if w.client.master = true then
      { w.client with
        querybuf := w.client.querybuf ++ socket.take n, readReploff := w.client.readReploff + n }
      else { w.client with querybuf := w.client.querybuf ++ socket.take n } := ⟨_, rfl⟩
  have hcm : c.master = master := by
    rw [hc]
    split <;> exact hm
  have hcbuf : c.querybuf.length = w.client.querybuf.length + n := by
    have : c.querybuf = w.client.querybuf ++ socket.take n := by
      rw [hc]
      split <;> rfl
    rw [this, length_append, length_take, Nat.min_eq_left hle]
  rw [← hc] at hread ⊢
  have hroom : ¬ ((!c.master) = true ∧ s.clientMaxQuerybufLen < c.querybuf.length) := by
    rintro ⟨hslave, hover⟩
    have := hfits (by rw [← hcm]; simpa using hslave)
    omega
  rw [if_neg hroom]
  obtain ⟨w', hrun, hw'⟩ := processInputBuffer_spec hlimits hread hcm
  exact ⟨w', socket.drop n, by rw [hrun, bind_ok], hw'⟩

lemma processPendingCommand_spec (h : Sound all stream w socket) (hb : w.client.blocked = true) :
    ∃ w', processPendingCommand { w with client := unblockClient w.client } = .ok w' ∧
      Sound all stream w' socket ∧ w'.client.master = w.client.master := by
  obtain ⟨cmds, hall, hreading⟩ := h.reading
  rw [settled, if_pos hb] at hreading
  have hproxied : w.client.master = true → Proxied stream w socket := h.proxied
  by_cases hp : w.client.pending = true
  · have hkept : unblockClient w.client = { w.client with blocked := false } := by
      rw [unblockClient, if_pos hp]
    rw [postponed, if_pos hp] at hall
    rw [hkept, processPendingCommand]
    obtain ⟨w', hrun, h', -, hm'⟩ := @processCommand_spec all stream
      { w with client := { w.client with blocked := false, pending := false } } cmds socket
      h.closeAfterReply h.closeAsap h.protocolError h.pos rfl hall (stream_of_reset hreading)
      fun hm => { hproxied hm with }
    exact ⟨w', (if_pos hp).trans hrun, h', hm'⟩
  · have hreset : unblockClient w.client = { resetClient w.client with blocked := false } := by
      rw [unblockClient, if_neg hp]
    rw [postponed, if_neg hp] at hall
    rw [hreset, processPendingCommand]
    refine ⟨_, if_neg hp, { h with
      pending := fun hp' => absurd hp' hp
      reading := ⟨cmds, ?_, reading_congr hreading rfl rfl rfl rfl rfl⟩
      proxied := fun hm => { hproxied hm with } }, rfl⟩
    exact hall.trans (congrArg (fun l => w.executed ++ (l ++ cmds)) (if_neg hp).symm)

lemma processPending_spec (hlimits : ∀ cmd ∈ all, Within s master cmd)
    (h : Sound all stream w socket) (hm : w.client.master = master) (hb : w.client.blocked = true) :
    ∃ w', processPendingCommandAndInputBuffer s { w with client := unblockClient w.client } =
      .ok w' ∧ Held all stream master w' socket := by
  obtain ⟨w1, hrun, h1, hm1⟩ := processPendingCommand_spec h hb
  rw [processPendingCommandAndInputBuffer, hrun, bind_ok]
  split
  · rename_i hempty
    refine ⟨w1, rfl, h1, fun hb1 hs => ?_, hm1.trans hm⟩
    obtain ⟨-, cmds, hall, hreading⟩ := h1.reading_of_free hb1
    have hnil : w1.client.unread ++ socket = [] := by
      rw [Client.unread, eq_nil_of_length_eq_zero hempty, hs, drop_nil, append_nil]
    rw [hnil] at hreading
    rw [hall, hreading.eq_nil, append_nil]
  · exact processInputBuffer_spec hlimits h1 (hm1.trans hm)

end Events

/-! ## Runs -/

/-- What happens to a session: a read, with what the socket hands out at most and
what the allocator gives, or the end of a block, with what `processUnblockedClients` then does. -/
inductive Event where
  | read (chunk alloc excess : Nat)
  | unblock
deriving DecidableEq, Repr

/-- Without bytes in the socket there is no read. -/
def step (s : Server) (event : Event) (w : Session) (socket : Bytes) : Outcome (Session × Bytes) :=
  match event with
  | .read chunk alloc excess =>
    if socket = [] then .ok (w, socket) else readQueryFromClient s w socket chunk alloc excess
  | .unblock =>
    if w.client.blocked then do
      let w ← processPendingCommandAndInputBuffer s { w with client := unblockClient w.client }
      .ok (w, socket)
    else .ok (w, socket)

/-- A read is not empty, and does not take the query buffer of a client over its
limit. -/
def Fits (s : Server) (event : Event) (w : Session) (socket : Bytes) : Prop :=
  match event with
  | .read chunk alloc excess => 0 < chunk ∧ (w.client.master = false →
      w.client.querybuf.length + nread w.client socket chunk alloc excess ≤ s.clientMaxQuerybufLen)
  | .unblock => True

instance (s : Server) (event : Event) (w : Session) (socket : Bytes) :
    Decidable (Fits s event w socket) := by
  unfold Fits
  cases event <;> infer_instance

def runEvents (s : Server) : List Event → Session → Bytes → Outcome (Session × Bytes)
  | [], w, socket => .ok (w, socket)
  | event :: events, w, socket => do
    let (w, socket) ← step s event w socket
    runEvents s events w socket

def FitsRun (s : Server) : List Event → Session → Bytes → Prop
  | [], _, _ => True
  | event :: events, w, socket => Fits s event w socket ∧
    match step s event w socket with
    | .ok (w, socket) => FitsRun s events w socket
    | .error _ => True

instance decidableFitsRun (s : Server) :
    (events : List Event) → (w : Session) → (socket : Bytes) → Decidable (FitsRun s events w socket)
  | [], _, _ => .isTrue trivial
  | event :: events, w, socket => by
    unfold FitsRun
    cases step s event w socket with
    | error f => infer_instance
    | ok r =>
      have := decidableFitsRun s events r.1 r.2
      infer_instance

def newSession (master : Bool) (offset : Int) (effects : List Effect) : Session :=
  ⟨createClient master offset, [], effects, []⟩

section Run
variable {s : Server} {all : List (List Bytes)} {stream : Bytes} {master : Bool}

lemma step_held (hlimits : ∀ cmd ∈ all, Within s master cmd) {event w socket}
    (h : Held all stream master w socket) (hfits : Fits s event w socket) :
    ∃ w' socket', step s event w socket = .ok (w', socket') ∧
      Held all stream master w' socket' := by
  cases event with
  | read chunk alloc excess =>
    unfold step
    dsimp only
    split
    · exact ⟨w, socket, rfl, h⟩
    rename_i hsock
    exact readQueryFromClient_spec hlimits h.toSound h.master hsock hfits.1 fun hslave =>
      hfits.2 (h.master.trans hslave)
  | unblock =>
    unfold step
    dsimp only
    split
    · rename_i hb
      obtain ⟨w', hrun, hw'⟩ := processPending_spec hlimits h.toSound h.master hb
      exact ⟨w', socket, by rw [hrun, bind_ok], hw'⟩
    · exact ⟨w, socket, rfl, h⟩

lemma runEvents_held (hlimits : ∀ cmd ∈ all, Within s master cmd) (events : List Event) :
    ∀ {w : Session} {socket : Bytes}, Held all stream master w socket → FitsRun s events w socket →
      ∃ w' socket', runEvents s events w socket = .ok (w', socket') ∧
        Held all stream master w' socket' := by
  induction events with
  | nil => exact fun {w socket} h _ => ⟨w, socket, rfl, h⟩
  | cons event events ih =>
    intro w socket h hfits
    obtain ⟨w1, socket1, hrun, h1⟩ := step_held hlimits h hfits.1
    have hmore := hfits.2
    rw [hrun] at hmore
    obtain ⟨w2, socket2, hrun2, h2⟩ := ih h1 hmore
    exact ⟨w2, socket2, by simp only [runEvents, hrun, bind_ok, hrun2], h2⟩

lemma newSession_held (cmds : List (List Bytes)) (master : Bool) (offset : Int)
    (effects : List Effect) : Held cmds (encodeCommands cmds) master
      (newSession master offset effects) (encodeCommands cmds) := by
  have hreading : Reading (newSession master offset effects).client cmds (encodeCommands cmds) :=
    .between ⟨rfl, rfl, rfl⟩ (.inl rfl) rfl
  refine ⟨⟨rfl, rfl, rfl, le_rfl, nofun, ⟨cmds, rfl, hreading⟩, fun _ => ⟨le_rfl, ?_, rfl⟩⟩, ?_,
    rfl⟩
  · show offset = offset - (([] : Bytes).length : Nat) + ((0 : Nat) : Int)
    simp
  intro _ hnil
  rw [hnil] at hreading
  rw [hreading.eq_nil]
  rfl

end Run

/-- However the stream of commands is cut into reads, the argument vectors that
are executed are those that were encoded, and at the end of the stream nothing is
left. The query buffer may be handed over as an argument or be copied from. -/
theorem requests_in_order (s : Server) (master : Bool) (offset : Int) (effects : List Effect)
    (cmds : List (List Bytes)) (hlimits : ∀ cmd ∈ cmds, Within s master cmd) :
    (∃ stream, replicationStream cmds = .ok stream ∧ appendCommands [] cmds = .ok stream ∧
      ∀ events, FitsRun s events (newSession master offset effects) stream →
        ∃ w socket, runEvents s events (newSession master offset effects) stream = .ok (w, socket) ∧
          w.client.protocolError = none ∧ w.client.closeAfterReply = false ∧
          w.client.closeAsap = false ∧ w.executed <+: cmds ∧
          (w.client.blocked = false → socket = [] →
            w.executed = cmds ∧ w.client.unread = [] ∧ w.client.argv = [] ∧
              w.client.multibulklen = 0 ∧ w.client.bulklen = none)) ∧
    ∀ c bulklen, isWholeBuffer c bulklen = true →
      (useQuerybuf c).argv = (copyArgument c bulklen).argv ∧
        (useQuerybuf c).unread = (copyArgument c bulklen).unread := by
  refine ⟨?_, fun c bulklen hwhole => useQuerybuf_eq_copyArgument hwhole⟩
  have hargc : ∀ argv ∈ cmds, (argv.length : Int) ≤ llongMax := fun argv hargv => by
    have := (hlimits argv hargv).argc
    unfold intMax at this
    unfold llongMax
    omega
  have hlen : ∀ argv ∈ cmds, ∀ a ∈ argv, (a.length : Int) ≤ llongMax := fun argv hargv =>
    (hlimits argv hargv).length
  refine ⟨encodeCommands cmds, replicationStream_eq hargc hlen, appendCommands_eq hargc hlen [], ?_⟩
  intro events hfits
  obtain ⟨w, socket, hrun, hw⟩ :=
    runEvents_held hlimits events (newSession_held cmds master offset effects) hfits
  refine ⟨w, socket, hrun, hw.protocolError, hw.closeAfterReply, hw.closeAsap, ?_, ?_⟩
  · obtain ⟨rest, hall, -⟩ := hw.reading
    exact ⟨_, hall.symm⟩
  intro hb hs
  obtain ⟨-, rest, hall, hreading⟩ := hw.reading_of_free hb
  have hexec := hw.starved hb hs
  have hnil : rest = [] := by
    rw [hexec] at hall
    exact self_eq_append_right.mp hall
  rw [hnil, hs, append_nil] at hreading
  have hunread := hreading.stream_nil
  cases hreading with
  | between hc _ _ => exact ⟨hexec, hunread, hc.argv, hc.multibulklen, hc.bulklen⟩

/-- A replica passes its master's stream on byte for byte: what it has passed on,
what it keeps in the query buffer and what is in the socket is the stream. -/
theorem master_stream_passed_on (s : Server) (offset : Int) (effects : List Effect)
    (cmds : List (List Bytes)) (hlimits : ∀ cmd ∈ cmds, Within s true cmd) (events : List Event)
    (hfits : FitsRun s events (newSession true offset effects) (encodeCommands cmds)) :
    ∃ w socket, runEvents s events (newSession true offset effects) (encodeCommands cmds) =
        .ok (w, socket) ∧ Proxied (encodeCommands cmds) w socket := by
  obtain ⟨w, socket, hrun, hw⟩ :=
    runEvents_held hlimits events (newSession_held cmds true offset effects) hfits
  exact ⟨w, socket, hrun, hw.proxied hw.master⟩

/-- `GET a` and `PING`: the first read ends in the second command, and the first command blocks
the client or is postponed. -/
def twoCommands : List (List Bytes) := [[[71, 69, 84], [97]], [[80, 73, 78, 71]]]
def twoStream : Bytes :=
  [42, 50, 13, 10, 36, 51, 13, 10, 71, 69, 84, 13, 10, 36, 49, 13, 10, 97, 13, 10,
    42, 49, 13, 10, 36, 52, 13, 10, 80, 73, 78, 71, 13, 10]
def twoReads : List Event := [.read 30 0 0, .read 100 0 0, .unblock]

def smallServer : Server := ⟨512, 1024, false⟩

lemma twoCommands_within (master : Bool) : ∀ cmd ∈ twoCommands, Within smallServer master cmd := by
  intro cmd hcmd
  simp only [twoCommands, mem_cons, not_mem_nil, or_false] at hcmd
  rcases hcmd with rfl | rfl
  · exact ⟨by decide, by decide, by decide, fun _ => by decide, by decide⟩
  · exact ⟨by decide, by decide, by decide, fun _ => by decide, by decide⟩

lemma encode_twoCommands : encodeCommands twoCommands = twoStream := by
  have hdigit {n : Nat} (h : n < 10) : decimal n = [digit n] := decimal_of_lt h
  simp [twoCommands, encodeCommands, encodeCommand, encodeBulk, hdigit, digit, twoStream]

theorem requests_in_order_blocked : ∃ stream, replicationStream twoCommands = .ok stream ∧
    FitsRun smallServer twoReads (newSession false 0 [.execute true false]) stream ∧
    ∃ w, runEvents smallServer twoReads (newSession false 0 [.execute true false]) stream =
      .ok (w, []) ∧ w.executed = twoCommands := by
  obtain ⟨⟨stream, hstream, -, hruns⟩, -⟩ := requests_in_order smallServer false 0
    [.execute true false] twoCommands (twoCommands_within false)
  have hbytes : stream = encodeCommands twoCommands := by
    rw [replicationStream_eq (by decide) (by decide)] at hstream
    exact (Except.ok.inj hstream).symm
  rw [hbytes, encode_twoCommands] at hstream hruns
  obtain ⟨w, socket, hrun, -, -, -, -, hend⟩ := hruns twoReads (by decide +kernel)
  have hfree : (runEvents smallServer twoReads (newSession false 0 [.execute true false])
      twoStream).map
      (fun r => (r.1.client.blocked, r.2)) = .ok (false, []) := by decide +kernel
  rw [hrun] at hfree
  obtain ⟨hblocked, rfl⟩ := Prod.mk.inj (Except.ok.inj hfree)
  exact ⟨_, hstream, by decide +kernel, w, hrun, (hend hblocked rfl).1⟩

theorem master_stream_passed_on_postponed : ∃ w, runEvents smallServer twoReads
      (newSession true 0 [.postpone]) (encodeCommands twoCommands) = .ok (w, []) ∧
      Proxied (encodeCommands twoCommands) w [] ∧ w.fed = encodeCommands twoCommands := by
  obtain ⟨w, socket, hrun, hproxied⟩ := master_stream_passed_on smallServer 0 [.postpone]
    twoCommands (twoCommands_within true) twoReads (by
      rw [encode_twoCommands]
      decide +kernel)
  have hfed : (runEvents smallServer twoReads (newSession true 0 [.postpone])
      (encodeCommands twoCommands)).map (fun r => (r.1.fed, r.2)) =
        .ok (encodeCommands twoCommands, []) := by
    rw [encode_twoCommands]
    decide +kernel
  rw [hrun] at hfed
  obtain ⟨hfed, rfl⟩ := Prod.mk.inj (Except.ok.inj hfed)
  exact ⟨w, hrun, hproxied, hfed⟩

end Redis.Networking.RequestRuns
