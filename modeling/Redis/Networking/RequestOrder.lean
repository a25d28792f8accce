import Redis.Networking.Requests
import Redis.Networking.Encoders

/-! # Requests are executed as they were sent

The bytes a client has not parsed, followed by those in the socket, encode what it has still to
execute, cut where the parser stopped. Reading a header or an argument moves that cut, reads and
trims leave it, and the parser stops only for bytes that are in the socket. -/
namespace Redis.Networking.RequestOrder
open List Lib Outcome Lib.Decimal Util.Numbers
open Requests Encoders

/-! ## Header lines -/

variable {line socket unread : Bytes} {c : Client} {after : Bytes} {cmd : List Bytes} {s : Server}

lemma strchr_found {ch : UInt8} (h : ∀ b ∈ line, b ≠ ch ∧ b ≠ 0) (rest : Bytes) :
    strchr ch (line ++ ch :: rest) = some line.length := by
  induction line with
  | nil => simp [strchr]
  | cons b line ih =>
    obtain ⟨hch, h0⟩ := h b mem_cons_self
    simp [strchr, hch, h0, ih (forall_mem_cons.mp h).2]

lemma strchr_missing {ch : UInt8} (h : ∀ b ∈ line, b ≠ ch) : strchr ch line = none := by
  induction line with
  | nil => rfl
  | cons b line ih =>
    simp [strchr, h b mem_cons_self, ih (forall_mem_cons.mp h).2]

lemma split_front {front rest : Bytes} (h : unread ++ socket = front ++ rest)
    (hlen : front.length ≤ unread.length) :
    ∃ unread', unread = front ++ unread' ∧ unread' ++ socket = rest := by
  refine ⟨unread.drop front.length, ?_, ?_⟩
  · have htake : front = unread.take front.length := by
      rw [← take_append_of_le_length hlen, h, take_left]
    conv_rhs => rw [htake]
    rw [length_take, Nat.min_eq_left hlen, take_append_drop]
  · rw [← drop_append_of_le_length hlen, h, drop_left]

/-- A header in the stream is either found whole, or its end is still in the
socket. -/
lemma findHeader_cases (tooBig : ProtocolError) {rest : Bytes}
    (hline : ∀ b ∈ line, b ≠ 13 ∧ b ≠ 0) (hlen : line.length ≤ protoInlineMaxSize)
    (h : unread ++ socket = line ++ 13 :: 10 :: rest) :
    (findHeader tooBig unread = .missing ∧ socket ≠ []) ∨
      ∃ unread', unread = line ++ 13 :: 10 :: unread' ∧ unread' ++ socket = rest ∧
        findHeader tooBig unread = .line line := by
  by_cases hwhole : (line ++ [13, 10]).length ≤ unread.length
  · right
    have hparts : unread ++ socket = (line ++ [13, 10]) ++ rest := by simpa using h
    obtain ⟨unread', hfront, hrest⟩ := split_front hparts hwhole
    have hall : unread = line ++ 13 :: 10 :: unread' := by simpa using hfront
    refine ⟨unread', hall, hrest, ?_⟩
    have hfound := strchr_found hline (10 :: unread')
    rw [← hall] at hfound
    have htake : unread.take line.length = line := by
      rw [hall, take_left]
    rw [findHeader, hfound]
    dsimp only
    rw [htake, if_neg (by simp at hwhole; omega)]
  left
  rw [length_append] at hwhole
  refine ⟨?_, fun hnil => hwhole ?_⟩
  · have hcut : unread = (line ++ 13 :: 10 :: rest).take unread.length := by
      rw [← h, take_left]
    by_cases hshort : unread.length ≤ line.length
    · rw [take_append_of_le_length hshort] at hcut
      have hnone : strchr 13 unread = none := by
        refine strchr_missing fun b hb => (hline b ?_).1
        rw [hcut] at hb
        exact mem_of_mem_take hb
      rw [findHeader, hnone]
      exact if_neg (by omega)
    have hone : unread.length = line.length + 1 := by
      simp only [length_cons, length_nil] at hwhole
      omega
    rw [hone, take_length_add_append] at hcut
    have hfound := strchr_found hline []
    rw [← show unread = line ++ [13] from hcut] at hfound
    rw [findHeader, hfound]
    exact if_pos (by omega)
  · have := congrArg List.length h
    rw [hnil] at this
    simp at this ⊢
    omega

lemma lead_decimal_plain {lead : UInt8} (h : lead ≠ 13 ∧ lead ≠ 0) (n : Nat) :
    ∀ b ∈ lead :: decimal n, b ≠ 13 ∧ b ≠ 0 := by
  intro b hb
  rcases mem_cons.mp hb with rfl | hb
  · exact h
  have hdigit := (isDigit_of_mem_decimal hb).1
  constructor
  · rintro rfl
    exact absurd hdigit (by decide)
  rintro rfl
  exact absurd hdigit (by decide)

lemma length_lead_decimal {lead : UInt8} {n : Nat} (h : (n : Int) ≤ llongMax) :
    (lead :: decimal n).length ≤ protoInlineMaxSize := by
  unfold llongMax at h
  have := length_decimal_le (k := 18) (n := n) (by omega)
  simp only [length_cons, protoInlineMaxSize]
  omega

lemma string2ll_decimal {n : Nat} (h : (n : Int) ≤ llongMax) :
    string2ll (decimal n) = some (n : Int) := by
  have := string2ll_signedDecimal (v := (n : Int)) (by unfold llongMin; omega) h
  rwa [signedDecimal] at this

/-! ## Where the parser stands -/

def encodeArguments (args : List Bytes) : Bytes := args.flatMap encodeBulk

def encodeCommands (cmds : List (List Bytes)) : Bytes := cmds.flatMap encodeCommand

/-- The limits the parser puts on a command. -/
structure Within (s : Server) (master : Bool) (argv : List Bytes) : Prop where
  nonempty : argv ≠ []
  argc : argv.length ≤ intMax
  length : ∀ a ∈ argv, (a.length : Int) ≤ llongMax
  bulk : master = false → ∀ a ∈ argv, a.length ≤ s.protoMaxBulkLen
  auth : s.authRequired = true → argv.length ≤ 10 ∧ ∀ a ∈ argv, a.length ≤ 16384

/-- The bytes to come before the next header or argument was read, for arguments
`rest` of the command that is being read. -/
def Cut (bulklen : Option Nat) (rest : List Bytes) (after stream : Bytes) : Prop :=
  match bulklen with
  | none => stream = encodeArguments rest ++ after
  | some n => ∃ a rest', rest = a :: rest' ∧ n = a.length ∧
      stream = a ++ 13 :: 10 :: (encodeArguments rest' ++ after)

/-- Inside a command: `args` were read, `rest` are missing. -/
structure Inside (c : Client) (args rest : List Bytes) (after stream : Bytes) : Prop where
  argv : c.argv = args
  missing : c.multibulklen = rest.length
  cut : Cut c.bulklen rest after stream
  slots : args.length ≤ c.argvLen
  slotted : 0 < c.argvLen
  argc : args.length + rest.length ≤ intMax

structure Between (c : Client) : Prop where
  argv : c.argv = []
  multibulklen : c.multibulklen = 0
  bulklen : c.bulklen = none

/-- What the parser leaves as it was. The query buffer of a master is not
touched. -/
structure Frame (c c' : Client) : Prop where
  master : c'.master = c.master
  blocked : c'.blocked = c.blocked
  pending : c'.pending = c.pending
  multi : c'.multi = c.multi
  closeAfterReply : c'.closeAfterReply = c.closeAfterReply
  closeAsap : c'.closeAsap = c.closeAsap
  protocolError : c'.protocolError = c.protocolError
  reqtype : c'.reqtype = c.reqtype
  reploff : c'.reploff = c.reploff
  readReploff : c'.readReploff = c.readReploff
  replApplied : c'.replApplied = c.replApplied
  querybuf : c.master = true → c'.querybuf = c.querybuf ∧ c.qbPos ≤ c'.qbPos

lemma Frame.refl (c : Client) : Frame c c :=
  ⟨rfl, rfl, rfl, rfl, rfl, rfl, rfl, rfl, rfl, rfl, rfl, fun _ => ⟨rfl, le_rfl⟩⟩

lemma Frame.trans {c' c'' : Client} (h : Frame c c') (h' : Frame c' c'') : Frame c c'' where
  master := h'.master.trans h.master
  blocked := h'.blocked.trans h.blocked
  pending := h'.pending.trans h.pending
  multi := h'.multi.trans h.multi
  closeAfterReply := h'.closeAfterReply.trans h.closeAfterReply
  closeAsap := h'.closeAsap.trans h.closeAsap
  protocolError := h'.protocolError.trans h.protocolError
  reqtype := h'.reqtype.trans h.reqtype
  reploff := h'.reploff.trans h.reploff
  readReploff := h'.readReploff.trans h.readReploff
  replApplied := h'.replApplied.trans h.replApplied
  querybuf := fun hm => by
    obtain ⟨h1, h2⟩ := h.querybuf hm
    obtain ⟨h3, h4⟩ := h'.querybuf (h.master.trans hm)
    exact ⟨h3.trans h1, h2.trans h4⟩

lemma unread_advance {c : Client} {front rest : Bytes} (hpos : c.qbPos ≤ c.querybuf.length)
    (h : c.unread = front ++ rest) {n : Nat} (hn : n = c.qbPos + front.length) :
    c.querybuf.drop n = rest ∧ n ≤ c.querybuf.length := by
  have hlen := congrArg List.length h
  rw [Client.unread, length_drop, length_append] at hlen
  refine ⟨?_, by omega⟩
  rw [hn, ← drop_drop]
  unfold Client.unread at h
  rw [h, drop_left]

/-! ## Reading the parts of a command -/

/-- A header of a lead byte and a number, and where the client stands behind it. -/
lemma findHeader_number (tooBig : ProtocolError) {lead : UInt8} {n : Nat} {rest : Bytes}
    (hlead : lead ≠ 13 ∧ lead ≠ 0) (hn : (n : Int) ≤ llongMax) (hpos : c.qbPos ≤ c.querybuf.length)
    (h : c.unread ++ socket = (lead :: decimal n) ++ 13 :: 10 :: rest) :
    (findHeader tooBig c.unread = .missing ∧ socket ≠ []) ∨
      findHeader tooBig c.unread = .line (lead :: decimal n) ∧
        c.querybuf.drop (c.qbPos + (lead :: decimal n).length + 2) ++ socket = rest ∧
        c.qbPos + (lead :: decimal n).length + 2 ≤ c.querybuf.length := by
  refine (findHeader_cases tooBig (lead_decimal_plain hlead n) (length_lead_decimal hn) h).imp_right
    fun ⟨unread', hfound, hrest, hline⟩ => ?_
  have hfront : c.unread = (lead :: decimal n ++ [13, 10]) ++ unread' := by
    rw [hfound]
    simp
  obtain ⟨hdrop, hle⟩ := unread_advance hpos hfront
    (show c.qbPos + (lead :: decimal n).length + 2 = _ by simp [add_assoc])
  exact ⟨hline, by rw [hdrop, hrest], hle⟩

lemma readMultibulklen_spec
    (hb : Between c) (hpos : c.qbPos ≤ c.querybuf.length) (hw : Within s c.master cmd)
    (h : c.unread ++ socket = encodeCommand cmd ++ after) :
    (readMultibulklen s c = .ok (c, some .notReady) ∧ socket ≠ []) ∨
      ∃ c', readMultibulklen s c = .ok (c', none) ∧ Frame c c' ∧
        c'.qbPos ≤ c'.querybuf.length ∧ Inside c' [] cmd after (c'.unread ++ socket) := by
  have hargc : (cmd.length : Int) ≤ llongMax := by
    have := hw.argc
    unfold intMax at this
    unfold llongMax
    omega
  have hsplit : c.unread ++ socket =
      (42 :: decimal cmd.length) ++ 13 :: 10 :: (encodeArguments cmd ++ after) := by
    rw [h]
    simp [encodeCommand, encodeArguments]
  have hcheck : check (c.argv.length = 0) = .ok () := check_pos (by rw [hb.argv]; rfl)
  unfold readMultibulklen
  simp only [hcheck]
  rcases findHeader_number .tooBigMbulkCount (by decide) hargc hpos hsplit with
    ⟨hmiss, hsock⟩ | ⟨hline, hrest, hle⟩
  · left
    rw [hmiss]
    exact ⟨rfl, hsock⟩
  right
  have hmax : ¬ ((intMax : Int) < (cmd.length : Int)) := by
    have := hw.argc
    omega
  have hauth : ¬ (10 < (cmd.length : Int) ∧ s.authRequired = true) := by
    rintro ⟨h10, ha⟩
    have := (hw.auth ha).1
    omega
  have hpos' : ¬ ((cmd.length : Int) ≤ 0) := by
    have := length_pos_iff.mpr hw.nonempty
    omega
  rw [hline]
  simp only [tail_cons,
    string2ll_decimal hargc, if_neg hmax, if_neg hauth, if_neg hpos']
  refine ⟨_, rfl, { Frame.refl c with querybuf := fun _ => ⟨rfl, ?_⟩ }, hle, ?_⟩
  · simp only
    omega
  refine ⟨hb.argv, rfl, ?_, Nat.zero_le _, ?_, ?_⟩
  · simp only [hb.bulklen]
    exact hrest
  · simp only
    omega
  · rw [length_nil, zero_add]
    exact hw.argc

structure ArgumentWithin (s : Server) (master : Bool) (a : Bytes) : Prop where
  length : (a.length : Int) ≤ llongMax
  bulk : master = false → a.length ≤ s.protoMaxBulkLen
  auth : s.authRequired = true → a.length ≤ 16384

variable {a : Bytes} {args rest : List Bytes} {stream : Bytes} {cmds : List (List Bytes)}

lemma Within.argument {master : Bool} {argv : List Bytes} (h : Within s master argv)
    (ha : a ∈ argv) : ArgumentWithin s master a :=
  ⟨h.length a ha, fun hm => h.bulk hm a ha, fun hr => (h.auth hr).2 a ha⟩

lemma readBulklen_spec (hc : Inside c args (a :: rest) after (c.unread ++ socket))
    (hnone : c.bulklen = none) (hpos : c.qbPos ≤ c.querybuf.length)
    (ha : ArgumentWithin s c.master a) :
    (readBulklen s c = (c, false) ∧ socket ≠ []) ∨
      ∃ c', readBulklen s c = (c', true) ∧ Frame c c' ∧ c'.qbPos ≤ c'.querybuf.length ∧
        c'.bulklen = some a.length ∧ Inside c' args (a :: rest) after (c'.unread ++ socket) := by
  have hcut := hc.cut
  rw [hnone] at hcut
  have hsplit : c.unread ++ socket =
      (36 :: decimal a.length) ++ 13 :: 10 :: (a ++ 13 :: 10 :: (encodeArguments rest ++ after)) := by
    rw [show c.unread ++ socket = encodeArguments (a :: rest) ++ after from hcut]
    simp [encodeArguments, encodeBulk]
  unfold readBulklen
  rcases findHeader_number .tooBigBulkCount (by decide) ha.length hpos hsplit with
    ⟨hmiss, hsock⟩ | ⟨hline, hrest, hle⟩
  · left
    rw [hmiss]
    exact ⟨rfl, hsock⟩
  right
  have hbad : ¬ ((a.length : Int) < 0 ∨
      (!c.master) = true ∧ (s.protoMaxBulkLen : Int) < (a.length : Int)) := by
    rintro (hneg | ⟨hm, hbig⟩)
    · omega
    have := ha.bulk (by simpa using hm)
    omega
  have hauth : ¬ (16384 < (a.length : Int) ∧ s.authRequired = true) := by
    rintro ⟨hbig, hr⟩
    have := ha.auth hr
    omega
  rw [hline]
  simp only [head?_cons, ne_eq, not_true_eq_false, if_false, tail_cons,
    string2ll_decimal ha.length, if_neg hbad, if_neg hauth]
  split
  · rename_i hbig
    refine ⟨_, rfl, { Frame.refl c with querybuf := ?_ }, Nat.zero_le _, rfl,
      hc.argv, hc.missing, ?_, hc.slots, hc.slotted, hc.argc⟩
    · intro hm
      exact absurd hbig.1 (by simp [hm])
    exact ⟨a, rest, rfl, rfl, by exact hrest⟩
  refine ⟨_, rfl, { Frame.refl c with querybuf := fun _ => ⟨rfl, ?_⟩ }, hle,
    rfl, hc.argv, hc.missing, ?_, hc.slots, hc.slotted, hc.argc⟩
  · simp only
    omega
  exact ⟨a, rest, rfl, rfl, hrest⟩

/-- Handing over the query buffer adds the argument that copying would add, and
leaves as little unread. -/
lemma useQuerybuf_eq_copyArgument {bulklen : Nat} (h : isWholeBuffer c bulklen = true) :
    (useQuerybuf c).argv = (copyArgument c bulklen).argv ∧
      (useQuerybuf c).unread = (copyArgument c bulklen).unread := by
  simp only [isWholeBuffer, Bool.and_eq_true, decide_eq_true_eq] at h
  obtain ⟨⟨⟨-, hpos⟩, -⟩, hlen⟩ := h
  constructor
  · have htwo : c.querybuf.dropLast.dropLast = c.querybuf.take bulklen := by
      rw [dropLast_eq_take, dropLast_eq_take, take_take, length_take]
      congr 1
      omega
    simp only [useQuerybuf, copyArgument, htwo, Client.unread, hpos, drop_zero]
  · simp only [useQuerybuf, copyArgument, Client.unread, drop_nil]
    exact (drop_eq_nil_of_le (by omega)).symm

lemma growArgv_room (h : Inside c args (a :: rest) after stream) :
    c.argv.length < growArgv c ∧ args.length + 1 ≤ growArgv c := by
  have hargv := h.argv
  have hmiss := h.missing
  have hslots := h.slots
  have hslotted := h.slotted
  have hargc := h.argc
  rw [length_cons] at hmiss hargc
  rw [growArgv, hargv]
  split
  · split <;> omega
  · omega

lemma takeArgument_spec
    (hc : Inside c args (a :: rest) after (c.unread ++ socket)) (hbulk : c.bulklen = some a.length)
    (hpos : c.qbPos ≤ c.querybuf.length) (hroom : a.length + 2 ≤ c.unread.length) :
    ∃ c', takeArgument c a.length = .ok c' ∧ Frame c c' ∧ c'.qbPos ≤ c'.querybuf.length ∧
      c'.bulklen = none ∧ Inside c' (args ++ [a]) rest after (c'.unread ++ socket) := by
  obtain ⟨hstore, hgrown⟩ := growArgv_room hc
  have hcut := hc.cut
  rw [hbulk] at hcut
  obtain ⟨a', rest', heq, -, hstream⟩ := hcut
  cases heq
  have hmiss := hc.missing
  have hargc := hc.argc
  rw [length_cons] at hmiss hargc
  -- the argument and its line end are in the unread bytes
  have hparts : c.unread ++ socket = (a ++ [13, 10]) ++ (encodeArguments rest ++ after) := by
    rw [hstream]
    simp
  obtain ⟨unread', hfront, hafter⟩ := split_front hparts (by simpa using hroom)
  obtain ⟨hdrop, hle⟩ := @unread_advance c _ _ hpos hfront (c.qbPos + a.length + 2)
    (by simp [add_assoc])
  obtain ⟨c1, hc1⟩ : ∃ c1, c1 = { c with
      argvLen := growArgv c, argvLenSum := c.argvLenSum + a.length } := ⟨_, rfl⟩
  have hcopied : (copyArgument c1 a.length).argv = args ++ [a] := by
    have hunread : c1.unread = c.unread := by rw [hc1]; rfl
    rw [copyArgument, hunread, hfront, hc1]
    simp [hc.argv]
  have hcopiedUnread : (copyArgument c1 a.length).unread = unread' := by
    rw [hc1]
    exact hdrop
  obtain ⟨c2, hc2⟩ : ∃ c2, c2 =
      if isWholeBuffer c1 a.length then useQuerybuf c1 else copyArgument c1 a.length := ⟨_, rfl⟩
  obtain ⟨hargv2, hunread2, hmiss2, hslots2, hpos2, hframe2⟩ : c2.argv = args ++ [a] ∧
      c2.unread = unread' ∧ c2.multibulklen = c.multibulklen ∧ c2.argvLen = growArgv c ∧
      c2.qbPos ≤ c2.querybuf.length ∧ Frame c c2 := by
    rw [hc2]
    split
    · rename_i hwhole
      obtain ⟨hargv, hunread⟩ := useQuerybuf_eq_copyArgument hwhole
      simp only [isWholeBuffer, Bool.and_eq_true, decide_eq_true_eq] at hwhole
      obtain ⟨⟨⟨hslave, hzero⟩, -⟩, -⟩ := hwhole
      rw [hcopied] at hargv
      rw [hcopiedUnread] at hunread
      rw [hc1] at hargv hunread hslave hzero ⊢
      exact ⟨hargv, hunread, rfl, rfl, hzero.le,
        { Frame.refl c with querybuf := fun hm => absurd hm (by simp_all) }⟩
    · rw [hc1] at hcopied hcopiedUnread ⊢
      exact ⟨hcopied, hcopiedUnread, rfl, rfl, hle,
        { Frame.refl c with querybuf := fun _ => ⟨rfl, by simp only [copyArgument]; omega⟩ }⟩
  unfold takeArgument
  simp only [if_pos hstore, ← hc1, ← hc2]
  refine ⟨_, rfl, ?_, hpos2, rfl, hargv2, ?_, ?_, ?_, ?_, ?_⟩
  · exact { hframe2 with }
  · show c2.multibulklen - 1 = rest.length
    omega
  · show c2.unread ++ socket = encodeArguments rest ++ after
    rw [hunread2, hafter]
  · rw [hslots2, length_append]
    exact hgrown
  · rw [hslots2]
    exact Nat.lt_of_lt_of_le (Nat.succ_pos _) hgrown
  · rw [length_append, length_singleton]
    omega

/-- The arguments that are there were read, and the last one was not only for bytes that
are in the socket. -/
def ReadOn (c : Client) (args rest : List Bytes) (after socket : Bytes) (c' : Client) : Prop :=
  Frame c c' ∧ c'.qbPos ≤ c'.querybuf.length ∧ ∃ done todo, rest = done ++ todo ∧
    (todo = [] ∨ socket ≠ []) ∧ Inside c' (args ++ done) todo after (c'.unread ++ socket)

lemma readArguments_spec :
    ∀ {c : Client} {args : List Bytes}, Inside c args rest after (c.unread ++ socket) →
      c.qbPos ≤ c.querybuf.length → (∀ a ∈ rest, ArgumentWithin s c.master a) →
      ∃ c', readArguments s rest.length c = .ok c' ∧ ReadOn c args rest after socket c' := by
  induction rest with
  | nil =>
    intro c args hc hpos _
    exact ⟨c, rfl, Frame.refl c, hpos, [], [], rfl, .inl rfl, by rw [append_nil]; exact hc⟩
  | cons a rest ih =>
    intro c args hc hpos hwithin
    have ha := hwithin a mem_cons_self
    -- stopping here: nothing of `a` is taken
    have hstop : ∀ c', Frame c c' → c'.qbPos ≤ c'.querybuf.length → socket ≠ [] →
        Inside c' args (a :: rest) after (c'.unread ++ socket) →
        ReadOn c args (a :: rest) after socket c' :=
      fun c' hf hp hs hi => ⟨hf, hp, [], a :: rest, rfl, .inr hs, by rw [append_nil]; exact hi⟩
    -- with the length of `a` known
    have htake : ∀ c1, Frame c c1 → c1.qbPos ≤ c1.querybuf.length → c1.bulklen = some a.length →
        Inside c1 args (a :: rest) after (c1.unread ++ socket) →
        ∃ c', (if c1.unread.length < a.length + 2 then .ok c1 else do
            let c ← takeArgument c1 a.length
            readArguments s rest.length c : Outcome Client) = .ok c' ∧
          ReadOn c args (a :: rest) after socket c' := by
      intro c1 hf1 hpos1 hbulk1 hin1
      split
      · rename_i hshort
        refine ⟨c1, rfl, hstop c1 hf1 hpos1 ?_ hin1⟩
        intro hnil
        have hcut := hin1.cut
        rw [hbulk1, hnil, append_nil] at hcut
        obtain ⟨a', rest', heq, -, hstream⟩ := hcut
        cases heq
        rw [hstream] at hshort
        simp only [length_append, length_cons] at hshort
        omega
      obtain ⟨c2, hrun, hf2, hpos2, -, hin2⟩ :=
        takeArgument_spec hin1 hbulk1 hpos1 (by omega)
      have hf := hf1.trans hf2
      obtain ⟨c3, hrun3, hf3, hpos3, done, todo, hsplit, hend, hin3⟩ := ih hin2 hpos2
        fun x hx => hf.master ▸ hwithin x (mem_cons_of_mem _ hx)
      refine ⟨c3, ?_, hf.trans hf3, hpos3, a :: done, todo, by rw [hsplit]; rfl, hend, ?_⟩
      · rw [hrun, bind_ok, hrun3]
      · rwa [append_assoc] at hin3
    rw [length_cons, readArguments]
    cases hbulk : c.bulklen with
    | none =>
      rcases readBulklen_spec hc hbulk hpos ha with ⟨hrun, hsock⟩ | ⟨c1, hrun, hf1, hpos1, hb1, hin1⟩
      · simp only [hrun]
        exact ⟨c, rfl, hstop c (Frame.refl c) hpos hsock hc⟩
      simp only [if_true, hrun, hb1]
      exact htake c1 hf1 hpos1 hb1 hin1
    | some n =>
      have hn : n = a.length := by
        have hcut := hc.cut
        rw [hbulk] at hcut
        obtain ⟨a', rest', heq, hn, -⟩ := hcut
        cases heq
        exact hn
      subst hn
      simp only [reduceCtorEq, if_false, hbulk]
      exact htake c (Frame.refl c) hpos hbulk hc

/-! ## Reading a command -/

/-- The client has still to execute `cmds`, and `stream` is what of them was not
parsed yet. -/
inductive Reading (c : Client) : List (List Bytes) → Bytes → Prop where
  | between {cmds : List (List Bytes)} {stream : Bytes} (hc : Between c)
      (hreq : c.reqtype = none ∨ c.reqtype = some .multibulk ∧ cmds ≠ [])
      (hstream : stream = encodeCommands cmds) : Reading c cmds stream
  | inside {args rest : List Bytes} {cmds : List (List Bytes)} {stream : Bytes} (hrest : rest ≠ [])
      (hreq : c.reqtype = some .multibulk) (hc : Inside c args rest (encodeCommands cmds) stream) :
      Reading c ((args ++ rest) :: cmds) stream

lemma encodeCommands_cons (cmd : List Bytes) (cmds : List (List Bytes)) :
    encodeCommands (cmd :: cmds) = encodeCommand cmd ++ encodeCommands cmds := flatMap_cons

lemma Inside.length_lt
    (h : Inside c args rest after stream) (hrest : rest ≠ []) : after.length < stream.length := by
  have hcut := h.cut
  unfold Cut at hcut
  split at hcut
  · obtain ⟨a, rest', rfl⟩ := exists_cons_of_ne_nil hrest
    rw [hcut]
    simp only [encodeArguments, flatMap_cons, encodeBulk, length_append, length_cons]
    omega
  obtain ⟨a, rest', -, -, hstream⟩ := hcut
  rw [hstream]
  simp only [length_append, length_cons]
  omega

lemma Reading.length_lt (h : Reading c (cmd :: cmds) stream) :
    (encodeCommands cmds).length < stream.length := by
  cases h with
  | between hc hreq hstream =>
    rw [hstream, encodeCommands_cons, encodeCommand]
    simp only [length_append, length_cons]
    omega
  | inside hrest hreq hc => exact hc.length_lt hrest

lemma Reading.eq_nil (h : Reading c cmds []) : cmds = [] := by
  cases cmds with
  | nil => rfl
  | cons cmd cmds => exact absurd h.length_lt (Nat.not_lt_zero _)

lemma Reading.stream_nil (h : Reading c [] stream) : stream = [] := by
  cases h with
  | between hc hreq hstream => exact hstream

lemma Reading.head (h : Reading c (cmd :: cmds) (unread ++ socket)) (hreq : c.reqtype = none)
    (hne : unread ≠ []) : unread.head? = some 42 := by
  cases h with
  | between hc _ hstream =>
    obtain ⟨b, rest, rfl⟩ := exists_cons_of_ne_nil hne
    rw [encodeCommands_cons, encodeCommand] at hstream
    simp only [cons_append, List.cons.injEq] at hstream
    rw [head?_cons, hstream.1]
  | inside _ hmulti _ =>
    rw [hreq] at hmulti
    cases hmulti

/-- Deciding on the kind of request changes nothing else. -/
lemma Reading.setMultibulk (h : Reading c (cmd :: cmds) stream) :
    Reading { c with reqtype := some .multibulk } (cmd :: cmds) stream := by
  cases h with
  | between hc _ hstream =>
    exact .between { hc with }
      (.inr ⟨rfl, cons_ne_nil _ _⟩) hstream
  | inside hrest _ hin =>
    exact .inside hrest rfl { hin with }

lemma Reading.reqtype
    (h : Reading c cmds stream) : c.reqtype = none ∨ c.reqtype = some .multibulk := by
  cases h with
  | between _ hreq _ => exact hreq.imp id And.left
  | inside _ hreq _ => exact .inr hreq

lemma reading_congr {c' : Client} (h : Reading c cmds stream) (hargv : c'.argv = c.argv)
    (hmissing : c'.multibulklen = c.multibulklen) (hbulk : c'.bulklen = c.bulklen)
    (hreq : c'.reqtype = c.reqtype) (hslots : c'.argvLen = c.argvLen) : Reading c' cmds stream := by
  cases h with
  | between hc hkind hstream =>
    exact .between ⟨hargv.trans hc.argv, hmissing.trans hc.multibulklen, hbulk.trans hc.bulklen⟩
      (hreq ▸ hkind) hstream
  | inside hrest hkind hin =>
    exact .inside hrest (hreq.trans hkind) ⟨hargv.trans hin.argv, hmissing.trans hin.missing,
      hbulk ▸ hin.cut, hslots ▸ hin.slots, hslots ▸ hin.slotted, hin.argc⟩

/-- The outcome of `processMultibulkBuffer` on a stream of commands. -/
structure ParsedOnce (c c' : Client) (parsed : Parsed) (cmd : List Bytes)
    (cmds : List (List Bytes)) (socket : Bytes) : Prop where
  frame : Frame c c'
  pos : c'.qbPos ≤ c'.querybuf.length
  ready : parsed = .ready → c'.argv = cmd ∧ c'.unread ++ socket = encodeCommands cmds
  notReady : parsed = .notReady → socket ≠ [] ∧ Reading c' (cmd :: cmds) (c'.unread ++ socket)

lemma parseInside (hreq : c.reqtype = some .multibulk)
    (hrest : rest ≠ []) (hc : Inside c args rest (encodeCommands cmds) (c.unread ++ socket))
    (hpos : c.qbPos ≤ c.querybuf.length) (hw : ∀ a ∈ rest, ArgumentWithin s c.master a) :
    ∃ c' parsed, (do
        check (0 < c.multibulklen)
        let c ← readArguments s c.multibulklen c
        .ok (c, if c.multibulklen = 0 then .ready else .notReady) : Outcome (Client × Parsed)) =
          .ok (c', parsed) ∧ ParsedOnce c c' parsed (args ++ rest) cmds socket := by
  have hmore : 0 < c.multibulklen := by
    rw [hc.missing]
    exact length_pos_iff.mpr hrest
  obtain ⟨c', hrun, hframe, hpos', done, todo, hsplit, hend, hin⟩ := readArguments_spec hc hpos hw
  rw [check_pos hmore, hc.missing, hrun]
  refine ⟨c', _, rfl, hframe, hpos', ?_, ?_⟩
  · intro hready
    have hzero : todo = [] := by
      by_contra hne
      have hlen : c'.multibulklen ≠ 0 := by
        rw [hin.missing]
        exact fun h0 => hne (eq_nil_of_length_eq_zero h0)
      rw [if_neg hlen] at hready
      cases hready
    subst hzero
    refine ⟨by rw [hin.argv, hsplit, append_nil], ?_⟩
    have hcut := hin.cut
    unfold Cut at hcut
    split at hcut
    · exact hcut
    obtain ⟨a, rest', heq, -⟩ := hcut
    cases heq
  intro hnot
  have hne : todo ≠ [] := by
    intro hnil
    rw [if_pos (by rw [hin.missing, hnil]; rfl)] at hnot
    cases hnot
  refine ⟨hend.resolve_left hne, ?_⟩
  rw [hsplit, ← append_assoc]
  exact .inside hne (hframe.reqtype.trans hreq) hin

lemma processMultibulkBuffer_spec (hreq : c.reqtype = some .multibulk)
    (hc : Reading c (cmd :: cmds) (c.unread ++ socket)) (hpos : c.qbPos ≤ c.querybuf.length)
    (hw : Within s c.master cmd) :
    ∃ c' parsed, processMultibulkBuffer s c = .ok (c', parsed) ∧
      ParsedOnce c c' parsed cmd cmds socket := by
  unfold processMultibulkBuffer
  generalize hstream : c.unread ++ socket = stream at hc
  cases hc with
  | between hb _ hs =>
    have hbytes := hstream.trans hs
    rw [if_pos hb.multibulklen]
    rcases readMultibulklen_spec hb hpos hw hbytes with ⟨hrun, hsock⟩ | ⟨c1, hrun, hf1, hpos1, hin1⟩
    · rw [hrun]
      refine ⟨c, .notReady, rfl, Frame.refl c, hpos, nofun, fun _ => ⟨hsock, ?_⟩⟩
      exact .between hb (.inr ⟨hreq, cons_ne_nil _ _⟩) (hstream.trans hs)
    rw [hrun]
    obtain ⟨c2, parsed, hrun2, hp⟩ := parseInside (hf1.reqtype.trans hreq) hw.nonempty hin1 hpos1
      fun a ha => hf1.master ▸ hw.argument ha
    exact ⟨c2, parsed, hrun2, hf1.trans hp.frame, hp.pos, hp.ready, hp.notReady⟩
  | @inside args rest _ _ hrest _ hin =>
    have hsome : c.multibulklen ≠ 0 := by
      rw [hin.missing]
      exact fun h0 => hrest (eq_nil_of_length_eq_zero h0)
    rw [if_neg hsome]
    exact parseInside hreq hrest (hstream.symm ▸ hin) hpos
      fun a ha => hw.argument (mem_append_right _ ha)

end Redis.Networking.RequestOrder
