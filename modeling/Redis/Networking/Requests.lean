import Mathlib.Data.List.Basic
import Redis.Util.Numbers
import Redis.Sds.SplitArgs

/-! # Reading requests: networking.c

The parser of a client works on the query buffer from `qb_pos` on and can stop
in the middle of a request: `multibulklen` arguments are missing, and `bulklen`
is the length of the one that is being read, if its header was seen. -/
namespace Redis.Networking.Requests
open Lib Util.Numbers Sds.SplitArgs

def protoIobufLen : Nat := 1024 * 16
def protoInlineMaxSize : Nat := 1024 * 64
def protoMbulkBigArg : Nat := 1024 * 32
def intMax : Nat := 2 ^ 31 - 1

/-! ## Clients -/

inductive ReqType where
  | inline
  | multibulk
deriving DecidableEq, Repr

inductive ProtocolError where
  | tooBigInline
  | unbalancedQuotes
  | inlineFromMaster
  | tooBigMbulkCount
  | invalidMbulkCount
  | unauthMbulkCount
  | tooBigBulkCount
  | expectedDollar (got : UInt8)
  | invalidBulkLength
  | unauthBulkLength
deriving DecidableEq, Repr

/-- The configuration the parser looks at; `authRequired` is the answer of the
function of that name for the client. -/
structure Server where
  protoMaxBulkLen : Nat
  clientMaxQuerybufLen : Nat
  authRequired : Bool
deriving DecidableEq, Repr

/-- `argc` is the length of `argv`, and `argvLen` the number of slots allocated
for it. A client with `pending` has a command in `argv` that was postponed. -/
structure Client where
  master : Bool
  blocked : Bool
  pending : Bool
  multi : Bool
  closeAfterReply : Bool
  closeAsap : Bool
  protocolError : Option ProtocolError
  querybuf : Bytes
  qbPos : Nat
  reqtype : Option ReqType
  multibulklen : Nat
  bulklen : Option Nat
  argv : List Bytes
  argvLen : Nat
  argvLenSum : Nat
  reploff : Int
  readReploff : Int
  replApplied : Nat
deriving DecidableEq, Repr

/-- A client as `createClient` leaves it; one for a master starts at the offset
of the replication stream. -/
def createClient (master : Bool) (offset : Int) : Client :=
  { master := master, blocked := false, pending := false, multi := false, closeAfterReply := false,
    closeAsap := false, protocolError := none, querybuf := [], qbPos := 0, reqtype := none,
    multibulklen := 0, bulklen := none, argv := [], argvLen := 0, argvLenSum := 0,
    reploff := offset, readReploff := offset, replApplied := 0 }

/-- `addReplyError` and `setProtocolError`. -/
def setProtocolError (e : ProtocolError) (c : Client) : Client :=
  { c with closeAfterReply := true, protocolError := some e }

def resetClient (c : Client) : Client :=
  { c with argv := [], reqtype := none, multibulklen := 0, bulklen := none }

/-- The position of `ch` in the C string that starts at `s`. -/
def strchr (ch : UInt8) : Bytes → Option Nat
  | [] => none
  | b :: rest => if b = ch then some 0 else if b = 0 then none else (strchr ch rest).map (· + 1)

/-- The bytes that were not looked at yet. -/
def Client.unread (c : Client) : Bytes := c.querybuf.drop c.qbPos

/-! ## Parsing -/

inductive Parsed where
  | ready
  | notReady
deriving DecidableEq, Repr

def processInlineBuffer (c : Client) : Outcome (Client × Parsed) :=
  match strchr 10 c.unread with
  | none =>
    if protoInlineMaxSize < c.unread.length then .ok (setProtocolError .tooBigInline c, .notReady)
    else .ok (c, .notReady)
  | some newline => do
    let hasCr := newline ≠ 0 ∧ c.unread[newline - 1]? = some 13
    let querylen := if hasCr then newline - 1 else newline
    let linefeedChars := if hasCr then 2 else 1
    let argv ← sdssplitargs (c.unread.take querylen ++ [0])
    match argv with
    | none => .ok (setProtocolError .unbalancedQuotes c, .notReady)
    | some argv =>
      if querylen ≠ 0 ∧ c.master then .ok (setProtocolError .inlineFromMaster c, .notReady)
      else
        .ok ({ c with
          qbPos := c.qbPos + querylen + linefeedChars
          argv := argv
          argvLen := if argv.length = 0 then c.argvLen else argv.length
          argvLenSum := if argv.length = 0 then c.argvLenSum else (argv.map List.length).sum },
          .ready)

/-- What came of looking for a header line. -/
inductive Header where
  | missing
  | bad (e : ProtocolError)
  | line (text : Bytes)
deriving DecidableEq, Repr

/-- Both headers are looked for in the same way: up to a carriage return, with
the line feed after it in the buffer. -/
def findHeader (tooBig : ProtocolError) (unread : Bytes) : Header :=
  match strchr 13 unread with
  | none => if protoInlineMaxSize < unread.length then .bad tooBig else .missing
  | some newline =>
    if (unread.length : Int) - 2 < newline then .missing else .line (unread.take newline)

/-- The part of `processMultibulkBuffer` that reads the number of arguments.
`none` goes on with the arguments. -/
def readMultibulklen (s : Server) (c : Client) : Outcome (Client × Option Parsed) := do
  check (c.argv.length = 0)
  match findHeader .tooBigMbulkCount c.unread with
  | .missing => .ok (c, some .notReady)
  | .bad e => .ok (setProtocolError e c, some .notReady)
  | .line text => do
    check (text.head? = some 42)
    match string2ll text.tail with
    | none => .ok (setProtocolError .invalidMbulkCount c, some .notReady)
    | some ll =>
      if (intMax : Int) < ll then .ok (setProtocolError .invalidMbulkCount c, some .notReady)
      else if 10 < ll ∧ s.authRequired then
        .ok (setProtocolError .unauthMbulkCount c, some .notReady)
      else
        let c := { c with qbPos := c.qbPos + text.length + 2 }
        if ll ≤ 0 then .ok (c, some .ready)
        else
          .ok ({ c with
            multibulklen := ll.toNat
            argvLen := min ll.toNat 1024
            argvLenSum := 0 }, none)

/-- The part of the loop that reads the length of an argument. A big argument
makes the query buffer start with it, unless more than the argument has been
read. The last result tells whether the argument can be read now. -/
def readBulklen (s : Server) (c : Client) : Client × Bool :=
  match findHeader .tooBigBulkCount c.unread with
  | .missing => (c, false)
  | .bad e => (setProtocolError e c, false)
  | .line text =>
    if text.head? ≠ some 36 then (setProtocolError (.expectedDollar (text.headD 13)) c, false)
    else
      match string2ll text.tail with
      | none => (setProtocolError .invalidBulkLength c, false)
      | some ll =>
        if ll < 0 ∨ (!c.master ∧ (s.protoMaxBulkLen : Int) < ll) then
          (setProtocolError .invalidBulkLength c, false)
        else if 16384 < ll ∧ s.authRequired then (setProtocolError .unauthBulkLength c, false)
        else
          let c := { c with qbPos := c.qbPos + text.length + 2 }
          if !c.master ∧ protoMbulkBigArg ≤ ll.toNat ∧ c.unread.length ≤ ll.toNat + 2 then
            ({ c with querybuf := c.unread, qbPos := 0, bulklen := some ll.toNat }, true)
          else ({ c with bulklen := some ll.toNat }, true)

/-- The slots for arguments after `argv` was grown for one more. -/
def growArgv (c : Client) : Nat :=
  if c.argvLen ≤ c.argv.length then
    min (if c.argvLen < intMax / 2 then c.argvLen * 2 else intMax) (c.argv.length + c.multibulklen)
  else c.argvLen

/-- Whether the query buffer is the argument and nothing else. -/
def isWholeBuffer (c : Client) (bulklen : Nat) : Bool :=
  !c.master && c.qbPos = 0 && protoMbulkBigArg ≤ bulklen && c.querybuf.length = bulklen + 2

/-- The query buffer, without its last line end, becomes the argument. -/
def useQuerybuf (c : Client) : Client :=
  { c with argv := c.argv ++ [c.querybuf.dropLast.dropLast], querybuf := [] }

def copyArgument (c : Client) (bulklen : Nat) : Client :=
  { c with argv := c.argv ++ [c.unread.take bulklen], qbPos := c.qbPos + bulklen + 2 }

/-- The part of the loop that takes an argument whose bytes are all there. -/
def takeArgument (c : Client) (bulklen : Nat) : Outcome Client :=
  let slots := growArgv c
  -- the store to `c->argv[c->argc]`
  if c.argv.length < slots then
    let c := { c with argvLen := slots, argvLenSum := c.argvLenSum + bulklen }
    let c := if isWholeBuffer c bulklen then useQuerybuf c else copyArgument c bulklen
    .ok { c with bulklen := none, multibulklen := c.multibulklen - 1 }
  else .error .bounds

/-- The loop over the arguments; `missing` is `multibulklen` on entry, and every
round takes one argument or ends the loop. -/
def readArguments (s : Server) : (missing : Nat) → (c : Client) → Outcome Client
  | 0, c => .ok c
  | missing + 1, c =>
    let (c, more) := if c.bulklen = none then readBulklen s c else (c, true)
    if !more then .ok c
    else
      match c.bulklen with
      | none => .ok c
      | some bulklen =>
        if c.unread.length < bulklen + 2 then .ok c
        else do
          let c ← takeArgument c bulklen
          readArguments s missing c

def processMultibulkBuffer (s : Server) (c : Client) : Outcome (Client × Parsed) := do
  let (c, done) ← if c.multibulklen = 0 then readMultibulklen s c else .ok (c, none)
  match done with
  | some parsed => .ok (c, parsed)
  | none => do
    check (0 < c.multibulklen)
    let c ← readArguments s c.multibulklen c
    .ok (c, if c.multibulklen = 0 then .ready else .notReady)

/-! ## Executing -/

/-- What `processCommand` comes to: the clients are paused and the command is postponed, or it
is executed, blocks the client that sent it or not, and leaves it with the flag MULTI or not. -/
inductive Effect where
  | postpone
  | execute (blocks multi : Bool)
deriving DecidableEq, Repr

/-- A client at work: the argument vectors that were executed, what the next calls of
`processCommand` come to (none listed has no effect), and what was passed on to replicas. -/
structure Session where
  client : Client
  executed : List (List Bytes)
  effects : List Effect
  fed : Bytes
deriving DecidableEq, Repr

/-- The offset up to which a master's stream was applied. -/
def updateReploff (c : Client) : Client :=
  if c.master ∧ !c.multi then { c with reploff := c.readReploff - c.querybuf.length + c.qbPos }
  else c

/-- The client after `applied` more bytes of a master's stream, and the bytes that
go to the replicas. -/
def feedApplied (c : Client) (applied : Int) : Outcome (Client × Bytes) :=
  if c.master ∧ applied ≠ 0 then
    -- `replicationFeedStreamFromMasterStream` reads that many bytes
    if 0 ≤ applied ∧ c.replApplied + applied.toNat ≤ c.querybuf.length then
      .ok ({ c with replApplied := c.replApplied + applied.toNat },
        (c.querybuf.drop c.replApplied).take applied.toNat)
    else .error .bounds
  else .ok (c, [])

def commandProcessed (c : Client) : Outcome (Client × Bytes) :=
  if c.blocked then .ok (c, [])
  else
    let c := resetClient c
    let prevOffset := c.reploff
    let c := updateReploff c
    feedApplied c (c.reploff - prevOffset)

/-- A pause postpones the commands of a master too, and a module may block one. -/
def processCommand (w : Session) : Session :=
  match w.effects.headD (.execute false w.client.multi) with
  | .postpone =>
    { w with
      client := { w.client with blocked := true, pending := true }
      effects := w.effects.tail }
  | .execute blocks multi =>
    { w with
      client := { w.client with blocked := blocks, multi := multi }
      executed := w.executed ++ [w.client.argv]
      effects := w.effects.tail }

def processCommandAndResetClient (w : Session) : Outcome Session := do
  let w := processCommand w
  let (c, fed) ← commandProcessed w.client
  .ok { w with client := c, fed := w.fed ++ fed }

/-- The kind of a request is known from its first byte. -/
def setReqtype (c : Client) : Client :=
  if c.reqtype = none then
    { c with reqtype := if c.unread.head? = some 42 then some .multibulk else some .inline }
  else c

def parseRequest (s : Server) (c : Client) : Outcome (Client × Parsed) :=
  if c.reqtype = some .inline then processInlineBuffer c else processMultibulkBuffer s c

/-- The loop of `processInputBuffer`; a round that goes on has consumed bytes. -/
def processLoop (s : Server) : (rounds : Nat) → Session → Outcome Session
  | 0, _ => .error .loop
  | rounds + 1, w => do
    if w.client.querybuf.length ≤ w.client.qbPos then .ok w
    else if w.client.blocked then .ok w
    else if w.client.pending then .ok w
    else if w.client.closeAfterReply || w.client.closeAsap then .ok w
    else
      let (c, parsed) ← parseRequest s (setReqtype w.client)
      match parsed with
      | .notReady => .ok { w with client := c }
      | .ready =>
        if c.argv.length = 0 then processLoop s rounds { w with client := resetClient c }
        else do
          let w ← processCommandAndResetClient { w with client := c }
          processLoop s rounds w

/-- The query buffer without what is not needed any more: for a master, what was
passed on; for others, what was parsed. -/
def trimQuerybuf (c : Client) : Client :=
  if c.master then
    if c.replApplied ≠ 0 then
      { c with
        querybuf := c.querybuf.drop c.replApplied
        qbPos := c.qbPos - c.replApplied
        replApplied := 0 }
    else c
  else if c.qbPos ≠ 0 then { c with querybuf := c.unread, qbPos := 0 }
  else c

def processInputBuffer (s : Server) (w : Session) : Outcome Session := do
  let w ← processLoop s (w.client.querybuf.length + 1) w
  .ok { w with client := trimQuerybuf w.client }

/-- How much `readQueryFromClient` asks the socket for. `alloc` is the room the
query buffer was allocated with, and `excess` what the allocator added to it. -/
def readlen (c : Client) (alloc excess : Nat) : Nat :=
  let bigArg := c.reqtype = some .multibulk ∧ c.multibulklen ≠ 0 ∧
    protoMbulkBigArg ≤ c.bulklen.getD 0
  let remaining := c.bulklen.getD 0 + 2 - c.unread.length
  let len :=
    if bigArg then
      let len := if 0 < remaining then remaining else protoIobufLen
      if c.master ∧ len < protoIobufLen then protoIobufLen else len
    else protoIobufLen
  if !c.master ∧ (bigArg ∨ alloc < protoIobufLen) then len else len + excess

/-- `readQueryFromClient` with a socket that holds `socket` and hands out
`chunk` bytes at most: the session, and what is left in the socket. An empty
read closes the connection. -/
def readQueryFromClient (s : Server) (w : Session) (socket : Bytes) (chunk alloc excess : Nat) :
    Outcome (Session × Bytes) :=
  let nread := min (min chunk (readlen w.client alloc excess)) socket.length
  if nread = 0 then .ok ({ w with client := { w.client with closeAsap := true } }, socket)
  else
    let c := { w.client with querybuf := w.client.querybuf ++ socket.take nread }
    let c := if c.master then { c with readReploff := c.readReploff + nread } else c
    if !c.master ∧ s.clientMaxQuerybufLen < c.querybuf.length then
      .ok ({ w with client := { c with closeAsap := true } }, socket.drop nread)
    else do
      let w ← processInputBuffer s { w with client := c }
      .ok (w, socket.drop nread)

/-- The command that was executed is done with; one that was postponed is kept. -/
def unblockClient (c : Client) : Client :=
  { (if c.pending then c else resetClient c) with blocked := false }

def processPendingCommand (w : Session) : Outcome Session :=
  if w.client.pending then
    processCommandAndResetClient { w with client := { w.client with pending := false } }
  else .ok w

/-- What `processUnblockedClients` does with a client: the command that was postponed, and what
was read in the meantime. -/
def processPendingCommandAndInputBuffer (s : Server) (w : Session) : Outcome Session := do
  let w ← processPendingCommand w
  if w.client.querybuf.length = 0 then .ok w else processInputBuffer s w

end Redis.Networking.Requests
