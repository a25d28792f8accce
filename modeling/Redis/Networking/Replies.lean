import Mathlib.Data.List.Basic
import Redis.Lib.Buffer
import Redis.Lib.Decimal

/-! # Output buffers of a client: networking.c

Replies go to a static buffer first and to a list of blocks after it. A length not known yet is
a list node without a block. The allocator may hand out more than it was asked for; that excess
is an argument of every function that allocates. -/
namespace Redis.Networking.Replies
open Lib Lib.Decimal

def protoReplyChunkBytes : Nat := 16 * 1024
def netMaxWritesPerEvent : Nat := 1024 * 64
def iovMax : Nat := 1024

/-! ## Clients -/

structure ListNode where
  addr : Nat
  value : Option Buffer
deriving DecidableEq, Repr

/-- The flags the reply functions look at. `replyOff` stands for REPLY_OFF and
REPLY_SKIP, `slave` for the client type that `getClientType` gives to
replicas. -/
structure ClientFlags where
  script : Bool := false
  module : Bool := false
  closeAsap : Bool := false
  closeAfterReply : Bool := false
  replyOff : Bool := false
  pushing : Bool := false
  master : Bool := false
  masterForceReply : Bool := false
  slave : Bool := false
deriving DecidableEq, Repr

/-- The static buffer is `buf` with `bufpos` bytes of `buf_usable_size` in use,
and a `clientReplyBlock` is a buffer too. -/
structure Client where
  flags : ClientFlags
  conn : Bool
  buf : Buffer
  sentlen : Nat
  reply : List ListNode
  replyBytes : Nat
  fresh : Nat
deriving DecidableEq, Repr

def createClient (flags : ClientFlags) (conn : Bool) (usable : Nat) : Client :=
  { flags := flags, conn := conn, buf := ⟨usable, [], Nat.zero_le _⟩, sentlen := 0, reply := [],
    replyBytes := 0, fresh := 0 }

def clientHasPendingReplies (c : Client) : Bool := 0 < c.buf.used || 0 < c.reply.length

/-- `prepareClientToWrite`, without the write handler: whether the client takes
data. -/
def prepareClientToWrite (c : Client) : Bool :=
  if c.flags.script || c.flags.module then true
  else if c.flags.closeAsap then false
  else if c.flags.replyOff && !c.flags.pushing then false
  else if c.flags.master && !c.flags.masterForceReply then false
  else c.conn

def freeClientAsync (c : Client) : Client :=
  if c.flags.closeAsap || c.flags.script then c
  else { c with flags := { c.flags with closeAsap := true } }

/-- `overLimit` is the answer of `checkClientOutputBufferLimits`. -/
def closeClientOnOutputBufferLimitReached (overLimit : Bool) (c : Client) : Client :=
  if !c.conn then c
  else if (c.replyBytes = 0 && !c.flags.slave) || c.flags.closeAsap then c
  else if overLimit then freeClientAsync c
  else c

/-! ## Appending -/

def addReplyToBuffer (c : Client) (s : Bytes) : Outcome (Client × Nat) :=
  let available := c.buf.available
  if 0 < c.reply.length then .ok (c, 0)
  else do
    let replyLen := if available < s.length then available else s.length
    let buf ← c.buf.append (s.take replyLen)
    .ok ({ c with buf := buf }, replyLen)

/-- The part of `_addReplyProtoToList` that fills the tail: the list, and the
bytes that did not fit. -/
def appendToTail (reply : List ListNode) (s : Bytes) : Outcome (List ListNode × Bytes) :=
  match reply.getLast? with
  | some ⟨addr, some tail⟩ => do
    let copy := if s.length ≤ tail.available then s.length else tail.available
    let tail ← tail.append (s.take copy)
    .ok (reply.dropLast ++ [⟨addr, some tail⟩], s.drop copy)
  | _ => .ok (reply, s)

def addReplyProtoToList (c : Client) (s : Bytes) (excess : Nat) (overLimit : Bool) :
    Outcome Client := do
  let (reply, s) ← appendToTail c.reply s
  if s.length = 0 then .ok { c with reply := reply }
  else do
    let size := if s.length < protoReplyChunkBytes then protoReplyChunkBytes else s.length
    let tail ← Buffer.create (size + excess) s
    .ok (closeClientOnOutputBufferLimitReached overLimit
      { c with
        reply := reply ++ [⟨c.fresh, some tail⟩]
        replyBytes := c.replyBytes + tail.size
        fresh := c.fresh + 1 })

def addReplyToBufferOrList (c : Client) (s : Bytes) (excess : Nat) (overLimit : Bool) :
    Outcome Client :=
  if c.flags.closeAfterReply then .ok c
  else if c.flags.slave then .ok (freeClientAsync c)
  else do
    let (c, replyLen) ← addReplyToBuffer c s
    if replyLen < s.length then addReplyProtoToList c (s.drop replyLen) excess overLimit
    else .ok c

def addReplyProto (c : Client) (s : Bytes) (excess : Nat) (overLimit : Bool) : Outcome Client :=
  if prepareClientToWrite c then addReplyToBufferOrList c s excess overLimit else .ok c

/-! ## Deferred lengths -/

def trimReplyUnusedTailSpace (c : Client) (excess : Nat) : Outcome Client :=
  match c.reply.getLast? with
  | some ⟨addr, some tail⟩ =>
    if tail.size / 4 < tail.size - tail.used ∧ tail.used < protoReplyChunkBytes then do
      let oldSize := tail.size
      let tail ← Buffer.create (tail.used + excess) tail.bytes
      .ok { c with
        reply := c.reply.dropLast ++ [⟨addr, some tail⟩]
        replyBytes := c.replyBytes + tail.size - oldSize }
    else .ok c
  | _ => .ok c

/-- The new node, or `none` where the code returns NULL. -/
def addReplyDeferredLen (c : Client) (excess : Nat) : Outcome (Client × Option Nat) :=
  if prepareClientToWrite c then
    if c.flags.slave then .ok (freeClientAsync c, none)
    else do
      let c ← trimReplyUnusedTailSpace c excess
      .ok ({ c with reply := c.reply ++ [⟨c.fresh, none⟩], fresh := c.fresh + 1 }, some c.fresh)
  else .ok (c, none)

/-- The nodes before the one at `addr`, its value, and the nodes after it. -/
def findNode (addr : Nat) : List ListNode → Option (List ListNode × Option Buffer × List ListNode)
  | [] => none
  | node :: rest =>
    if node.addr = addr then some ([], node.value, rest)
    else (findNode addr rest).map fun (before, value, after) => (node :: before, value, after)

/-- What `setDeferredReply` puts behind the node before the placeholder: the
nodes, and the bytes that are left. -/
def fillPrev (before : List ListNode) (s : Bytes) : Outcome (List ListNode × Bytes) :=
  match before.getLast? with
  | some ⟨addr, some prev⟩ =>
    if 0 < prev.size - prev.used then do
      let lenToCopy := if s.length < prev.size - prev.used then s.length else prev.size - prev.used
      let prev ← prev.append (s.take lenToCopy)
      .ok (before.dropLast ++ [⟨addr, some prev⟩], s.drop lenToCopy)
    else .ok (before, s)
  | _ => .ok (before, s)

/-- Whether the previous node has room, so that the placeholder goes away as
soon as nothing is left to copy. -/
def prevHasRoom (before : List ListNode) : Bool :=
  match before.getLast? with
  | some ⟨_, some prev⟩ => 0 < prev.size - prev.used
  | _ => false

/-- Where the next node can take `length` more bytes in front: that node. -/
def gluesToNext (after : List ListNode) (length : Nat) : Option (Nat × Buffer × List ListNode) :=
  match after with
  | ⟨addr, some next⟩ :: rest =>
    if length ≤ next.size - next.used ∧ next.used < protoReplyChunkBytes * 4 then
      some (addr, next, rest)
    else none
  | _ => none

def setDeferredReply (c : Client) (node : Option Nat) (s : Bytes) (excess : Nat)
    (overLimit : Bool) : Outcome Client :=
  match node with
  | none => .ok c
  | some addr =>
    match findNode addr c.reply with
    -- the caller's pointer is to a node that was freed
    | none => .error .memory
    | some (before, value, after) => do
      check (value = none)
      let (filled, rest) ← fillPrev before s
      if prevHasRoom before ∧ rest.length = 0 then .ok { c with reply := filled ++ after }
      else
        match gluesToNext after rest.length with
        | some (nextAddr, next, after) => do
          let next ← next.prepend rest
          .ok { c with reply := filled ++ ⟨nextAddr, some next⟩ :: after }
        | none => do
          let buf ← Buffer.create (rest.length + excess) rest
          .ok (closeClientOnOutputBufferLimitReached overLimit
            { c with
              reply := filled ++ ⟨addr, some buf⟩ :: after
              replyBytes := c.replyBytes + buf.size })

def sharedBulkhdrLen : Nat := 32

/-- `sprintf("%c%ld\r\n", prefix, length)`; the shared headers have the same
form. -/
def headerText (lead : UInt8) (length : Nat) : Bytes := lead :: decimal length ++ [13, 10]

/-- The bytes `setDeferredAggregateLen` passes on: a shared header cut at its
tabulated length where there is one, the formatted text otherwise. -/
def aggregateHeader (length : Nat) (lead : UInt8) : Bytes :=
  let hdrLen := if length < 10 then 4 else 5
  let optHdr := length < sharedBulkhdrLen
  -- `*`, `%` and `~`
  if (lead = 42 ∨ lead = 37 ∨ lead = 126) ∧ optHdr then (headerText lead length).take hdrLen
  else headerText lead length

def setDeferredAggregateLen (c : Client) (node : Option Nat) (length : Int) (lead : UInt8)
    (excess : Nat) (overLimit : Bool) : Outcome Client := do
  check (0 ≤ length)
  setDeferredReply c node (aggregateHeader length.toNat lead) excess overLimit

/-! ## Writing -/

/-- The loop of `_writevToClient` that collects the blocks to send. Empty blocks
are dropped on the way. The results are the vector, the nodes that stay, and the
size of what was dropped. -/
def gather (iovcnt iovBytesLen offset : Nat) :
    List ListNode → Outcome (List Bytes × List ListNode × Nat)
  | [] => .ok ([], [], 0)
  | node :: rest =>
    if iovcnt < iovMax ∧ iovBytesLen < netMaxWritesPerEvent then
      match node.value with
      | none => .error .null
      | some o =>
        if o.used = 0 then do
          let (iov, kept, freed) ← gather iovcnt iovBytesLen 0 rest
          .ok (iov, kept, freed + o.size)
        else do
          let piece := o.bytes.drop offset
          let (iov, kept, freed) ← gather (iovcnt + 1) (iovBytesLen + piece.length) 0 rest
          .ok (piece :: iov, node :: kept, freed)
    else .ok ([], node :: rest, 0)

/-- The loop that releases what was sent: the new `sentlen`, the nodes that
stay, and the size of what was dropped. -/
def release (remaining sentlen : Nat) : List ListNode → Outcome (Nat × List ListNode × Nat)
  | [] => if 0 < remaining then .error .null else .ok (sentlen, [], 0)
  | node :: rest =>
    if 0 < remaining then
      match node.value with
      | none => .error .null
      | some o =>
        if remaining < o.used - sentlen then .ok (sentlen + remaining, node :: rest, 0)
        else do
          let (sentlen', kept, freed) ← release (remaining - (o.used - sentlen)) 0 rest
          .ok (sentlen', kept, freed + o.size)
    else .ok (sentlen, node :: rest, 0)

/-- The static buffer after `nwritten` bytes went out, and what of them came from
the list. -/
def releaseBuffer (c : Client) (nwritten : Nat) : Client × Nat :=
  if 0 < c.buf.used then
    let bufLen := c.buf.used - c.sentlen
    (if bufLen ≤ nwritten then { c with buf := c.buf.reset, sentlen := 0 }
      else { c with sentlen := c.sentlen + nwritten }, nwritten - bufLen)
  else (c, nwritten)

/-- `accepts` is what the socket takes, zero for an error. The second result is
what was sent, `none` where the code returns C_ERR. -/
def writevToClient (c : Client) (accepts : Nat) : Outcome (Client × Option Bytes) := do
  let first := if 0 < c.buf.used then [c.buf.bytes.drop c.sentlen] else []
  let offset := if 0 < c.buf.used then 0 else c.sentlen
  let (blocks, kept, freed) ← gather first.length first.flatten.length offset c.reply
  let c := { c with reply := kept, replyBytes := c.replyBytes - freed }
  let iov := first ++ blocks
  if iov.length = 0 then .ok (c, some [])
  else
    let sent := iov.flatten.take accepts
    if sent.length = 0 then .ok (c, none)
    else do
      let (c, remaining) := releaseBuffer c sent.length
      let (sentlen, kept, freed) ← release remaining c.sentlen c.reply
      .ok ({ c with sentlen := sentlen, reply := kept, replyBytes := c.replyBytes - freed },
        some sent)

/-- `_writeToClient` of a client that is not a replica. -/
def writeOnce (c : Client) (accepts : Nat) : Outcome (Client × Option Bytes) :=
  if 0 < c.reply.length then do
    let (c, sent) ← writevToClient c accepts
    match sent with
    | none => .ok (c, none)
    | some sent => do
      if c.reply.length = 0 then check (c.replyBytes = 0)
      .ok (c, some sent)
  else if 0 < c.buf.used then
    let sent := (c.buf.bytes.drop c.sentlen).take accepts
    if sent.length = 0 then .ok (c, none)
    else
      let c := { c with sentlen := c.sentlen + sent.length }
      if c.sentlen = c.buf.used then .ok ({ c with buf := c.buf.reset, sentlen := 0 }, some sent)
      else .ok (c, some sent)
  else .ok (c, some [])

/-- The loop of `writeToClient`. The socket takes the listed amounts, one a
round, and nothing after them. `overMaxmemory` says that the limit per event is
not applied. -/
def writeLoop (c : Client) (overMaxmemory : Bool) (totwritten : Nat) :
    List Nat → Outcome (Client × Bytes)
  | [] =>
    if clientHasPendingReplies c then do
      let (c, _) ← writeOnce c 0
      .ok (c, [])
    else .ok (c, [])
  | accepts :: rest =>
    if clientHasPendingReplies c then do
      let (c, sent) ← writeOnce c accepts
      match sent with
      | none => .ok (c, [])
      | some sent =>
        if netMaxWritesPerEvent < totwritten + sent.length ∧ !overMaxmemory then .ok (c, sent)
        else do
          let (c, more) ← writeLoop c overMaxmemory (totwritten + sent.length) rest
          .ok (c, sent ++ more)
    else .ok (c, [])

/-- `writeToClient`; the second result is what went to the socket. -/
def writeToClient (c : Client) (overMaxmemory : Bool) (accepted : List Nat) :
    Outcome (Client × Bytes) := do
  let (c, sent) ← writeLoop c overMaxmemory 0 accepted
  if clientHasPendingReplies c then .ok (c, sent)
  else
    let c := { c with sentlen := 0 }
    .ok (if c.flags.closeAfterReply then freeClientAsync c else c, sent)

end Redis.Networking.Replies
