import Mathlib.Data.List.Basic
import Redis.Lib.Buffer

/-! # The shared replication buffer: replication.c

The backlog and all replicas share one list of blocks. Each of them points to the
block where what it needs begins and counts as one reference to it. The allocator
may hand out more than it was asked for; `excess` says how much for each block. -/
namespace Redis.Replication.Buffer
open Lib

def protoReplyChunkBytes : Nat := 16 * 1024
def replBacklogTrimBlocksPerCall : Nat := 64
def replBacklogIndexPerBlocks : Nat := 64
def configReplBacklogMinSize : Nat := 1024 * 16

/-! ## State -/

/-- `replBufBlock`, under its number `id`, with its list node. -/
structure ReplBufBlock where
  id : Nat
  refcount : Nat
  replOffset : Nat
  data : Redis.Lib.Buffer
deriving DecidableEq, Repr

/-- `replBacklog`. The rax `blocks_index` maps offsets to nodes; it is the list of
its pairs in the order of the keys. -/
structure ReplBacklog where
  refReplBufNode : Option Nat
  unindexedCount : Nat
  blocksIndex : List (Nat × Nat)
  histlen : Nat
  offset : Nat
deriving DecidableEq, Repr

/-- A replica. `canFeed` is the answer of `canFeedReplicaReplBuffer`. The last two
fields are not in the source: what its socket was sent, and the offset it was
attached at. -/
structure Replica where
  id : Nat
  canFeed : Bool
  refReplBufNode : Option Nat
  refBlockPos : Nat
  sent : Bytes
  attachedAt : Nat
deriving DecidableEq, Repr

structure Server where
  masterReplOffset : Nat
  replBacklogSize : Nat
  backlog : ReplBacklog
  blocks : List ReplBufBlock
  replBlockId : Nat
  slaves : List Replica
deriving DecidableEq, Repr

def createReplicationBacklog (offset size : Nat) : Server :=
  { masterReplOffset := offset
    replBacklogSize := size
    backlog :=
      { refReplBufNode := none, unindexedCount := 0, blocksIndex := [], histlen := 0,
        offset := offset + 1 }
    blocks := [], replBlockId := 0, slaves := [] }

/-! ## Nodes -/

/-- The blocks from the node `id` on. A node that is not in the list was freed. -/
def fromNode (id : Nat) : List ReplBufBlock → Outcome (List ReplBufBlock)
  | [] => .error .memory
  | b :: rest => if b.id = id then .ok (b :: rest) else fromNode id rest

def setRefcount (id : Nat) (f : Nat → Nat) (blocks : List ReplBufBlock) : List ReplBufBlock :=
  blocks.map fun b => if b.id = id then { b with refcount := f b.refcount } else b

/-! ## The index -/

/-- `raxInsert`: a key keeps its place. -/
def indexInsert (offset id : Nat) : List (Nat × Nat) → List (Nat × Nat)
  | [] => [(offset, id)]
  | (k, v) :: rest =>
    if offset < k then (offset, id) :: (k, v) :: rest
    else if offset = k then (offset, id) :: rest
    else (k, v) :: indexInsert offset id rest

def indexRemove (offset : Nat) (index : List (Nat × Nat)) : List (Nat × Nat) :=
  index.filter fun e => e.1 ≠ offset

/-- The search of `addReplyReplicationBacklog`: the entry before the first one
past `offset`, or the last entry when there is none. -/
def indexSearch (offset : Nat) (index : List (Nat × Nat)) : Option Nat :=
  ((index.takeWhile fun e => e.1 ≤ offset).getLast?).map Prod.snd

def createReplicationBacklogIndex (o : ReplBufBlock) (backlog : ReplBacklog) : ReplBacklog :=
  if replBacklogIndexPerBlocks ≤ backlog.unindexedCount + 1 then
    { backlog with
      blocksIndex := indexInsert o.replOffset o.id backlog.blocksIndex
      unindexedCount := 0 }
  else { backlog with unindexedCount := backlog.unindexedCount + 1 }

/-! ## Trimming -/

/-- The loop of `incrementalTrimReplicationBacklog`. -/
def trimLoop : (maxBlocks : Nat) → Server → Outcome Server
  | 0, s => .ok s
  | maxBlocks + 1, s =>
    if s.replBacklogSize < s.backlog.histlen then
      match s.blocks with
      | [] => .ok s
      | [_] => .ok s
      | fo :: next :: rest => do
        check (s.backlog.refReplBufNode = some fo.id)
        if fo.refcount ≠ 1 then .ok s
        else if s.backlog.histlen - fo.data.size ≤ s.replBacklogSize then .ok s
        else do
          check (fo.data.used = fo.data.size)
          trimLoop maxBlocks { s with
            backlog := { s.backlog with
              histlen := s.backlog.histlen - fo.data.size
              refReplBufNode := some next.id
              blocksIndex := indexRemove fo.replOffset s.backlog.blocksIndex }
            blocks := { next with refcount := next.refcount + 1 } :: rest }
    else .ok s

def incrementalTrimReplicationBacklog (maxBlocks : Nat) (s : Server) : Outcome Server := do
  let s ← trimLoop maxBlocks s
  .ok { s with backlog := { s.backlog with
    offset := s.masterReplOffset - s.backlog.histlen + 1 } }

def resizeReplicationBacklog (size : Nat) (s : Server) : Outcome Server :=
  incrementalTrimReplicationBacklog replBacklogTrimBlocksPerCall { s with
    replBacklogSize := if size < configReplBacklogMinSize then configReplBacklogMinSize else size }

/-! ## Feeding -/

/-- The first half of a round of `feedReplicationBuffer`: what fits in the tail.
The results are the server, the bytes that are left, and where what was copied
begins. -/
def feedTail (s : Server) (bytes : Bytes) : Outcome (Server × Bytes × Option (Nat × Nat)) :=
  match s.blocks.getLast? with
  | none => .ok (s, bytes, none)
  | some tail =>
    if tail.data.used < tail.data.size then do
      let copy :=
        if bytes.length ≤ tail.data.available then bytes.length else tail.data.available
      let data ← tail.data.append (bytes.take copy)
      .ok ({ s with
        blocks := s.blocks.dropLast ++ [{ tail with data := data }]
        masterReplOffset := s.masterReplOffset + copy
        backlog := { s.backlog with histlen := s.backlog.histlen + copy } },
        bytes.drop copy, some (tail.id, tail.data.used))
    else .ok (s, bytes, none)

def newBlockSize (s : Server) (len : Nat) : Nat :=
  min (max len protoReplyChunkBytes) (max (s.replBacklogSize / 16) protoReplyChunkBytes)

/-- The second half: a new block, when bytes are left. -/
def feedNewBlock (excess : Nat → Nat) (s : Server) (bytes : Bytes) :
    Outcome (Server × Bytes × ReplBufBlock) := do
  let size := newBlockSize s bytes.length + excess s.replBlockId
  let copy := if bytes.length ≤ size then bytes.length else size
  let data ← Redis.Lib.Buffer.create size (bytes.take copy)
  let tail : ReplBufBlock :=
    { id := s.replBlockId, refcount := 0, replOffset := s.masterReplOffset + 1, data := data }
  .ok ({ s with
    blocks := s.blocks ++ [tail]
    replBlockId := s.replBlockId + 1
    masterReplOffset := s.masterReplOffset + copy
    backlog := { s.backlog with histlen := s.backlog.histlen + copy } }, bytes.drop copy, tail)

/-- Replicas without a position get the one where the copied bytes begin; each is
one more reference. -/
def feedSlaves (node pos : Nat) : List Replica → List Replica
  | [] => []
  | r :: rest =>
    (if r.canFeed ∧ r.refReplBufNode = none then
      { r with refReplBufNode := some node, refBlockPos := pos }
    else r) :: feedSlaves node pos rest

def newReferences (slaves : List Replica) : Nat :=
  (slaves.filter fun r => r.canFeed ∧ r.refReplBufNode = none).length

/-- Replicas that wait for data get the position `start`. -/
def attachReplicas (s : Server) (start : Nat × Nat) : Server :=
  { s with
    blocks := setRefcount start.1 (· + newReferences s.slaves) s.blocks
    slaves := feedSlaves start.1 start.2 s.slaves }

/-- So does the backlog, when it was empty. -/
def attachBacklog (s : Server) (start : Nat × Nat) (tail : Option ReplBufBlock) : Outcome Server :=
  if s.backlog.refReplBufNode = none then do
    check (tail ≠ none ∧ start.2 = 0)
    .ok { s with
      backlog := { s.backlog with refReplBufNode := some start.1 }
      blocks := setRefcount start.1 (· + 1) s.blocks }
  else .ok s

def indexTail (tail : Option ReplBufBlock) (s : Server) : Server :=
  match tail with
  | none => s
  | some tail => { s with backlog := createReplicationBacklogIndex tail s.backlog }

/-- What a round of `feedReplicationBuffer` does after copying: `start` is where
the copied bytes begin, and `tail` the block that was added, if one was. -/
def feedReferences (s : Server) (start : Nat × Nat) (tail : Option ReplBufBlock) :
    Outcome Server := do
  let _ ← fromNode start.1 s.blocks
  let s ← attachBacklog (attachReplicas s start) start tail
  incrementalTrimReplicationBacklog replBacklogTrimBlocksPerCall (indexTail tail s)

/-- One round of the loop. -/
def feedRound (excess : Nat → Nat) (s : Server) (bytes : Bytes) : Outcome (Server × Bytes) := do
  let (s, bytes, start) ← feedTail s bytes
  if bytes.length = 0 then
    match start with
    | none => .error .null
    | some start => do
      let s ← feedReferences s start none
      .ok (s, bytes)
  else do
    let (s, bytes, tail) ← feedNewBlock excess s bytes
    let s ← feedReferences s (start.getD (tail.id, 0)) (some tail)
    .ok (s, bytes)

/-- The loop; every round copies something. -/
def feedLoop (excess : Nat → Nat) : (rounds : Nat) → Server → Bytes → Outcome Server
  | 0, _, _ => .error .loop
  | rounds + 1, s, bytes =>
    if bytes.length = 0 then .ok s
    else do
      let (s, bytes) ← feedRound excess s bytes
      feedLoop excess rounds s bytes

def feedReplicationBuffer (excess : Nat → Nat) (s : Server) (bytes : Bytes) : Outcome Server :=
  feedLoop excess (bytes.length + 1) s bytes

/-! ## Attaching -/

/-- The first block from a node on that reaches `offset`. -/
def searchBlock (offset : Nat) : List ReplBufBlock → Outcome ReplBufBlock
  | [] => .error .assertion
  | o :: rest => if offset ≤ o.replOffset + o.data.used then .ok o else searchBlock offset rest

def searchStart (s : Server) (offset : Nat) : Outcome Nat :=
  match indexSearch offset s.backlog.blocksIndex, s.backlog.refReplBufNode with
  | some node, _ => .ok node
  | none, some node => .ok node
  | none, none => .error .assertion

/-- `addReplyReplicationBacklog` for the replica `r`: the server, and the replica
with its position. -/
def addReplyReplicationBacklog (s : Server) (r : Replica) (offset : Nat) :
    Outcome (Server × Replica) :=
  if s.backlog.histlen = 0 then .ok (s, r)
  else do
    let node ← searchStart s offset
    let from_ ← fromNode node s.blocks
    let o ← searchBlock offset from_
    .ok ({ s with blocks := setRefcount o.id (· + 1) s.blocks },
      { r with refReplBufNode := some o.id, refBlockPos := offset - o.replOffset })

/-- `masterTryPartialResynchronization` for a replica that gave the right
replication ID: it becomes a replica where the backlog has what it asks for. -/
def masterTryPartialResynchronization (s : Server) (id offset : Nat) : Outcome Server :=
  if offset < s.backlog.offset ∨ s.backlog.offset + s.backlog.histlen < offset then .ok s
  else do
    let (s, r) ← addReplyReplicationBacklog s
      { id := id, canFeed := true, refReplBufNode := none, refBlockPos := 0, sent := [],
        attachedAt := offset } offset
    .ok { s with slaves := s.slaves ++ [r] }

/-- A replica that waits for a BGSAVE to start: it is not fed. -/
def waitBgsaveStart (s : Server) (id : Nat) : Server :=
  let r : Replica :=
    { id := id, canFeed := false, refReplBufNode := none, refBlockPos := 0, sent := [],
      attachedAt := 0 }
  { s with slaves := s.slaves ++ [r] }

/-- The BGSAVE a replica waits for starts. What is fed from now on is for it. -/
def bgsaveStarted (s : Server) (id : Nat) : Server :=
  { s with slaves := s.slaves.map fun r =>
      if r.id = id ∧ r.canFeed = false then
        { r with canFeed := true, attachedAt := s.masterReplOffset + 1 }
      else r }

/-! ## Writing and leaving -/

def clientHasPendingReplies (s : Server) (r : Replica) : Bool :=
  match r.refReplBufNode with
  | none => false
  | some node =>
    match s.blocks.getLast? with
    | none => false
    | some tail => !(tail.id = node ∧ r.refBlockPos = tail.data.used)

def updateReplica (id : Nat) (r : Replica) (slaves : List Replica) : List Replica :=
  slaves.map fun x => if x.id = id then r else x

/-- `_writeToClient` of a replica whose socket takes `accepts` bytes. -/
def writeToReplica (s : Server) (id accepts : Nat) : Outcome Server :=
  match s.slaves.find? (·.id = id) with
  | none => .ok s
  | some r =>
    match r.refReplBufNode with
    | none => .ok s
    | some node =>
      if !clientHasPendingReplies s r then .ok s
      else do
        let from_ ← fromNode node s.blocks
        match from_ with
        | [] => .error .memory
        | o :: rest => do
          check (r.refBlockPos ≤ o.data.used)
          let piece := (o.data.bytes.drop r.refBlockPos).take accepts
          if r.refBlockPos < o.data.used ∧ piece.length = 0 then .ok s
          else
            let r := { r with
              refBlockPos := r.refBlockPos + piece.length, sent := r.sent ++ piece }
            match rest with
            | [] => .ok { s with slaves := updateReplica id r s.slaves }
            | next :: _ =>
              if r.refBlockPos = o.data.used then
                let r := { r with refReplBufNode := some next.id, refBlockPos := 0 }
                let blocks := setRefcount next.id (· + 1) (setRefcount o.id (· - 1) s.blocks)
                incrementalTrimReplicationBacklog replBacklogTrimBlocksPerCall
                  { s with slaves := updateReplica id r s.slaves, blocks := blocks }
              else .ok { s with slaves := updateReplica id r s.slaves }

/-- `freeReplicaReferencedReplBuffer`, and the replica leaves the list. -/
def disconnectReplica (s : Server) (id : Nat) : Outcome Server :=
  match s.slaves.find? (·.id = id) with
  | none => .ok s
  | some r =>
    let slaves := s.slaves.filter (·.id ≠ id)
    match r.refReplBufNode with
    | none => .ok { s with slaves := slaves }
    | some node => do
      let from_ ← fromNode node s.blocks
      check (0 < (from_.head?.map ReplBufBlock.refcount).getD 0)
      incrementalTrimReplicationBacklog replBacklogTrimBlocksPerCall
        { s with slaves := slaves, blocks := setRefcount node (· - 1) s.blocks }

end Redis.Replication.Buffer
