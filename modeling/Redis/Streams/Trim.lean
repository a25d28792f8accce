import Redis.Util.Stdlib
import Mathlib.Data.List.Basic
import Mathlib.Data.List.Pairwise

/-! # Streams and their trimming

A stream keeps its entries in nodes, listpacks of a bounded size that the radix tree orders
by ID. A deleted entry stays in its node as a tombstone until the whole node goes. Trimming
takes whole nodes from the head as long as it can; an exact trim then marks entries of the
next node, an approximate one stops there. -/
namespace Redis.Streams.Trim

structure StreamID where
  ms : UInt64
  seq : UInt64
  deriving DecidableEq, Repr

def StreamID.zero : StreamID := ⟨0, 0⟩

def StreamID.max : StreamID := ⟨0xFFFFFFFFFFFFFFFF, 0xFFFFFFFFFFFFFFFF⟩

def streamCompareID (a b : StreamID) : Int :=
  if a.ms > b.ms then 1
  else if a.ms < b.ms then -1
  else if a.seq > b.seq then 1
  else if a.seq < b.seq then -1
  else 0

/-- The ID as the 128 bit number that is its key in the radix tree. -/
def StreamID.key (a : StreamID) : Nat := a.ms.toNat * 2 ^ 64 + a.seq.toNat

abbrev Fields := List (List UInt8 × List UInt8)

/-- An entry of a node, with `STREAM_ITEM_FLAG_DELETED`. -/
structure Item where
  id : StreamID
  deleted : Bool
  fields : Fields
  deriving DecidableEq, Repr

/-- A node: its entries, and the counts of live and deleted ones in the master entry. -/
structure Node where
  count : Nat
  marked : Nat
  items : List Item
  deriving DecidableEq, Repr

structure Stream where
  nodes : List Node
  length : Nat
  firstId : StreamID
  lastId : StreamID
  deriving DecidableEq, Repr

def items (nodes : List Node) : List Item := nodes.flatMap (·.items)

/-- The entries that a range command shows. -/
def liveItems (its : List Item) : List (StreamID × Fields) :=
  (its.filter fun i => !i.deleted).map fun i => (i.id, i.fields)

def live (s : Stream) : List (StreamID × Fields) := liveItems (items s.nodes)

/-! ## Trimming -/

inductive Strategy where
  | maxlen (n : Nat)
  | minid (id : StreamID)
  deriving DecidableEq, Repr

structure TrimArgs where
  strategy : Strategy
  approx : Bool
  limit : Nat
  deriving DecidableEq, Repr

/-- `streamGetEdgeID` from the first entry on. -/
def firstEdgeID (nodes : List Node) (skipTombstones : Bool) : StreamID :=
  match (items nodes).find? (fun i => !skipTombstones || !i.deleted) with
  | some i => i.id
  | none => .max

/-- Whether the length allows to stop before the next node. -/
def shortEnough (a : TrimArgs) (length : Nat) : Bool :=
  match a.strategy with
  | .maxlen n => decide (length ≤ n)
  | .minid _ => false

/-- Whether the whole node can go. The last ID of a node may be that of a tombstone. -/
def removeNode (a : TrimArgs) (length : Nat) (node : Node) : Bool :=
  match a.strategy with
  | .maxlen n => decide (length - node.count ≥ n)
  | .minid id =>
    match node.items.getLast? with
    | some i => decide (streamCompareID i.id id < 0)
    | none => false

def stopAt (a : TrimArgs) (length : Nat) (i : Item) : Bool :=
  match a.strategy with
  | .maxlen n => decide (length ≤ n)
  | .minid id => decide (streamCompareID i.id id ≥ 0)

/-- The loop over the entries of a node: the entries, and how many it has marked. -/
def trimItems (a : TrimArgs) : Nat → List Item → List Item × Nat
  | _, [] => ([], 0)
  | length, i :: is =>
    if stopAt a length i then (i :: is, 0)
    else if i.deleted then
      let r := trimItems a length is
      (i :: r.1, r.2)
    else
      let r := trimItems a (length - 1) is
      ({ i with deleted := true } :: r.1, r.2 + 1)

/-- The loop over the nodes: what is left, the length and the number of deleted entries. -/
def trimNodes (a : TrimArgs) : List Node → Nat → Nat → List Node × Nat × Nat
  | [], length, deleted => ([], length, deleted)
  | node :: rest, length, deleted =>
    if shortEnough a length then (node :: rest, length, deleted)
    else if a.limit ≠ 0 ∧ deleted + node.count > a.limit then (node :: rest, length, deleted)
    else if removeNode a length node then
      trimNodes a rest (length - node.count) (deleted + node.count)
    else if a.approx then (node :: rest, length, deleted)
    else
      let r := trimItems a length node.items
      (⟨node.count - r.2, node.marked + r.2, r.1⟩ :: rest, length - r.2, deleted + r.2)

/-- The trimmed stream and the number of entries removed. -/
def streamTrim (s : Stream) (a : TrimArgs) : Stream × Nat :=
  let r := trimNodes a s.nodes s.length 0
  let firstId :=
    if r.2.1 = 0 then .zero
    else if r.2.2 ≠ 0 then firstEdgeID r.1 true
    else s.firstId
  ({ s with nodes := r.1, length := r.2.1, firstId }, r.2.2)

/-! ## Adding entries -/

/-- The limits of the server, and the size of a listpack. -/
structure Config where
  nodeMaxBytes : Nat
  nodeMaxEntries : Nat
  lpBytes : Node → Nat

def listpackMaxSize : Nat := 2 ^ 30

def streamIncrID (id : StreamID) : StreamID :=
  if id.seq = StreamID.max.seq then
    if id.ms = StreamID.max.ms then .zero else ⟨id.ms + 1, 0⟩
  else ⟨id.ms, id.seq + 1⟩

def streamNextID (now : UInt64) (lastId : StreamID) : StreamID :=
  if now > lastId.ms then ⟨now, 0⟩ else streamIncrID lastId

/-- The ID argument of `XADD`: `*`, `ms-*` or an ID. -/
inductive IdArg where
  | auto
  | autoSeq (ms : UInt64)
  | given (id : StreamID)
  deriving DecidableEq, Repr

/-- The ID of the new entry, unless the sequence part is exhausted. -/
def newID (now : UInt64) (lastId : StreamID) : IdArg → Option StreamID
  | .auto => some (streamNextID now lastId)
  | .autoSeq ms =>
    if lastId.ms = ms then
      if lastId.seq = StreamID.max.seq then none else some ⟨lastId.ms, lastId.seq + 1⟩
    else some ⟨ms, 0⟩
  | .given id => some id

def totelelen (fields : Fields) : Nat := (fields.map fun f => f.1.length + f.2.length).sum

def needsNode (c : Config) (fields : Fields) (node : Node) : Bool :=
  let maxBytes :=
    if c.nodeMaxBytes = 0 ∨ c.nodeMaxBytes > listpackMaxSize then listpackMaxSize
    else c.nodeMaxBytes
  if c.lpBytes node + totelelen fields ≥ maxBytes then true
  else if c.nodeMaxEntries ≠ 0 then decide (node.count + node.marked ≥ c.nodeMaxEntries)
  else false

def appendNodes (c : Config) (i : Item) (nodes : List Node) : List Node :=
  match nodes.getLast? with
  | some tail =>
    if needsNode c i.fields tail then nodes ++ [⟨1, 0, [i]⟩]
    else nodes.dropLast ++ [⟨tail.count + 1, tail.marked, tail.items ++ [i]⟩]
  | none => [⟨1, 0, [i]⟩]

/-- The stream with the new entry and its ID, or none where an error is replied. -/
def streamAppendItem (c : Config) (now : UInt64) (s : Stream) (arg : IdArg) (fields : Fields) :
    Option (Stream × StreamID) :=
  match newID now s.lastId arg with
  | none => none
  | some id =>
    if streamCompareID id s.lastId ≤ 0 then none
    else if totelelen fields > listpackMaxSize then none
    else
      some ({ s with
        nodes := appendNodes c ⟨id, false, fields⟩ s.nodes
        length := s.length + 1
        firstId := if s.length + 1 = 1 then id else s.firstId
        lastId := id }, id)

/-! ## Commands -/

/-- The trimming options as they are given. -/
structure TrimOption where
  strategy : Strategy
  approx : Bool
  limit : Option Nat
  deriving DecidableEq, Repr

/-- The limit that `streamParseAddOrTrimArgsOrReply` settles on; none where it replies an
error. A client that must be obeyed, the master or the file, is not limited. -/
def TrimOption.parse (c : Config) (mustObey : Bool) (o : TrimOption) : Option TrimArgs :=
  if mustObey then some ⟨o.strategy, o.approx, 0⟩
  else
    match o.limit with
    | some l => if o.approx then some ⟨o.strategy, o.approx, l⟩ else none
    | none =>
      if o.approx then
        -- A product that wraps around to a negative number counts as none.
        let limit := 100 * c.nodeMaxEntries % 2 ^ 64
        let limit := if limit = 0 ∨ limit ≥ 2 ^ 63 then 10000 else limit
        some ⟨o.strategy, o.approx, if limit > 1000000 then 1000000 else limit⟩
      else some ⟨o.strategy, o.approx, 0⟩

inductive Command where
  | xadd (arg : IdArg) (fields : Fields) (trim : Option TrimOption)
  | xtrim (trim : TrimOption)
  deriving DecidableEq, Repr

/-- `streamRewriteApproxSpecifier` and `streamRewriteTrimArgument`: the strategy becomes the
exact one that leaves the stream as it is now. -/
def rewriteTrim (s : Stream) (o : TrimOption) : TrimOption :=
  if o.approx then
    { o with
      approx := false
      strategy :=
        match o.strategy with
        | .maxlen _ => .maxlen s.length
        | .minid _ => .minid (firstEdgeID s.nodes false) }
  else o

/-- The stream after `XADD` and the command to propagate, if any. -/
def xaddCommand (c : Config) (mustObey : Bool) (now : UInt64) (s : Stream) (arg : IdArg)
    (fields : Fields) (trim : Option TrimOption) : Stream × Option Command :=
  if arg = .given .zero then (s, none)
  else if s.lastId = .max then (s, none)
  else
    match trim with
    | none =>
      match streamAppendItem c now s arg fields with
      | none => (s, none)
      | some (s, id) => (s, some (.xadd (.given id) fields none))
    | some o =>
      match o.parse c mustObey with
      | none => (s, none)
      | some a =>
        match streamAppendItem c now s arg fields with
        | none => (s, none)
        | some (s, id) =>
          let s := (streamTrim s a).1
          (s, some (.xadd (.given id) fields (some (rewriteTrim s o))))

def xtrimCommand (c : Config) (mustObey : Bool) (s : Stream) (o : TrimOption) :
    Stream × Option Command :=
  match o.parse c mustObey with
  | none => (s, none)
  | some a =>
    let r := streamTrim s a
    if r.2 ≠ 0 then (r.1, some (.xtrim (rewriteTrim r.1 o))) else (r.1, none)

def execute (c : Config) (mustObey : Bool) (now : UInt64) (s : Stream) :
    Command → Stream × Option Command
  | .xadd arg fields trim => xaddCommand c mustObey now s arg fields trim
  | .xtrim o => xtrimCommand c mustObey s o

end Redis.Streams.Trim
