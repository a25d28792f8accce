import Mathlib.Order.Lattice
import Redis.Lib.Bytes

/-! # The skiplist of t_zset.c

Nodes live in a memory of numbered cells; a forward or backward pointer is the number of a node
or null. The header has no score, element or place in the order and is kept apart. Counters and
spans are `unsigned long` in the source, and no list is long enough to make one wrap. -/
namespace Redis.Skiplist.Model
open Lib

def zskiplistMaxlevel : Nat := 32

structure Level where
  forward : Option Nat
  span : Nat
deriving DecidableEq, Repr

structure ZskiplistNode (S : Type) where
  ele : Bytes
  score : S
  backward : Option Nat
  level : List Level
deriving DecidableEq, Repr

/-- A pointer to the header or to a node, as in `update[]`. -/
inductive Place where
  | header
  | node (id : Nat)
deriving DecidableEq, Repr

/-- `zskiplist`. The memory behind it are the nodes allocated so far, and
`fresh` is the address the next allocation returns. -/
structure Zskiplist (S : Type) where
  header : List Level
  nodes : Nat → Option (ZskiplistNode S)
  fresh : Nat
  tail : Option Nat
  length : Nat
  level : Nat

variable {S : Type}

/-! ## Memory -/

def Zskiplist.node (zsl : Zskiplist S) (id : Nat) : Outcome (ZskiplistNode S) :=
  match zsl.nodes id with
  | some n => .ok n
  | none => .error .memory

def Zskiplist.setNode (zsl : Zskiplist S) (id : Nat) (n : Option (ZskiplistNode S)) : Zskiplist S :=
  { zsl with nodes := fun x => if x = id then n else zsl.nodes x }

def Zskiplist.levelAt (zsl : Zskiplist S) (x : Place) (i : Nat) : Outcome Level :=
  match x with
  | .header => load zsl.header i
  | .node id => do
    let n ← zsl.node id
    load n.level i

def Zskiplist.setLevel (zsl : Zskiplist S) (x : Place) (i : Nat) (l : Level) :
    Outcome (Zskiplist S) :=
  match x with
  | .header => do
    let _ ← load zsl.header i
    .ok { zsl with header := zsl.header.set i l }
  | .node id => do
    let n ← zsl.node id
    let _ ← load n.level i
    .ok (zsl.setNode id (some { n with level := n.level.set i l }))

def Zskiplist.setBackward (zsl : Zskiplist S) (id : Nat) (backward : Option Nat) :
    Outcome (Zskiplist S) := do
  let n ← zsl.node id
  .ok (zsl.setNode id (some { n with backward }))

/-- `zslCreateNode`, whose levels are not initialised. -/
def zslCreateNode (zsl : Zskiplist S) (level : Nat) (score : S) (ele : Bytes) : Zskiplist S × Nat :=
  ({ zsl.setNode zsl.fresh (some ⟨ele, score, none, List.replicate level ⟨none, 0⟩⟩) with
      fresh := zsl.fresh + 1 },
    zsl.fresh)

def zslFreeNode (zsl : Zskiplist S) (id : Nat) : Zskiplist S := zsl.setNode id none

def zslCreate : Zskiplist S :=
  ⟨List.replicate zskiplistMaxlevel ⟨none, 0⟩, fun _ => none, 0, none, 0, 1⟩

/-! ## The descent -/

/-- `while (x->level[i].forward && ...)` on one level, where `go` is the rest of
the condition. It gets the rank of the next node with the node, and every turn
moves on in the list, so the turns are bounded by its length. -/
def advance (zsl : Zskiplist S) (go : Nat → ZskiplistNode S → Bool) (i : Nat) :
    (rounds : Nat) → Place → (rank : Nat) → Outcome (Place × Nat)
  | 0, _, _ => .error .loop
  | rounds + 1, x, rank => do
    let l ← zsl.levelAt x i
    match l.forward with
    | none => .ok (x, rank)
    | some y => do
      let n ← zsl.node y
      if go (rank + l.span) n then advance zsl go i rounds (.node y) (rank + l.span)
      else .ok (x, rank)

/-- `for (i = zsl->level-1; i >= 0; i--)`: `update[]` and `rank[]` for the levels
below `i`. -/
def descend (zsl : Zskiplist S) (go : Nat → ZskiplistNode S → Bool) :
    (i : Nat) → Place → (rank : Nat) → Outcome (List (Place × Nat))
  | 0, _, _ => .ok []
  | i + 1, x, rank => do
    let (x, rank) ← advance zsl go i (zsl.length + 1) x rank
    let below ← descend zsl go i x rank
    .ok (below ++ [(x, rank)])

def search (zsl : Zskiplist S) (go : Nat → ZskiplistNode S → Bool) : Outcome (List (Place × Nat)) :=
  descend zsl go zsl.level .header 0

/-- `x = x->level[0].forward` after the descent. -/
def nextOf (zsl : Zskiplist S) (update : List (Place × Nat)) : Outcome (Option Nat) := do
  let (x, _) ← load update 0
  let l ← zsl.levelAt x 0
  .ok l.forward

/-- A loop over the levels from `i` on, with `update[i]` and `rank[i]`. -/
def forLevels (body : Zskiplist S → Nat → Place × Nat → Outcome (Zskiplist S)) :
    List (Place × Nat) → (i : Nat) → Zskiplist S → Outcome (Zskiplist S)
  | [], _, zsl => .ok zsl
  | u :: update, i, zsl => do
    let zsl ← body zsl i u
    forLevels body update (i + 1) zsl

/-! ## Insertion -/

section
variable [LinearOrder S]

/-- The order of the list: by score, then `sdscmp` of the elements. -/
def precedes (score : S) (ele : Bytes) (n : ZskiplistNode S) : Bool :=
  n.score < score || (n.score = score && n.ele < ele)

/-- `update[i]->level[i].span = zsl->length`. -/
def spanWhole (length : Nat) (zsl : Zskiplist S) (i : Nat) (u : Place × Nat) :
    Outcome (Zskiplist S) := do
  let l ← zsl.levelAt u.1 i
  zsl.setLevel u.1 i ⟨l.forward, length⟩

/-- `if (level > zsl->level)`: the header takes part in the new levels. -/
def raiseLevel (zsl : Zskiplist S) (level : Nat) (update : List (Place × Nat)) :
    Outcome (Zskiplist S × List (Place × Nat)) :=
  if zsl.level < level then do
    let new := List.replicate (level - zsl.level) (Place.header, 0)
    let zsl ← forLevels (spanWhole zsl.length) new zsl.level zsl
    .ok ({ zsl with level }, update ++ new)
  else .ok (zsl, update)

/-- Put `x` behind `update[i]`. -/
def linkLevel (x rank0 : Nat) (zsl : Zskiplist S) (i : Nat) (u : Place × Nat) :
    Outcome (Zskiplist S) := do
  let l ← zsl.levelAt u.1 i
  let zsl ← zsl.setLevel (.node x) i ⟨l.forward, l.span - (rank0 - u.2)⟩
  zsl.setLevel u.1 i ⟨some x, rank0 - u.2 + 1⟩

/-- `update[i]->level[i].span++`. -/
def widenLevel (zsl : Zskiplist S) (i : Nat) (u : Place × Nat) : Outcome (Zskiplist S) := do
  let l ← zsl.levelAt u.1 i
  zsl.setLevel u.1 i ⟨l.forward, l.span + 1⟩

/-- `x->level[0].forward->backward = backward`, or the tail when `x` is the
last node. -/
def setNextBackward (zsl : Zskiplist S) (x : Nat) (backward : Option Nat) :
    Outcome (Zskiplist S) := do
  let l ← zsl.levelAt (.node x) 0
  match l.forward with
  | some next => zsl.setBackward next backward
  | none => .ok { zsl with tail := backward }

/-- `(x == zsl->header) ? NULL : x`. -/
def Place.orNull : Place → Option Nat
  | .header => none
  | .node id => some id

/-- `zslRandomLevel`, by the number of draws below the threshold. -/
def zslRandomLevel (draws : Nat) : Nat :=
  if draws + 1 < zskiplistMaxlevel then draws + 1 else zskiplistMaxlevel

/-- `zslInsert`, with the level that `zslRandomLevel` returns. The list and the
new node. -/
def zslInsert (zsl : Zskiplist S) (level : Nat) (score : S) (ele : Bytes) :
    Outcome (Zskiplist S × Nat) := do
  let update ← search zsl fun _ n => precedes score ele n
  let (zsl, update) ← raiseLevel zsl level update
  let (zsl, x) := zslCreateNode zsl level score ele
  let (before, rank0) ← load update 0
  let zsl ← forLevels (linkLevel x rank0) (update.take level) 0 zsl
  let zsl ← forLevels widenLevel (update.drop level) level zsl
  let zsl ← zsl.setBackward x before.orNull
  let zsl ← setNextBackward zsl x (some x)
  .ok ({ zsl with length := zsl.length + 1 }, x)

end

/-! ## Deletion -/

/-- Take `x` out of one level. -/
def unlinkLevel (x : Nat) (zsl : Zskiplist S) (i : Nat) (u : Place × Nat) :
    Outcome (Zskiplist S) := do
  let l ← zsl.levelAt u.1 i
  if l.forward = some x then do
    let m ← zsl.levelAt (.node x) i
    zsl.setLevel u.1 i ⟨m.forward, l.span + m.span - 1⟩
  else zsl.setLevel u.1 i ⟨l.forward, l.span - 1⟩

/-- `while(zsl->level > 1 && ...) zsl->level--`. -/
def lowerLevel (header : List Level) : Nat → Outcome Nat
  | level + 2 => do
    let l ← load header (level + 1)
    if l.forward = none then lowerLevel header (level + 1) else .ok (level + 2)
  | level => .ok level

/-- `zslDeleteNode`, which unlinks the node. -/
def zslDeleteNode (zsl : Zskiplist S) (x : Nat) (update : List (Place × Nat)) :
    Outcome (Zskiplist S) := do
  let zsl ← forLevels (unlinkLevel x) (update.take zsl.level) 0 zsl
  let n ← zsl.node x
  let zsl ← setNextBackward zsl x n.backward
  let level ← lowerLevel zsl.header zsl.level
  .ok { zsl with level, length := zsl.length - 1 }

section
variable [LinearOrder S]

/-- The test "this is the node with the score and the element". -/
def isNode (zsl : Zskiplist S) (x : Option Nat) (score : S) (ele : Bytes) : Outcome (Option Nat) :=
  match x with
  | none => .ok none
  | some x => do
    let n ← zsl.node x
    .ok (if score = n.score ∧ n.ele = ele then some x else none)

/-- `zslDelete` with `node` null: the list, and whether the node was found. -/
def zslDelete (zsl : Zskiplist S) (score : S) (ele : Bytes) : Outcome (Zskiplist S × Bool) := do
  let update ← search zsl fun _ n => precedes score ele n
  let x ← nextOf zsl update
  match ← isNode zsl x score ele with
  | some x => do
    let zsl ← zslDeleteNode zsl x update
    .ok (zslFreeNode zsl x, true)
  | none => .ok (zsl, false)

/-- A test of the score of a neighbour, true when there is none. -/
def neighbour (zsl : Zskiplist S) (test : S → Bool) : Option Nat → Outcome Bool
  | none => .ok true
  | some y => do
    let m ← zsl.node y
    .ok (test m.score)

/-- The test whether the node stays where it is with the new score. -/
def staysInPlace (zsl : Zskiplist S) (n : ZskiplistNode S) (newscore : S) : Outcome Bool := do
  let before ← neighbour zsl (fun score => score < newscore) n.backward
  let l ← load n.level 0
  let after ← neighbour zsl (fun score => newscore < score) l.forward
  .ok (before && after)

/-- `zslUpdateScore`, with the level of the node it may insert. The list and
the node. -/
def zslUpdateScore (zsl : Zskiplist S) (level : Nat) (curscore : S) (ele : Bytes) (newscore : S) :
    Outcome (Zskiplist S × Nat) := do
  let update ← search zsl fun _ n => precedes curscore ele n
  let x ← nextOf zsl update
  match ← isNode zsl x curscore ele with
  | none => .error .assertion
  | some x => do
    let n ← zsl.node x
    if ← staysInPlace zsl n newscore then
      .ok (zsl.setNode x (some { n with score := newscore }), x)
    else do
      let zsl ← zslDeleteNode zsl x update
      let (zsl, newnode) ← zslInsert zsl level newscore n.ele
      .ok (zslFreeNode zsl x, newnode)

end

/-! ## Ranges -/

structure Zrangespec (S : Type) where
  min : S
  max : S
  minex : Bool
  maxex : Bool

/-- A bound of a lexicographic range: `shared.minstring`, `shared.maxstring` or
another string. -/
inductive LexBound where
  | minstring
  | maxstring
  | str (s : Bytes)
deriving DecidableEq, Repr

structure Zlexrangespec where
  min : LexBound
  max : LexBound
  minex : Bool
  maxex : Bool
deriving DecidableEq, Repr

def sdscmp (a b : Bytes) : Ordering := if a < b then .lt else if a = b then .eq else .gt

def sdscmplex : LexBound → LexBound → Ordering
  | .minstring, .minstring => .eq
  | .maxstring, .maxstring => .eq
  | .minstring, _ => .lt
  | _, .maxstring => .lt
  | .maxstring, _ => .gt
  | _, .minstring => .gt
  | .str a, .str b => sdscmp a b

def zslLexValueGteMin (value : Bytes) (spec : Zlexrangespec) : Bool :=
  if spec.minex then sdscmplex (.str value) spec.min = .gt
  else sdscmplex (.str value) spec.min ≠ .lt

def zslLexValueLteMax (value : Bytes) (spec : Zlexrangespec) : Bool :=
  if spec.maxex then sdscmplex (.str value) spec.max = .lt
  else sdscmplex (.str value) spec.max ≠ .gt

section
variable [LinearOrder S]

def zslValueGteMin (value : S) (spec : Zrangespec S) : Bool :=
  if spec.minex then spec.min < value else spec.min ≤ value

def zslValueLteMax (value : S) (spec : Zrangespec S) : Bool :=
  if spec.maxex then value < spec.max else value ≤ spec.max

end

section
variable {D : Type} (dictDelete : D → Bytes → Outcome D)

/-- "Delete nodes while in range": the list, the dict and the number of nodes
removed. `go` is the condition on the rank and the node; a node fewer with each
turn bounds the turns. -/
def deleteWhile (go : Nat → ZskiplistNode S → Bool) (update : List (Place × Nat)) :
    (rounds : Nat) → Zskiplist S → D → Option Nat → (traversed removed : Nat) →
    Outcome (Zskiplist S × D × Nat)
  | 0, _, _, _, _, _ => .error .loop
  | _ + 1, zsl, dict, none, _, removed => .ok (zsl, dict, removed)
  | rounds + 1, zsl, dict, some x, traversed, removed => do
    let n ← zsl.node x
    if go traversed n then do
      let l ← load n.level 0
      let zsl ← zslDeleteNode zsl x update
      let dict ← dictDelete dict n.ele
      deleteWhile go update rounds (zslFreeNode zsl x) dict l.forward (traversed + 1) (removed + 1)
    else .ok (zsl, dict, removed)

/-- The three range deletions: skip nodes while `skip`, then delete nodes while
`go`. -/
def deleteRange (skip go : Nat → ZskiplistNode S → Bool) (zsl : Zskiplist S) (dict : D) :
    Outcome (Zskiplist S × D × Nat) := do
  let update ← search zsl skip
  let (_, traversed) ← load update 0
  let x ← nextOf zsl update
  deleteWhile dictDelete go update (zsl.length + 1) zsl dict x (traversed + 1) 0

def zslDeleteRangeByScore [LinearOrder S] (zsl : Zskiplist S) (range : Zrangespec S) (dict : D) :
    Outcome (Zskiplist S × D × Nat) :=
  deleteRange dictDelete (fun _ n => !zslValueGteMin n.score range)
    (fun _ n => zslValueLteMax n.score range) zsl dict

def zslDeleteRangeByLex (zsl : Zskiplist S) (range : Zlexrangespec) (dict : D) :
    Outcome (Zskiplist S × D × Nat) :=
  deleteRange dictDelete (fun _ n => !zslLexValueGteMin n.ele range)
    (fun _ n => zslLexValueLteMax n.ele range) zsl dict

def zslDeleteRangeByRank (zsl : Zskiplist S) (start stop : Nat) (dict : D) :
    Outcome (Zskiplist S × D × Nat) :=
  deleteRange dictDelete (fun rank _ => rank < start) (fun traversed _ => traversed ≤ stop) zsl dict

end

end Redis.Skiplist.Model
