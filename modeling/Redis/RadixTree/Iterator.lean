import Redis.RadixTree.Model

/-! # Iterators: rax.c

An iterator keeps the current node, the stack of its parents and the key they
spell. The head is the node with an empty stack, which is how the comparison
with `rt->head` reads here. -/
namespace Redis.RadixTree.Iterator
open Lib Model

variable {V : Type}

/-- `raxIterator`: the flags `RAX_ITER_JUST_SEEKED` and `RAX_ITER_EOF`, and the
first `key_len` bytes of the key buffer. In an iterator at EOF the node may
stand for a null pointer. -/
structure RaxIterator (V : Type) where
  justSeeked : Bool
  eof : Bool
  key : Bytes
  data : Option V
  node : RaxNode V
  stack : List (RaxNode V)

def raxStart (t : Rax V) : RaxIterator V := ⟨false, true, [], none, t.head, []⟩

def raxIteratorAddChars (it : RaxIterator V) (s : Bytes) : RaxIterator V :=
  { it with key := it.key ++ s }

/-- `raxIteratorDelChars`; more bytes than there are would wrap `key_len`. -/
def raxIteratorDelChars (it : RaxIterator V) (count : Nat) : Outcome (RaxIterator V) :=
  if count ≤ it.key.length then .ok { it with key := it.key.take (it.key.length - count) }
  else .error .bounds

/-- Push the node and go to its child `i`, along an edge with the bytes `s`. -/
def enterChild (it : RaxIterator V) (s : Bytes) (i : Nat) : Outcome (RaxIterator V) := do
  let child ← load it.node.children i
  .ok { raxIteratorAddChars it s with node := child, stack := it.node :: it.stack }

/-- `it->key[it->key_len-1]`. -/
def prevchild (it : RaxIterator V) : Outcome UInt8 :=
  match it.key.getLast? with
  | some c => .ok c
  | none => .error .bounds

/-- Adjust the key to the node it has come back to. -/
def delEdge (it : RaxIterator V) : Outcome (RaxIterator V) :=
  raxIteratorDelChars it (if it.node.iscompr then it.node.size else 1)

/-- `it->data = raxGetData(it->node)`. -/
def setCurrent (it : RaxIterator V) : RaxIterator V := { it with data := raxGetData it.node }

/-! ## Forward -/

/-- The first child with a byte above `c`, in a node with more than `least`
children. -/
def childAbove (n : RaxNode V) (c : UInt8) (least : Nat) : Option Nat :=
  if n.iscompr = false ∧ least < n.size then
    let i := n.data.findIdx fun b => c < b
    if i ≠ n.size then some i else none
  else none

/-- Go to the child above the byte the key ended in. -/
def enterAbove (it : RaxIterator V) (c : UInt8) (least : Nat) : Outcome (Option (RaxIterator V)) :=
  match childAbove it.node c least with
  | none => .ok none
  | some i => do
    let it ← enterChild it ((it.node.data.drop i).take 1) i
    .ok (some it)

/-- Go up until a node has a further child; `none` is the head. -/
def nextUp : List (RaxNode V) → RaxIterator V → Outcome (Option (RaxIterator V))
  | [], _ => .ok none
  | parent :: stack, it => do
    let c ← prevchild it
    let it ← delEdge { it with node := parent, stack }
    match ← enterAbove it c 1 with
    | some it => .ok (some it)
    | none => nextUp stack it

/-- The way to the next subtree; with `noup` the current node is tried
first. -/
def nextSubtree (noup : Bool) (it : RaxIterator V) : Outcome (Option (RaxIterator V)) :=
  if noup then do
    let c ← prevchild it
    let it ← delEdge it
    match ← enterAbove it c 0 with
    | some it => .ok (some it)
    | none => nextUp it.stack it
  else nextUp it.stack it

/-- The outer loop of `raxIteratorNextStep`; `none` is EOF. -/
def nextLoop : (rounds : Nat) → (noup : Bool) → RaxIterator V → Outcome (Option (RaxIterator V))
  | 0, _, _ => .error .loop
  | rounds + 1, noup, it =>
    let children := if it.node.iscompr then 1 else it.node.size
    if noup = false ∧ children ≠ 0 then do
      let it ← enterChild it (if it.node.iscompr then it.node.data else it.node.data.take 1) 0
      if it.node.iskey then .ok (some (setCurrent it)) else nextLoop rounds false it
    else do
      match ← nextSubtree noup it with
      | none => .ok none
      | some it => if it.node.iskey then .ok (some (setCurrent it)) else nextLoop rounds false it

/-- `raxIteratorNextStep`. At EOF the iterator is put back where it was. -/
def raxIteratorNextStep (t : Rax V) (it : RaxIterator V) (noup : Bool) : Outcome (RaxIterator V) :=
  if it.eof then .ok it
  else if it.justSeeked then .ok { it with justSeeked := false }
  else do
    match ← nextLoop (t.head.nodes + 1) noup it with
    | some it => .ok it
    | none => .ok { it with eof := true }

/-! ## Backward -/

/-- `raxSeekGreatest`: follow the last children. -/
def seekGreatest : (rounds : Nat) → RaxIterator V → Outcome (RaxIterator V)
  | 0, _ => .error .loop
  | rounds + 1, it =>
    if it.node.size = 0 then .ok it
    else do
      let s := if it.node.iscompr then it.node.data else it.node.data.drop (it.node.size - 1)
      let it ← enterChild it s (it.node.children.length - 1)
      seekGreatest rounds it

def raxSeekGreatest (it : RaxIterator V) : Outcome (RaxIterator V) := seekGreatest it.node.nodes it

/-- The last child with a byte below `c`, in a node with more than `least`
children. -/
def childBelow (n : RaxNode V) (c : UInt8) (least : Nat) : Option Nat :=
  if n.iscompr = false ∧ least < n.size then
    let i := n.data.reverse.findIdx fun b => b < c
    if i ≠ n.size then some (n.size - 1 - i) else none
  else none

/-- Go to the greatest key below the byte the key ended in, if any. -/
def enterBelow (it : RaxIterator V) (c : UInt8) (least : Nat) : Outcome (RaxIterator V) :=
  match childBelow it.node c least with
  | none => .ok it
  | some i => do
    let it ← enterChild it ((it.node.data.drop i).take 1) i
    raxSeekGreatest it

/-- The loop of `raxIteratorPrevStep`; `none` is EOF. -/
def prevLoop : (rounds : Nat) → (noup : Bool) → RaxIterator V → Outcome (Option (RaxIterator V))
  | 0, _, _ => .error .loop
  | rounds + 1, noup, it =>
    match noup, it.stack with
    | false, [] => .ok none
    | false, parent :: stack => do
      let c ← prevchild it
      let it ← delEdge { it with node := parent, stack }
      let it ← enterBelow it c 1
      if it.node.iskey then .ok (some (setCurrent it)) else prevLoop rounds false it
    | true, _ => do
      let c ← prevchild it
      let it ← delEdge it
      let it ← enterBelow it c 0
      if it.node.iskey then .ok (some (setCurrent it)) else prevLoop rounds false it

def raxIteratorPrevStep (t : Rax V) (it : RaxIterator V) (noup : Bool) : Outcome (RaxIterator V) :=
  if it.eof then .ok it
  else if it.justSeeked then .ok { it with justSeeked := false }
  else do
    match ← prevLoop (t.head.nodes + 1) noup it with
    | some it => .ok it
    | none => .ok { it with eof := true }

/-! ## Seeking -/

/-- The operators `>`, `>=`, `<`, `<=`, `=`, `^` and `$`. -/
inductive SeekOp where
  | gt
  | ge
  | lt
  | le
  | eq
  | first
  | last
deriving DecidableEq, Repr

def SeekOp.hasEq : SeekOp → Bool
  | .ge | .le | .eq => true
  | _ => false

def SeekOp.isGt : SeekOp → Bool
  | .gt | .ge => true
  | _ => false

def SeekOp.isLt : SeekOp → Bool
  | .lt | .le => true
  | _ => false

/-- `gt` goes forward from a position, `lt` backward. -/
def seekStep (t : Rax V) (op : SeekOp) (it : RaxIterator V) (noup : Bool) : Outcome (RaxIterator V) :=
  if op.isLt then raxIteratorPrevStep t it noup else raxIteratorNextStep t it noup

/-- The part of `raxSeek` for `>`, `>=`, `<` and `<=` after the walk, when the
key itself is not the answer. Every step is made with `RAX_ITER_JUST_SEEKED`
cleared, and the flag is set again behind it. -/
def seekNear (t : Rax V) (op : SeekOp) (w : Walk V) (it : RaxIterator V) : Outcome (RaxIterator V) :=
  match w.rest with
  | c :: _ =>
    if w.stop.iscompr then do
      -- a mismatch inside a compressed node
      let nodechar ← load w.stop.data w.splitpos
      if op.isLt then
        if nodechar < c then do
          let it ← raxSeekGreatest it
          .ok (setCurrent it)
        else raxIteratorPrevStep t (raxIteratorAddChars it w.stop.data) true
      else if c < nodechar then raxIteratorNextStep t it false
      else raxIteratorNextStep t (raxIteratorAddChars it w.stop.data) true
    else seekStep t op (raxIteratorAddChars it [c]) true
  | [] =>
    if w.stop.iscompr ∧ w.stop.iskey ∧ w.splitpos ≠ 0 ∧ op.isLt then .ok (setCurrent it)
    else seekStep t op it false

/-- `raxSeek` for the operators that look for a key. -/
def seekKey (t : Rax V) (op : SeekOp) (ele : Bytes) : Outcome (RaxIterator V) := do
  let w ← raxLowWalk t ele
  let stack := w.path.map Frame.node
  if op.hasEq ∧ w.atNode ∧ w.stop.iskey then
    .ok ⟨true, false, ele, raxGetData w.stop, w.stop, stack⟩
  else if op.isLt ∨ op.isGt then do
    let key := ele.take (ele.length - w.rest.length - w.splitpos)
    let it ← seekNear t op w ⟨false, false, key, none, w.stop, stack⟩
    .ok { it with justSeeked := true }
  else .ok ⟨true, true, [], none, w.stop, stack⟩

/-- `raxSeek` on a started iterator. -/
def raxSeek (t : Rax V) (op : SeekOp) (ele : Bytes) : Outcome (RaxIterator V) :=
  if t.numele = 0 then .ok { raxStart t with justSeeked := true }
  else match op with
    | .first => seekKey t .ge []
    | .last => do
      let it ← raxSeekGreatest ⟨true, false, [], none, t.head, []⟩
      check (it.node.iskey = true)
      .ok (setCurrent it)
    | op => seekKey t op ele

/-- `raxNext`: the iterator and the return value. -/
def raxNext (t : Rax V) (it : RaxIterator V) : Outcome (RaxIterator V × Bool) := do
  let it ← raxIteratorNextStep t it false
  .ok (it, !it.eof)

def raxPrev (t : Rax V) (it : RaxIterator V) : Outcome (RaxIterator V × Bool) := do
  let it ← raxIteratorPrevStep t it false
  .ok (it, !it.eof)

/-- The keys and values of repeated calls, up to the one that reports the end
of the iteration. -/
def collect (next : RaxIterator V → Outcome (RaxIterator V × Bool)) :
    (rounds : Nat) → RaxIterator V → Outcome (List (Bytes × Option V))
  | 0, _ => .error .loop
  | rounds + 1, it => do
    let (it, more) ← next it
    if more then do
      let es ← collect next rounds it
      .ok ((it.key, it.data) :: es)
    else .ok []

/-- `raxSeek`, then `raxNext` until it returns 0. -/
def seekNextAll (t : Rax V) (op : SeekOp) (ele : Bytes) : Outcome (List (Bytes × Option V)) := do
  let it ← raxSeek t op ele
  collect (raxNext t) (t.numele + 1) it

/-- `raxSeek`, then `raxPrev` until it returns 0. -/
def seekPrevAll (t : Rax V) (op : SeekOp) (ele : Bytes) : Outcome (List (Bytes × Option V)) := do
  let it ← raxSeek t op ele
  collect (raxPrev t) (t.numele + 1) it

end Redis.RadixTree.Iterator
