import Redis.Lib.Bytes

/-! # Radix trees: rax.c

A node is either normal, with one child for each byte of `data`, or compressed,
with the whole string `data` in front of its only child. A pointer into the
tree is the path of parent nodes down to it: replacing what it points to is
plugging another node into that path. Allocation does not fail. -/
namespace Redis.RadixTree.Model
open Lib

def raxNodeMaxSize : Nat := 2 ^ 29 - 1

/-- `raxNode`. The value slot is there when `iskey` is set and `isnull` is not;
the null pointer is `none`. -/
structure RaxNode (V : Type) where
  iskey : Bool
  isnull : Bool
  value : Option V
  iscompr : Bool
  data : Bytes
  children : List (RaxNode V)

structure Rax (V : Type) where
  head : RaxNode V
  numele : Nat
  numnodes : Nat

variable {V : Type}

def RaxNode.size (n : RaxNode V) : Nat := n.data.length

mutual

def RaxNode.nodes : RaxNode V → Nat
  | ⟨_, _, _, _, _, children⟩ => 1 + nodesAll children

def nodesAll : List (RaxNode V) → Nat
  | [] => 0
  | c :: cs => c.nodes + nodesAll cs

end

def raxNewNode : RaxNode V := ⟨false, false, none, false, [], []⟩

def raxNew : Rax V := ⟨raxNewNode, 0, 1⟩

def raxSetData (n : RaxNode V) : Option V → RaxNode V
  | some v => { n with iskey := true, isnull := false, value := some v }
  | none => { n with iskey := true, isnull := true }

def raxGetData (n : RaxNode V) : Option V := if n.isnull then none else n.value

/-- What `raxNodeLastChildPtr` points to. -/
def lastChild (n : RaxNode V) : Outcome (RaxNode V) :=
  match n.children.getLast? with
  | some c => .ok c
  | none => .error .bounds

/-! ## Paths -/

/-- A parent node and the index of the child the walk went to. -/
structure Frame (V : Type) where
  node : RaxNode V
  idx : Nat

/-- The parent with another child at that index. -/
def Frame.fill (f : Frame V) (h : RaxNode V) : RaxNode V :=
  { f.node with children := f.node.children.set f.idx h }

/-- The tree after the node at the end of the path became `h`. -/
def plug : List (Frame V) → RaxNode V → RaxNode V
  | [], h => h
  | f :: path, h => plug path (f.fill h)

/-- What `raxLowWalk` returns: the bytes of the key it did not process, the
node it stopped at, the parents and `*splitpos`. -/
structure Walk (V : Type) where
  rest : Bytes
  stop : RaxNode V
  path : List (Frame V)
  splitpos : Nat

/-- The comparison of a compressed node with the key. -/
def matchLen : Bytes → Bytes → Nat
  | a :: as, b :: bs => if a = b then matchLen as bs + 1 else 0
  | _, _ => 0

/-- The loop of `raxLowWalk`. Every round uses up a byte of the key, so the
rounds are bounded by its length. -/
def lowWalkLoop : (rounds : Nat) → List (Frame V) → RaxNode V → Bytes → Outcome (Walk V)
  | rounds + 1, path, h, c :: s =>
    if h.size = 0 then .ok ⟨c :: s, h, path, 0⟩
    else if h.iscompr then
      let j := matchLen h.data (c :: s)
      if j ≠ h.size then .ok ⟨(c :: s).drop j, h, path, j⟩
      else do
        let child ← load h.children 0
        lowWalkLoop rounds (⟨h, 0⟩ :: path) child ((c :: s).drop j)
    else
      let j := h.data.idxOf c
      if j = h.size then .ok ⟨c :: s, h, path, 0⟩
      else do
        let child ← load h.children j
        lowWalkLoop rounds (⟨h, j⟩ :: path) child s
  | _, path, h, s => .ok ⟨s, h, path, 0⟩

def raxLowWalk (t : Rax V) (s : Bytes) : Outcome (Walk V) := lowWalkLoop s.length [] t.head s

/-- The test "the key ends at this node". -/
def Walk.atNode (w : Walk V) : Prop := w.rest = [] ∧ (w.stop.iscompr = false ∨ w.splitpos = 0)

instance (w : Walk V) : Decidable w.atNode := inferInstanceAs (Decidable (_ ∧ _))

/-- `raxFind`: `none` is `raxNotFound`. -/
def raxFind (t : Rax V) (s : Bytes) : Outcome (Option (Option V)) := do
  let w ← raxLowWalk t s
  if w.atNode ∧ w.stop.iskey then .ok (some (raxGetData w.stop)) else .ok none

/-! ## Insertion -/

/-- `raxAddChild`, which keeps the edge bytes in order. -/
def raxAddChild (n : RaxNode V) (c : UInt8) (child : RaxNode V) : Outcome (RaxNode V) := do
  check (n.iscompr = false)
  let pos := n.data.findIdx fun b => c < b
  .ok { n with data := n.data.insertIdx pos c, children := n.children.insertIdx pos child }

def raxCompressNode (n : RaxNode V) (s : Bytes) (child : RaxNode V) : Outcome (RaxNode V) := do
  check (n.size = 0 ∧ n.iscompr = false)
  let n' := { n with iscompr := true, data := s, children := [child] }
  .ok (if n.iskey then raxSetData n' (raxGetData n) else n')

/-- The loop that inserts the missing nodes below `h`, and the value in the
last one: the new `h`, and what is added to `numnodes` and `numele`. -/
def insertLoop (data : Option V) : (rounds : Nat) → RaxNode V → Bytes →
    Outcome (RaxNode V × Nat × Nat)
  | _, h, [] => .ok (raxSetData h data, 0, if h.iskey then 0 else 1)
  | 0, _, _ :: _ => .error .loop
  | rounds + 1, h, c :: s =>
    if h.size = 0 ∧ s ≠ [] then do
      let comprsize := min (c :: s).length raxNodeMaxSize
      let (child, nodes, ele) ← insertLoop data rounds raxNewNode ((c :: s).drop comprsize)
      let h ← raxCompressNode h ((c :: s).take comprsize) child
      .ok (h, nodes + 1, ele)
    else do
      let (child, nodes, ele) ← insertLoop data rounds raxNewNode s
      let h ← raxAddChild h c child
      .ok (h, nodes + 1, ele)

/-- The first `j` bytes of a compressed node, in front of another child. -/
def trimmedNode (h : RaxNode V) (j : Nat) (child : RaxNode V) : RaxNode V :=
  let n := { h with iscompr := decide (1 < j), data := h.data.take j, children := [child] }
  if h.iskey ∧ h.isnull = false then raxSetData n (raxGetData h) else n

/-- A node that is not a key, with the bytes `s` in front of `next`. -/
def postfixNode (s : Bytes) (next : RaxNode V) : RaxNode V :=
  ⟨false, false, none, decide (1 < s.length), s, [next]⟩

/-- Algorithm 1: the walk stopped inside the compressed node `h` at a byte that
differs from the key. -/
def splitMismatch (h : RaxNode V) (j : Nat) (rest : Bytes) (data : Option V) :
    Outcome (RaxNode V × Nat × Nat) := do
  let next ← lastChild h
  let c ← load h.data j
  let tail := h.data.drop (j + 1)
  let child := if tail.length ≠ 0 then postfixNode tail next else next
  let bare := postfixNode [c] child
  let splitnode := if j = 0 ∧ h.iskey then raxSetData bare (raxGetData h) else bare
  let (sub, nodes, ele) ← insertLoop data rest.length splitnode rest
  let nodes := nodes + if tail.length ≠ 0 then 1 else 0
  if j = 0 then .ok (sub, nodes, ele) else .ok (trimmedNode h j sub, nodes + 1, ele)

/-- Algorithm 2: the key ends inside the compressed node `h`. -/
def splitAtEnd (h : RaxNode V) (j : Nat) (data : Option V) : Outcome (RaxNode V × Nat × Nat) := do
  let next ← lastChild h
  let tailnode := raxSetData (postfixNode (h.data.drop j) next) data
  let bare := postfixNode (h.data.take j) tailnode
  let trimmed := if h.iskey then raxSetData bare (raxGetData h) else bare
  .ok (trimmed, 1, 1)

/-- The changes below the node a walk stopped at, when that node does not stand
for the key: the node in its place, and what is added to `numnodes` and
`numele`. -/
def insertBelow (w : Walk V) (data : Option V) : Outcome (RaxNode V × Nat × Nat) :=
  if w.stop.iscompr ∧ w.rest ≠ [] then splitMismatch w.stop w.splitpos w.rest data
  else if w.stop.iscompr then splitAtEnd w.stop w.splitpos data
  else insertLoop data w.rest.length w.stop w.rest

/-- `raxGenericInsert`: the tree, the return value, and `*old` when it is
written. -/
def raxGenericInsert (t : Rax V) (s : Bytes) (data : Option V) (overwrite : Bool) :
    Outcome (Rax V × Bool × Option (Option V)) := do
  let w ← raxLowWalk t s
  let h := w.stop
  if w.atNode then
    if h.iskey then
      let h' := if overwrite then raxSetData h data else h
      .ok ({ t with head := plug w.path h' }, false, some (raxGetData h))
    else .ok ({ t with head := plug w.path (raxSetData h data), numele := t.numele + 1 }, true, none)
  else do
    let (h, nodes, ele) ← insertBelow w data
    .ok (⟨plug w.path h, t.numele + ele, t.numnodes + nodes⟩, true, none)

def raxInsert (t : Rax V) (s : Bytes) (data : Option V) := raxGenericInsert t s data true

def raxTryInsert (t : Rax V) (s : Bytes) (data : Option V) := raxGenericInsert t s data false

/-! ## Removal -/

/-- A node that ends a chain: a key, or a normal node without exactly one
child. -/
def RaxNode.endsChain (n : RaxNode V) : Prop := n.iskey ∨ (n.iscompr = false ∧ n.size ≠ 1)

instance (n : RaxNode V) : Decidable n.endsChain := inferInstanceAs (Decidable (_ ∨ _))

/-- `raxRemoveChild` of the child the frame points to. -/
def raxRemoveChild (f : Frame V) : RaxNode V :=
  let parent := f.node
  if parent.iscompr then
    let n := { parent with isnull := false, iscompr := false, data := [], children := [] }
    if parent.iskey then raxSetData n (raxGetData parent) else n
  else { parent with data := parent.data.eraseIdx f.idx, children := parent.children.eraseIdx f.idx }

/-- `while(h != rax->head)`: the frame of the last freed child, the path above
it and the number of nodes freed. -/
def unlinkLoop : Frame V → List (Frame V) → (freed : Nat) → Frame V × List (Frame V) × Nat
  | f, [], freed => (f, [], freed)
  | f, g :: path, freed =>
    if f.node.endsChain then (f, g :: path, freed) else unlinkLoop g path (freed + 1)

/-- The upper node that is compressible, and the path above it. -/
def climb : RaxNode V → List (Frame V) → RaxNode V × List (Frame V)
  | h, [] => (h, [])
  | h, f :: path => if f.node.endsChain then (h, f :: path) else climb (f.fill h) path

/-- The first scan of the chain: `comprsize` and `nodes`. -/
def chainMeasure : (rounds : Nat) → RaxNode V → (comprsize nodes : Nat) → Outcome (Nat × Nat)
  | 0, _, _, _ => .error .loop
  | rounds + 1, h, comprsize, nodes =>
    if h.size = 0 then .ok (comprsize, nodes)
    else do
      let h ← lastChild h
      if h.endsChain then .ok (comprsize, nodes)
      else if raxNodeMaxSize < comprsize + h.size then .ok (comprsize, nodes)
      else chainMeasure rounds h (comprsize + h.size) (nodes + 1)

/-- The second scan, which copies into the `room` bytes allocated and frees the
nodes: the bytes, the first node still in use and the number freed. -/
def chainCopy (room : Nat) : (rounds : Nat) → RaxNode V → Bytes → (freed : Nat) →
    Outcome (Bytes × RaxNode V × Nat)
  | 0, _, _, _ => .error .loop
  | rounds + 1, h, copied, freed =>
    if h.size = 0 then .ok (copied, h, freed)
    else if room < copied.length + h.size then .error .bounds
    else do
      let copied := copied ++ h.data
      let h ← lastChild h
      if h.endsChain then .ok (copied, h, freed + 1)
      else chainCopy room rounds h copied (freed + 1)

/-- The recompression at the end of `raxRemove`: the new head, and the new
`numnodes`. -/
def recompress (h : RaxNode V) (path : List (Frame V)) (numnodes : Nat) :
    Outcome (RaxNode V × Nat) := do
  let (start, path) := climb h path
  let (comprsize, nodes) ← chainMeasure start.nodes start start.size 1
  if 1 < nodes then do
    let (data, last, freed) ← chainCopy comprsize start.nodes start [] 0
    .ok (plug path ⟨false, false, none, true, data, [last]⟩, numnodes + 1 - freed)
  else .ok (plug path start, numnodes)

/-- `raxRemove`: the tree, the return value, and `*old` when it is written. -/
def raxRemove (t : Rax V) (s : Bytes) : Outcome (Rax V × Bool × Option (Option V)) := do
  let w ← raxLowWalk t s
  if ¬ (w.atNode ∧ w.stop.iskey) then .ok (t, false, none)
  else do
    let old := some (raxGetData w.stop)
    let h := { w.stop with iskey := false }
    let numele := t.numele - 1
    if h.size = 0 then
      match w.path with
      | [] => .ok (⟨h, numele, t.numnodes⟩, true, old)
      | f :: path => do
        let (f, path, freed) := unlinkLoop f path 1
        let new := raxRemoveChild f
        if new.size = 1 ∧ new.iskey = false then do
          let (head, numnodes) ← recompress new path (t.numnodes - freed)
          .ok (⟨head, numele, numnodes⟩, true, old)
        else .ok (⟨plug path new, numele, t.numnodes - freed⟩, true, old)
    else if h.size = 1 then do
      let (head, numnodes) ← recompress h w.path t.numnodes
      .ok (⟨head, numele, numnodes⟩, true, old)
    else .ok (⟨plug w.path h, numele, t.numnodes⟩, true, old)

end Redis.RadixTree.Model
