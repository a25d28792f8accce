import Redis.RadixTree.Insertion
import Redis.RadixTree.Iterator

/-! # Iterator positions

An iterator position is a path. A path and a child index make a gap, which cuts
the entries of the tree in two: a step forward goes to the first entry behind a
gap, a step backward to the last entry in front of it. -/
namespace Redis.RadixTree.Cursor
open List Lib Outcome Model Entries Paths
open Insertion Iterator

variable {V : Type} {n : RaxNode V} {i : Nat} {x : Bytes} {f : Frame V} {c : UInt8}

/-! ## Gaps -/

def belowFrom (n : RaxNode V) (i : Nat) : List (Entry V) :=
  entriesAll ((labels n).drop i) (n.children.drop i)

lemma left_append_belowFrom (hs : Shape n) (i : Nat) :
    left ⟨n, i⟩ ++ belowFrom n i = entries n := by
  have hlen : ((labels n).take i).length = (n.children.take i).length := by
    rw [length_take, length_take, hs.length_labels]
  rw [left, belowFrom, append_assoc, ← entriesAll_append hlen, take_append_drop,
    take_append_drop, ← entries_eq]

lemma left_zero (n : RaxNode V) : left ⟨n, 0⟩ = own n := by
  rw [left, take_zero, entriesAll_nil, append_nil]

lemma belowFrom_end (hs : Shape n) (hi : n.children.length ≤ i) : belowFrom n i = [] := by
  rw [belowFrom, drop_of_length_le (by rwa [hs.length_labels]), entriesAll_nil]

lemma belowFrom_child {c} (hs : Shape n) (hc : n.children[i]? = some c) :
    belowFrom n i = under (label ⟨n, i⟩) (entries c) ++ belowFrom n (i + 1) := by
  have hok : FrameOk (⟨n, i⟩ : Frame V) := ⟨hs, (List.getElem?_eq_some_iff.mp hc).1⟩
  have hfill := fill_entries hok c
  rw [fill_self hc, ← left_append_belowFrom hs i] at hfill
  exact append_cancel_left hfill

lemma left_child {c} (hs : Shape n) (hc : n.children[i]? = some c) :
    left ⟨n, i + 1⟩ = left ⟨n, i⟩ ++ under (label ⟨n, i⟩) (entries c) := by
  have h1 := left_append_belowFrom hs (i + 1)
  rw [← left_append_belowFrom hs i, belowFrom_child hs hc, ← append_assoc] at h1
  exact append_cancel_right h1

/-- The entries in front of child `i` of the node at the end of the path. -/
def gapBefore (path : List (Frame V)) (n : RaxNode V) (i : Nat) : List (Entry V) :=
  before path ++ under (pathKey path) (left ⟨n, i⟩)

/-- The entries from that child on. -/
def gapAfter (path : List (Frame V)) (n : RaxNode V) (i : Nat) : List (Entry V) :=
  under (pathKey path) (belowFrom n i) ++ after path

lemma gapBefore_child (path : List (Frame V)) {c} (hs : Shape n)
    (hc : n.children[i]? = some c) : gapBefore path n (i + 1) =
      before (⟨n, i⟩ :: path) ++ under (pathKey (⟨n, i⟩ :: path)) (entries c) := by
  rw [gapBefore, left_child hs hc, under_append, under_under, before, pathKey, append_assoc]

lemma gapAfter_child (path : List (Frame V)) {c} (hs : Shape n)
    (hc : n.children[i]? = some c) : gapAfter path n i =
      under (pathKey (⟨n, i⟩ :: path)) (entries c) ++ after (⟨n, i⟩ :: path) := by
  rw [gapAfter, belowFrom_child hs hc, under_append, under_under, append_assoc]
  rfl

lemma gap_end (path : List (Frame V)) (hs : Shape n) (hi : n.children.length ≤ i) :
    gapBefore path n i = before path ++ under (pathKey path) (entries n) ∧
      gapAfter path n i = after path := by
  have hb := belowFrom_end hs hi
  have hl := left_append_belowFrom hs i
  rw [hb, append_nil] at hl
  rw [gapBefore, gapAfter, hl, hb]
  exact ⟨rfl, rfl⟩

lemma gap_zero (path : List (Frame V)) (hs : Shape n) (hk : n.iskey = false) :
    gapBefore path n 0 = before path ∧
      gapAfter path n 0 = under (pathKey path) (entries n) ++ after path := by
  have hown := own_unkeyed hk
  have hl := left_append_belowFrom hs 0
  rw [left_zero, hown, nil_append] at hl
  rw [gapBefore, gapAfter, left_zero, hown, hl]
  exact ⟨append_nil _, rfl⟩

lemma gap_key (path : List (Frame V)) (hs : Shape n) (hk : n.iskey = true) :
    gapBefore path n 0 = before path ++ [(pathKey path, raxGetData n)] ∧
      under (pathKey path) (entries n) ++ after path =
        (pathKey path, raxGetData n) :: gapAfter path n 0 := by
  have hown : own n = [([], raxGetData n)] := by rw [own, if_pos hk]
  have hkey : under (pathKey path) (own n) = [(pathKey path, raxGetData n)] := by
    rw [hown, under, map_singleton, append_nil]
  constructor
  · rw [gapBefore, left_zero, hkey]
  rw [← left_append_belowFrom hs 0, left_zero, under_append, hkey]
  rfl

/-! ## Positions -/

/-- The iterator stands at the end of the path. -/
structure At (head : RaxNode V) (path : List (Frame V)) (b : Bool) (it : RaxIterator V) : Prop where
  on : OnPath head path it.node
  stack : it.stack = path.map Frame.node
  key : it.key = pathKey path
  justSeeked : it.justSeeked = b
  eof : it.eof = false

/-- The number of bytes that `delEdge` takes away. -/
def edgeSize (n : RaxNode V) : Nat := if n.iscompr then n.size else 1

/-- The same with the bytes `x` of an edge of the node still in the key. -/
structure Past (head : RaxNode V) (path : List (Frame V)) (x : Bytes) (b : Bool)
    (it : RaxIterator V) : Prop where
  on : OnPath head path it.node
  stack : it.stack = path.map Frame.node
  key : it.key = pathKey path ++ x
  size : x.length = edgeSize it.node
  justSeeked : it.justSeeked = b
  eof : it.eof = false

section
variable {head : RaxNode V} {b : Bool} {path : List (Frame V)} {it : RaxIterator V}

lemma At.enterChild (h : At head path b it) {c} (hc : it.node.children[i]? = some c) :
    ∃ it', Iterator.enterChild it (label ⟨it.node, i⟩) i = .ok it' ∧ it'.node = c ∧
      At head (⟨it.node, i⟩ :: path) b it' := by
  refine ⟨{ it with
    key := it.key ++ label ⟨it.node, i⟩
    node := c
    stack := it.node :: it.stack }, ?_, rfl, .child h.on hc, ?_, ?_, h.justSeeked, h.eof⟩
  · rw [Iterator.enterChild, load_eq_ok.mpr hc]
    rfl
  · rw [h.stack]
    rfl
  · rw [h.key, pathKey]

lemma Past.delEdge (h : Past head path x b it) :
    ∃ it', Iterator.delEdge it = .ok it' ∧ it'.node = it.node ∧ At head path b it' := by
  have hlen : edgeSize it.node ≤ it.key.length := by
    rw [h.key, length_append, h.size]
    omega
  have hsub : it.key.length - edgeSize it.node = (pathKey path).length := by
    rw [h.key, length_append, h.size]
    omega
  refine ⟨{ it with key := pathKey path }, ?_, rfl, h.on, h.stack, rfl, h.justSeeked, h.eof⟩
  rw [Iterator.delEdge, ← edgeSize, raxIteratorDelChars, if_pos hlen, hsub, h.key, take_left]

lemma Past.prevchild (h : Past head path x b it)
    (hc : x.getLast? = some c) : Iterator.prevchild it = .ok c := by
  have hlast : it.key.getLast? = some c := by
    rw [h.key, getLast?_append, hc]
    rfl
  rw [Iterator.prevchild, hlast]

lemma length_label (h : FrameOk f) : (label f).length = edgeSize f.node := by
  unfold label edgeSize
  split
  · rfl
  rename_i hc
  have hlt := h.idx_lt
  rw [← (h.shape.normal (Bool.not_eq_true _ ▸ hc)).1, RaxNode.size] at hlt
  rw [length_take, length_drop]
  omega

end

/-! ## Choosing a child -/

lemma findIdx_split {p : UInt8 → Bool} {a d : Bytes} (ha : ∀ x ∈ a, p x = false)
    (hd : ∀ x ∈ d, p x = true) : (a ++ d).findIdx p = a.length := by
  have hnone : ¬ ∃ x ∈ a, p x = true := by
    rintro ⟨x, hx, hp⟩
    rw [ha x hx] at hp
    cases hp
  rw [findIdx_append, if_neg (by rwa [findIdx_lt_length])]
  cases d with
  | nil => rw [findIdx_nil, zero_add]
  | cons x d => rw [findIdx_cons, hd x mem_cons_self, cond_true, zero_add]

lemma childAbove_eq (least : Nat) (hs : Shape n) {a d}
    (hi : n.iscompr = false) (hd : n.data = a ++ d) (ha : ∀ x ∈ a, ¬ c < x) (hc : ∀ x ∈ d, c < x)
    (hl : d ≠ [] → least < n.size) :
    childAbove n c least = if a.length < n.children.length then some a.length else none := by
  have hsize := (hs.normal hi).1
  have hlen : n.size = a.length + d.length := by rw [RaxNode.size, hd, length_append]
  have hfind : (n.data.findIdx fun x => c < x) = a.length := by
    rw [hd]
    exact findIdx_split (fun x hx => decide_eq_false (ha x hx)) fun x hx => decide_eq_true (hc x hx)
  rw [Ne, ← length_eq_zero_iff] at hl
  simp only [childAbove, hfind, hi, true_and]
  split_ifs <;> first | rfl | omega

lemma childBelow_eq (least : Nat) {a d}
    (hi : n.iscompr = false) (hd : n.data = a ++ d) (ha : ∀ x ∈ a, x < c) (hc : ∀ x ∈ d, ¬ x < c)
    (hl : a ≠ [] → least < n.size) :
    childBelow n c least = if 0 < a.length then some (a.length - 1) else none := by
  have hlen : n.size = a.length + d.length := by rw [RaxNode.size, hd, length_append]
  have hfind : (n.data.reverse.findIdx fun x => x < c) = d.length := by
    rw [hd, reverse_append, ← length_reverse]
    exact findIdx_split (fun x hx => decide_eq_false (hc x (mem_reverse.mp hx)))
      fun x hx => decide_eq_true (ha x (mem_reverse.mp hx))
  rw [Ne, ← length_eq_zero_iff] at hl
  simp only [childBelow, hi, true_and]
  split_ifs <;> first | rfl | omega | (congr 1; omega)

lemma frame_split (hok : FrameOk f) (hi : f.node.iscompr = false) :
    ∃ c, label f = [c] ∧ f.node.data = f.node.data.take f.idx ++ c :: f.node.data.drop (f.idx + 1) ∧
      (∀ x ∈ f.node.data.take f.idx, x < c) ∧ ∀ x ∈ f.node.data.drop (f.idx + 1), c < x := by
  obtain ⟨hsize, hsorted⟩ := hok.shape.normal hi
  have hlt : f.idx < f.node.data.length := by
    have := hok.idx_lt
    rwa [← hsize] at this
  have hsplit : f.node.data =
      f.node.data.take f.idx ++ f.node.data[f.idx] :: f.node.data.drop (f.idx + 1) := by
    rw [getElem_cons_drop, take_append_drop]
  refine ⟨f.node.data[f.idx], ?_, hsplit, ?_⟩
  · rw [label, if_neg (by rw [hi]; decide), drop_eq_getElem_cons hlt]
    rfl
  rw [hsplit] at hsorted
  obtain ⟨_, h2, h3⟩ := pairwise_append.mp hsorted
  exact ⟨fun x hx => h3 x hx _ mem_cons_self, (pairwise_cons.mp h2).1⟩

lemma frame_children (hok : FrameOk f) : ∃ c, (label f).getLast? = some c ∧ childAbove f.node c 1 =
      (if f.idx + 1 < f.node.children.length then some (f.idx + 1) else none) ∧
    childBelow f.node c 1 = if 0 < f.idx then some (f.idx - 1) else none := by
  have hlt := hok.idx_lt
  cases hi : f.node.iscompr with
  | true =>
    have h1 := (hok.shape.compr hi).1
    refine ⟨_, getLast?_eq_some_getLast (label_ne_nil hok), ?_, ?_⟩
    · rw [childAbove, if_neg (by rw [hi]; simp), if_neg (by omega)]
    · rw [childBelow, if_neg (by rw [hi]; simp), if_neg (by omega)]
  | false =>
    obtain ⟨hsize, _⟩ := hok.shape.normal hi
    obtain ⟨c, hlabel, hsplit, ha, hd⟩ := frame_split hok hi
    have hidx : (f.node.data.take f.idx).length = f.idx := by
      refine length_take_of_le ?_
      unfold RaxNode.size at hsize
      omega
    have hlen : f.node.size = f.idx + (f.node.data.drop (f.idx + 1)).length + 1 := by
      rw [RaxNode.size, length_drop]
      unfold RaxNode.size at hsize
      omega
    refine ⟨c, by rw [hlabel]; rfl, ?_, ?_⟩
    · have habove := childAbove_eq 1 (c := c) (a := f.node.data.take f.idx ++ [c])
        (d := f.node.data.drop (f.idx + 1)) hok.shape hi (by rw [append_assoc]; exact hsplit)
        (fun x hx => ?_) hd fun hne => ?_
      · rwa [length_append, hidx] at habove
      · rcases mem_append.mp hx with hx | hx
        · exact UInt8.lt_asymm (ha x hx)
        rw [mem_singleton.mp hx]
        exact UInt8.lt_irrefl c
      · have := length_pos_iff.mpr hne
        omega
    have hbelow := childBelow_eq 1 (c := c) (a := f.node.data.take f.idx)
      (d := c :: f.node.data.drop (f.idx + 1)) hi hsplit ha (fun x hx => ?_) fun hne => ?_
    · rwa [hidx] at hbelow
    · rcases mem_cons.mp hx with rfl | hx
      · exact UInt8.lt_irrefl x
      · exact UInt8.lt_asymm (hd x hx)
    have := length_pos_iff.mpr hne
    omega

/-! ## Forward -/

section
variable {head : RaxNode V} {b : Bool} {path : List (Frame V)} {it : RaxIterator V} {least : Nat}

def AtEntry (head : RaxNode V) (front : List (Entry V)) (e : Entry V) (rest : List (Entry V))
    (b : Bool) (it : RaxIterator V) : Prop :=
  ∃ path, At head path b it ∧ it.node.iskey = true ∧ it.data = raxGetData it.node ∧
    before path = front ∧ (it.key, it.data) = e ∧ gapAfter path it.node 0 = rest

lemma At.entry (h : At head path b it) (hk : it.node.iskey = true) :
    AtEntry head (before path) (pathKey path, raxGetData it.node) (gapAfter path it.node 0) b
      (setCurrent it) :=
  ⟨path, { h with }, hk, rfl, rfl, by rw [← h.key]; rfl, rfl⟩

/-- At the root of the subtree that comes behind a gap, if there is one. -/
def Arrives (head : RaxNode V) (b : Bool) (front rest : List (Entry V)) :
    Option (RaxIterator V) → Prop
  | none => rest = []
  | some it => ∃ path, path ≠ [] ∧ At head path b it ∧ before path = front ∧
      under (pathKey path) (entries it.node) ++ after path = rest

/-- At the first entry behind a gap, if there is one. -/
def Reaches (head : RaxNode V) (b : Bool) (front rest : List (Entry V)) :
    Option (RaxIterator V) → Prop
  | none => rest = []
  | some it => ∃ e es, rest = e :: es ∧ AtEntry head front e es b it

lemma At.enterAbove (h : At head path b it) (hw : WellFormed head)
    (hi : childAbove it.node c least = if i < it.node.children.length then some i else none)
    (hcompr : i < it.node.children.length → it.node.iscompr = false) :
    (Iterator.enterAbove it c least = .ok none ∧ it.node.children.length ≤ i) ∨
      ∃ it', Iterator.enterAbove it c least = .ok (some it') ∧
        Arrives head b (gapBefore path it.node i) (gapAfter path it.node i) (some it') := by
  have hs := (h.on.wf hw).shape
  unfold Iterator.enterAbove
  rw [hi]
  by_cases hlt : i < it.node.children.length
  · rw [if_pos hlt]
    dsimp only
    obtain ⟨it', hrun, hnode, hat⟩ := h.enterChild (getElem?_eq_getElem hlt)
    have hlabel : label ⟨it.node, i⟩ = (it.node.data.drop i).take 1 := by
      rw [label, if_neg (by rw [hcompr hlt]; decide)]
    rw [← hlabel, hrun]
    refine .inr ⟨it', rfl, _, cons_ne_nil _ _, hat, rfl, ?_⟩
    rw [hnode, ← gapAfter_child _ hs (getElem?_eq_getElem hlt)]
  · rw [if_neg hlt]
    exact .inl ⟨rfl, Nat.not_lt.mp hlt⟩

lemma frame_normal (hok : FrameOk f) (h : f.node.children.length ≠ 1) : f.node.iscompr = false :=
  Bool.eq_false_iff.mpr fun hi => h (hok.shape.compr hi).1

/-- Going up from a node, whose edge is taken out of the key. -/
lemma At.leave (h : At head (f :: path) b it) (hw : WellFormed head) :
    ∃ c it', it.stack = f.node :: path.map Frame.node ∧ Iterator.prevchild it = .ok c ∧
      Iterator.delEdge { it with node := f.node, stack := path.map Frame.node } = .ok it' ∧
      it'.node = f.node ∧ At head path b it' ∧ f.node.children[f.idx]? = some it.node ∧
      childAbove f.node c 1 =
        (if f.idx + 1 < f.node.children.length then some (f.idx + 1) else none) ∧
      childBelow f.node c 1 = if 0 < f.idx then some (f.idx - 1) else none := by
  have hok := h.on.ok hw f mem_cons_self
  obtain ⟨hon, hchild⟩ : OnPath head path f.node ∧ f.node.children[f.idx]? = some it.node := by
    have hon := h.on
    cases hon with
    | child hp hc => exact ⟨hp, hc⟩
  have hpast : Past head path (label f) b
      { it with node := f.node, stack := path.map Frame.node } :=
    ⟨hon, rfl, h.key, length_label hok, h.justSeeked, h.eof⟩
  obtain ⟨c, hlast, hsides⟩ := frame_children hok
  obtain ⟨it', hdel, hnode, hat⟩ := hpast.delEdge
  exact ⟨c, it', h.stack, hpast.prevchild hlast, hdel, hnode, hat, hchild, hsides⟩

/-- Going up leads to what comes behind the whole subtree. -/
lemma nextUp_spec (hw : WellFormed head) : ∀ {path : List (Frame V)} {it : RaxIterator V},
    At head path b it → ∃ r, nextUp it.stack it = .ok r ∧
      Arrives head b (before path ++ under (pathKey path) (entries it.node)) (after path) r
  | [], it, h => ⟨none, by rw [h.stack]; rfl, rfl⟩
  | f :: path, it, h => by
    have hok := h.on.ok hw f mem_cons_self
    obtain ⟨c, it', hstack, hprev, hdel, hnode, hat, hchild, habove, _⟩ := h.leave hw
    have hbefore := gapBefore_child path hok.shape hchild
    have hafter : gapAfter path f.node (f.idx + 1) = after (f :: path) := rfl
    rw [hstack, nextUp, hprev, bind_ok, hdel, bind_ok]
    rw [← hnode] at habove hbefore hafter
    rcases hat.enterAbove hw habove
      (fun hlt => by rw [hnode] at hlt ⊢; exact frame_normal hok (by omega))
      with ⟨hrun, hle⟩ | ⟨it'', hrun, harr⟩
    · rw [hrun]
      have hend := gap_end path (hat.on.wf hw).shape hle
      rw [hend.1] at hbefore
      rw [hend.2] at hafter
      obtain ⟨r, hup, harr⟩ := nextUp_spec hw hat
      rw [hat.stack] at hup
      refine ⟨r, hup, ?_⟩
      rw [hbefore, hafter] at harr
      rwa [hnode] at harr
    · rw [hrun]
      refine ⟨some it'', rfl, ?_⟩
      rwa [hbefore, hnode] at harr

lemma length_le_pathNodes : ∀ path : List (Frame V), path.length ≤ pathNodes path
  | [] => le_rfl
  | f :: path => by
    have := length_le_pathNodes path
    rw [pathNodes, others, length_cons]
    omega

lemma At.nodes_le (h : At head path b it) (hw : WellFormed head) :
    path.length + it.node.nodes ≤ head.nodes := by
  have hn := plug_nodes (h.on.ok hw) it.node
  have := length_le_pathNodes path
  rw [h.on.plug_eq] at hn
  omega

/-- The subtree has an entry: either its root or one further down. -/
lemma settle_next (hw : WellFormed head) {rounds front rest}
    (h : Arrives head b front rest (some it))
    (hdown : ∀ path, At head path b it → it.node.size ≠ 0 → ∃ r, nextLoop rounds false it = .ok r ∧
      Reaches head b (gapBefore path it.node 0) (gapAfter path it.node 0) r) :
    ∃ r, (if it.node.iskey = true then .ok (some (setCurrent it)) else nextLoop rounds false it) =
      .ok r ∧ Reaches head b front rest r := by
  obtain ⟨path, hne, hat, rfl, rfl⟩ := h
  have hs := (hat.on.wf hw).shape
  cases hk : it.node.iskey with
  | true =>
    rw [(gap_key _ hs hk).2]
    exact ⟨_, if_pos rfl, _, _, rfl, hat.entry hk⟩
  | false =>
    obtain ⟨h1, h2⟩ := gap_zero path hs hk
    obtain ⟨r, hrun, hr⟩ := hdown path hat fun h0 => by
      rw [hat.on.settled hw hne h0] at hk
      cases hk
    rw [h1, h2] at hr
    exact ⟨r, by rw [if_neg (by decide), hrun], hr⟩

lemma children_ne_zero (h0 : n.size ≠ 0) : (if n.iscompr = true then 1 else n.size) ≠ 0 := by
  split
  · exact Nat.one_ne_zero
  · exact h0

lemma descend_spec (hw : WellFormed head) : ∀ (rounds : Nat) {it : RaxIterator V}
    (path : List (Frame V)), At head path b it → it.node.size ≠ 0 → it.node.nodes ≤ rounds →
    ∃ r, nextLoop rounds false it = .ok r ∧
      Reaches head b (gapBefore path it.node 0) (gapAfter path it.node 0) r
  | 0, it, _, _, _, hr => by
    rw [nodes_eq] at hr
    omega
  | rounds + 1, it, path, h, h0, hr => by
    have hs := (h.on.wf hw).shape
    have hne : it.node.children ≠ [] := fun hnil => h0 (hs.size_eq_zero.mpr hnil)
    obtain ⟨c, cs, hcs⟩ := exists_cons_of_ne_nil hne
    have hc : it.node.children[0]? = some c := by rw [hcs]; rfl
    obtain ⟨it', hrun, hnode, hat⟩ := h.enterChild hc
    have hlabel : label ⟨it.node, 0⟩ =
        if it.node.iscompr = true then it.node.data else it.node.data.take 1 := rfl
    have harr : Arrives head b (gapBefore path it.node 0) (gapAfter path it.node 0) (some it') := by
      refine ⟨_, cons_ne_nil _ _, hat, rfl, ?_⟩
      rw [hnode, gapAfter_child _ hs hc]
    have hnodes : it'.node.nodes ≤ rounds := by
      rw [nodes_eq, hcs, nodesAll] at hr
      rw [hnode]
      omega
    rw [nextLoop]
    rw [if_pos ⟨rfl, children_ne_zero h0⟩, ← hlabel, hrun]
    exact settle_next hw harr fun path' hat' h0' => descend_spec hw rounds path' hat' h0' hnodes

/-- The rest of the loop once the next subtree is found. -/
lemma settle_arrival (hw : WellFormed head) {front rest} (h : Arrives head b front rest (some it)) :
    ∃ r, (if it.node.iskey = true then .ok (some (setCurrent it)) else nextLoop head.nodes false it) =
      .ok r ∧ Reaches head b front rest r := by
  refine settle_next hw h fun path hat h0 => descend_spec hw _ path hat h0 ?_
  have := hat.nodes_le hw
  omega

lemma nextLoop_spec (hw : WellFormed head) (h : At head path b it) :
    ∃ r, nextLoop (head.nodes + 1) false it = .ok r ∧
      Reaches head b (gapBefore path it.node 0) (gapAfter path it.node 0) r := by
  by_cases h0 : it.node.size = 0
  · have hs := (h.on.wf hw).shape
    have hnil := hs.size_eq_zero.mp h0
    have hi := hs.normal_of_leaf h0
    obtain ⟨r, hup, harr⟩ := nextUp_spec hw h
    obtain ⟨hb, ha⟩ := gap_end path hs (i := 0) (by rw [hnil]; exact le_rfl)
    rw [← hb, ← ha] at harr
    rw [nextLoop, if_neg (by rw [hi, h0]; simp), nextSubtree, if_neg (by decide), hup]
    cases r with
    | none => exact ⟨none, rfl, harr⟩
    | some it' => exact settle_arrival hw harr
  · exact descend_spec hw _ path h h0 (by have := h.nodes_le hw; omega)

lemma nextLoop_noup (hw : WellFormed head) (h : Past head path x b it) (hc : x.getLast? = some c)
    (hi : childAbove it.node c 0 = if i < it.node.children.length then some i else none)
    (hcompr : i < it.node.children.length → it.node.iscompr = false) :
    ∃ r, nextLoop (head.nodes + 1) true it = .ok r ∧
      Reaches head b (gapBefore path it.node i) (gapAfter path it.node i) r := by
  obtain ⟨it', hdel, hnode, hat⟩ := h.delEdge
  rw [← hnode] at hi hcompr ⊢
  obtain ⟨r, hsub, harr⟩ : ∃ r, nextSubtree true it = .ok r ∧
      Arrives head b (gapBefore path it'.node i) (gapAfter path it'.node i) r := by
    rw [nextSubtree, h.prevchild hc, bind_ok, hdel, bind_ok]
    rcases hat.enterAbove hw hi hcompr with ⟨hrun, hle⟩ | ⟨it'', hrun, harr⟩
    · rw [hrun]
      obtain ⟨hb, ha⟩ := gap_end path (hat.on.wf hw).shape hle
      rw [hb, ha]
      exact nextUp_spec hw hat
    · rw [hrun]
      exact ⟨_, rfl, harr⟩
  rw [nextLoop, hsub]
  cases r with
  | none => exact ⟨none, rfl, harr⟩
  | some it'' => exact settle_arrival hw harr

/-! ## Backward -/

/-- At the last entry in front of a gap, if there is one. -/
def ReachesBack (head : RaxNode V) (b : Bool) (front rest : List (Entry V)) :
    Option (RaxIterator V) → Prop
  | none => front = []
  | some it => ∃ es e, front = es ++ [e] ∧ AtEntry head es e rest b it

lemma label_last (hs : Shape n) : label ⟨n, n.children.length - 1⟩ =
    if n.iscompr = true then n.data else n.data.drop (n.size - 1) := by
  unfold label
  dsimp only
  split
  · rfl
  rename_i hi
  rw [← (hs.normal (Bool.not_eq_true _ ▸ hi)).1]
  refine take_of_length_le ?_
  rw [length_drop]
  unfold RaxNode.size
  omega

/-- Down the last children: nothing of the subtree comes behind the leaf. -/
lemma seekGreatest_spec (hw : WellFormed head) : ∀ (rounds : Nat) {it : RaxIterator V}
    {path : List (Frame V)}, At head path b it → it.node.nodes ≤ rounds →
    ∃ path' it', seekGreatest rounds it = .ok it' ∧ At head path' b it' ∧ it'.node.size = 0 ∧
      (Settled it.node → it'.node.iskey = true) ∧ after path' = after path ∧
      before path' ++ under (pathKey path') (entries it'.node) =
        before path ++ under (pathKey path) (entries it.node)
  | 0, it, _, _, hr => by
    rw [nodes_eq] at hr
    omega
  | rounds + 1, it, path, h, hr => by
    rw [seekGreatest]
    by_cases h0 : it.node.size = 0
    · exact ⟨path, it, if_pos h0, h, h0, fun hset => hset h0, rfl, rfl⟩
    have hs := (h.on.wf hw).shape
    have hpos : it.node.children.length - 1 < it.node.children.length := by
      have : 0 < it.node.children.length :=
        length_pos_iff.mpr fun hnil => h0 (hs.size_eq_zero.mpr hnil)
      omega
    have hc := getElem?_eq_getElem hpos
    obtain ⟨it', hrun, hnode, hat⟩ := h.enterChild hc
    have hnodes : it'.node.nodes ≤ rounds := by
      have hn := fill_nodes (f := ⟨it.node, it.node.children.length - 1⟩) ⟨hs, hpos⟩ it'.node
      rw [hnode, fill_self hc, others, ← hnode] at hn
      omega
    obtain ⟨path', it'', hrun', hat', hleaf, hkey, hafter, hbefore⟩ :=
      seekGreatest_spec hw rounds hat hnodes
    obtain ⟨hb, ha⟩ := gap_end path hs (i := it.node.children.length - 1 + 1) (by omega)
    refine ⟨path', it'', ?_, hat', hleaf,
      fun _ => hkey (hat.on.settled hw (cons_ne_nil _ _)), ?_, ?_⟩
    · rw [if_neg h0, ← label_last hs]
      dsimp only
      rw [hrun, bind_ok, hrun']
    · rw [hafter, ← ha]
      rfl
    · rw [hbefore, ← hb, gapBefore_child _ hs hc, hnode]

lemma raxSeekGreatest_spec (hw : WellFormed head) (h : At head path b it)
    (hset : Settled it.node) : ∃ it' es e, raxSeekGreatest it = .ok it' ∧ it'.node.iskey = true ∧
      before path ++ under (pathKey path) (entries it.node) = es ++ [e] ∧
      AtEntry head es e (after path) b (setCurrent it') := by
  obtain ⟨path', it', hrun, hat, h0, hkey, hafter, hbefore⟩ :=
    seekGreatest_spec hw it.node.nodes h le_rfl
  have hs := (hat.on.wf hw).shape
  have hk := hkey hset
  have hnil := hs.size_eq_zero.mp h0
  obtain ⟨hb, ha⟩ := gap_end path' hs (i := 0) (by rw [hnil]; exact le_rfl)
  refine ⟨it', before path', (pathKey path', raxGetData it'.node), hrun, hk, ?_, ?_⟩
  · rw [← hbefore, ← hb, (gap_key _ hs hk).1]
  have hentry := hat.entry hk
  rwa [ha, hafter] at hentry

lemma At.enterBelow (h : At head path b it) (hw : WellFormed head)
    (hi : childBelow it.node c least = if 0 < i then some (i - 1) else none)
    (hle : i ≤ it.node.children.length) (hcompr : 0 < i → it.node.iscompr = false) :
    (Iterator.enterBelow it c least = .ok it ∧ i = 0) ∨
      ∃ it', Iterator.enterBelow it c least = .ok it' ∧ it'.node.iskey = true ∧
        ReachesBack head b (gapBefore path it.node i) (gapAfter path it.node i)
          (some (setCurrent it')) := by
  have hs := (h.on.wf hw).shape
  unfold Iterator.enterBelow
  rw [hi]
  cases i with
  | zero => exact .inl ⟨rfl, rfl⟩
  | succ i =>
    rw [if_pos (Nat.succ_pos i), Nat.add_sub_cancel]
    dsimp only
    have hc := getElem?_eq_getElem (l := it.node.children) (i := i) (by omega)
    obtain ⟨it1, hrun, hnode, hat⟩ := h.enterChild hc
    have hlabel : label ⟨it.node, i⟩ = (it.node.data.drop i).take 1 := by
      rw [label, if_neg (by rw [hcompr (Nat.succ_pos i)]; decide)]
    obtain ⟨it', es, e, hgreat, hk, hsplit, hentry⟩ :=
      raxSeekGreatest_spec hw hat (hat.on.settled hw (cons_ne_nil _ _))
    rw [← hlabel, hrun]
    refine .inr ⟨it', hgreat, hk, es, e, ?_, hentry⟩
    rw [gapBefore_child _ hs hc, ← hsplit, hnode]

lemma settle_prev (hw : WellFormed head) (h : At head path b it) {rounds}
    (hi : childBelow it.node c least = if 0 < i then some (i - 1) else none)
    (hle : i ≤ it.node.children.length) (hcompr : 0 < i → it.node.iscompr = false)
    (hup : ∃ r, prevLoop rounds false it = .ok r ∧ ReachesBack head b (before path)
      (under (pathKey path) (entries it.node) ++ after path) r) :
    ∃ r, (Iterator.enterBelow it c least >>= fun it =>
        if it.node.iskey = true then .ok (some (setCurrent it)) else prevLoop rounds false it) =
      .ok r ∧ ReachesBack head b (gapBefore path it.node i) (gapAfter path it.node i) r := by
  have hs := (h.on.wf hw).shape
  rcases h.enterBelow hw hi hle hcompr with ⟨hrun, rfl⟩ | ⟨it', hrun, hk, hr⟩
  · rw [hrun, bind_ok]
    cases hk : it.node.iskey with
    | true => exact ⟨_, if_pos rfl, _, _, (gap_key _ hs hk).1, h.entry hk⟩
    | false =>
      obtain ⟨hb, ha⟩ := gap_zero path hs hk
      rw [hb, ha]
      exact hup
  · rw [hrun]
    exact ⟨_, if_pos hk, hr⟩

lemma prevLoop_spec (hw : WellFormed head) : ∀ {path : List (Frame V)} {it : RaxIterator V}
    (rounds : Nat), At head path b it → path.length < rounds →
    ∃ r, prevLoop rounds false it = .ok r ∧ ReachesBack head b (before path)
      (under (pathKey path) (entries it.node) ++ after path) r
  | [], it, rounds + 1, h, _ => by
    refine ⟨none, ?_, rfl⟩
    unfold prevLoop
    rw [h.stack]
    rfl
  | f :: path, it, rounds + 1, h, hr => by
    have hok := h.on.ok hw f mem_cons_self
    obtain ⟨c, it', hstack, hprev, hdel, hnode, hat, hchild, _, hbelow⟩ := h.leave hw
    have hafter := gapAfter_child path hok.shape hchild
    have hup := prevLoop_spec hw rounds hat (Nat.lt_of_succ_lt_succ hr)
    have hlt := hok.idx_lt
    rw [← hnode] at hbelow hlt
    obtain ⟨r, hrun, hback⟩ := settle_prev hw hat hbelow hlt.le
      (fun hpos => by rw [hnode] at hlt ⊢; exact frame_normal hok (by omega)) hup
    rw [hnode, hafter] at hback
    refine ⟨r, ?_, hback⟩
    unfold prevLoop
    rw [hstack]
    dsimp only
    rw [hprev, hdel]
    exact hrun

lemma prevLoop_noup (hw : WellFormed head) (h : Past head path x b it) (hc : x.getLast? = some c)
    (hi : childBelow it.node c 0 = if 0 < i then some (i - 1) else none)
    (hle : i ≤ it.node.children.length) (hcompr : 0 < i → it.node.iscompr = false) :
    ∃ r, prevLoop (head.nodes + 1) true it = .ok r ∧
      ReachesBack head b (gapBefore path it.node i) (gapAfter path it.node i) r := by
  obtain ⟨it', hdel, hnode, hat⟩ := h.delEdge
  rw [← hnode] at hi hle hcompr ⊢
  have hlen : path.length < head.nodes := by
    have hn := hat.nodes_le hw
    rw [nodes_eq it'.node] at hn
    omega
  obtain ⟨r, hrun, hback⟩ := settle_prev hw hat hi hle hcompr (prevLoop_spec hw _ hat hlen)
  refine ⟨r, ?_, hback⟩
  rw [prevLoop, h.prevchild hc, hdel]
  exact hrun

end

end Redis.RadixTree.Cursor
