import Redis.RadixTree.Entries

/-! # Paths and the walk

A frame of a path splits the entries of its node around the child it points to.
`raxLowWalk` ends at a node whose path spells the part of the key used up so
far, and for one of four reasons. -/
namespace Redis.RadixTree.Paths
open List Lib Model Entries

variable {V : Type} {f : Frame V} {e : Entry V} {path : List (Frame V)} {head n : RaxNode V}

/-! ## Frames -/

/-- The string on the edge a frame went down. -/
def label (f : Frame V) : Bytes :=
  if f.node.iscompr then f.node.data else (f.node.data.drop f.idx).take 1

def left (f : Frame V) : List (Entry V) :=
  own f.node ++ entriesAll ((labels f.node).take f.idx) (f.node.children.take f.idx)

def right (f : Frame V) : List (Entry V) :=
  entriesAll ((labels f.node).drop (f.idx + 1)) (f.node.children.drop (f.idx + 1))

/-- The nodes of the subtree that are not below the child. -/
def others (f : Frame V) : Nat :=
  1 + nodesAll (f.node.children.take f.idx) + nodesAll (f.node.children.drop (f.idx + 1))

structure FrameOk (f : Frame V) : Prop where
  shape : Shape f.node
  idx_lt : f.idx < f.node.children.length

lemma labels_split (h : FrameOk f) : labels f.node =
    (labels f.node).take f.idx ++ label f :: (labels f.node).drop (f.idx + 1) := by
  have hlt : f.idx < (labels f.node).length := by
    rw [h.shape.length_labels]
    exact h.idx_lt
  have hget : (labels f.node)[f.idx] = label f := by
    unfold label
    cases hc : f.node.iscompr with
    | true =>
      have h0 : f.idx = 0 := by
        have := (h.shape.compr hc).1
        have := h.idx_lt
        omega
      simp only [labels, hc, if_true, h0, getElem_cons_zero]
    | false =>
      have hd : f.idx < f.node.data.length := by
        have := (h.shape.normal hc).1
        have := h.idx_lt
        unfold RaxNode.size at *
        omega
      simp only [labels, hc, Bool.false_eq_true, if_false, getElem_map]
      rw [drop_eq_getElem_cons hd]
      rfl
  rw [← hget, getElem_cons_drop, take_append_drop]

lemma fill_entries (h : FrameOk f) (n : RaxNode V) :
    entries (f.fill n) = left f ++ (under (label f) (entries n) ++ right f) := by
  have hlen := h.shape.length_labels
  have hlt := h.idx_lt
  rw [entries_eq]
  have hown : own (f.fill n) = own f.node := rfl
  have hlabels : labels (f.fill n) = labels f.node := rfl
  have hchildren : (f.fill n).children =
      f.node.children.take f.idx ++ n :: f.node.children.drop (f.idx + 1) := by
    rw [Frame.fill, set_eq_take_append_cons_drop, if_pos hlt]
  rw [hlabels, hchildren, labels_split h, entriesAll_append, ← append_assoc]
  · rfl
  · rw [length_take, length_take, hlen]

lemma nodes_eq (n : RaxNode V) : n.nodes = 1 + nodesAll n.children := by
  cases n; rfl

lemma nodesAll_append (cs ds : List (RaxNode V)) :
    nodesAll (cs ++ ds) = nodesAll cs + nodesAll ds := by
  induction cs with
  | nil => rw [nil_append, nodesAll, zero_add]
  | cons c cs ih => rw [cons_append, nodesAll, nodesAll, ih, add_assoc]

lemma fill_nodes (h : FrameOk f) (n : RaxNode V) : (f.fill n).nodes = others f + n.nodes := by
  rw [nodes_eq, Frame.fill, set_eq_take_append_cons_drop, if_pos h.idx_lt, nodesAll_append,
    nodesAll, others]
  omega

lemma label_ne_nil (h : FrameOk f) : label f ≠ [] := by
  refine h.shape.labels_ne_nil _ ?_
  rw [labels_split h]
  exact mem_append_right _ mem_cons_self

lemma left_lt (h : FrameOk f) (he : e ∈ left f) (x : Bytes) : e.1 < label f ++ x := by
  rcases mem_append.mp he with he | he
  · rw [(mem_own he).2]
    exact nil_lt_append (label_ne_nil h) x
  obtain ⟨l, hl, y, hy⟩ := mem_entriesAll he
  have hap := h.shape.labels_apart
  rw [labels_split h] at hap
  rw [hy]
  exact (pairwise_append.mp hap).2.2 l hl _ mem_cons_self y x

lemma lt_right (h : FrameOk f) (he : e ∈ right f) (x : Bytes) : label f ++ x < e.1 := by
  obtain ⟨l, hl, y, hy⟩ := mem_entriesAll he
  have hap := h.shape.labels_apart
  rw [labels_split h] at hap
  rw [hy]
  exact (pairwise_cons.mp (pairwise_append.mp hap).2.1).1 l hl x y

/-! ## Paths -/

/-- The string a path spells; the last frame comes first. -/
def pathKey : List (Frame V) → Bytes
  | [] => []
  | f :: path => pathKey path ++ label f

def before : List (Frame V) → List (Entry V)
  | [] => []
  | f :: path => before path ++ under (pathKey path) (left f)

def after : List (Frame V) → List (Entry V)
  | [] => []
  | f :: path => under (pathKey path) (right f) ++ after path

def pathNodes : List (Frame V) → Nat
  | [] => 0
  | f :: path => others f + pathNodes path

section
variable (h : ∀ f ∈ path, FrameOk f)
include h

lemma plug_entries (n : RaxNode V) :
    entries (plug path n) = before path ++ (under (pathKey path) (entries n) ++ after path) := by
  induction path generalizing n with
  | nil => rw [plug, before, pathKey, after, under_empty, append_nil, nil_append]
  | cons f path ih =>
    rw [plug, ih (forall_mem_cons.mp h).2, fill_entries (h f mem_cons_self),
      under_append, under_append, under_under, before, pathKey, after]
    simp only [append_assoc]

lemma plug_nodes (n : RaxNode V) :
    (plug path n).nodes = pathNodes path + n.nodes := by
  induction path generalizing n with
  | nil => rw [plug, pathNodes, zero_add]
  | cons f path ih =>
    rw [plug, ih (forall_mem_cons.mp h).2, fill_nodes (h f mem_cons_self),
      pathNodes]
    omega

lemma before_lt
    (he : e ∈ before path) (x : Bytes) : e.1 < pathKey path ++ x := by
  induction path generalizing x with
  | nil => cases he
  | cons f path ih =>
    rw [pathKey, append_assoc]
    rcases mem_append.mp he with he | he
    · exact ih (forall_mem_cons.mp h).2 he _
    obtain ⟨d, hd, rfl⟩ := mem_under.mp he
    exact append_left_lt (left_lt (h f mem_cons_self) hd x)

lemma lt_after
    (he : e ∈ after path) (x : Bytes) : pathKey path ++ x < e.1 := by
  induction path generalizing x with
  | nil => cases he
  | cons f path ih =>
    rw [pathKey, append_assoc]
    rcases mem_append.mp he with he | he
    · obtain ⟨d, hd, rfl⟩ := mem_under.mp he
      exact append_left_lt (lt_right (h f mem_cons_self) hd x)
    · exact ih (forall_mem_cons.mp h).2 he _

end

inductive OnPath (head : RaxNode V) : List (Frame V) → RaxNode V → Prop
  | head : OnPath head [] head
  | child {path : List (Frame V)} {n c : RaxNode V} {i : Nat} : OnPath head path n →
      n.children[i]? = some c → OnPath head (⟨n, i⟩ :: path) c

lemma OnPath.wf (h : OnPath head path n) (hw : WellFormed head) : WellFormed n := by
  induction h with
  | head => exact hw
  | child _ hc ih => exact ih.child (mem_of_getElem? hc)

lemma OnPath.frames (h : OnPath head path n)
    (hw : WellFormed head) : ∀ f ∈ path, FrameOk f ∧ WellFormed f.node := by
  induction h with
  | head => exact nofun
  | child hp hc ih =>
    have hshape := (hp.wf hw).shape
    exact forall_mem_cons.mpr ⟨⟨⟨hshape, (List.getElem?_eq_some_iff.mp hc).1⟩, hp.wf hw⟩, ih⟩

lemma OnPath.ok (h : OnPath head path n)
    (hw : WellFormed head) : ∀ f ∈ path, FrameOk f := fun f hf => (h.frames hw f hf).1

lemma fill_self {c : RaxNode V} {i : Nat} (h : n.children[i]? = some c) :
    (⟨n, i⟩ : Frame V).fill c = n := by
  obtain ⟨hlt, rfl⟩ := List.getElem?_eq_some_iff.mp h
  rw [Frame.fill, set_getElem_self]
  cases n; rfl

lemma OnPath.plug_eq (h : OnPath head path n) : plug path n = head := by
  induction h with
  | head => rfl
  | child _ hc ih => rw [plug, fill_self hc, ih]

lemma OnPath.settled (h : OnPath head path n)
    (hw : WellFormed head) (hp : path ≠ []) : Settled n := by
  cases h with
  | head => exact absurd rfl hp
  | child hpath hc => exact (hpath.wf hw).settled (mem_of_getElem? hc)

lemma fill_wf (hok : FrameOk f) (hw : WellFormed f.node)
    (hn : WellFormed n) (hs : Settled n) : WellFormed (f.fill n) := by
  have hlen : (f.fill n).children.length = f.node.children.length := length_set ..
  refine .node ⟨fun hc => ?_, fun hc => ?_⟩ (fun c hc => ?_) fun c hc => ?_
  · rw [hlen]
    exact hok.shape.compr hc
  · rw [hlen]
    exact hok.shape.normal hc
  · rcases mem_or_eq_of_mem_set hc with hc | rfl
    · exact hw.child hc
    · exact hn
  · rcases mem_or_eq_of_mem_set hc with hc | rfl
    · exact hw.settled hc
    · exact hs

lemma fill_settled (hok : FrameOk f) (n : RaxNode V) : Settled (f.fill n) := by
  intro h0
  have hnil := hok.shape.size_eq_zero.mp h0
  have := hok.idx_lt
  rw [hnil] at this
  cases this

lemma plug_wf (h : ∀ f ∈ path, FrameOk f ∧ WellFormed f.node)
    (hn : WellFormed n) (hs : path ≠ [] → Settled n) : WellFormed (plug path n) := by
  induction path generalizing n with
  | nil => exact hn
  | cons f path ih =>
    obtain ⟨hok, hw⟩ := h f mem_cons_self
    exact ih (forall_mem_cons.mp h).2
      (fill_wf hok hw hn (hs (cons_ne_nil _ _))) fun _ => fill_settled hok n

/-! ## The walk -/

/-- Why a walk stops at a node with the bytes `r` of the key still to match:
the key ends here, the node has no children, the key ends or differs inside a
compressed node, or a normal node has no child for the next byte. The last
two arguments are what `raxLowWalk` reports. -/
inductive Stop (n : RaxNode V) : (r rest : Bytes) → (splitpos : Nat) → Prop
  | here : Stop n [] [] 0
  | leaf (c : UInt8) (s : Bytes) : n.size = 0 → Stop n (c :: s) (c :: s) 0
  | inside {j : Nat} {rest : Bytes} : n.iscompr = true → j < n.size → (rest = [] → j ≠ 0) →
      (∀ c ∈ rest.head?, n.data[j]? ≠ some c) → Stop n (n.data.take j ++ rest) rest j
  | missing (c : UInt8) (s : Bytes) : n.iscompr = false → n.size ≠ 0 → c ∉ n.data →
      Stop n (c :: s) (c :: s) 0

lemma matchLen_le (a s : Bytes) : matchLen a s ≤ a.length := by
  fun_induction matchLen a s with
  | case1 a as bs ih => exact Nat.succ_le_succ ih
  | case2 | case3 => exact Nat.zero_le _

lemma take_matchLen (a s : Bytes) : a.take (matchLen a s) ++ s.drop (matchLen a s) = s := by
  fun_induction matchLen a s with
  | case1 a as bs ih => rw [take_succ_cons, drop_succ_cons, cons_append, ih]
  | case2 => rfl
  | case3 => rfl

lemma matchLen_differs (a s : Bytes) :
    ∀ c ∈ (s.drop (matchLen a s)).head?, a[matchLen a s]? ≠ some c := by
  fun_induction matchLen a s with
  | case1 a as bs ih => exact ih
  | case2 a as b bs hne =>
    intro c hc he
    exact hne ((Option.some.inj he).trans (Option.some.inj hc).symm)
  | case3 a s hne =>
    intro c hc he
    cases a with
    | nil => cases he
    | cons a as =>
      cases s with
      | nil => cases hc
      | cons b bs => exact hne _ _ _ _ rfl rfl

lemma lowWalkLoop_spec (hw : WellFormed head) :
    ∀ (rounds : Nat) (path : List (Frame V)) (h : RaxNode V) (s : Bytes), OnPath head path h →
      s.length ≤ rounds → ∃ w r, lowWalkLoop rounds path h s = .ok w ∧ OnPath head w.path w.stop ∧
        pathKey path ++ s = pathKey w.path ++ r ∧ Stop w.stop r w.rest w.splitpos
  | rounds, path, h, [], hp, _ => ⟨⟨[], h, path, 0⟩, [], by rw [lowWalkLoop]; simp, hp, rfl, .here⟩
  | rounds + 1, path, h, c :: s, hp, hr => by
    rw [lowWalkLoop]
    by_cases h0 : h.size = 0
    · exact ⟨_, c :: s, if_pos h0, hp, rfl, .leaf c s h0⟩
    rw [if_neg h0]
    have hshape := (hp.wf hw).shape
    by_cases hc : h.iscompr = true
    · rw [if_pos hc]
      have htake := take_matchLen h.data (c :: s)
      by_cases hj : matchLen h.data (c :: s) = h.size
      · -- the whole string matches: go on below the only child
        rw [if_neg (not_not_intro hj)]
        obtain ⟨child, hch⟩ : ∃ child, h.children[0]? = some child :=
          ⟨_, getElem?_eq_getElem (by rw [(hshape.compr hc).1]; exact Nat.one_pos)⟩
        have hlen : ((c :: s).drop (matchLen h.data (c :: s))).length ≤ rounds := by
          rw [length_drop]
          omega
        obtain ⟨w, r, hrun, hpath, hkey, hstop⟩ :=
          lowWalkLoop_spec hw rounds (⟨h, 0⟩ :: path) child _ (.child hp hch) hlen
        refine ⟨w, r, ?_, hpath, ?_, hstop⟩
        · rw [load_eq_ok.mpr hch, Outcome.bind_ok, hrun]
        have hlabel : label (⟨h, 0⟩ : Frame V) = h.data.take (matchLen h.data (c :: s)) := by
          rw [label, if_pos hc, hj, RaxNode.size, take_length]
        rw [← hkey, pathKey, hlabel, append_assoc, htake]
      rw [if_pos hj]
      have hlt : matchLen h.data (c :: s) < h.size := Nat.lt_of_le_of_ne (matchLen_le _ _) hj
      refine ⟨_, c :: s, rfl, hp, rfl, ?_⟩
      have hstop : Stop h _ ((c :: s).drop (matchLen h.data (c :: s))) _ :=
        .inside hc hlt (fun hnil hz => by rw [hz] at hnil; cases hnil) (matchLen_differs _ _)
      rwa [htake] at hstop
    rw [if_neg hc]
    have hc' : h.iscompr = false := Bool.not_eq_true _ ▸ hc
    by_cases hj : h.data.idxOf c = h.size
    · rw [if_pos hj]
      refine ⟨_, c :: s, rfl, hp, rfl, .missing c s hc' h0 fun hm => ?_⟩
      exact Nat.ne_of_lt (idxOf_lt_length_iff.mpr hm) hj
    rw [if_neg hj]
    have hlt : h.data.idxOf c < h.data.length := Nat.lt_of_le_of_ne idxOf_le_length hj
    obtain ⟨child, hch⟩ : ∃ child, h.children[h.data.idxOf c]? = some child :=
      ⟨_, getElem?_eq_getElem (by rw [← (hshape.normal hc').1]; exact hlt)⟩
    obtain ⟨w, r, hrun, hpath, hkey, hstop⟩ :=
      lowWalkLoop_spec hw rounds (⟨h, h.data.idxOf c⟩ :: path) child s (.child hp hch)
        (Nat.le_of_succ_le_succ hr)
    refine ⟨w, r, ?_, hpath, ?_, hstop⟩
    · rw [load_eq_ok.mpr hch, Outcome.bind_ok, hrun]
    have hlabel : label (⟨h, h.data.idxOf c⟩ : Frame V) = [c] := by
      rw [label, if_neg (hc)]
      rw [drop_eq_getElem_cons hlt, getElem_idxOf hlt]
      rfl
    rw [← hkey, pathKey, hlabel, append_assoc, singleton_append]

lemma raxLowWalk_spec {t : Rax V} (hw : WellFormed t.head) (s : Bytes) :
    ∃ w r, raxLowWalk t s = .ok w ∧ OnPath t.head w.path w.stop ∧ s = pathKey w.path ++ r ∧
      Stop w.stop r w.rest w.splitpos :=
  lowWalkLoop_spec hw s.length [] t.head s .head le_rfl

variable {r : Bytes}

lemma Stop.atNode_iff {w : Walk V} (h : Stop w.stop r w.rest w.splitpos) : w.atNode ↔ r = [] := by
  unfold Walk.atNode
  generalize w.rest = rest, w.splitpos = j at h
  cases h with
  | here => simp
  | leaf c s h0 => simp
  | inside hc hj hne _ =>
    have hlen : (w.stop.data.take j).length = j := length_take_of_le hj.le
    constructor
    · rintro ⟨rfl, hn | h0⟩
      · rw [hc] at hn; cases hn
      · exact absurd h0 (hne rfl)
    intro hnil
    obtain ⟨ht, hr⟩ := append_eq_nil_iff.mp hnil
    rw [ht] at hlen
    exact absurd hlen.symm (hne hr)
  | missing c s _ _ _ => simp

lemma Stop.not_mem {rest : Bytes} {j : Nat} (hs : Shape n)
    (h : Stop n r rest j) (hr : r ≠ [] ∨ n.iskey = false) (v : Option V) : (r, v) ∉ entries n := by
  intro hmem
  rw [entries_eq] at hmem
  rcases mem_append.mp hmem with hmem | hmem
  · obtain ⟨hk, he⟩ := mem_own hmem
    cases he
    rcases hr with hr | hr
    · exact hr rfl
    · rw [hk] at hr; cases hr
  obtain ⟨l, hl, x, hx⟩ := mem_entriesAll hmem
  have hlne := hs.labels_ne_nil l hl
  cases h with
  | here => exact hlne (append_eq_nil_iff.mp hx.symm).1
  | leaf c s h0 =>
    have hlen := hs.length_labels
    rw [hs.size_eq_zero.mp h0] at hlen
    rw [length_eq_zero_iff.mp hlen] at hl
    cases hl
  | inside hc hj _ hd =>
    rw [labels, if_pos hc] at hl
    rw [mem_singleton.mp hl, ← take_append_drop j n.data, append_assoc, take_append_drop] at hx
    have hrest := append_cancel_left hx
    rw [drop_eq_getElem_cons hj] at hrest
    exact hd n.data[j] (by rw [hrest]; rfl) (getElem?_eq_getElem hj)
  | missing c s hc _ hn =>
    rw [labels, if_neg (by rw [hc]; decide)] at hl
    obtain ⟨d, hd, rfl⟩ := mem_map.mp hl
    cases hx
    exact hn hd

lemma OnPath.mem_iff (h : OnPath head path n) (hw : WellFormed head) {v : Option V} :
    (pathKey path ++ r, v) ∈ entries head ↔ (r, v) ∈ entries n := by
  have hok := h.ok hw
  rw [← h.plug_eq, plug_entries hok]
  constructor
  · intro hm
    rcases mem_append.mp hm with hm | hm
    · exact absurd (before_lt hok hm r) (List.lt_irrefl _)
    rcases mem_append.mp hm with hm | hm
    · obtain ⟨d, hd, he⟩ := mem_under.mp hm
      obtain ⟨h1, h2⟩ := Prod.mk.inj he
      rw [← append_cancel_left h1, ← h2]
      exact hd
    · exact absurd (lt_after hok hm r) (List.lt_irrefl _)
  · exact fun hm => mem_append_right _ (mem_append_left _ (mem_under.mpr ⟨_, hm, rfl⟩))

/-- A walk that does not end at a key: the key it looked for is not there. -/
lemma Stop.absent {w : Walk V}
    (h : Stop w.stop r w.rest w.splitpos) (hp : OnPath head w.path w.stop) (hw : WellFormed head)
    (hn : ¬ (w.atNode ∧ w.stop.iskey = true)) (v : Option V) :
    (pathKey w.path ++ r, v) ∉ entries head := by
  intro hv
  refine h.not_mem (hp.wf hw).shape ?_ v ((hp.mem_iff hw).mp hv)
  by_cases hr : r = []
  · exact .inr (Bool.not_eq_true _ ▸ fun hk => hn ⟨h.atNode_iff.mpr hr, hk⟩)
  · exact .inl hr

end Redis.RadixTree.Paths
