import Redis.RadixTree.Paths

/-! # Insertion

Every surgery of `raxGenericInsert` keeps the tree well formed and adds one
entry to those of the node it works on. -/
namespace Redis.RadixTree.Insertion
open List Lib Outcome Model Entries Paths

variable {V : Type} {n : RaxNode V} {s : Bytes} {es : List (Entry V)} {k : Nat} {child : RaxNode V}

/-! ## Values -/

section
variable (n) (d : Option V)

@[simp] lemma raxSetData_iskey : (raxSetData n d).iskey = true := by
  cases d <;> rfl

@[simp] lemma raxSetData_iscompr : (raxSetData n d).iscompr = n.iscompr := by
  cases d <;> rfl

@[simp] lemma raxSetData_data : (raxSetData n d).data = n.data := by
  cases d <;> rfl

@[simp] lemma raxSetData_children : (raxSetData n d).children = n.children := by
  cases d <;> rfl

@[simp] lemma raxGetData_raxSetData : raxGetData (raxSetData n d) = d := by
  cases d <;> rfl

@[simp] lemma own_raxSetData : own (raxSetData n d) = [([], d)] := by
  rw [own, raxSetData_iskey, raxGetData_raxSetData]
  rfl

lemma labels_raxSetData : labels (raxSetData n d) = labels n := by
  rw [labels, raxSetData_iscompr, raxSetData_data]
  rfl

lemma entries_raxSetData : entries (raxSetData n d) = ([], d) :: entriesAll (labels n) n.children := by
  rw [entries_eq, own_raxSetData, labels_raxSetData, raxSetData_children]
  rfl

lemma nodes_raxSetData : (raxSetData n d).nodes = n.nodes := by
  rw [nodes_eq, nodes_eq, raxSetData_children]

end

lemma own_move (h n : RaxNode V) (hn : n.iskey = false) :
    own (if h.iskey then raxSetData n (raxGetData h) else n) = own h := by
  cases hk : h.iskey with
  | true => simp [own, hk]
  | false => simp [own, hk, hn]

lemma entries_of_leaf (hs : Shape n) (h0 : n.size = 0) : entries n = own n := by
  have hc := hs.size_eq_zero.mp h0
  have hl : labels n = [] := length_eq_zero_iff.mp (by rw [hs.length_labels, hc]; rfl)
  rw [entries_eq, hl, entriesAll_nil, append_nil]

lemma wf_raxSetData (h : WellFormed n) (d : Option V) : WellFormed (raxSetData n d) := by
  refine .node ⟨fun hc => ?_, fun hc => ?_⟩ (fun c hc => ?_) fun c hc => ?_
  · rw [raxSetData_children, RaxNode.size, raxSetData_data]
    exact h.shape.compr (by rwa [raxSetData_iscompr] at hc)
  · rw [raxSetData_children, RaxNode.size, raxSetData_data]
    exact h.shape.normal (by rwa [raxSetData_iscompr] at hc)
  · exact h.child (by rwa [raxSetData_children] at hc)
  · exact h.settled (by rwa [raxSetData_children] at hc)

/-! ## Nodes with one child -/

/-- What is known of a subtree put in place of another. -/
structure Built (n : RaxNode V) (nodes : Nat) (es : List (Entry V)) : Prop where
  wf : WellFormed n
  settled : Settled n
  nodes : n.nodes = nodes
  entries : (entries n).Perm es

lemma single_built
    (hd : n.data = s) (hc : n.children = [child]) (hi : n.iscompr = decide (1 < s.length))
    (hs : s ≠ []) (hb : Built child k es) : Built n (k + 1) (own n ++ under s es) := by
  have hpos : 0 < s.length := length_pos_iff.mpr hs
  have hlabels : labels n = [s] := by
    unfold labels
    rw [hi, hd]
    by_cases h1 : 1 < s.length
    · rw [if_pos (decide_eq_true h1)]
    obtain ⟨a, rfl⟩ := length_eq_one_iff.mp (Nat.le_antisymm (Nat.le_of_not_lt h1) hpos)
    rfl
  refine ⟨.node ⟨fun hcompr => ?_, fun hn => ?_⟩ (fun c hm => ?_) fun c hm => ?_, fun h0 => ?_, ?_, ?_⟩
  · rw [hi] at hcompr
    rw [hc, RaxNode.size, hd]
    exact ⟨rfl, of_decide_eq_true hcompr⟩
  · rw [hi] at hn
    have h1 : s.length = 1 := Nat.le_antisymm (Nat.le_of_not_lt (of_decide_eq_false hn)) hpos
    obtain ⟨a, rfl⟩ := length_eq_one_iff.mp h1
    rw [hc, RaxNode.size, hd]
    exact ⟨rfl, pairwise_singleton ..⟩
  · rw [hc, mem_singleton] at hm
    rw [hm]
    exact hb.wf
  · rw [hc, mem_singleton] at hm
    rw [hm]
    exact hb.settled
  · rw [RaxNode.size, hd] at h0
    omega
  · rw [nodes_eq, hc, nodesAll, nodesAll, hb.nodes]
    omega
  · rw [entries_eq, hlabels, hc, entriesAll_singleton]
    exact (hb.entries.map _).append_left _

lemma built_self (hw : WellFormed n) (hs : Settled n) :
    Built n n.nodes (Entries.entries n) := ⟨hw, hs, rfl, .refl _⟩

lemma postfixNode_built {next : RaxNode V}
    (hs : s ≠ []) (hb : Built next k es) : Built (postfixNode s next) (k + 1) (under s es) :=
  single_built rfl rfl rfl hs hb

/-! ## Adding children -/

lemma insertIdx_middle {α : Type} (a b : List α) (x : α) :
    (a ++ b).insertIdx a.length x = a ++ x :: b := by
  induction a with
  | nil => rfl
  | cons y a ih => rw [cons_append, length_cons, insertIdx_succ_cons, ih]; rfl

lemma forall_mem_middle {α : Type} {p : α → Prop} {a b : List α} {x : α}
    (h : ∀ y ∈ a ++ b, p y) (hx : p x) : ∀ y ∈ a ++ x :: b, p y := by
  rw [forall_mem_append] at h
  exact forall_mem_append.mpr ⟨h.1, forall_mem_cons.mpr ⟨hx, h.2⟩⟩

variable {c : UInt8} {h : RaxNode V} {j : Nat} {r : Bytes} {path : List (Frame V)} {t : Rax V}

lemma split_at_byte {data : Bytes} (hs : data.Pairwise (· < ·)) (hc : c ∉ data) :
    ∃ a b, data = a ++ b ∧ (data.findIdx fun x => c < x) = a.length ∧
      (∀ x ∈ a, x < c) ∧ ∀ x ∈ b, c < x := by
  induction data with
  | nil => exact ⟨[], [], rfl, rfl, nofun, nofun⟩
  | cons d data ih =>
    obtain ⟨hd, hs'⟩ := pairwise_cons.mp hs
    rw [findIdx_cons]
    by_cases hlt : c < d
    · refine ⟨[], d :: data, rfl, by simp [hlt], nofun, fun x hx => ?_⟩
      rcases mem_cons.mp hx with rfl | hx
      · exact hlt
      · exact UInt8.lt_trans hlt (hd x hx)
    have hne : d ≠ c := fun he => hc (he ▸ mem_cons_self ..)
    have hdc : d < c := UInt8.lt_of_le_of_ne (UInt8.not_lt.mp hlt) hne
    obtain ⟨a, b, rfl, hi, ha, hb⟩ := ih hs' fun hm => hc (mem_cons_of_mem _ hm)
    refine ⟨d :: a, b, rfl, by simp [hlt, hi], fun x hx => ?_, hb⟩
    rcases mem_cons.mp hx with rfl | hx
    · exact hdc
    · exact ha x hx

lemma raxAddChild_built
    (hw : WellFormed h) (hi : h.iscompr = false) (hc : c ∉ h.data) (hb : Built child k es) :
    ∃ n, raxAddChild h c child = .ok n ∧
      Built n (h.nodes + k) (under [c] es ++ Entries.entries h) := by
  obtain ⟨hlen, hsorted⟩ := hw.shape.normal hi
  obtain ⟨a, b, hdata, hpos, ha, hb'⟩ := split_at_byte hsorted hc
  rw [RaxNode.size, hdata, length_append] at hlen
  obtain ⟨front, back, hch, hfront⟩ :
      ∃ front back, h.children = front ++ back ∧ front.length = a.length :=
    ⟨_, _, (take_append_drop a.length _).symm, length_take_of_le (by omega)⟩
  rw [hch, length_append] at hlen
  refine ⟨{ h with data := a ++ c :: b, children := front ++ child :: back }, ?_, ?_⟩
  · have hchildren := insertIdx_middle front back child
    rw [hfront] at hchildren
    rw [raxAddChild, check_pos hi, bind_ok, hpos]
    dsimp only
    rw [hch, hchildren, hdata, insertIdx_middle]
  have hwf : ∀ d ∈ front ++ back, WellFormed d := hch ▸ fun _ => hw.child
  have hset : ∀ d ∈ front ++ back, Settled d := hch ▸ fun _ => hw.settled
  refine ⟨.node ⟨fun hcompr => ?_, fun _ => ⟨?_, ?_⟩⟩ (forall_mem_middle hwf hb.wf)
    (forall_mem_middle hset hb.settled), fun h0 => ?_, ?_, ?_⟩
  · rw [hi] at hcompr
    cases hcompr
  · rw [RaxNode.size, length_append, length_cons, length_append, length_cons]
    omega
  · -- the new byte stands between those below and those above it
    rw [hdata] at hsorted
    obtain ⟨hsa, hsb, hsab⟩ := pairwise_append.mp hsorted
    exact pairwise_append.mpr ⟨hsa, pairwise_cons.mpr ⟨hb', hsb⟩,
      fun x hx => forall_mem_cons.mpr ⟨ha x hx, hsab x hx⟩⟩
  · rw [RaxNode.size, length_append, length_cons] at h0
    omega
  · rw [nodes_eq, nodes_eq h, hch, nodesAll_append, nodesAll_append, nodesAll, hb.nodes]
    omega
  have hlabels : (a.map fun x => [x]).length = front.length := by rw [length_map, hfront]
  rw [entries_eq, entries_eq h, labels, labels, if_neg (by simp only [hi]; decide),
    if_neg (by rw [hi]; decide), hch, hdata, map_append, map_append, map_cons,
    entriesAll_append hlabels, entriesAll_append hlabels]
  refine .trans ?_ ((hb.entries.map _).append_right _)
  rw [← append_assoc, ← append_assoc (own h)]
  exact perm_append_comm_assoc ..

lemma raxCompressNode_built
    (hw : WellFormed h) (hi : h.iscompr = false) (h0 : h.size = 0) (hs : 1 < s.length)
    (hb : Built child k es) :
    ∃ n, raxCompressNode h s child = .ok n ∧
      Built n (h.nodes + k) (under s es ++ Entries.entries h) := by
  obtain ⟨n, hn⟩ : ∃ n, n = if h.iskey then
      raxSetData { h with iscompr := true, data := s, children := [child] } (raxGetData h)
    else { h with iscompr := true, data := s, children := [child] } := ⟨_, rfl⟩
  have hfields : n.data = s ∧ n.children = [child] ∧ n.iscompr = true ∧ own n = own h := by
    rw [hn]
    cases hk : h.iskey with
    | true | false => simp [own, hk]
  obtain ⟨hd, hc, hcompr, hown⟩ := hfields
  refine ⟨n, ?_, ?_⟩
  · rw [raxCompressNode, check_pos ⟨h0, hi⟩, hn]
    rfl
  have hbuilt := single_built hd hc (by rw [hcompr, decide_eq_true hs])
    (ne_nil_of_length_pos (Nat.lt_trans Nat.zero_lt_one hs)) hb
  have hnodes : h.nodes = 1 := by
    rw [nodes_eq, hw.shape.size_eq_zero.mp h0, nodesAll]
  rw [hown, ← entries_of_leaf hw.shape h0] at hbuilt
  refine ⟨hbuilt.wf, hbuilt.settled, ?_, hbuilt.entries.trans perm_append_comm⟩
  rw [hbuilt.nodes, hnodes, add_comm]

/-! ## The loop -/

lemma wf_raxNewNode : WellFormed (raxNewNode : RaxNode V) :=
  .node ⟨nofun, fun _ => ⟨rfl, .nil⟩⟩ nofun nofun

/-- One round below a node without a child for the byte `c`, given what the
remaining rounds make of a new node. -/
lemma insertLoop_round (data : Option V) {rounds : Nat}
    (hw : WellFormed h) (hi : h.iscompr = false) (hc : c ∉ h.data) (hr : s.length ≤ rounds)
    (ih : ∀ s' : Bytes, s'.length ≤ rounds → ∃ n nodes,
      insertLoop data rounds raxNewNode s' = .ok (n, nodes, 1) ∧ Built n (nodes + 1) [(s', data)]) :
    ∃ n nodes, insertLoop data (rounds + 1) h (c :: s) = .ok (n, nodes, 1) ∧
      Built n (h.nodes + nodes) ((c :: s, data) :: Entries.entries h) := by
  rw [insertLoop]
  split
  · rename_i hcompr
    obtain ⟨h0, hs⟩ := hcompr
    obtain ⟨k, hk⟩ : ∃ k, k = min (c :: s).length raxNodeMaxSize := ⟨_, rfl⟩
    have hpos : 0 < s.length := length_pos_iff.mpr hs
    have hk2 : 1 < k ∧ k ≤ s.length + 1 := by
      rw [length_cons, raxNodeMaxSize] at hk
      omega
    obtain ⟨child, nodes, hchild, hb⟩ := ih ((c :: s).drop k) (by
      rw [length_drop, length_cons]
      omega)
    obtain ⟨n, hn, hbuilt⟩ := raxCompressNode_built (s := (c :: s).take k) hw hi h0
      (by rw [length_take]; omega) hb
    refine ⟨n, nodes + 1, ?_, ?_⟩
    · simp only [← hk, hchild, bind_ok, hn]
    have hkey : under ((c :: s).take k) [((c :: s).drop k, data)] = [(c :: s, data)] := by
      rw [under, map_singleton, take_append_drop]
    rwa [hkey] at hbuilt
  · obtain ⟨child, nodes, hchild, hb⟩ := ih s hr
    obtain ⟨n, hn, hbuilt⟩ := raxAddChild_built hw hi hc hb
    refine ⟨n, nodes + 1, ?_, hbuilt⟩
    simp only [hchild, bind_ok, hn]

lemma insertLoop_new (data : Option V) : ∀ (rounds : Nat) (s : Bytes), s.length ≤ rounds →
    ∃ n nodes, insertLoop data rounds raxNewNode s = .ok (n, nodes, 1) ∧
      Built n (nodes + 1) [(s, data)]
  | rounds, [], _ => by
    refine ⟨raxSetData raxNewNode data, 0, by rw [insertLoop]; rfl, wf_raxSetData wf_raxNewNode data,
      fun _ => raxSetData_iskey .., ?_, ?_⟩
    · rw [nodes_raxSetData]; rfl
    · rw [entries_raxSetData]; exact .refl _
  | rounds + 1, c :: s, hr => by
    obtain ⟨n, nodes, hrun, hb⟩ := insertLoop_round data wf_raxNewNode rfl
      nofun (Nat.le_of_succ_le_succ hr) fun s' hs' => insertLoop_new data rounds s' hs'
    refine ⟨n, nodes, hrun, hb.wf, hb.settled, ?_, hb.entries⟩
    rw [hb.nodes, add_comm]
    rfl

lemma insertLoop_built (data : Option V) (s : Bytes)
    (hw : WellFormed h) (hi : h.iscompr = false) (hc : c ∉ h.data) :
    ∃ n nodes, insertLoop data (c :: s).length h (c :: s) = .ok (n, nodes, 1) ∧
      Built n (h.nodes + nodes) ((c :: s, data) :: Entries.entries h) :=
  insertLoop_round data hw hi hc le_rfl fun s' hs' => insertLoop_new data s.length s' hs'

/-! ## Splitting a compressed node -/

/-- A compressed node seen as its string and its child. -/
lemma compressed_cases (hw : WellFormed h) (hc : h.iscompr = true) :
    ∃ next, h.children = [next] ∧ WellFormed next ∧ Settled next ∧ h.nodes = next.nodes + 1 ∧
      Entries.entries h = own h ++ under h.data (Entries.entries next) ∧ lastChild h = .ok next := by
  obtain ⟨next, hn⟩ := length_eq_one_iff.mp (hw.shape.compr hc).1
  have hmem : next ∈ h.children := by rw [hn]; exact mem_singleton.mpr rfl
  refine ⟨next, hn, hw.child hmem, hw.settled hmem, ?_, ?_, ?_⟩
  · rw [nodes_eq, hn, nodesAll, nodesAll]
    omega
  · rw [entries_eq, labels, if_pos hc, hn, entriesAll_singleton]
  rw [lastChild, hn]
  rfl

lemma trimmedNode_built (hj0 : j ≠ 0) (hj : j ≤ h.size) (hb : Built child k es) :
    Built (trimmedNode h j child) (k + 1) (own h ++ under (h.data.take j) es) := by
  have hlen : (h.data.take j).length = j := length_take_of_le hj
  have hne : h.data.take j ≠ [] := by
    intro hnil
    rw [hnil] at hlen
    exact hj0 hlen.symm
  have hfields : (trimmedNode h j child).data = h.data.take j ∧
      (trimmedNode h j child).children = [child] ∧
      (trimmedNode h j child).iscompr = decide (1 < j) ∧ own (trimmedNode h j child) = own h := by
    unfold trimmedNode
    split
    · rename_i hk
      simp [own, hk.1]
    · exact ⟨rfl, rfl, rfl, rfl⟩
  obtain ⟨hd, hc, hi, hown⟩ := hfields
  rw [← hown]
  exact single_built hd hc (by rw [hi, hlen]) hne hb

lemma tail_built {next : RaxNode V} (hw : WellFormed next) (hs : Settled next) (s : Bytes) :
    Built (if s.length ≠ 0 then postfixNode s next else next)
      (next.nodes + if s.length ≠ 0 then 1 else 0) (under s (Entries.entries next)) := by
  split
  · rename_i hne
    exact postfixNode_built (ne_nil_of_length_pos (Nat.pos_of_ne_zero hne)) (built_self hw hs)
  rename_i he
  rw [length_eq_zero_iff.mp (Decidable.not_not.mp he), under_empty]
  exact built_self hw hs

lemma splitMismatch_built (data : Option V)
    (hw : WellFormed h) (hc : h.iscompr = true) (hj : j < h.size) (hd : h.data[j]? ≠ some c) :
    ∃ n nodes, splitMismatch h j (c :: s) data = .ok (n, nodes, 1) ∧
      Built n (h.nodes + nodes) ((h.data.take j ++ c :: s, data) :: Entries.entries h) := by
  obtain ⟨next, _, hnw, hns, hnodes, hentries, hlast⟩ := compressed_cases hw hc
  obtain ⟨d, hdj⟩ : ∃ d, h.data[j]? = some d := ⟨_, getElem?_eq_getElem hj⟩
  have hdata : h.data = h.data.take j ++ d :: h.data.drop (j + 1) := by
    obtain ⟨hlt, rfl⟩ := List.getElem?_eq_some_iff.mp hdj
    rw [getElem_cons_drop, take_append_drop]
  obtain ⟨tail, htail⟩ : ∃ tail, tail = h.data.drop (j + 1) := ⟨_, rfl⟩
  rw [← htail] at hdata
  obtain ⟨t, ht⟩ : ∃ t, t = if tail.length ≠ 0 then 1 else 0 := ⟨_, rfl⟩
  obtain ⟨child, hchild⟩ : ∃ child, child = if tail.length ≠ 0 then postfixNode tail next else next :=
    ⟨_, rfl⟩
  have hcb : Built child (next.nodes + t) (under tail (Entries.entries next)) := by
    rw [hchild, ht]
    exact tail_built hnw hns tail
  -- the split node carries the value of a node split at its first byte
  obtain ⟨split, hsplit⟩ : ∃ split, split = if j = 0 ∧ h.iskey then
    raxSetData (postfixNode [d] child) (raxGetData h) else postfixNode [d] child := ⟨_, rfl⟩
  have hfields : split.data = [d] ∧ split.children = [child] ∧ split.iscompr = false ∧
      own split = if j = 0 then own h else [] := by
    rw [hsplit]
    by_cases hk : j = 0 ∧ h.iskey = true
    · simp [postfixNode, own, hk]
    rw [if_neg hk]
    refine ⟨rfl, rfl, rfl, (if_neg Bool.false_ne_true).trans ?_⟩
    split
    · rename_i h0
      rw [own, if_neg fun hkey => hk ⟨h0, hkey⟩]
    · rfl
  obtain ⟨hsd, hsc, hsi, hown⟩ := hfields
  have hsb := single_built hsd hsc hsi (cons_ne_nil d []) hcb
  have hse := hsb.entries
  have hsn : split.nodes = h.nodes + t := by
    rw [hsb.nodes]
    omega
  rw [hown] at hse
  have hcd : c ∉ split.data := by
    rw [hsd, mem_singleton]
    intro he
    rw [he] at hd
    exact hd hdj
  obtain ⟨sub, nodes, hrun, hb⟩ := insertLoop_built data s hsb.wf hsi hcd
  have hstart : splitMismatch h j (c :: s) data =
      if j = 0 then .ok (sub, nodes + t, 1) else .ok (trimmedNode h j sub, nodes + t + 1, 1) := by
    simp only [splitMismatch, hlast, bind_ok, load_eq_ok.mpr hdj, ← htail, ← hchild, ← hsplit,
      hrun, ← ht]
  have hunder : under (h.data.take j) (under [d] (under tail (Entries.entries next))) =
      under h.data (Entries.entries next) := by
    rw [under_under, under_under, append_assoc, singleton_append, ← hdata]
  by_cases h0 : j = 0
  · refine ⟨sub, nodes + t, by rw [hstart, if_pos h0], hb.wf, hb.settled, ?_, ?_⟩
    · rw [hb.nodes]
      omega
    rw [if_pos h0] at hse
    subst h0
    rw [take_zero, under_empty] at hunder
    rw [hunder, ← hentries] at hse
    exact hb.entries.trans (hse.cons _)
  have hbt := trimmedNode_built h0 hj.le hb
  refine ⟨trimmedNode h j sub, nodes + t + 1, by rw [hstart, if_neg h0], hbt.wf, hbt.settled, ?_, ?_⟩
  · rw [hbt.nodes]
    omega
  rw [if_neg h0, nil_append] at hse
  refine hbt.entries.trans ?_
  have hmap := (hse.map fun e => (h.data.take j ++ e.1, e.2)).cons (h.data.take j ++ c :: s, data)
  refine ((List.Perm.append_left (own h) hmap).trans ?_)
  rw [show List.map (fun e : Entry V => (h.data.take j ++ e.1, e.2))
    (under [d] (under tail (Entries.entries next))) = _ from hunder, hentries]
  exact perm_middle

lemma splitAtEnd_built (data : Option V) (hw : WellFormed h)
    (hc : h.iscompr = true) (hj0 : j ≠ 0) (hj : j < h.size) :
    ∃ n, splitAtEnd h j data = .ok (n, 1, 1) ∧
      Built n (h.nodes + 1) ((h.data.take j, data) :: Entries.entries h) := by
  obtain ⟨next, _, hnw, hns, hnodes, hentries, hlast⟩ := compressed_cases hw hc
  have hdrop : h.data.drop j ≠ [] := fun hnil => by
    have hl := length_drop (i := j) (l := h.data)
    rw [hnil, length_nil] at hl
    unfold RaxNode.size at hj
    omega
  have hlen : (h.data.take j).length = j := length_take_of_le hj.le
  have htake : h.data.take j ≠ [] := fun hnil => by
    rw [hnil] at hlen
    exact hj0 hlen.symm
  obtain ⟨post, hpost⟩ : ∃ post, post = raxSetData (postfixNode (h.data.drop j) next) data := ⟨_, rfl⟩
  have hpb : Built post (next.nodes + 1)
      (([], data) :: under (h.data.drop j) (Entries.entries next)) := by
    have hb := @single_built V post (h.data.drop j) _ _ next (by simp [hpost, postfixNode])
      (by simp [hpost, postfixNode]) (by simp [hpost, postfixNode]) hdrop (built_self hnw hns)
    rwa [hpost, own_raxSetData, ← hpost] at hb
  obtain ⟨n, hn⟩ : ∃ n, n = if h.iskey then raxSetData (postfixNode (h.data.take j) post) (raxGetData h)
      else postfixNode (h.data.take j) post := ⟨_, rfl⟩
  have hown : own n = own h := by
    rw [hn]
    exact own_move h _ rfl
  have hfields : n.data = h.data.take j ∧ n.children = [post] ∧
      n.iscompr = decide (1 < (h.data.take j).length) := by
    rw [hn]
    split <;> simp [postfixNode]
  have hb := single_built hfields.1 hfields.2.1 hfields.2.2 htake hpb
  refine ⟨n, ?_, hb.wf, hb.settled, ?_, ?_⟩
  · simp only [splitAtEnd, hlast, bind_ok, ← hpost, ← hn]
  · rw [hb.nodes, hnodes]
  refine hb.entries.trans ?_
  have hsplit : under (h.data.take j) (([], data) :: under (h.data.drop j) (Entries.entries next)) =
      (h.data.take j, data) :: under h.data (Entries.entries next) := by
    rw [under, map_cons, ← under, under_under, take_append_drop, append_nil]
  rw [hsplit, hown, hentries]
  exact perm_middle

/-! ## The whole tree -/

/-- A walk that did not end at the node of the key adds the key below the node
it ended at. -/
lemma insertBelow_built {w : Walk V} (data : Option V) (hw : WellFormed w.stop)
    (hstop : Stop w.stop r w.rest w.splitpos) (hr : r ≠ []) :
    ∃ n nodes, insertBelow w data = .ok (n, nodes, 1) ∧
      Built n (w.stop.nodes + nodes) ((r, data) :: Entries.entries w.stop) := by
  unfold insertBelow
  generalize w.rest = rest, w.splitpos = j at hstop
  have hleaf : w.stop.size = 0 → w.stop.iscompr = false := by
    intro h0
    cases hc : w.stop.iscompr with
    | false => rfl
    | true =>
      have := (hw.shape.compr hc).2
      omega
  cases hstop with
  | here => exact absurd rfl hr
  | leaf c s h0 =>
    have hc := hleaf h0
    rw [if_neg (by simp [hc]), if_neg (by simp [hc])]
    refine insertLoop_built data s hw hc fun hm => ?_
    rw [length_eq_zero_iff.mp h0] at hm
    cases hm
  | inside hc hj hne hd =>
    cases rest with
    | nil =>
      rw [if_neg (by simp), if_pos hc, append_nil]
      obtain ⟨n, hrun, hb⟩ := splitAtEnd_built data hw hc (hne rfl) hj
      exact ⟨n, 1, hrun, hb⟩
    | cons c s =>
      rw [if_pos ⟨hc, cons_ne_nil _ _⟩]
      exact splitMismatch_built data hw hc hj (hd c rfl)
  | missing c s hc h0 hn =>
    rw [if_neg (by simp [hc]), if_neg (by simp [hc])]
    exact insertLoop_built data s hw hc hn

/-- The tree is well formed and the counters are exact. -/
structure RaxOk (t : Rax V) : Prop where
  wf : WellFormed t.head
  numele : t.numele = (Entries.entries t.head).length
  numnodes : t.numnodes = t.head.nodes

lemma raxOk_new : RaxOk (raxNew : Rax V) := ⟨wf_raxNewNode, rfl, rfl⟩

lemma plug_perm {head m : RaxNode V} (hp : OnPath head path n) (hw : WellFormed head) {v : Option V}
    (hm : (Entries.entries m).Perm ((r, v) :: Entries.entries n)) :
    (Entries.entries (plug path m)).Perm ((pathKey path ++ r, v) :: Entries.entries head) := by
  have hok := hp.ok hw
  have hhead := hp.plug_eq
  rw [← hhead, plug_entries hok, plug_entries hok]
  have hmap : (under (pathKey path) (Entries.entries m)).Perm
      ((pathKey path ++ r, v) :: under (pathKey path) (Entries.entries n)) := hm.map _
  exact ((hmap.append_right _).append_left _).trans perm_middle

lemma raxFind_spec (hok : RaxOk t) (s : Bytes) :
    (∃ v, (s, v) ∈ Entries.entries t.head ∧ raxFind t s = .ok (some v)) ∨
      ((∀ v, (s, v) ∉ Entries.entries t.head) ∧ raxFind t s = .ok none) := by
  obtain ⟨w, r, hwalk, hp, hs, hstop⟩ := raxLowWalk_spec hok.wf s
  have hat := hstop.atNode_iff
  unfold raxFind
  rw [hwalk, hs]
  by_cases hk : w.atNode ∧ w.stop.iskey = true
  · have hr := hat.mp hk.1
    subst hr
    refine .inl ⟨raxGetData w.stop, (hp.mem_iff hok.wf).mpr ?_, if_pos hk⟩
    rw [entries_eq, own, if_pos hk.2]
    exact mem_cons_self ..
  · exact .inr ⟨hstop.absent hp hok.wf hk, if_neg hk⟩

lemma raxOk_plug (hok : RaxOk t) {m : RaxNode V} {v : Option V} (hp : OnPath t.head path n)
    (hb : Built m (n.nodes + k) ((r, v) :: Entries.entries n)) :
    RaxOk ⟨plug path m, t.numele + 1, t.numnodes + k⟩ := by
  have hperm := plug_perm hp hok.wf hb.entries
  refine ⟨plug_wf (hp.frames hok.wf) hb.wf fun _ => hb.settled, ?_, ?_⟩
  · rw [hperm.length_eq, length_cons, hok.numele]
  have hold := plug_nodes (hp.ok hok.wf) n
  rw [hp.plug_eq] at hold
  rw [hok.numnodes, hold, plug_nodes (hp.ok hok.wf), hb.nodes, add_assoc]

lemma raxOk_update (hok : RaxOk t)
    (hp : OnPath t.head path n) (hk : n.iskey = true) (data : Option V) :
    ∃ a b, Entries.entries t.head = a ++ (pathKey path, raxGetData n) :: b ∧
      Entries.entries (plug path (raxSetData n data)) = a ++ (pathKey path, data) :: b ∧
      RaxOk { t with head := plug path (raxSetData n data) } := by
  have hfr := hp.ok hok.wf
  have hold := plug_entries hfr n
  rw [hp.plug_eq, entries_eq n, own, if_pos hk] at hold
  have hnew := plug_entries hfr (raxSetData n data)
  rw [entries_raxSetData] at hnew
  simp only [nil_append, under, map_cons, append_nil, cons_append] at hold hnew
  refine ⟨_, _, hold, hnew, plug_wf (hp.frames hok.wf) (wf_raxSetData (hp.wf hok.wf) data)
    fun _ _ => raxSetData_iskey .., ?_, ?_⟩
  · have hlen := hok.numele
    rw [hold] at hlen
    rw [hnew, hlen]
    simp only [length_append, length_cons]
  have hn := plug_nodes hfr n
  rw [hp.plug_eq] at hn
  rw [hok.numnodes, hn, plug_nodes hfr, nodes_raxSetData]

lemma raxGenericInsert_spec (hok : RaxOk t) (s : Bytes) (data : Option V) (overwrite : Bool) :
    (∃ a b old t', Entries.entries t.head = a ++ (s, old) :: b ∧
      raxGenericInsert t s data overwrite = .ok (t', false, some old) ∧ RaxOk t' ∧
      Entries.entries t'.head = a ++ (s, if overwrite then data else old) :: b) ∨
    ((∀ v, (s, v) ∉ Entries.entries t.head) ∧ ∃ t',
      raxGenericInsert t s data overwrite = .ok (t', true, none) ∧ RaxOk t' ∧
      (Entries.entries t'.head).Perm ((s, data) :: Entries.entries t.head)) := by
  obtain ⟨w, r, hwalk, hp, hkey, hstop⟩ := raxLowWalk_spec hok.wf s
  have hat := hstop.atNode_iff
  have hw := hp.wf hok.wf
  unfold raxGenericInsert
  rw [hwalk, bind_ok]
  by_cases hr : r = []
  · subst hr
    rw [append_nil] at hkey
    rw [if_pos (hat.mpr rfl)]
    cases hk : w.stop.iskey with
    | true =>
      obtain ⟨a, b, hold, hnew, hok'⟩ := raxOk_update hok hp hk data
      rw [← hkey] at hold hnew
      cases overwrite with
      | true => exact .inl ⟨a, b, _, _, hold, rfl, hok', hnew⟩
      | false =>
        refine .inl ⟨a, b, _, { t with head := plug w.path w.stop }, hold, rfl, ?_, ?_⟩
        · rw [hp.plug_eq]
          exact hok
        rw [hp.plug_eq]
        exact hold
    | false =>
      have hb : Built (raxSetData w.stop data) (w.stop.nodes + 0) (([], data) :: Entries.entries w.stop) := by
        refine ⟨wf_raxSetData hw data, fun _ => raxSetData_iskey .., nodes_raxSetData .., ?_⟩
        rw [entries_raxSetData, entries_eq, own_unkeyed hk]
        exact .refl _
      refine .inr ⟨fun v hv => ?_, _, rfl, raxOk_plug hok hp hb, ?_⟩
      · rw [hkey, ← append_nil (pathKey w.path)] at hv
        exact hstop.not_mem hw.shape (.inr hk) v ((hp.mem_iff hok.wf).mp hv)
      have hperm := plug_perm hp hok.wf hb.entries
      rwa [append_nil, ← hkey] at hperm
  · rw [if_neg fun h => hr (hat.mp h)]
    obtain ⟨n, nodes, hrun, hb⟩ := insertBelow_built data hw hstop hr
    rw [hrun]
    refine .inr ⟨fun v hv => ?_, _, rfl, raxOk_plug hok hp hb, ?_⟩
    · rw [hkey] at hv
      exact hstop.not_mem hw.shape (.inl hr) v ((hp.mem_iff hok.wf).mp hv)
    have hperm := plug_perm hp hok.wf hb.entries
    rwa [← hkey] at hperm

end Redis.RadixTree.Insertion
