import Redis.RadixTree.Insertion

/-! # Removal

`raxRemove` takes the key away, frees the nodes that led only to it, and then
joins a chain of nodes with one child each into one compressed node. Only the
first step changes the entries. -/
namespace Redis.RadixTree.Removal
open List Lib Outcome Model Entries Paths
open Insertion

variable {V : Type} {n : RaxNode V} {f : Frame V} {head c : RaxNode V}

/-! ## Nodes inside a chain -/

lemma children_of_inner (hs : Shape n) (h : ¬ n.endsChain) :
    n.iskey = false ∧ n.children.length = 1 := by
  refine ⟨Bool.not_eq_true _ ▸ fun hk => h (.inl hk), ?_⟩
  cases hc : n.iscompr with
  | true => exact (hs.compr hc).1
  | false =>
    rw [← (hs.normal hc).1]
    exact Decidable.byContradiction fun hne => h (.inr ⟨hc, hne⟩)

lemma inner_frame (hok : FrameOk f) (h : ¬ f.node.endsChain) :
    left f = [] ∧ right f = [] ∧ others f = 1 := by
  obtain ⟨hk, hlen⟩ := children_of_inner hok.shape h
  have h0 : f.idx = 0 := by
    have := hok.idx_lt
    omega
  have hdrop : f.node.children.drop 1 = [] := drop_of_length_le (by omega)
  refine ⟨?_, ?_, ?_⟩
  · rw [left, h0, take_zero, own_unkeyed hk]
    rfl
  · rw [right, drop_of_length_le (by rw [hok.shape.length_labels]; omega), entriesAll_nil]
  · rw [others, h0, hdrop, take_zero, nodesAll]

/-! ## Freeing nodes -/

lemma unlinkLoop_spec (hw : WellFormed head) :
    ∀ {path : List (Frame V)} {f : Frame V} (freed : Nat), FrameOk f → OnPath head path f.node →
      ∃ g path' freed', unlinkLoop f path freed = (g, path', freed') ∧ FrameOk g ∧
        OnPath head path' g.node ∧ before (g :: path') = before (f :: path) ∧
        after (g :: path') = after (f :: path) ∧
        pathNodes (f :: path) + freed = pathNodes (g :: path') + freed' ∧
        (path' ≠ [] → g.node.endsChain)
  | [], f, freed, hok, hp =>
    ⟨f, [], freed, rfl, hok, hp, rfl, rfl, rfl, fun h => absurd rfl h⟩
  | g :: path, f, freed, hok, hp => by
    rw [unlinkLoop]
    split
    · rename_i hend
      exact ⟨f, g :: path, freed, rfl, hok, hp, rfl, rfl, rfl, fun _ => hend⟩
    rename_i hinner
    obtain ⟨hl, hr, hn⟩ := inner_frame hok hinner
    obtain ⟨hgok, hgp⟩ : FrameOk g ∧ OnPath head path g.node := by
      refine ⟨(hp.frames hw g mem_cons_self).1, ?_⟩
      cases hp with
      | child hp _ => exact hp
    obtain ⟨e, path', freed', hrun, heok, hep, hbef, haft, hnodes, hend⟩ :=
      unlinkLoop_spec hw (freed + 1) hgok hgp
    refine ⟨e, path', freed', hrun, heok, hep, ?_, ?_, ?_, hend⟩
    · rw [hbef, before, before, hl, under_nil, append_nil]
      rfl
    · rw [haft, Paths.after, Paths.after, hr, under_nil]
      rfl
    rw [pathNodes]
    omega

/-- A node of either kind ends up normal, without the child and its label. -/
lemma raxRemoveChild_fields (hok : FrameOk f) :
    (raxRemoveChild f).iscompr = false ∧ (raxRemoveChild f).data.Pairwise (· < ·) ∧
      labels (raxRemoveChild f) = (labels f.node).eraseIdx f.idx ∧
      (raxRemoveChild f).children = f.node.children.eraseIdx f.idx ∧
      own (raxRemoveChild f) = own f.node ∧ (raxRemoveChild f).iskey = f.node.iskey := by
  cases hc : f.node.iscompr with
  | true =>
    obtain ⟨c, hone⟩ := length_eq_one_iff.mp (hok.shape.compr hc).1
    have h0 : f.idx = 0 := by
      have := hok.idx_lt
      rw [hone, length_singleton] at this
      omega
    cases hk : f.node.iskey with
    | true | false => simp [raxRemoveChild, labels, own, hc, hk, hone, h0]
  | false =>
    simp only [raxRemoveChild, labels, hc, Bool.false_eq_true, if_false]
    refine ⟨trivial, (hok.shape.normal hc).2.sublist (eraseIdx_sublist ..), ?_, trivial, rfl, trivial⟩
    rw [eraseIdx_eq_take_drop_succ, eraseIdx_eq_take_drop_succ, map_append, map_take, map_drop]

lemma raxRemoveChild_spec (hok : FrameOk f) (hw : WellFormed f.node) :
    WellFormed (raxRemoveChild f) ∧ (raxRemoveChild f).nodes = others f ∧
      entries (raxRemoveChild f) = left f ++ right f ∧
      (f.node.endsChain → Settled (raxRemoveChild f)) := by
  obtain ⟨hnc, hsorted, hlabels, hnch, hown, hkey⟩ := raxRemoveChild_fields hok
  have hlen := hok.shape.length_labels
  have hlt := hok.idx_lt
  have hsize : (raxRemoveChild f).size = f.node.children.length - 1 := by
    have hmap : (raxRemoveChild f).size = (labels (raxRemoveChild f)).length := by
      rw [labels, if_neg (by rw [hnc]; decide), length_map, RaxNode.size]
    rw [hmap, hlabels, length_eraseIdx, if_pos (hlen ▸ hlt), hlen]
  refine ⟨.node ⟨fun h => ?_, fun _ => ⟨?_, hsorted⟩⟩ (fun c hm => ?_) fun c hm => ?_, ?_, ?_,
    fun hend h0 => ?_⟩
  · rw [hnc] at h; cases h
  · rw [hsize, hnch, length_eraseIdx, if_pos hlt]
  · rw [hnch] at hm
    exact hw.child (mem_of_mem_eraseIdx hm)
  · rw [hnch] at hm
    exact hw.settled (mem_of_mem_eraseIdx hm)
  · rw [nodes_eq, hnch, eraseIdx_eq_take_drop_succ, nodesAll_append, others, add_assoc]
  · rw [entries_eq, hown, hlabels, hnch, eraseIdx_eq_take_drop_succ, eraseIdx_eq_take_drop_succ,
      entriesAll_append, left, right, append_assoc]
    rw [length_take, length_take, hlen]
  · -- a node that is no key and loses its last child was inside a chain
    rw [hkey]
    rcases hend with hk | ⟨hnorm, hne⟩
    · exact hk
    · have := (hok.shape.normal hnorm).1
      omega

/-! ## Chains -/

/-- From a node down through children that do not end the chain: the bytes on
the way, the number of nodes and the node that ends it. -/
inductive Chain : RaxNode V → Bytes → Nat → RaxNode V → Prop
  | last {n c : RaxNode V} : n.children = [c] → c.endsChain → Chain n n.data 1 c
  | step {n c l : RaxNode V} {s : Bytes} {k : Nat} : n.children = [c] → ¬ c.endsChain →
      Chain c s k l → Chain n (n.data ++ s) (k + 1) l

lemma mem_single (hc : n.children = [c]) : c ∈ n.children := hc ▸ mem_singleton_self c

lemma exists_chain (hw : WellFormed n) (h1 : n.children.length = 1) : ∃ s k l, Chain n s k l := by
  induction hw with
  | @node n _ hchildren _ ih =>
    obtain ⟨c, hc⟩ := length_eq_one_iff.mp h1
    have hmem := mem_single hc
    by_cases hend : c.endsChain
    · exact ⟨_, _, _, .last hc hend⟩
    obtain ⟨s, k, l, hchain⟩ := ih c hmem (children_of_inner (hchildren c hmem).shape hend).2
    exact ⟨_, _, _, .step hc hend hchain⟩

lemma labels_of_single (hs : Shape n) (hc : n.children = [c]) : labels n = [n.data] := by
  cases hi : n.iscompr with
  | true => rw [labels, if_pos hi]
  | false =>
    have hlen := (hs.normal hi).1
    rw [hc] at hlen
    obtain ⟨b, hb⟩ := length_eq_one_iff.mp hlen
    rw [labels, if_neg (by rw [hi]; decide), hb]
    rfl

lemma entries_of_single (hs : Shape n) (hc : n.children = [c]) :
    entries n = own n ++ under n.data (entries c) := by
  rw [entries_eq, labels_of_single hs hc, hc, entriesAll_singleton]

/-- What a chain says about the tree. -/
structure ChainFacts (n : RaxNode V) (s : Bytes) (k : Nat) (l : RaxNode V) : Prop where
  entries : entries n = own n ++ under s (Entries.entries l)
  nodes : n.nodes = k + l.nodes
  wf : WellFormed l
  settled : Settled l
  pos : 0 < n.size
  one_le : 1 ≤ k
  le : n.size + k ≤ s.length + 1

variable {s : Bytes} {k : Nat} {l : RaxNode V} {path : List (Frame V)} {h : RaxNode V} {t : Rax V}

lemma Chain.facts (h : Chain n s k l) (hw : WellFormed n) : ChainFacts n s k l := by
  have hsize : ∀ {m c : RaxNode V}, WellFormed m → m.children = [c] → 0 < m.size := by
    intro m c hm hc
    refine Nat.pos_of_ne_zero fun h0 => ?_
    rw [hm.shape.size_eq_zero.mp h0] at hc
    cases hc
  induction h with
  | @last n c hc _ =>
    have hmem := mem_single hc
    refine ⟨entries_of_single hw.shape hc, ?_, hw.child hmem, hw.settled hmem, hsize hw hc, le_rfl,
      le_rfl⟩
    rw [nodes_eq, hc, nodesAll, nodesAll, add_zero]
  | @step n c l s k hc hinner _ ih =>
    have hmem := mem_single hc
    have hf := ih (hw.child hmem)
    have hown := own_unkeyed (children_of_inner (hw.child hmem).shape hinner).1
    refine ⟨?_, ?_, hf.wf, hf.settled, hsize hw hc, Nat.le_add_left .., ?_⟩
    · rw [entries_of_single hw.shape hc, hf.entries, hown, nil_append, under_under]
    · rw [nodes_eq, hc, nodesAll, nodesAll, hf.nodes]
      omega
    have h1 := hf.le
    have h2 := hf.pos
    rw [length_append]
    unfold RaxNode.size at *
    omega

lemma lastChild_single (hc : n.children = [c]) : lastChild n = .ok c := by
  rw [lastChild, hc]
  rfl

/-- The first scan sees the whole chain, unless the next node would exceed the
size limit. -/
lemma chainMeasure_spec (h : Chain n s k l)
    (hw : WellFormed n) : ∀ (rounds comprsize nodes : Nat), k ≤ rounds →
      (chainMeasure rounds n comprsize nodes = .ok (comprsize + s.length - n.size, nodes + k - 1) ∧
        (s.length = n.size ∨ comprsize + s.length ≤ raxNodeMaxSize + n.size)) ∨
      raxNodeMaxSize + n.size < comprsize + s.length ∧
        ∃ c m, chainMeasure rounds n comprsize nodes = .ok (c, m) ∧
          c + n.size < comprsize + s.length ∧ nodes ≤ m := by
  induction h with
  | @last n c hc hend =>
    intro rounds comprsize nodes hr
    have hpos := ((Chain.last hc hend).facts hw).pos
    obtain ⟨rounds, rfl⟩ := Nat.exists_eq_succ_of_ne_zero (Nat.ne_of_gt hr)
    refine .inl ⟨?_, .inl rfl⟩
    rw [chainMeasure, if_neg (Nat.ne_of_gt hpos), lastChild_single hc, bind_ok, if_pos hend,
      RaxNode.size, Nat.add_sub_cancel, Nat.add_sub_cancel]
  | @step n c l s k hc hinner hchain ih =>
    intro rounds comprsize nodes hr
    have hmem := mem_single hc
    have hf := hchain.facts (hw.child hmem)
    have hpos := ((Chain.step hc hinner hchain).facts hw).pos
    have hle : c.size ≤ s.length := by
      have h1 := hf.le
      have h2 := hf.one_le
      omega
    have hn : n.size = n.data.length := rfl
    obtain ⟨rounds, rfl⟩ := Nat.exists_eq_succ_of_ne_zero (n := rounds) (by omega)
    rw [chainMeasure, if_neg (Nat.ne_of_gt hpos), lastChild_single hc, bind_ok,
      if_neg hinner, length_append]
    by_cases hroom : raxNodeMaxSize < comprsize + c.size
    · have hcpos := hf.pos
      exact .inr ⟨by omega, comprsize, nodes, if_pos hroom, by omega, le_rfl⟩
    rw [if_neg hroom]
    rcases ih (hw.child hmem) rounds (comprsize + c.size) (nodes + 1) (by omega) with
      ⟨hrun, hfits⟩ | ⟨hlong, c', m, hrun, hlt, hm⟩
    · refine .inl ⟨?_, by omega⟩
      rw [hrun]
      congr 2 <;> omega
    · exact .inr ⟨by omega, c', m, hrun, by omega, by omega⟩

/-- The second scan does not look at the limit: it overruns a new node that is too small. -/
lemma chainCopy_eq (h : Chain n s k l)
    (hw : WellFormed n) (room : Nat) : ∀ (rounds : Nat) (copied : Bytes) (freed : Nat), k ≤ rounds →
      chainCopy room rounds n copied freed = if room < copied.length + s.length then .error .bounds
        else .ok (copied ++ s, l, freed + k) := by
  induction h with
  | @last n c hc hend =>
    intro rounds copied freed hr
    have hpos := ((Chain.last hc hend).facts hw).pos
    obtain ⟨rounds, rfl⟩ := Nat.exists_eq_succ_of_ne_zero (Nat.ne_of_gt hr)
    rw [chainCopy, if_neg (Nat.ne_of_gt hpos), lastChild_single hc, bind_ok, if_pos hend]
    rfl
  | @step n c l s k hc hinner hchain ih =>
    intro rounds copied freed hr
    have hmem := mem_single hc
    have hpos := ((Chain.step hc hinner hchain).facts hw).pos
    obtain ⟨rounds, rfl⟩ := Nat.exists_eq_succ_of_ne_zero (n := rounds) (by omega)
    rw [chainCopy, if_neg (Nat.ne_of_gt hpos), lastChild_single hc, bind_ok, ih (hw.child hmem) rounds (copied ++ n.data) (freed + 1) (by omega), append_assoc,
      length_append, length_append, add_assoc, add_assoc, add_comm 1 k]
    split
    · rename_i hover
      have hlong : room < copied.length + (n.data.length + s.length) :=
        hover.trans_le (Nat.add_le_add_left (Nat.le_add_right ..) _)
      rw [if_pos hlong]
    · rfl

/-! ## Recompression -/

structure Single (n : RaxNode V) : Prop where
  wf : WellFormed n
  notKey : n.iskey = false
  one : n.children.length = 1

lemma Single.settled (h : Single n) : Settled n := by
  intro h0
  have h1 := h.one
  rw [h.wf.shape.size_eq_zero.mp h0] at h1
  cases h1

lemma climb_spec : ∀ {path : List (Frame V)} {h : RaxNode V}, Single h →
    (∀ f ∈ path, FrameOk f ∧ WellFormed f.node) → ∃ start path', climb h path = (start, path') ∧
      Single start ∧ (∀ f ∈ path', FrameOk f ∧ WellFormed f.node) ∧ plug path' start = plug path h
  | [], h, hs, hp => ⟨h, [], rfl, hs, hp, rfl⟩
  | f :: path, h, hs, hp => by
    rw [climb]
    split
    · exact ⟨h, f :: path, rfl, hs, hp, rfl⟩
    rename_i hinner
    obtain ⟨hok, hw⟩ := hp f mem_cons_self
    obtain ⟨hk, hlen⟩ := children_of_inner hok.shape hinner
    refine climb_spec ⟨fill_wf hok hw hs.wf hs.settled, hk, ?_⟩ (forall_mem_cons.mp hp).2
    rw [Frame.fill, length_set]
    exact hlen

/-- Recompression keeps the entries, and the node counter exact. In a tree
with a key that reaches the node size limit it may instead write past the node
it allocated. -/
lemma recompress_spec (hs : Single h) (hp : ∀ f ∈ path, FrameOk f ∧ WellFormed f.node) :
    (∃ head, recompress h path (plug path h).nodes = .ok (head, head.nodes) ∧ WellFormed head ∧
      (entries head).Perm (entries (plug path h))) ∨
    (recompress h path (plug path h).nodes = .error .bounds ∧
      ∃ e ∈ entries (plug path h), raxNodeMaxSize ≤ e.1.length) := by
  obtain ⟨start, path', hclimb, hstart, hp', hplug⟩ := climb_spec hs hp
  have hok : ∀ f ∈ path', FrameOk f := fun f hf => (hp' f hf).1
  obtain ⟨s, k, l, hchain⟩ := exists_chain hstart.wf hstart.one
  have hf := hchain.facts hstart.wf
  have hentries : entries start = under s (entries l) := by
    rw [hf.entries, own_unkeyed hstart.notKey, nil_append]
  have hrounds : k ≤ start.nodes := by rw [hf.nodes]; omega
  have hkeep : ∃ head, .ok (plug path' start, (plug path h).nodes) =
      (.ok (head, head.nodes) : Outcome _) ∧ WellFormed head ∧
      (entries head).Perm (entries (plug path h)) :=
    ⟨_, by rw [hplug], plug_wf hp' hstart.wf fun _ => hstart.settled, by rw [hplug]⟩
  unfold recompress
  rw [hclimb]
  dsimp only
  rcases chainMeasure_spec hchain hstart.wf start.nodes start.size 1 hrounds with
    ⟨hmeasure, -⟩ | ⟨hlong, c, m, hmeasure, hlt, -⟩
  · rw [hmeasure, bind_ok]
    split
    · rw [chainCopy_eq hchain hstart.wf _ _ [] 0 hrounds, if_neg (by simp), bind_ok]
      have hs1 : 1 < s.length := by
        have := hf.le
        have := hf.pos
        omega
      have hb : Built ⟨false, false, none, true, s, [l]⟩ (l.nodes + 1) (under s (entries l)) :=
        single_built rfl rfl (decide_eq_true hs1).symm
          (ne_nil_of_length_pos (Nat.lt_trans Nat.zero_lt_one hs1)) (built_self hf.wf hf.settled)
      refine .inl ⟨_, ?_, plug_wf hp' hb.wf fun _ => hb.settled, ?_⟩
      · dsimp only
        rw [plug_nodes hok, hb.nodes, ← hplug, plug_nodes hok, hf.nodes]
        congr 2
        omega
      rw [← hplug, plug_entries hok, plug_entries hok, hentries]
      exact ((hb.entries.map _).append_right _).append_left _
    · exact .inl hkeep
  rw [hmeasure, bind_ok]
  split
  · rw [chainCopy_eq hchain hstart.wf c _ [] 0 hrounds, if_pos (by omega)]
    refine .inr ⟨rfl, ?_⟩
    -- the chain leads to a key, so its bytes are part of one
    obtain ⟨e, he⟩ := exists_mem_of_ne_nil _ (hf.wf.entries_ne_nil hf.settled)
    refine ⟨(pathKey path' ++ (s ++ e.1), e.2), ?_, ?_⟩
    · rw [← hplug, plug_entries hok, hentries]
      refine mem_append_right _ (mem_append_left _ ?_)
      exact mem_under.mpr ⟨(s ++ e.1, e.2), mem_under.mpr ⟨e, he, rfl⟩, rfl⟩
    simp only [length_append]
    omega
  · exact .inl hkeep

/-! ## The whole removal -/

lemma raxOk_removed (hok : RaxOk t) {e}
    (hw : WellFormed head) (hp : (entries t.head).Perm (e :: entries head)) :
    RaxOk ⟨head, t.numele - 1, head.nodes⟩ := by
  refine ⟨hw, ?_, rfl⟩
  rw [hok.numele, hp.length_eq, length_cons, Nat.add_sub_cancel]

lemma wf_unkeyed (hw : WellFormed h) : WellFormed { h with iskey := false } :=
  .node ⟨hw.shape.compr, hw.shape.normal⟩ (fun _ hc => hw.child hc) fun _ hc => hw.settled hc

lemma single_of_size (hw : WellFormed n) (h1 : n.size = 1) (hk : n.iskey = false) : Single n := by
  refine ⟨hw, hk, ?_⟩
  cases hc : n.iscompr with
  | true =>
    have := (hw.shape.compr hc).2
    omega
  | false => rw [← (hw.shape.normal hc).1, h1]

lemma unkey_perm (hw : WellFormed head) (hp : OnPath head path h) (hk : h.iskey = true) :
    (entries head).Perm
      ((pathKey path, raxGetData h) :: entries (plug path { h with iskey := false })) := by
  have hok := hp.ok hw
  have hold : entries h = ([], raxGetData h) :: entriesAll (labels h) h.children := by
    rw [entries_eq, own, if_pos hk]
    rfl
  have hnew : entries { h with iskey := false } = entriesAll (labels h) h.children := by
    rfl
  rw [← hp.plug_eq, plug_entries hok, plug_entries hok, hold, under, map_cons,
    append_nil]
  exact perm_middle

/-- Freeing the nodes that led only to the removed key. -/
lemma unlink_spec (hok : RaxOk t)
    (hp : OnPath t.head (f :: path) h) (hk : h.iskey = true) (h0 : h.size = 0) :
    ∃ g path' freed, unlinkLoop f path 1 = (g, path', freed) ∧ WellFormed (raxRemoveChild g) ∧
      (∀ e ∈ path', FrameOk e ∧ WellFormed e.node) ∧ WellFormed (plug path' (raxRemoveChild g)) ∧
      t.numnodes - freed = (plug path' (raxRemoveChild g)).nodes ∧
      (entries t.head).Perm ((pathKey (f :: path), raxGetData h) ::
        entries (plug path' (raxRemoveChild g))) := by
  have hfok := (hp.frames hok.wf f mem_cons_self).1
  have hfp : OnPath t.head path f.node := by
    cases hp with
    | child hp _ => exact hp
  obtain ⟨g, path', freed, hrun, hgok, hgp, hbef, haft, hnodes, hend⟩ :=
    unlinkLoop_spec hok.wf 1 hfok hfp
  obtain ⟨hnw, hnn, hne, hns⟩ := raxRemoveChild_spec hgok (hgp.wf hok.wf)
  have hshape := (hp.wf hok.wf).shape
  have hpok := hgp.ok hok.wf
  refine ⟨g, path', freed, hrun, hnw, hgp.frames hok.wf,
    plug_wf (hgp.frames hok.wf) hnw fun hpath => hns (hend hpath), ?_, ?_⟩
  · have hold := plug_nodes (hp.ok hok.wf) h
    have hleaf : h.nodes = 1 := by rw [nodes_eq, hshape.size_eq_zero.mp h0, nodesAll]
    rw [hp.plug_eq, ← hok.numnodes, hleaf, hnodes] at hold
    rw [hold, Nat.add_sub_cancel, plug_nodes hpok, hnn, pathNodes, add_comm]
  have hnew : entries (plug path' (raxRemoveChild g)) = before (f :: path) ++ after (f :: path) := by
    rw [plug_entries hpok, hne, ← hbef, ← haft, before, Paths.after, under_append]
    simp only [append_assoc]
  have hold : entries h = [([], raxGetData h)] := by
    rw [entries_of_leaf hshape h0, own, if_pos hk]
  rw [hnew, ← hp.plug_eq, plug_entries (hp.ok hok.wf), hold, under, map_singleton,
    append_nil]
  exact perm_middle

/-- How the removal of a key that is there ends. -/
def Removed (t : Rax V) (s : Bytes) (old : Option V)
    (r : Outcome (Rax V × Bool × Option (Option V))) : Prop :=
  (∃ t', r = .ok (t', true, some old) ∧ RaxOk t' ∧
    (entries t.head).Perm ((s, old) :: entries t'.head)) ∨
  (r = .error .bounds ∧ ∃ e ∈ entries t.head, raxNodeMaxSize ≤ e.1.length)

lemma raxRemove_spec (hok : RaxOk t) (s : Bytes) :
    (∃ old, (s, old) ∈ entries t.head ∧ Removed t s old (raxRemove t s)) ∨
    ((∀ v, (s, v) ∉ entries t.head) ∧ raxRemove t s = .ok (t, false, none)) := by
  obtain ⟨w, r, hwalk, hp, hkey, hstop⟩ := raxLowWalk_spec hok.wf s
  have hat := hstop.atNode_iff
  have hw := hp.wf hok.wf
  unfold raxRemove
  rw [hwalk, bind_ok]
  by_cases hfound : w.atNode ∧ w.stop.iskey = true
  · -- the key is there
    rw [if_neg (not_not_intro hfound)]
    have hr := hat.mp hfound.1
    subst hr
    rw [append_nil] at hkey
    have hkey' := hfound.2
    -- the two ways to go on once the key is gone
    have hdone : ∀ head : RaxNode V, WellFormed head →
        (entries t.head).Perm ((s, raxGetData w.stop) :: entries head) →
        Removed t s (raxGetData w.stop)
          (.ok (⟨head, t.numele - 1, head.nodes⟩, true, some (raxGetData w.stop))) :=
      fun head hw' hperm => .inl ⟨_, rfl, raxOk_removed hok hw' hperm, hperm⟩
    have hfinish : ∀ (n : RaxNode V) (path : List (Frame V)), Single n →
        (∀ f ∈ path, FrameOk f ∧ WellFormed f.node) →
        (entries t.head).Perm ((s, raxGetData w.stop) :: entries (plug path n)) →
        Removed t s (raxGetData w.stop) (recompress n path (plug path n).nodes >>= fun r =>
          .ok (⟨r.1, t.numele - 1, r.2⟩, true, some (raxGetData w.stop))) := by
      intro n path hs hframes hperm
      rcases recompress_spec hs hframes with ⟨head, hrun, hw', hperm'⟩ | ⟨hrun, e, he, hlong⟩
      · rw [hrun]
        exact hdone head hw' (hperm.trans (hperm'.symm.cons _))
      rw [hrun]
      exact .inr ⟨rfl, e, hperm.mem_iff.mpr (mem_cons_of_mem _ he), hlong⟩
    have hperm0 := unkey_perm hok.wf hp hkey'
    rw [← hkey] at hperm0
    have hnodes0 : t.numnodes = (plug w.path { w.stop with iskey := false }).nodes := by
      have hold := plug_nodes (hp.ok hok.wf) w.stop
      rw [hp.plug_eq] at hold
      rw [hok.numnodes, hold, plug_nodes (hp.ok hok.wf), nodes_eq, nodes_eq]
    refine .inl ⟨_, hperm0.mem_iff.mpr mem_cons_self, ?_⟩
    by_cases h0 : ({ w.stop with iskey := false } : RaxNode V).size = 0
    · rw [if_pos h0]
      cases hpath : w.path with
      | nil =>
        rw [hpath] at hperm0 hnodes0
        rw [hnodes0]
        exact hdone _ (wf_unkeyed hw) hperm0
      | cons f path =>
        rw [hpath] at hp hkey
        obtain ⟨g, path', freed, hrun, hnw, hframes, hpw, hnodes, hperm⟩ := unlink_spec hok hp hkey' h0
        rw [← hkey] at hperm
        dsimp only
        rw [hrun]
        rw [hnodes]
        split
        · rename_i hsingle
          exact hfinish _ path' (single_of_size hnw hsingle.1 hsingle.2) hframes hperm
        · exact hdone _ hpw hperm
    rw [if_neg h0]
    split
    · rename_i h1
      rw [hnodes0]
      exact hfinish _ w.path (single_of_size (wf_unkeyed hw) h1 rfl) (hp.frames hok.wf) hperm0
    have hpw : WellFormed (plug w.path { w.stop with iskey := false }) :=
      plug_wf (hp.frames hok.wf) (wf_unkeyed hw) fun _ hz => absurd hz h0
    rw [hnodes0]
    exact hdone _ hpw hperm0
  · rw [if_pos hfound]
    refine .inr ⟨fun v => ?_, rfl⟩
    rw [hkey]
    exact hstop.absent hp hok.wf hfound v

end Redis.RadixTree.Removal
