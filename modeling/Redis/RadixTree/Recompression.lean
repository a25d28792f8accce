import Redis.RadixTree.Removal

/-! # The two scans of a recompression

After the removal of a key `raxRemove` scans the chain of nodes to merge twice: once to
measure it, with a look at the size limit of a node, and once to copy and free it. -/
namespace Redis.RadixTree.Recompression
open List Lib Outcome Model Entries Paths Insertion Removal

variable {V : Type}

/-- If the second node of the chain fits into one node with the first, the whole chain does. -/
def Fits (start : RaxNode V) (s : Bytes) : Prop :=
  ∀ c, start.children = [c] → ¬ c.endsChain → start.size + c.size ≤ raxNodeMaxSize →
    s.length ≤ raxNodeMaxSize

variable {start : RaxNode V} {s : Bytes} {k : Nat} {l : RaxNode V}

/-- The first scan stops at the first node, or sees the whole chain, or stops between. -/
lemma measure_cases (h : Chain start s k l) (hw : WellFormed start) :
    ∃ comprsize nodes, chainMeasure start.nodes start start.size 1 = .ok (comprsize, nodes) ∧
      (nodes = 1 ∧ Fits start s ∨ nodes = k ∧ comprsize = s.length ∧ Fits start s ∨
        1 < nodes ∧ comprsize < s.length ∧ ¬ Fits start s) := by
  have hf := h.facts hw
  obtain ⟨rounds, hrounds⟩ := Nat.exists_eq_succ_of_ne_zero (n := start.nodes)
    (by have := hf.nodes; have := hf.one_le; omega)
  rw [hrounds, chainMeasure, if_neg (Nat.ne_of_gt hf.pos)]
  cases h with
  | @last _ c hc hend =>
    rw [lastChild_single hc, bind_ok, if_pos hend]
    refine ⟨_, _, rfl, .inl ⟨rfl, fun c' hc' hinner => ?_⟩⟩
    cases hc.symm.trans hc'
    exact absurd hend hinner
  | @step _ c _ s' k' hc hinner hchain =>
    rw [lastChild_single hc, bind_ok, if_neg hinner]
    have hn : start.size = start.data.length := rfl
    have hsize : c.size ≤ s'.length := by
      have h' := hchain.facts (hw.child (mem_single hc))
      have := h'.le
      have := h'.one_le
      omega
    by_cases hroom : raxNodeMaxSize < start.size + c.size
    · rw [if_pos hroom]
      refine ⟨_, _, rfl, .inl ⟨rfl, fun c' hc' _ hle => ?_⟩⟩
      cases hc.symm.trans hc'
      omega
    rw [if_neg hroom]
    have hfits : Fits start (start.data ++ s') ↔ start.size + s'.length ≤ raxNodeMaxSize := by
      rw [Fits, length_append]
      exact ⟨fun hall => hall c hc hinner (by omega), fun hle _ _ _ _ => hle⟩
    rw [hfits, length_append]
    rcases chainMeasure_spec hchain (hw.child (mem_single hc)) rounds (start.size + c.size) 2
      (by have := hf.nodes; omega) with ⟨hrun, hle⟩ | ⟨hlong, c', m, hrun, hlt, hm⟩
    · exact ⟨_, _, hrun, .inr (.inl ⟨by omega, by omega, by omega⟩)⟩
    · exact ⟨_, _, hrun, .inr (.inr ⟨by omega, by omega, by omega⟩)⟩

/-- Where the first scan counts more than one node, the second one covers exactly these nodes,
fills the bytes allocated and links the new node to the one that ends the chain, if and only if
the chain fits. -/
theorem scans_agree_iff {h : RaxNode V} {path : List (Frame V)} (hs : Single h)
    (hp : ∀ f ∈ path, FrameOk f ∧ WellFormed f.node) (numnodes : Nat) :
    ∃ start path' s k l comprsize nodes, climb h path = (start, path') ∧ Chain start s k l ∧
      chainMeasure start.nodes start start.size 1 = .ok (comprsize, nodes) ∧
      ((1 < nodes → comprsize = s.length ∧ nodes = k ∧
          chainCopy comprsize start.nodes start [] 0 = .ok (s, l, nodes) ∧
          recompress h path numnodes =
            .ok (plug path' ⟨false, false, none, true, s, [l]⟩, numnodes + 1 - nodes)) ↔
        Fits start s) := by
  obtain ⟨start, path', hclimb, hstart, -, -⟩ := climb_spec hs hp
  obtain ⟨s, k, l, hchain⟩ := exists_chain hstart.wf hstart.one
  have hrounds : k ≤ start.nodes := (hchain.facts hstart.wf).nodes ▸ Nat.le_add_right ..
  obtain ⟨comprsize, nodes, hmeasure, hcases⟩ := measure_cases hchain hstart.wf
  refine ⟨start, path', s, k, l, comprsize, nodes, hclimb, hchain, hmeasure, ?_⟩
  rcases hcases with ⟨hone, hfits⟩ | ⟨rfl, rfl, hfits⟩ | ⟨hmany, hshort, hfits⟩
  · exact iff_of_true (fun hmany => by omega) hfits
  · refine iff_of_true (fun hmany => ?_) hfits
    have hcopy : chainCopy s.length start.nodes start [] 0 = .ok (s, l, nodes) := by
      rw [chainCopy_eq hchain hstart.wf _ _ [] 0 hrounds, if_neg (by simp)]
      simp
    refine ⟨rfl, rfl, hcopy, ?_⟩
    rw [recompress, hclimb]
    dsimp only
    rw [hmeasure, bind_ok]
    dsimp only
    rw [if_pos hmany, hcopy]
    rfl
  · exact iff_of_false (fun h => Nat.ne_of_lt hshort (h hmany).1) hfits

lemma wf_leaf : WellFormed (⟨true, true, none, false, [], []⟩ : RaxNode V) :=
  .node ⟨nofun, fun _ => ⟨rfl, .nil⟩⟩ nofun nofun

/-- The node of "bc" under that of "a", which is no key any more: two nodes become one. -/
theorem scans_agree_two :
    let leaf : RaxNode Unit := ⟨true, true, none, false, [], []⟩
    let h : RaxNode Unit := ⟨false, false, none, true, [98, 99], [leaf]⟩
    let f : Frame Unit := ⟨⟨false, false, none, false, [97], [h]⟩, 0⟩
    chainCopy 3 (f.fill h).nodes (f.fill h) [] 0 = .ok ([97, 98, 99], leaf, 2) ∧
      recompress h [f] 3 = .ok (⟨false, false, none, true, [97, 98, 99], [leaf]⟩, 2) := by
  intro leaf h f
  have hb := single_built (n := h) rfl rfl rfl nofun (built_self wf_leaf fun _ => rfl)
  have hf := single_built (n := f.node) rfl rfl rfl nofun hb
  have hp : ∀ f' ∈ [f], FrameOk f' ∧ WellFormed f'.node :=
    forall_mem_singleton.mpr ⟨⟨hf.wf.shape, Nat.one_pos⟩, hf.wf⟩
  obtain ⟨start, path', s, k, l, _, _, hclimb, hchain, hmeasure, hiff⟩ :=
    scans_agree_iff ⟨hb.wf, rfl, rfl⟩ hp 3
  cases hclimb
  cases hmeasure
  cases hchain with
  | last hc hend =>
    cases hc
    exact absurd hend (by decide)
  | step hc hinner hchain =>
    cases hc
    cases hchain with
    | step hc hinner _ =>
      cases hc
      exact absurd (.inl rfl) hinner
    | last hc _ =>
      cases hc
      exact (hiff.mpr (fun _ _ _ _ => by decide) Nat.one_lt_two).2.2

/-- The keys "a" and "ab" followed by `x`. -/
def longTree (x : Bytes) : Rax Unit :=
  ⟨⟨false, false, none, false, [97], [⟨true, true, none, false, [98],
    [⟨false, false, none, true, x, [⟨true, true, none, false, [], []⟩]⟩]⟩]⟩, 2, 4⟩

/-- The first scan leaves out the node of `x`, which would exceed the limit; the second one
copies it behind the two bytes that were allocated. -/
theorem second_scan_overruns :
    ∃ t : Rax Unit, RaxOk t ∧ raxRemove t [97] = .error .bounds := by
  obtain ⟨x, hx⟩ : ∃ x : Bytes, x.length = raxNodeMaxSize := ⟨_, length_replicate (a := 0)⟩
  have hlong : 2 ≤ x.length := hx ▸ (by decide : 2 ≤ raxNodeMaxSize)
  have hpos : 0 < x.length := Nat.zero_lt_of_lt hlong
  have hne : x ≠ [] := ne_nil_of_length_pos hpos
  have hb := single_built (n := (longTree x).head) rfl rfl rfl nofun <|
    single_built rfl rfl rfl nofun <|
    single_built rfl rfl (decide_eq_true hlong).symm hne (built_self wf_leaf fun _ => rfl)
  refine ⟨longTree x, ⟨hb.wf, hb.entries.length_eq.symm, hb.nodes.symm⟩, ?_⟩
  simp [raxRemove, longTree, raxLowWalk, lowWalkLoop, RaxNode.size, load, Walk.atNode, recompress,
    climb, Frame.fill, RaxNode.endsChain, chainMeasure, lastChild, chainCopy, RaxNode.nodes,
    nodesAll, ← hx, hpos, hne, hlong.not_gt]

end Redis.RadixTree.Recompression
