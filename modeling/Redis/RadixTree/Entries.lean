import Redis.RadixTree.Model

/-! # What a radix tree holds

`entries` lists the keys of a subtree with their values, each key relative to
the subtree. In a well formed tree they are in byte order. A path splits them into those before
the node it leads to, those in it and those after it, and plugging another node in changes only
the middle part. -/
namespace Redis.RadixTree.Entries
open List Lib Model

variable {V : Type}

abbrev Entry (V : Type) := Bytes × Option V

/-- Entries below an edge with the string `l`. -/
def under (l : Bytes) (es : List (Entry V)) : List (Entry V) := es.map fun e => (l ++ e.1, e.2)

def labels (n : RaxNode V) : List Bytes := if n.iscompr then [n.data] else n.data.map fun c => [c]

def own (n : RaxNode V) : List (Entry V) := if n.iskey then [([], raxGetData n)] else []

mutual

def entries : RaxNode V → List (Entry V)
  | ⟨iskey, isnull, value, iscompr, data, children⟩ =>
    (if iskey then [([], if isnull then none else value)] else []) ++
      entriesAll (if iscompr then [data] else data.map fun c => [c]) children

def entriesAll : List Bytes → List (RaxNode V) → List (Entry V)
  | l :: ls, c :: cs => under l (entries c) ++ entriesAll ls cs
  | _, _ => []

end

lemma entries_eq (n : RaxNode V) : entries n = own n ++ entriesAll (labels n) n.children := by
  cases n; rfl

lemma entriesAll_nil (cs : List (RaxNode V)) : entriesAll [] cs = [] := by
  rw [entriesAll]
  exact fun _ _ _ _ h _ => nomatch h

lemma entriesAll_singleton (l : Bytes) (c : RaxNode V) :
    entriesAll [l] [c] = under l (entries c) := by
  rw [entriesAll, entriesAll_nil, append_nil]

variable {cs : List (RaxNode V)} {ls : List Bytes} {e : Entry V} {n : RaxNode V}

lemma entriesAll_append {ls' : List Bytes} {cs' : List (RaxNode V)} (h : ls.length = cs.length) :
    entriesAll (ls ++ ls') (cs ++ cs') = entriesAll ls cs ++ entriesAll ls' cs' := by
  induction ls generalizing cs with
  | nil =>
    rw [length_eq_zero_iff.mp h.symm]
    rfl
  | cons l ls ih =>
    cases cs with
    | nil => cases h
    | cons c cs =>
      rw [cons_append, cons_append, entriesAll, entriesAll, ih (Nat.succ.inj h), append_assoc]

@[simp] lemma under_nil (l : Bytes) : under l ([] : List (Entry V)) = [] := rfl

@[simp] lemma under_append (l : Bytes) (es fs : List (Entry V)) :
    under l (es ++ fs) = under l es ++ under l fs := map_append

@[simp] lemma under_empty (es : List (Entry V)) : under [] es = es := by
  simp [under]

lemma under_under (l m : Bytes) (es : List (Entry V)) :
    under l (under m es) = under (l ++ m) es := by
  simp [under]

lemma mem_under {l : Bytes} {es : List (Entry V)} :
    e ∈ under l es ↔ ∃ d ∈ es, (l ++ d.1, d.2) = e := mem_map

lemma mem_entriesAll (h : e ∈ entriesAll ls cs) : ∃ l ∈ ls, ∃ x, e.1 = l ++ x := by
  induction ls generalizing cs with
  | nil => rw [entriesAll_nil] at h; cases h
  | cons l ls ih =>
    cases cs with
    | nil => cases h
    | cons c cs =>
      rcases mem_append.mp h with h | h
      · obtain ⟨d, _, rfl⟩ := mem_under.mp h
        exact ⟨l, mem_cons_self .., d.1, rfl⟩
      obtain ⟨m, hm, x, hx⟩ := ih h
      exact ⟨m, mem_cons_of_mem _ hm, x, hx⟩

/-! ## Well-formed trees -/

/-- The fields of one node fit together. -/
structure Shape (n : RaxNode V) : Prop where
  compr : n.iscompr = true → n.children.length = 1 ∧ 2 ≤ n.size
  normal : n.iscompr = false → n.size = n.children.length ∧ n.data.Pairwise (· < ·)

/-- Below the head, a node without children is a key. -/
def Settled (n : RaxNode V) : Prop := n.size = 0 → n.iskey = true

inductive WellFormed : RaxNode V → Prop
  | node {n : RaxNode V} : Shape n → (∀ c ∈ n.children, WellFormed c) →
      (∀ c ∈ n.children, Settled c) → WellFormed n

lemma WellFormed.shape (h : WellFormed n) : Shape n := by
  cases h with
  | node hs _ _ => exact hs

lemma WellFormed.child {c : RaxNode V} (h : WellFormed n) (hc : c ∈ n.children) : WellFormed c := by
  cases h with
  | node _ hw _ => exact hw c hc

lemma WellFormed.settled {c : RaxNode V} (h : WellFormed n) (hc : c ∈ n.children) : Settled c := by
  cases h with
  | node _ _ hs => exact hs c hc

lemma Shape.length_labels (h : Shape n) : (labels n).length = n.children.length := by
  unfold labels
  split
  · rename_i hc
    rw [(h.compr hc).1]
    rfl
  rename_i hc
  rw [length_map]
  exact (h.normal (Bool.not_eq_true _ ▸ hc)).1

lemma Shape.size_eq_zero (h : Shape n) : n.size = 0 ↔ n.children = [] := by
  cases hc : n.iscompr with
  | true =>
    obtain ⟨h1, h2⟩ := h.compr hc
    refine ⟨fun h0 => by omega, fun h0 => ?_⟩
    rw [h0] at h1
    cases h1
  | false =>
    rw [(h.normal hc).1]
    exact length_eq_zero_iff

lemma Shape.normal_of_leaf (h : Shape n) (h0 : n.size = 0) : n.iscompr = false := by
  cases hc : n.iscompr with
  | true =>
    have := (h.compr hc).2
    omega
  | false => rfl

/-- Strings below one edge come before the strings below a later one. -/
def Apart (l m : Bytes) : Prop := ∀ x y, l ++ x < m ++ y

lemma Shape.labels_ne_nil (h : Shape n) : ∀ l ∈ labels n, l ≠ [] := by
  intro l hl he
  subst he
  unfold labels at hl
  split at hl
  · rename_i hc
    have h2 := (h.compr hc).2
    rw [RaxNode.size, ← mem_singleton.mp hl] at h2
    cases h2
  obtain ⟨c, _, hc⟩ := mem_map.mp hl
  cases hc

lemma Shape.labels_apart (h : Shape n) : (labels n).Pairwise Apart := by
  unfold labels
  split
  · exact pairwise_singleton ..
  rename_i hc
  refine List.Pairwise.map _ (fun a b hab x y => ?_) (h.normal (Bool.not_eq_true _ ▸ hc)).2
  exact cons_lt_cons_iff.mpr (.inl hab)

/-! ## Order -/

def Sorted (es : List (Entry V)) : Prop := es.Pairwise fun d e => d.1 < e.1

lemma Sorted.under {es : List (Entry V)} (h : Sorted es) (l : Bytes) : Sorted (under l es) :=
  List.Pairwise.map _ (fun _ _ hde => append_left_lt hde) h

lemma nil_lt_append {l : Bytes} (h : l ≠ []) (x : Bytes) : [] < l ++ x := by
  cases l with
  | nil => exact absurd rfl h
  | cons c l => exact nil_lt_cons ..

lemma own_unkeyed (hk : n.iskey = false) : own n = [] := if_neg (by rw [hk]; decide)

lemma mem_own (h : e ∈ own n) : n.iskey = true ∧ e = ([], raxGetData n) := by
  unfold own at h
  split at h
  · rename_i hk
    exact ⟨hk, mem_singleton.mp h⟩
  · cases h

lemma sorted_entriesAll (hl : ls.Pairwise Apart)
    (hc : ∀ c ∈ cs, Sorted (entries c)) : Sorted (entriesAll ls cs) := by
  induction ls generalizing cs with
  | nil => rw [entriesAll_nil]; exact .nil
  | cons l ls ih =>
    cases cs with
    | nil => exact .nil
    | cons c cs =>
      obtain ⟨hl0, hl1⟩ := pairwise_cons.mp hl
      refine pairwise_append.mpr ⟨(hc c mem_cons_self).under l,
        ih hl1 (forall_mem_cons.mp hc).2, fun d hd e he => ?_⟩
      obtain ⟨d', _, rfl⟩ := mem_under.mp hd
      obtain ⟨m, hm, x, hx⟩ := mem_entriesAll he
      rw [hx]
      exact hl0 m hm _ _

lemma WellFormed.sorted (h : WellFormed n) : Sorted (entries n) := by
  induction h with
  | node hs _ _ ih =>
    rw [entries_eq]
    refine pairwise_append.mpr ⟨?_, sorted_entriesAll hs.labels_apart ih, fun d hd e he => ?_⟩
    · unfold own
      split
      · exact pairwise_singleton ..
      · exact .nil
    obtain ⟨l, hl, x, hx⟩ := mem_entriesAll he
    rw [(mem_own hd).2, hx]
    exact nil_lt_append (hs.labels_ne_nil l hl) x

lemma WellFormed.entries_ne_nil (h : WellFormed n) (hs : Settled n) : entries n ≠ [] := by
  induction h with
  | @node n hshape _ hsettled ih =>
    rw [entries_eq]
    cases hc : n.children with
    | nil =>
      rw [own, if_pos (hs (hshape.size_eq_zero.mpr hc))]
      exact nofun
    | cons c cs =>
      have hlen := hshape.length_labels
      have hmem : c ∈ n.children := by rw [hc]; exact mem_cons_self ..
      have hne := ih c hmem (hsettled c hmem)
      cases hl : labels n with
      | nil => rw [hl, hc] at hlen; cases hlen
      | cons l ls =>
        intro hnil
        have := (append_eq_nil_iff.mp (append_eq_nil_iff.mp hnil).2).1
        exact hne (map_eq_nil_iff.mp this)

end Redis.RadixTree.Entries
