import Redis.Skiplist.Ordered

/-! # Range deletions

Each of them takes out one block of neighbours: from the node behind the search
to the first node that fails the condition. -/
namespace Redis.Skiplist.Ranges
open List Lib Outcome Model Links Search
open Update Ordered

variable {S D : Type} {zsl : Zskiplist S} {dictDelete : D → Bytes → Outcome D}
  {skip go : Nat → ZskiplistNode S → Bool}

/-- Towers from this rank on that meet the condition. -/
def AllGo (go : Nat → ZskiplistNode S → Bool) : (rank : Nat) → List (Tower S) → Prop
  | _, [] => True
  | rank, t :: ts => goes go rank t = true ∧ AllGo go (rank + 1) ts

/-- The elements are deleted from the dict one by one. -/
def dictDeleteAll (dictDelete : D → Bytes → Outcome D) (dict : D) (ts : List (Tower S)) : Outcome D :=
  ts.foldlM (fun d t => dictDelete d t.ele) dict

lemma dictDeleteAll_cons (dict : D) (t : Tower S) (ts : List (Tower S)) :
    dictDeleteAll dictDelete dict (t :: ts) =
      (dictDelete dict t.ele >>= fun d => dictDeleteAll dictDelete d ts) := rfl

variable {pre : List (Tower S)}

lemma deleteWhile_spec (dictDelete : D → Bytes → Outcome D) (hgo : Plain go) {n : Nat} :
    ∀ (suf : List (Tower S)) (zsl : Zskiplist S) (dict : D) (rounds traversed removed : Nat),
      Valid zsl (pre ++ suf) → zsl.level ≤ n → suf.length < rounds →
      ∃ mid rest zsl', suf = mid ++ rest ∧ AllGo go traversed mid ∧
        (∀ u, rest.head? = some u → goes go (traversed + mid.length) u = false) ∧
        Valid zsl' (pre ++ rest) ∧
        deleteWhile dictDelete go ((List.range n).map fun j => lastAt j pre) rounds zsl dict
            (suf.head?.map Tower.id) traversed removed =
          (dictDeleteAll dictDelete dict mid >>= fun d => .ok (zsl', d, removed + mid.length)) := by
  intro suf
  induction suf with
  | nil =>
    intro zsl dict rounds traversed removed h _ hr
    obtain ⟨r, rfl⟩ := Nat.exists_eq_add_one.mpr (Nat.zero_lt_of_lt hr)
    exact ⟨[], [], zsl, rfl, trivial, nofun, h, rfl⟩
  | cons t suf ih =>
    intro zsl dict rounds traversed removed h hn hr
    obtain ⟨r, rfl⟩ := Nat.exists_eq_add_one.mpr (Nat.zero_lt_of_lt hr)
    rw [head?_cons, Option.map_some, deleteWhile, h.node, bind_ok, hgo]
    cases hg : goes go traversed t with
    | false =>
      refine ⟨[], t :: suf, zsl, rfl, trivial, fun u hu => ?_, h, ?_⟩
      · obtain rfl := Option.some.inj hu
        exact hg
      rfl
    | true =>
      obtain ⟨zsl1, hdel, hvalid, _, hlevel⟩ := zslDeleteNode_spec h hn
      have hfree := Valid.free h hvalid
      have hlink : load (t.node (lastId pre) fun j => link j suf).level 0 = .ok (link 0 suf) :=
        load_range (h.positive t (by simp)) _
      have hforward : (link 0 suf).forward = suf.head?.map Tower.id :=
        link_zero fun u hu => h.positive u (by simp [hu])
      -- when the dict faults the rest of the block does not matter
      obtain ⟨d, hd⟩ : ∃ d, dictDelete dict t.ele = .ok d ∨ d = dict ∧ ∃ e, dictDelete dict t.ele = .error e :=
        match hm : dictDelete dict t.ele with
        | .ok d => ⟨d, Or.inl rfl⟩
        | .error e => ⟨dict, Or.inr ⟨rfl, e, rfl⟩⟩
      obtain ⟨mid, rest, zsl', hsuf, hall, hstop, hvalid', hrun⟩ := ih (zslFreeNode zsl1 t.id) d r
        (traversed + 1) (removed + 1) hfree (hlevel.trans hn) (Nat.lt_of_succ_lt_succ hr)
      refine ⟨t :: mid, rest, zsl', by rw [hsuf]; rfl, ⟨hg, hall⟩, fun u hu => ?_, hvalid', ?_⟩
      · rw [length_cons, ← add_assoc, Nat.add_right_comm]
        exact hstop u hu
      rw [if_pos rfl, hlink, bind_ok, hdel, bind_ok, dictDeleteAll_cons, hforward, Tower.node]
      rcases hd with hd | ⟨_, e, hd⟩
      · rw [hd, bind_ok, bind_ok, hrun, length_cons, Nat.add_right_comm, add_assoc]
      rw [hd]
      rfl

/-- The block that a range deletion takes out. -/
structure Block (skip go : Nat → ZskiplistNode S → Bool) (pre mid rest : List (Tower S)) : Prop where
  passed : Passed skip pre.length pre
  found : ∀ u, (mid ++ rest).head? = some u → goes skip (pre.length + 1) u = false
  all : AllGo go (pre.length + 1) mid
  stop : ∀ u, rest.head? = some u → goes go (pre.length + 1 + mid.length) u = false

lemma deleteRange_spec (dictDelete : D → Bytes → Outcome D) {ts : List (Tower S)} (h : Valid zsl ts)
    (hskip : Plain skip) (hgo : Plain go) (dict : D) : ∃ pre mid rest zsl', ts = pre ++ (mid ++ rest) ∧ Block skip go pre mid rest ∧
      Valid zsl' (pre ++ rest) ∧
      deleteRange dictDelete skip go zsl dict =
        (dictDeleteAll dictDelete dict mid >>= fun d => .ok (zsl', d, mid.length)) := by
  obtain ⟨pre, suf, rfl, hrun, hpass, hnext⟩ := search_spec h hskip
  have hlen : suf.length < zsl.length + 1 := by
    rw [h.length, length_append]
    omega
  obtain ⟨mid, rest, zsl', rfl, hall, hstop, hvalid, hdel⟩ := deleteWhile_spec dictDelete hgo
    suf zsl dict _ (pre.length + 1) 0 h le_rfl hlen
  refine ⟨pre, mid, rest, zsl', rfl, ⟨hpass, hnext, hall, hstop⟩, hvalid, ?_⟩
  have hp : ∀ t ∈ pre, 0 < t.height := fun t ht => h.positive t (mem_append_left _ ht)
  rw [deleteRange, hrun, bind_ok, load_update h.level_pos pre hp, bind_ok]
  dsimp only
  rw [nextOf_spec h, bind_ok, hdel]
  simp only [zero_add]

/-! ## Blocks of a sorted list -/

/-- A block that two conditions cut out of a list. -/
structure Cut {α : Type} (p q : α → Bool) (pre mid rest : List α) : Prop where
  passed : ∀ a, pre.getLast? = some a → p a = true
  found : ∀ b, (mid ++ rest).head? = some b → ¬ p b = true
  all : ∀ a ∈ mid, q a = true
  stop : ∀ b, rest.head? = some b → ¬ q b = true

/-- The block is what lies in the range, when both conditions hold in front of
every place where they hold. -/
lemma Cut.filter {α : Type} {R : α → α → Prop} {p q : α → Bool} {pre mid rest : List α}
    (h : Cut p q pre mid rest) (hp : ∀ a b, R a b → p b = true → p a = true)
    (hq : ∀ a b, R a b → q b = true → q a = true) (hs : (pre ++ (mid ++ rest)).Pairwise R) :
    pre ++ rest = (pre ++ (mid ++ rest)).filter (fun a => !(!p a && q a)) ∧
      mid = (pre ++ (mid ++ rest)).filter fun a => !p a && q a := by
  obtain ⟨hpre, hsuf⟩ := split_of_search hp hs h.passed h.found
  have hs' := (pairwise_append.mp hs).2.1
  obtain ⟨_, hrest⟩ := split_of_search (p := fun a => q a = true) hq hs'
    (fun a ha => h.all a (mem_of_getLast? ha)) h.stop
  have hin : ∀ a ∈ mid, (!p a && q a) = true := fun a ha => by
    simp [hsuf a (mem_append_left _ ha), h.all a ha]
  have hout : ∀ a ∈ pre ++ rest, (!p a && q a) = false := fun a ha => by
    rcases mem_append.mp ha with ha | ha
    · simp [hpre a ha]
    · simp [hrest a ha]
  obtain ⟨hpre', hrest'⟩ := forall_mem_append.mp hout
  simp only [filter_append]
  constructor
  · rw [filter_eq_self.mpr fun a ha => by rw [hpre' a ha]; rfl,
      filter_eq_nil_iff.mpr fun a ha => by rw [hin a ha]; decide,
      filter_eq_self.mpr fun a ha => by rw [hrest' a ha]; rfl]
    rfl
  rw [filter_eq_nil_iff.mpr fun a ha => by rw [hpre' a ha]; decide, filter_eq_self.mpr hin,
    filter_eq_nil_iff.mpr fun a ha => by rw [hrest' a ha]; decide, append_nil]
  rfl

lemma AllGo.mem {q : Item S → Bool} (hq : ∀ rank t, goes go rank t = q t.item) :
    ∀ {rank : Nat} {ts : List (Tower S)}, AllGo go rank ts → ∀ a ∈ items ts, q a = true
  | _, [], _, _, ha => (nomatch ha)
  | rank, t :: _, h, a, ha => by
    rcases mem_cons.mp ha with rfl | ha
    · exact (hq rank t).symm.trans h.1
    · exact h.2.mem hq a ha

lemma Block.cut {p q : Item S → Bool} (hp : ∀ rank t, goes skip rank t = p t.item)
    (hq : ∀ rank t, goes go rank t = q t.item) {mid rest : List (Tower S)}
    (h : Block skip go pre mid rest) : Cut p q (items pre) (items mid) (items rest) := by
  refine ⟨fun a ha => ?_, fun b hb => ?_, h.all.mem hq, fun b hb => ?_⟩
  · rw [items, getLast?_map] at ha
    obtain ⟨t, ht, rfl⟩ := Option.map_eq_some_iff.mp ha
    exact (hp _ t).symm.trans (h.passed t ht)
  · rw [items, items, ← map_append, head?_map] at hb
    obtain ⟨t, ht, rfl⟩ := Option.map_eq_some_iff.mp hb
    exact Bool.eq_false_iff.mp ((hp _ t).symm.trans (h.found t ht))
  rw [items, head?_map] at hb
  obtain ⟨t, ht, rfl⟩ := Option.map_eq_some_iff.mp hb
  exact Bool.eq_false_iff.mp ((hq _ t).symm.trans (h.stop t ht))

/-! ## Blocks between two ranks -/

lemma items_take_drop {a b : List (Tower S)} {k : Nat} (ha : a.length ≤ k)
    (hb : b ≠ [] → k ≤ a.length) :
    (items (a ++ b)).take k = items a ∧ (items (a ++ b)).drop k = items b := by
  rw [items, ← map_take, ← map_drop]
  by_cases hnil : b = []
  · subst hnil
    rw [append_nil, take_of_length_le ha, drop_of_length_le ha]
    exact ⟨rfl, rfl⟩
  obtain rfl := Nat.le_antisymm ha (hb hnil)
  rw [take_left, drop_left]
  exact ⟨rfl, rfl⟩

lemma AllGo.rank_le {stop : Nat} : ∀ {rank : Nat} {ts : List (Tower S)},
    AllGo (fun traversed _ => traversed ≤ stop) rank ts → ts ≠ [] → rank + ts.length ≤ stop + 1
  | _, [], _, hne => absurd rfl hne
  | rank, t :: ts, h, _ => by
    have h1 : rank ≤ stop := of_decide_eq_true h.1
    by_cases hnil : ts = []
    · subst hnil
      exact Nat.succ_le_succ h1
    have := h.2.rank_le hnil
    rw [length_cons]
    omega

lemma Block.rank {start stop : Nat} {mid rest : List (Tower S)}
    (h : Block (fun rank _ => rank < start) (fun traversed _ => traversed ≤ stop) pre mid rest) :
    (pre.length ≤ start - 1 ∧ (mid ++ rest ≠ [] → start - 1 ≤ pre.length)) ∧
      mid.length ≤ stop - (start - 1) ∧ (rest ≠ [] → stop - (start - 1) ≤ mid.length) := by
  have hpre : pre.length ≤ start - 1 := by
    rcases eq_nil_or_concat' pre with rfl | ⟨a, t, rfl⟩
    · exact Nat.zero_le _
    have := of_decide_eq_true (h.passed t (by simp))
    omega
  have hfound : mid ++ rest ≠ [] → start - 1 ≤ pre.length := fun hne => by
    obtain ⟨u, us, hu⟩ := exists_cons_of_ne_nil hne
    have := of_decide_eq_false (h.found u (by rw [hu]; rfl))
    omega
  refine ⟨⟨hpre, hfound⟩, ?_, fun hne => ?_⟩
  · by_cases hnil : mid = []
    · rw [hnil]
      exact Nat.zero_le _
    have h1 := h.all.rank_le hnil
    have h2 := hfound fun he => hnil (append_eq_nil_iff.mp he).1
    omega
  obtain ⟨u, us, rfl⟩ := exists_cons_of_ne_nil hne
  have h1 := of_decide_eq_false (h.stop u rfl)
  omega

end Redis.Skiplist.Ranges
