import Redis.Streams.Trim

/-! # What a trim removes

Every trim removes a front part of the live entries. An exact one removes the part that its
strategy names, which depends on the live entries alone; an approximate one removes the live
entries of the nodes it takes. -/
namespace Redis.Streams.TrimCut
open List Trim

/-! ## Comparing IDs -/

lemma streamCompareID_eq (a b : StreamID) :
    streamCompareID a b = if b.key < a.key then 1 else if a.key < b.key then -1 else 0 := by
  have ha := a.seq.toNat_lt
  have hb := b.seq.toNat_lt
  simp only [streamCompareID, StreamID.key, UInt64.lt_iff_toNat_lt]
  all_goals first
    | rfl
    | omega

lemma compareID_neg {a b} : streamCompareID a b < 0 ↔ a.key < b.key := by
  rw [streamCompareID_eq]
  split
  · omega
  · split <;> simp_all

lemma compareID_pos {a b} : 0 < streamCompareID a b ↔ b.key < a.key := by
  rw [streamCompareID_eq]
  split
  · simp_all
  · split <;> simp_all

lemma key_le_max (a : StreamID) : a.key ≤ StreamID.max.key := by
  have hms := a.ms.toNat_lt
  have hseq := a.seq.toNat_lt
  have hmax : StreamID.max.key = (2 ^ 64 - 1) * 2 ^ 64 + (2 ^ 64 - 1) := rfl
  rw [StreamID.key]
  omega

/-! ## Well-formed streams -/

/-- The entries are in the order of their IDs, tombstones included. -/
def Ascending (its : List Item) : Prop := (its.map (·.id)).Pairwise fun a b => a.key < b.key

instance (its : List Item) : Decidable (Ascending its) :=
  inferInstanceAs (Decidable (List.Pairwise _ _))

/-- The counts of a node are those of its entries. -/
structure Counted (node : Node) : Prop where
  nonempty : node.items ≠ []
  count : node.count = (liveItems node.items).length
  marked : node.marked + node.count = node.items.length

structure WellFormed (s : Stream) : Prop where
  counted : ∀ node ∈ s.nodes, Counted node
  ascending : Ascending (items s.nodes)
  length : s.length = (live s).length
  bounded : ∀ i ∈ items s.nodes, i.id.key ≤ s.lastId.key

@[simp] lemma liveItems_nil : liveItems [] = [] := rfl

@[simp] lemma liveItems_append (as bs : List Item) :
    liveItems (as ++ bs) = liveItems as ++ liveItems bs := by
  simp [liveItems]

lemma liveItems_cons_live {i} (h : i.deleted = false) (is : List Item) :
    liveItems (i :: is) = (i.id, i.fields) :: liveItems is := by
  simp [liveItems, h]

lemma liveItems_cons_deleted {i} (h : i.deleted = true) (is : List Item) :
    liveItems (i :: is) = liveItems is := by
  simp [liveItems, h]

@[simp] lemma items_nil : items [] = [] := rfl

@[simp] lemma items_cons (node : Node) (rest : List Node) :
    items (node :: rest) = node.items ++ items rest := rfl

@[simp] lemma items_append (as bs : List Node) : items (as ++ bs) = items as ++ items bs := by
  simp [items]

lemma mem_liveItems {its e} (h : e ∈ liveItems its) : ∃ i ∈ its, i.id = e.1 := by
  obtain ⟨i, hi, rfl⟩ := mem_map.mp h
  exact ⟨i, mem_of_mem_filter hi, rfl⟩

/-! ## What a trim removes -/

/-- A front part of the live entries that a strategy removes exactly. -/
def IsCut : Strategy → List (StreamID × Fields) → List (StreamID × Fields) → Prop
  | .maxlen n, removed, rest => removed.length = removed.length + rest.length - n
  | .minid id, removed, rest =>
    (∀ e ∈ removed, e.1.key < id.key) ∧ ∀ e ∈ rest, id.key ≤ e.1.key

lemma IsCut.filter {id a b} (h : IsCut (.minid id) a b) :
    (a ++ b).filter (fun e => decide (id.key ≤ e.1.key)) = b := by
  rw [filter_append, filter_eq_nil_iff.mpr, nil_append]
  · simpa using h.2
  · simpa using h.1

lemma isCut_of_filter {id a b} (h : b = (a ++ b).filter fun e => decide (id.key ≤ e.1.key)) :
    IsCut (.minid id) a b := by
  have hb : ∀ e ∈ b, id.key ≤ e.1.key := fun e he => by
    rw [h] at he
    exact of_decide_eq_true (mem_filter.mp he).2
  rw [filter_append, (@filter_eq_self _ _ b).mpr (by simpa using hb), self_eq_append_left] at h
  exact ⟨by simpa using h, hb⟩

lemma cut_unique {strategy removed rest removed' rest'}
    (h : IsCut strategy removed rest) (h' : IsCut strategy removed' rest')
    (heq : removed ++ rest = removed' ++ rest') : rest = rest' := by
  cases strategy with
  | maxlen n =>
    have hsum := congrArg List.length heq
    simp only [length_append] at hsum
    have hlen : removed.length = removed'.length := by
      unfold IsCut at h h'
      omega
    exact (append_inj heq hlen).2
  | minid id =>
    rw [← h.filter, heq, h'.filter]

lemma trimItems_spec (a : TrimArgs) : ∀ (length : Nat) (its : List Item), ∃ removed,
      liveItems its = removed ++ liveItems (trimItems a length its).1 ∧
      (trimItems a length its).2 = removed.length ∧
      (trimItems a length its).1.map (·.id) = its.map (·.id)
  | _, [] => ⟨[], rfl, rfl, rfl⟩
  | length, i :: is => by
    rw [trimItems]
    split
    · exact ⟨[], rfl, rfl, rfl⟩
    split
    · rename_i hdel
      obtain ⟨removed, hlive, hcount, hids⟩ := trimItems_spec a length is
      refine ⟨removed, ?_, hcount, by simp [hids]⟩
      rw [liveItems_cons_deleted hdel, liveItems_cons_deleted hdel, hlive]
    rename_i hlive'
    obtain ⟨removed, hlive, hcount, hids⟩ := trimItems_spec a (length - 1) is
    refine ⟨(i.id, i.fields) :: removed, ?_, by simp [hcount], by simp [hids]⟩
    rw [liveItems_cons_live (by simpa using hlive'), hlive]
    rfl

variable {a : TrimArgs} {id : StreamID}

lemma trimItems_maxlen {n} (ha : a.strategy = .maxlen n) :
    ∀ (length : Nat) (its : List Item), length - n ≤ (liveItems its).length →
      (trimItems a length its).2 = length - n
  | length, [], h => by
    simp only [liveItems_nil, length_nil] at h
    simp only [trimItems]
    omega
  | length, i :: is, h => by
    rw [trimItems]
    split
    · rename_i hstop
      simp only [stopAt, ha, decide_eq_true_eq] at hstop
      omega
    rename_i hstop
    simp only [stopAt, ha, decide_eq_true_eq] at hstop
    split
    · rename_i hdel
      rw [liveItems_cons_deleted hdel] at h
      exact trimItems_maxlen ha length is h
    rename_i hlive
    rw [liveItems_cons_live (by simpa using hlive), length_cons] at h
    have hrest := trimItems_maxlen ha (length - 1) is (by omega)
    simp only [hrest]
    omega

lemma live_filter_self {its : List Item} (h : ∀ i ∈ its, id.key ≤ i.id.key) :
    (liveItems its).filter (fun e => decide (id.key ≤ e.1.key)) = liveItems its := by
  refine filter_eq_self.mpr fun e he => decide_eq_true ?_
  obtain ⟨i, hi, hie⟩ := mem_liveItems he
  exact hie ▸ h i hi

lemma trimItems_minid (ha : a.strategy = .minid id) :
    ∀ (length : Nat) (its : List Item), Ascending its → liveItems (trimItems a length its).1 =
      (liveItems its).filter fun e => decide (id.key ≤ e.1.key)
  | _, [], _ => rfl
  | length, i :: is, h => by
    obtain ⟨hfirst, hrest⟩ := pairwise_cons.mp h
    rw [trimItems]
    split
    · rename_i hstop
      simp only [stopAt, ha, decide_eq_true_eq, ← Int.not_lt, compareID_neg] at hstop
      refine (live_filter_self fun j hj => ?_).symm
      rcases mem_cons.mp hj with rfl | hj
      · omega
      have hlt : i.id.key < j.id.key := hfirst _ (mem_map_of_mem hj)
      omega
    rename_i hstop
    simp only [stopAt, ha, decide_eq_true_eq, Int.not_le, compareID_neg] at hstop
    split
    · rename_i hdel
      rw [liveItems_cons_deleted hdel, liveItems_cons_deleted hdel]
      exact trimItems_minid ha length is hrest
    rename_i hlive
    rw [liveItems_cons_deleted rfl, liveItems_cons_live (by simpa using hlive),
      filter_cons_of_neg (by simpa using hstop)]
    exact trimItems_minid ha (length - 1) is hrest

lemma counted_trimmed {node} (h : Counted node) (a : TrimArgs) (length : Nat) :
    Counted ⟨node.count - (trimItems a length node.items).2,
      node.marked + (trimItems a length node.items).2, (trimItems a length node.items).1⟩ := by
  obtain ⟨removed, hlive, hcount, hids⟩ := trimItems_spec a length node.items
  have hsum := congrArg List.length hlive
  have hsize := congrArg List.length hids
  simp only [length_append, length_map] at hsum hsize
  have hcounted := h.count
  have hmarked := h.marked
  have hpos := length_pos_iff.mpr h.nonempty
  refine ⟨?_, ?_, ?_⟩
  · intro hnil
    simp only at hnil
    rw [hnil] at hsize
    simp only [length_nil] at hsize
    omega
  · dsimp only
    omega
  · dsimp only
    omega

/-- What a trim leaves of the nodes. -/
structure Trimmed (nodes : List Node) (length deleted : Nat) (r : List Node × Nat × Nat)
    (removed : List (StreamID × Fields)) : Prop where
  live : liveItems (items nodes) = removed ++ liveItems (items r.1)
  length : r.2.1 = length - removed.length
  deleted : r.2.2 = deleted + removed.length
  counted : ∀ node ∈ r.1, Counted node
  /-- The IDs that are left, of tombstones too, are the last ones. -/
  ids : ∃ gone, (items nodes).map (·.id) = gone ++ (items r.1).map (·.id)

lemma trimmed_nothing {nodes} (length deleted : Nat) (hcounted : ∀ node ∈ nodes, Counted node) :
    Trimmed nodes length deleted (nodes, length, deleted) [] :=
  ⟨rfl, rfl, rfl, hcounted, [], rfl⟩

lemma Trimmed.cons {node : Node} {rest : List Node} {length deleted : Nat}
    {r : List Node × Nat × Nat} {removed : List (StreamID × Fields)} (hnode : Counted node)
    (h : Trimmed rest (length - node.count) (deleted + node.count) r removed) :
    Trimmed (node :: rest) length deleted r (liveItems node.items ++ removed) := by
  obtain ⟨gone, hgone⟩ := h.ids
  refine ⟨?_, ?_, ?_, h.counted, node.items.map (·.id) ++ gone, ?_⟩
  · rw [items_cons, liveItems_append, h.live, append_assoc]
  · rw [h.length, length_append, ← hnode.count, Nat.sub_sub]
  · rw [h.deleted, length_append, ← hnode.count, add_assoc]
  · rw [items_cons, map_append, hgone, append_assoc]

lemma trimNodes_trimmed (a : TrimArgs) :
    ∀ (nodes : List Node) (length deleted : Nat), (∀ node ∈ nodes, Counted node) →
      ∃ removed, Trimmed nodes length deleted (trimNodes a nodes length deleted) removed
  | [], length, deleted, _ => ⟨[], trimmed_nothing length deleted (by simp)⟩
  | node :: rest, length, deleted, hcounted => by
    have hnode := hcounted node mem_cons_self
    have hrest : ∀ n ∈ rest, Counted n := fun n hn => hcounted n (mem_cons_of_mem node hn)
    rw [trimNodes]
    split
    · exact ⟨[], trimmed_nothing length deleted hcounted⟩
    split
    · exact ⟨[], trimmed_nothing length deleted hcounted⟩
    split
    · obtain ⟨removed, h⟩ := trimNodes_trimmed a rest (length - node.count)
        (deleted + node.count) hrest
      exact ⟨_, Trimmed.cons hnode h⟩
    split
    · exact ⟨[], trimmed_nothing length deleted hcounted⟩
    obtain ⟨removed, hlive, hcount, hids⟩ := trimItems_spec a length node.items
    refine ⟨removed, ?_, by simp [hcount], by simp [hcount], ?_, [], ?_⟩
    · rw [items_cons, liveItems_append, hlive, items_cons, liveItems_append, append_assoc]
    · exact forall_mem_cons.mpr ⟨counted_trimmed hnode a length, hrest⟩
    · simp [hids]

lemma key_le_getLast {its} (h : Ascending its) {l}
    (hl : its.getLast? = some l) : ∀ i ∈ its, i.id.key ≤ l.id.key := by
  obtain ⟨pre, rfl⟩ := getLast?_eq_some_iff.mp hl
  intro i hi
  rcases mem_append.mp hi with hi | hi
  · unfold Ascending at h
    rw [map_append, pairwise_append] at h
    exact Nat.le_of_lt (h.2.2 _ (mem_map_of_mem hi) _ (by simp))
  · rw [mem_singleton.mp hi]

lemma ascending_append {as bs} : Ascending (as ++ bs) ↔ Ascending as ∧ Ascending bs ∧
      ∀ i ∈ as, ∀ j ∈ bs, i.id.key < j.id.key := by
  unfold Ascending
  rw [map_append, pairwise_append]
  simp

lemma removeNode_minid (ha : a.strategy = .minid id) {length node} (h : Ascending node.items)
    (hremove : removeNode a length node = true) : ∀ i ∈ node.items, i.id.key < id.key := by
  intro i hi
  unfold removeNode at hremove
  rw [ha] at hremove
  dsimp only at hremove
  split at hremove
  · rename_i l hl
    have hle := key_le_getLast h hl i hi
    have hlt := compareID_neg.mp (of_decide_eq_true hremove)
    omega
  · cases hremove

lemma trimNodes_maxlen {n} (ha : a.strategy = .maxlen n)
    (hexact : a.approx = false) (hlimit : a.limit = 0) :
    ∀ (nodes : List Node) (length deleted : Nat), (∀ node ∈ nodes, Counted node) →
      length = (liveItems (items nodes)).length →
      (trimNodes a nodes length deleted).2.1 = min length n
  | [], _, _, _, hlength => by simp [trimNodes, hlength]
  | node :: rest, length, deleted, hcounted, hlength => by
    have hnode := (hcounted node mem_cons_self).count
    rw [items_cons, liveItems_append, length_append] at hlength
    rw [trimNodes]
    split
    · rename_i hshort
      simp only [shortEnough, ha, decide_eq_true_eq] at hshort
      exact (Nat.min_eq_left hshort).symm
    rw [if_neg (fun h => h.1 hlimit)]
    split
    · rename_i hremove
      simp only [removeNode, ha, decide_eq_true_eq] at hremove
      rw [trimNodes_maxlen ha hexact hlimit rest (length - node.count) (deleted + node.count)
        (fun n hn => hcounted n (mem_cons_of_mem node hn)) (by omega)]
      omega
    rename_i hremove
    simp only [removeNode, ha, decide_eq_true_eq] at hremove
    rw [if_neg (by simp [hexact])]
    have hmarked := trimItems_maxlen ha length node.items (by omega)
    dsimp only
    omega

lemma trimNodes_minid (ha : a.strategy = .minid id)
    (hexact : a.approx = false) (hlimit : a.limit = 0) :
    ∀ (nodes : List Node) (length deleted : Nat), (∀ node ∈ nodes, Counted node) →
      Ascending (items nodes) → liveItems (items (trimNodes a nodes length deleted).1) =
        (liveItems (items nodes)).filter fun e => decide (id.key ≤ e.1.key)
  | [], _, _, _, _ => rfl
  | node :: rest, length, deleted, hcounted, hasc => by
    rw [items_cons, ascending_append] at hasc
    obtain ⟨hascNode, hascRest, hacross⟩ := hasc
    rw [trimNodes, if_neg (by simp [shortEnough, ha]), if_neg (fun h => h.1 hlimit), items_cons,
      liveItems_append, filter_append]
    split
    · rename_i hremove
      have hbelow := removeNode_minid ha hascNode hremove
      rw [filter_eq_nil_iff.mpr fun e he => ?_]
      · exact trimNodes_minid ha hexact hlimit rest _ _
          (fun n hn => hcounted n (mem_cons_of_mem node hn)) hascRest
      obtain ⟨i, hi, hie⟩ := mem_liveItems he
      simpa [← hie] using hbelow i hi
    rename_i hremove
    rw [if_neg (by simp [hexact])]
    obtain ⟨l, hl⟩ : ∃ l, node.items.getLast? = some l :=
      Option.isSome_iff_exists.mp (by simp [(hcounted node mem_cons_self).nonempty])
    simp only [removeNode, ha, hl, decide_eq_true_eq, compareID_neg] at hremove
    -- A later node lies above the last entry of this one.
    have habove : ∀ j ∈ items rest, id.key ≤ j.id.key := fun j hj => by
      have hlt := hacross l (mem_of_getLast? hl) j hj
      omega
    rw [items_cons, liveItems_append, trimItems_minid ha length node.items hascNode,
      live_filter_self habove]

lemma trimNodes_approx (happrox : a.approx = true) :
    ∀ (nodes : List Node) (length deleted : Nat), Ascending (items nodes) →
      ∃ pre, nodes = pre ++ (trimNodes a nodes length deleted).1 ∧
        ∀ id, a.strategy = .minid id → ∀ i ∈ items pre, i.id.key < id.key
  | [], _, _, _ => ⟨[], rfl, by simp⟩
  | node :: rest, length, deleted, hasc => by
    rw [items_cons, ascending_append] at hasc
    rw [trimNodes]
    split
    · exact ⟨[], rfl, by simp⟩
    split
    · exact ⟨[], rfl, by simp⟩
    split
    · rename_i hremove
      obtain ⟨pre, hpre, hbelow⟩ := trimNodes_approx happrox rest (length - node.count)
        (deleted + node.count) hasc.2.1
      refine ⟨node :: pre, by rw [cons_append, ← hpre], ?_⟩
      intro id ha i hi
      rcases mem_append.mp hi with hi | hi
      · exact removeNode_minid ha hasc.1 hremove i hi
      · exact hbelow id ha i hi
    · exact ⟨[], rfl, by simp⟩

end Redis.Streams.TrimCut
