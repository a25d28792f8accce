import Redis.Streams.TrimCut

/-! # Trimming on a replica

An approximate trim removes a front part of the live entries. The rewritten command names that
part without regard to the nodes, by the number of entries or the first ID left, and an exact
trim removes just that part of any stream with the same live entries. -/
namespace Redis.Streams.TrimReplication
open List Trim TrimCut

/-! ## Trimming and its rewriting -/

lemma streamTrim_live (s : Stream) (a : TrimArgs) :
    live (streamTrim s a).1 = liveItems (items (trimNodes a s.nodes s.length 0).1) := rfl

variable {s : Stream} {a : TrimArgs} {o : TrimOption} {c : Config} {fields : Fields} {id : StreamID}

lemma streamTrim_wellFormed (h : WellFormed s) (a : TrimArgs) : WellFormed (streamTrim s a).1 := by
  obtain ⟨removed, htrim⟩ := trimNodes_trimmed a s.nodes s.length 0 h.counted
  obtain ⟨gone, hgone⟩ := htrim.ids
  have hlive := congrArg List.length htrim.live
  rw [length_append] at hlive
  refine ⟨htrim.counted, ?_, ?_, ?_⟩
  · have hasc := h.ascending
    unfold Ascending at hasc ⊢
    rw [hgone] at hasc
    exact (pairwise_append.mp hasc).2.1
  · have hlength : s.length = (liveItems (items s.nodes)).length := h.length
    change (trimNodes a s.nodes s.length 0).2.1 = _
    rw [streamTrim_live, htrim.length]
    omega
  intro i hi
  have hmem : i.id ∈ (items s.nodes).map (·.id) := by
    rw [hgone]
    exact mem_append_right _ (mem_map_of_mem hi)
  obtain ⟨j, hj, hji⟩ := mem_map.mp hmem
  have hle := h.bounded j hj
  rwa [hji] at hle

lemma streamTrim_exact (h : WellFormed s) (hexact : a.approx = false) (hlimit : a.limit = 0) :
    ∃ removed, live s = removed ++ live (streamTrim s a).1 ∧
      IsCut a.strategy removed (live (streamTrim s a).1) := by
  obtain ⟨removed, htrim⟩ := trimNodes_trimmed a s.nodes s.length 0 h.counted
  rw [streamTrim_live]
  refine ⟨removed, htrim.live, ?_⟩
  cases hstrategy : a.strategy with
  | maxlen n =>
    have hleft := trimNodes_maxlen hstrategy hexact hlimit s.nodes _ 0 h.counted h.length
    have hlength : s.length = (liveItems (items s.nodes)).length := h.length
    rw [htrim.live, length_append] at hlength
    rw [htrim.length] at hleft
    unfold IsCut
    omega
  | minid id =>
    apply isCut_of_filter
    rw [← htrim.live]
    exact trimNodes_minid hstrategy hexact hlimit s.nodes _ 0 h.counted h.ascending

/-- The first ID of the nodes, of a tombstone perhaps, is below all others. -/
lemma firstEdgeID_le {nodes} (h : Ascending (items nodes)) :
    ∀ i ∈ items nodes, (firstEdgeID nodes false).key ≤ i.id.key := by
  intro i hi
  cases hits : items nodes with
  | nil =>
    rw [hits] at hi
    cases hi
  | cons j js =>
    have hfirst : firstEdgeID nodes false = j.id := by simp [firstEdgeID, hits]
    rw [hits] at h hi
    rw [hfirst]
    rcases mem_cons.mp hi with rfl | hi
    · exact le_rfl
    · exact Nat.le_of_lt ((pairwise_cons.mp h).1 _ (mem_map_of_mem hi))

/-- An approximate trim leaves what the rewritten strategy says. -/
lemma streamTrim_rewritten (h : WellFormed s)
    (happrox : a.approx = true) (ho : o.approx = true) (hstrategy : a.strategy = o.strategy) :
    ∃ removed, live s = removed ++ live (streamTrim s a).1 ∧
      IsCut (rewriteTrim (streamTrim s a).1 o).strategy removed (live (streamTrim s a).1) := by
  obtain ⟨pre, hpre, hbelow⟩ := trimNodes_approx happrox s.nodes s.length 0 h.ascending
  obtain ⟨post, hpost⟩ : ∃ post, post = (trimNodes a s.nodes s.length 0).1 := ⟨_, rfl⟩
  have hafter := streamTrim_wellFormed h a
  have hnodes : (streamTrim s a).1.nodes = post := hpost.symm
  rw [← hpost] at hpre
  have hlive : live s = liveItems (items pre) ++ live (streamTrim s a).1 := by
    unfold live
    rw [hnodes, hpre, items_append, liveItems_append]
  refine ⟨liveItems (items pre), hlive, ?_⟩
  unfold rewriteTrim
  rw [if_pos ho]
  cases hs : o.strategy with
  | maxlen n =>
    dsimp only [IsCut]
    rw [hafter.length, Nat.add_sub_cancel]
  | minid id =>
    rw [hnodes]
    have hasc := h.ascending
    rw [hpre, items_append, ascending_append] at hasc
    refine ⟨?_, ?_⟩
    · intro e he
      obtain ⟨i, hi, hie⟩ := mem_liveItems he
      rw [← hie]
      cases hits : items post with
      | nil =>
        -- Nothing is left: the greatest ID stands for the first one.
        have hmax : firstEdgeID post false = .max := by simp [firstEdgeID, hits]
        have hlt := hbelow id (by rw [hstrategy, hs]) i hi
        have hle := key_le_max id
        rw [hmax]
        omega
      | cons j js =>
        have hfirst : firstEdgeID post false = j.id := by simp [firstEdgeID, hits]
        rw [hfirst]
        exact hasc.2.2 i hi j (by rw [hits]; exact mem_cons_self)
    · intro e he
      unfold live at he
      rw [hnodes] at he
      obtain ⟨i, hi, hie⟩ := mem_liveItems he
      rw [← hie]
      exact firstEdgeID_le hasc.2.1 i hi

/-! ## Adding an entry -/

lemma items_appendNodes (c : Config) (i : Item) (nodes : List Node) :
    items (appendNodes c i nodes) = items nodes ++ [i] := by
  unfold appendNodes
  split
  · rename_i tail htail
    obtain ⟨pre, rfl⟩ := getLast?_eq_some_iff.mp htail
    split
    · simp [items]
    · simp [items]
  rename_i hnone
  rw [getLast?_eq_none_iff.mp hnone]
  rfl

lemma counted_appendNodes (c : Config) {i} (hi : i.deleted = false) {nodes}
    (h : ∀ node ∈ nodes, Counted node) : ∀ node ∈ appendNodes c i nodes, Counted node := by
  have hone : Counted ⟨1, 0, [i]⟩ := ⟨by simp, by simp [liveItems, hi], rfl⟩
  unfold appendNodes
  split
  · rename_i tail htail
    obtain ⟨pre, rfl⟩ := getLast?_eq_some_iff.mp htail
    obtain ⟨hpre, htail⟩ := forall_mem_append.mp h
    have htail := htail tail mem_cons_self
    split
    · exact forall_mem_append.mpr ⟨h, forall_mem_singleton.mpr hone⟩
    rw [dropLast_concat]
    refine forall_mem_append.mpr ⟨hpre, forall_mem_singleton.mpr ⟨by simp, ?_, ?_⟩⟩
    · simp [liveItems_cons_live hi, htail.count]
    have hmarked := htail.marked
    simp only [length_append, length_singleton]
    omega
  · exact forall_mem_singleton.mpr hone

lemma streamAppendItem_spec {now s' arg} (h : WellFormed s)
    (happend : streamAppendItem c now s arg fields = some (s', id)) :
    WellFormed s' ∧ live s' = live s ++ [(id, fields)] ∧ s'.lastId = id ∧
      s.lastId.key < id.key ∧ totelelen fields ≤ listpackMaxSize := by
  unfold streamAppendItem at happend
  split at happend
  · cases happend
  split at happend
  · cases happend
  split at happend
  · cases happend
  rename_i id' _ hcompare hsize
  cases happend
  have hgreater : s.lastId.key < id.key := compareID_pos.mp (Int.not_le.mp hcompare)
  have hlive : liveItems (items (appendNodes c ⟨id, false, fields⟩ s.nodes)) =
      live s ++ [(id, fields)] := by
    rw [items_appendNodes, liveItems_append]
    rfl
  refine ⟨⟨counted_appendNodes c rfl h.counted, ?_, ?_, ?_⟩, hlive, rfl, hgreater,
    Nat.le_of_not_lt hsize⟩
  · rw [items_appendNodes, ascending_append]
    refine ⟨h.ascending, by simp [Ascending], ?_⟩
    intro i hi j hj
    rw [mem_singleton.mp hj]
    exact Nat.lt_of_le_of_lt (h.bounded i hi) hgreater
  · dsimp only [live]
    rw [hlive, length_append, h.length]
    rfl
  intro i hi
  rw [items_appendNodes] at hi
  rcases mem_append.mp hi with hi | hi
  · exact Nat.le_of_lt (Nat.lt_of_le_of_lt (h.bounded i hi) hgreater)
  · rw [mem_singleton.mp hi]

/-- An entry with the ID it got elsewhere is added to any stream with that last ID. -/
lemma streamAppendItem_given (c : Config) (now : UInt64) (hid : s.lastId.key < id.key)
    (hsize : totelelen fields ≤ listpackMaxSize) :
    ∃ s', streamAppendItem c now s (.given id) fields = some (s', id) := by
  have hcompare : ¬ streamCompareID id s.lastId ≤ 0 := Int.not_le.mpr (compareID_pos.mpr hid)
  unfold streamAppendItem newID
  simp only [hcompare, Nat.not_lt.mpr hsize]
  exact ⟨_, rfl⟩

/-! ## Master and replica -/

/-- The replica shows what the master shows, in whatever nodes it keeps it. -/
structure Replicates (m r : Stream) : Prop where
  master : WellFormed m
  replica : WellFormed r
  live : live r = live m
  lastId : r.lastId = m.lastId

/-- The replica executes what the master propagates. -/
def replay (c : Config) (now : UInt64) (r : Stream) : Option Command → Stream
  | none => r
  | some cmd => (execute c true now r cmd).1

lemma parse_master (h : o.parse c false = some a) :
    a.strategy = o.strategy ∧ a.approx = o.approx ∧ (o.approx = false → a.limit = 0) := by
  unfold TrimOption.parse at h
  rw [if_neg Bool.false_ne_true] at h
  split at h
  · split at h
    · rename_i happrox
      cases h
      exact ⟨rfl, rfl, fun hexact => absurd happrox (by simp [hexact])⟩
    · cases h
  split at h
  · rename_i happrox
    cases h
    exact ⟨rfl, rfl, fun hexact => absurd happrox (by simp [hexact])⟩
  cases h
  exact ⟨rfl, rfl, fun _ => rfl⟩

lemma parse_replica (c : Config) (o : TrimOption) :
    o.parse c true = some ⟨o.strategy, o.approx, 0⟩ := rfl

lemma rewriteTrim_approx (s : Stream) (o : TrimOption) : (rewriteTrim s o).approx = false := by
  unfold rewriteTrim
  split
  · rfl
  rename_i hexact
  simpa using hexact

lemma rewriteTrim_exact (s : Stream) (h : o.approx = false) : rewriteTrim s o = o := by
  simp [rewriteTrim, h]

variable {m r : Stream}

lemma trim_replicates (h : Replicates m r) (hparse : o.parse c false = some a) :
    Replicates (streamTrim m a).1
      (streamTrim r ⟨(rewriteTrim (streamTrim m a).1 o).strategy, false, 0⟩).1 := by
  obtain ⟨hstrategy, happrox, hlimit⟩ := parse_master hparse
  obtain ⟨removed, hlive, hcut⟩ : ∃ removed, live m = removed ++ live (streamTrim m a).1 ∧
      IsCut (rewriteTrim (streamTrim m a).1 o).strategy removed (live (streamTrim m a).1) := by
    cases ho : o.approx with
    | true => exact streamTrim_rewritten h.master (happrox.trans ho) ho hstrategy
    | false =>
      rw [rewriteTrim_exact _ ho, ← hstrategy]
      exact streamTrim_exact h.master (happrox.trans ho) (hlimit ho)
  obtain ⟨removed', hlive', hcut'⟩ := streamTrim_exact h.replica
    (a := ⟨(rewriteTrim (streamTrim m a).1 o).strategy, false, 0⟩) rfl rfl
  refine ⟨streamTrim_wellFormed h.master a, streamTrim_wellFormed h.replica _, ?_, h.lastId⟩
  refine cut_unique hcut' hcut ?_
  rw [← hlive', ← hlive, h.live]

lemma live_of_nothing_deleted (h : WellFormed s)
    (hzero : (streamTrim s a).2 = 0) : live (streamTrim s a).1 = live s := by
  obtain ⟨removed, htrim⟩ := trimNodes_trimmed a s.nodes s.length 0 h.counted
  have hdeleted : (streamTrim s a).2 = 0 + removed.length := htrim.deleted
  have hnil : removed = [] := length_eq_zero_iff.mp (by omega)
  rw [streamTrim_live]
  unfold live
  rw [htrim.live, hnil, nil_append]

lemma xtrim_replicates (cm cr : Config) (now : UInt64) (h : Replicates m r) (o : TrimOption) :
    Replicates (xtrimCommand cm false m o).1 (replay cr now r (xtrimCommand cm false m o).2) := by
  unfold xtrimCommand
  split
  · exact h
  rename_i a hparse
  dsimp only
  split
  · have htrim := trim_replicates h hparse
    simp only [replay, execute, xtrimCommand, parse_replica, rewriteTrim_approx]
    split
    · exact htrim
    · exact htrim
  rename_i hzero
  have hzero : (streamTrim m a).2 = 0 := not_not.mp hzero
  refine ⟨streamTrim_wellFormed h.master a, h.replica, ?_, h.lastId⟩
  rw [live_of_nothing_deleted h.master hzero]
  exact h.live

lemma append_replicates {cm} (cr : Config) {now} (now' : UInt64) {m' arg} (h : Replicates m r)
    (happend : streamAppendItem cm now m arg fields = some (m', id)) :
    ∃ r', streamAppendItem cr now' r (.given id) fields = some (r', id) ∧ Replicates m' r' := by
  obtain ⟨hwell, hlive, hlast, hgreater, hsize⟩ := streamAppendItem_spec h.master happend
  obtain ⟨r', hr'⟩ := streamAppendItem_given cr now' (s := r) (by rw [h.lastId]; exact hgreater)
    hsize
  obtain ⟨hwell', hlive', hlast', _⟩ := streamAppendItem_spec h.replica hr'
  refine ⟨r', hr', hwell, hwell', ?_, ?_⟩
  · rw [hlive', hlive, h.live]
  · rw [hlast', hlast]

lemma xadd_replicates (cm cr : Config) (now now' : UInt64) (h : Replicates m r)
    (arg : IdArg) (fields : Fields) (trim : Option TrimOption) :
    Replicates (xaddCommand cm false now m arg fields trim).1
      (replay cr now' r (xaddCommand cm false now m arg fields trim).2) := by
  have hnotZero : ∀ {id : StreamID}, m.lastId.key < id.key → IdArg.given id ≠ .given .zero := by
    rintro id hid ⟨⟩
    have hzero : StreamID.zero.key = 0 := rfl
    omega
  unfold xaddCommand
  split
  · exact h
  split
  · exact h
  have hmax' : r.lastId ≠ .max := by rwa [h.lastId]
  cases trim with
  | none =>
    dsimp only
    split
    · exact h
    rename_i m' id happend
    obtain ⟨r', hr', hrep⟩ := append_replicates cr now' h happend
    have hid := hnotZero (streamAppendItem_spec h.master happend).2.2.2.1
    simp only [replay, execute, xaddCommand, hid, hmax', hr']
    exact hrep
  | some o =>
    dsimp only
    split
    · exact h
    rename_i a hparse
    split
    · exact h
    rename_i m' id happend
    obtain ⟨r', hr', hrep⟩ := append_replicates cr now' h happend
    have hid := hnotZero (streamAppendItem_spec h.master happend).2.2.2.1
    simp only [replay, execute, xaddCommand, hid, hmax', parse_replica,
      rewriteTrim_approx, hr']
    exact trim_replicates hrep hparse

lemma execute_replicates (cm cr : Config) (now now' : UInt64) (h : Replicates m r) (cmd : Command) :
    Replicates (execute cm false now m cmd).1
      (replay cr now' r (execute cm false now m cmd).2) := by
  cases cmd with
  | xadd arg fields trim => exact xadd_replicates cm cr now now' h arg fields trim
  | xtrim o => exact xtrim_replicates cm cr now' h o

end Redis.Streams.TrimReplication
