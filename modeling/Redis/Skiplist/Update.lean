import Redis.Skiplist.Relink

/-! # Inserting, deleting and rescoring a node -/
namespace Redis.Skiplist.Update
open List
open Lib Outcome Model Links Search Relink

variable {S : Type} {ts : List (Tower S)} {m n level : Nat} {zsl : Zskiplist S}

/-! ## Parts of a valid list -/

lemma lastId_eq (a : List (Tower S)) : (a.getLast?.map Tower.id <|> none) = lastId a := by
  cases h : a.getLast? with
  | none | some t => simp [lastId, h]

lemma Valid.behind {pre suf : List (Tower S)} (h : Valid zsl (pre ++ suf)) :
    Linked zsl.nodes (fun _ => []) (lastId pre) suf := by
  have hl := (linked_append.mp h.linked).2
  rwa [lastId_eq] at hl

lemma linked_whole {pre s s' : List (Tower S)} {top : Nat}
    (h : Mixed zsl pre (upTo top s' s) top) (hlow : Low top pre)
    (hs : Linked zsl.nodes (fun _ => []) (lastId pre) s') :
    Linked zsl.nodes (fun _ => []) none (pre ++ s') ∧
      ∀ i < top, zsl.header[i]? = some (link i (pre ++ s')) := by
  refine ⟨linked_append.mpr ⟨?_, by rwa [lastId_eq]⟩, fun i hi => ?_⟩
  · refine h.linked.congr (fun _ _ => rfl) fun a t b hab j hj => ?_
    have ht : t.height ≤ top := hlow t (by rw [hab]; simp)
    rw [append_nil, upTo, if_pos (by omega)]
  · rw [h.header i hi, upTo, if_pos hi]

lemma Linked.rebase {u : Tower S} {suf : List (Tower S)} {back : Option Nat}
    (back' : Option Nat) (h : Linked zsl.nodes (fun _ => []) back (u :: suf))
    (hnodup : ((u :: suf).map Tower.id).Nodup) :
    ∃ n, zsl.setBackward u.id back' = .ok (zsl.setNode u.id n) ∧
      Linked (zsl.setNode u.id n).nodes (fun _ => []) back' (u :: suf) := by
  obtain ⟨hn, hl⟩ := h
  refine ⟨some (u.node back' fun j => link j (suf ++ [])), ?_, if_pos rfl, ?_⟩
  · rw [Zskiplist.setBackward, Zskiplist.node, hn]
    rfl
  refine hl.of_nodes fun v hv => if_neg fun he => ?_
  exact (nodup_cons.mp hnodup).1 (he ▸ mem_map_of_mem hv)

lemma Valid.setNode (h : Valid zsl ts) {x : Nat}
    (hx : x ∉ ts.map Tower.id) (n : Option (ZskiplistNode S)) : Valid (zsl.setNode x n) ts := by
  refine { h with linked := h.linked.of_nodes fun t ht => if_neg fun he => ?_ }
  exact hx (he ▸ mem_map_of_mem ht)

lemma take_update (h : m ≤ n) (f : Nat → Place × Nat) :
    ((List.range n).map f).take m = (List.range m).map f := by
  rw [← map_take, take_range, Nat.min_eq_left h]

lemma lastId_append (a : List (Tower S)) {b : List (Tower S)} (hb : b ≠ []) :
    lastId (a ++ b) = lastId b := by
  cases hl : b.getLast? with
  | none => exact absurd (getLast?_eq_none_iff.mp hl) hb
  | some t =>
    rw [lastId, lastId, getLast?_append, hl]
    rfl

lemma lastId_cons (t : Tower S) {b : List (Tower S)} (hb : b ≠ []) : lastId (t :: b) = lastId b :=
  lastId_append [t] hb

lemma setNextBackward_spec {z : Zskiplist S} {x : Nat} {suf : List (Tower S)} {back : Option Nat}
    (b : Option Nat) (hzero : z.levelAt (.node x) 0 = .ok (link 0 suf))
    (hsuf : Linked z.nodes (fun _ => []) back suf) (hnodup : (suf.map Tower.id).Nodup)
    (hpos : ∀ u ∈ suf, 0 < u.height) :
    ∃ z', setNextBackward z x b = .ok z' ∧ z'.header = z.header ∧ z'.fresh = z.fresh ∧
      z'.length = z.length ∧ z'.level = z.level ∧ (z'.tail = if suf = [] then b else z.tail) ∧
      (∀ y, y ∉ suf.map Tower.id → z'.nodes y = z.nodes y) ∧
      Linked z'.nodes (fun _ => []) b suf := by
  rw [setNextBackward, hzero]
  cases suf with
  | nil => exact ⟨{ z with tail := b }, rfl, rfl, rfl, rfl, rfl, rfl, fun _ _ => rfl, trivial⟩
  | cons u suf =>
    obtain ⟨m, hset, hl⟩ := Linked.rebase b hsuf hnodup
    rw [link_high (hpos u mem_cons_self)]
    refine ⟨_, hset, rfl, rfl, rfl, rfl, rfl, fun y hy => if_neg fun he : y = u.id => ?_, hl⟩
    exact hy (he ▸ mem_cons_self ..)

/-! ## Deletion -/

lemma lowerLevel_spec {header : List Level} : ∀ {level : Nat}, 0 < level →
    Low level ts → (∀ i < level, header[i]? = some (link i ts)) →
    ∃ l, lowerLevel header level = .ok l ∧ 0 < l ∧ l ≤ level ∧ Low l ts ∧
      (l = 1 ∨ ∃ t ∈ ts, t.height = l)
  | 1, _, hlow, _ => ⟨1, rfl, Nat.one_pos, le_rfl, hlow, Or.inl rfl⟩
  | level + 2, _, hlow, hheader => by
    rw [lowerLevel, load_eq_ok.mpr (hheader (level + 1) (by omega)), bind_ok]
    rcases low_or_first (level + 1) ts with hl | ⟨a, t, b, rfl, ht, ha⟩
    · obtain ⟨l, hrun, hpos, hle, hlow', hex⟩ := lowerLevel_spec (Nat.succ_pos level) hl
        fun i hi => hheader i (by omega)
      refine ⟨l, ?_, hpos, by omega, hlow', hex⟩
      rw [link_of_low hl, if_pos rfl, hrun]
    have hmem : t ∈ a ++ t :: b := by simp
    have := hlow t hmem
    refine ⟨level + 2, ?_, by omega, le_rfl, hlow, Or.inr ⟨t, hmem, by omega⟩⟩
    rw [link_append_low ha, link_high ht, if_neg (by simp)]

section
variable {zsl : Zskiplist S} {pre suf : List (Tower S)} {t : Tower S}

lemma forall_mem_insert {P : Tower S → Prop} : (∀ u ∈ pre ++ t :: suf, P u) ↔
    P t ∧ ∀ u ∈ pre ++ suf, P u := by
  rw [forall_mem_append, forall_mem_cons, forall_mem_append]
  exact and_left_comm

lemma nodup_parts {a b : List (Tower S)} {t : Tower S} (h : ((a ++ t :: b).map Tower.id).Nodup) :
    t.id ∉ a.map Tower.id ∧ t.id ∉ b.map Tower.id ∧ ((a ++ b).map Tower.id).Nodup ∧
      (b.map Tower.id).Nodup ∧ ∀ x ∈ a.map Tower.id, x ∉ b.map Tower.id := by
  rw [map_append, map_cons, nodup_middle, nodup_cons, ← map_append] at h
  obtain ⟨ht, hn⟩ := h
  rw [map_append] at ht
  refine ⟨fun hm => ht (mem_append_left _ hm), fun hm => ht (mem_append_right _ hm), hn, ?_⟩
  rw [map_append] at hn
  obtain ⟨_, hb, hab⟩ := nodup_append.mp hn
  exact ⟨hb, fun x hx hxb => hab x hx x hxb rfl⟩

/-- Level `i` of a node that is linked as the towers behind it say. -/
lemma levelAt_node {z : Zskiplist S} {back : Option Nat} {i : Nat}
    (h : z.node t.id = .ok (t.node back fun j => link j suf)) (hi : i < t.height) :
    z.levelAt (.node t.id) i = .ok (link i suf) := by
  rw [Zskiplist.levelAt, h]
  exact load_range hi _

lemma Frame.node {z : Zskiplist S} {top : Nat} (hf : Frame (pre.map Tower.id) top zsl z)
    (h : Valid zsl (pre ++ t :: suf)) : z.node t.id = .ok (t.node (lastId pre) fun j => link j suf) := by
  rw [Zskiplist.node, hf.nodes _ (nodup_parts h.nodup).1]
  exact Valid.node h

lemma unlinkLevel_turn (h : Valid zsl (pre ++ t :: suf)) {i : Nat} {z : Zskiplist S}
    (hi : i < zsl.level)
    (hP : Mixed z pre (upTo i suf (t :: suf)) zsl.level ∧ Frame (pre.map Tower.id) zsl.level zsl z) :
    ∃ z', unlinkLevel t.id z i (lastAt i pre) = .ok z' ∧
      Mixed z' pre (upTo (i + 1) suf (t :: suf)) zsl.level ∧
        Frame (pre.map Tower.id) zsl.level zsl z' := by
  obtain ⟨hmix, hframe⟩ := hP
  obtain ⟨htpre, htsuf, _⟩ := nodup_parts h.nodup
  obtain ⟨hread, z', hset, hmix', hframe'⟩ := hmix.turn hi
  refine ⟨z', ?_, hmix', hframe.trans hframe'⟩
  rw [unlinkLevel, hread, bind_ok]
  by_cases ht : i < t.height
  · rw [link_high ht, if_pos rfl, levelAt_node (Frame.node hframe h) ht, bind_ok, ← hset]
    congr 2
    dsimp only
    omega
  · have hne : (link i suf).forward ≠ some t.id := fun he => htsuf (forward_mem he)
    rw [link_low (Nat.not_lt.mp ht), if_neg hne]
    congr 2

lemma zslDeleteNode_spec (h : Valid zsl (pre ++ t :: suf)) (hn : zsl.level ≤ n) :
    ∃ zsl', zslDeleteNode zsl t.id ((List.range n).map fun j => lastAt j pre) = .ok zsl' ∧
      Valid zsl' (pre ++ suf) ∧ zsl'.fresh = zsl.fresh ∧ zsl'.level ≤ zsl.level := by
  obtain ⟨htpre, htsuf, hnodup, hsufnodup, hdis⟩ := nodup_parts h.nodup
  obtain ⟨-, hlow⟩ := forall_mem_insert.mp h.low
  obtain ⟨htpos, hpositive⟩ := forall_mem_insert.mp h.positive
  obtain ⟨z, hloop, hmix, hframe⟩ := forLevels_spec pre
    (fun i z => Mixed z pre (upTo i suf (t :: suf)) zsl.level ∧
      Frame (pre.map Tower.id) zsl.level zsl z)
    (fun i z _ hi hP => unlinkLevel_turn h hi hP) (Nat.zero_le _)
    ⟨mixed_of_valid h suf, Frame.refl _ _ _⟩
  rw [drop_zero] at hloop
  have hnode := Frame.node hframe h
  have hsuf : Linked z.nodes (fun _ => []) (some t.id) suf :=
    (Valid.behind h).2.of_nodes fun u hu =>
      hframe.nodes _ fun hm => hdis _ hm (mem_map_of_mem hu)
  obtain ⟨z2, hback, hheader2, hfresh2, hlength2, hlevel2, htail2, hnodes2, hsuf2⟩ :=
    setNextBackward_spec (lastId pre) (levelAt_node hnode htpos) hsuf hsufnodup
      (forall_mem_append.mp hpositive).2
  have htail3 : z2.tail = lastId (pre ++ suf) := by
    rw [htail2, hframe.tail, h.tail]
    split
    · rename_i hnil
      rw [hnil, append_nil]
    rename_i hnil
    rw [lastId_append pre hnil, lastId_append pre (cons_ne_nil _ _), lastId_cons t hnil]
  have hmix2 := hmix.of_nodes (fun u hu => hnodes2 _ (hdis _ (mem_map_of_mem hu))) hheader2
  obtain ⟨hlinked, hheads⟩ := linked_whole hmix2 (low_append.mp hlow).1 hsuf2
  have hlevel3 : z2.level = zsl.level := hlevel2.trans hframe.level
  obtain ⟨l, hlower, hpos, hle, hlow', hex⟩ := lowerLevel_spec h.level_pos hlow hheads
  refine ⟨{ z2 with level := l, length := z2.length - 1 }, ?_,
    ⟨hlinked, fun i hi => hheads i (hi.trans_le hle), fun i hi hmax => ?_, hnodup,
      ?_, htail3, ?_, hpositive, hpos, hle.trans h.level_le, hlow', hex⟩,
      hfresh2.trans hframe.fresh, hle⟩
  · rw [zslDeleteNode, take_update hn, hloop, bind_ok, hnode, bind_ok]
    dsimp only [Tower.node]
    rw [hback, bind_ok, hlevel3, hlower]
    rfl
  · by_cases hlt : i < zsl.level
    · refine ⟨(pre ++ suf).length, ?_⟩
      have hl : Low i (pre ++ suf) := fun u hu => Nat.le_trans (hlow' u hu) hi
      rw [hheads i hlt, link_of_low hl]
    rw [hheader2, hframe.header i (Nat.not_lt.mp hlt)]
    exact h.unused i (Nat.not_lt.mp hlt) hmax
  · rw [hfresh2, hframe.fresh]
    exact (forall_mem_insert.mp h.fresh).2
  · have hlen := h.length
    dsimp only
    rw [hlength2, hframe.length, hlen, length_append, length_append, length_cons]
    omega

end

/-! ## Insertion -/

section
variable {zsl : Zskiplist S} {pre suf : List (Tower S)}

lemma drop_update (h : Low m ts) :
    ((List.range n).map fun j => lastAt j ts).drop m = List.replicate (n - m) (Place.header, 0) := by
  refine eq_replicate_iff.mpr ⟨by simp, fun u hu => ?_⟩
  obtain ⟨k, hk, rfl⟩ := mem_iff_getElem.mp hu
  rw [getElem_drop, getElem_map, getElem_range]
  exact lastAt_low fun t ht => Nat.le_trans (h t ht) (Nat.le_add_right ..)

/-- What `raiseLevel` leaves as it was. -/
structure Raised (ts : List (Tower S)) (top : Nat) (zsl z : Zskiplist S) : Prop where
  nodes : z.nodes = zsl.nodes
  fresh : z.fresh = zsl.fresh
  tail : z.tail = zsl.tail
  length : z.length = zsl.length
  header : ∀ i < top, z.header[i]? = some (link i ts)
  above : ∀ i, top ≤ i → z.header[i]? = zsl.header[i]?

lemma raiseLevel_spec (h : Valid zsl (pre ++ suf)) (hmax : level ≤ zskiplistMaxlevel) :
    ∃ z, raiseLevel zsl level ((List.range zsl.level).map fun j => lastAt j pre) =
        .ok (z, (List.range (max zsl.level level)).map fun j => lastAt j pre) ∧
      z.level = max zsl.level level ∧ Raised (pre ++ suf) (max zsl.level level) zsl z := by
  unfold raiseLevel
  by_cases hlt : zsl.level < level
  · have hlow : Low zsl.level pre := (low_append.mp h.low).1
    have hnew := drop_update (n := level) hlow
    have hturn : ∀ i z, zsl.level ≤ i → i < level → Raised (pre ++ suf) i zsl z →
        ∃ z', spanWhole zsl.length z i (lastAt i pre) = .ok z' ∧ Raised (pre ++ suf) (i + 1) zsl z' := by
      intro i z hlo hi hz
      -- the header has no node on this level yet
      obtain ⟨span, hspan⟩ := h.unused i hlo (hi.trans_le hmax)
      have hhead : z.header[i]? = some ⟨none, span⟩ := (hz.above i (Nat.le_refl i)).trans hspan
      have hlast : lastAt i pre = (.header, 0) :=
        lastAt_low fun t ht => Nat.le_trans (hlow t ht) hlo
      have hlink : link i (pre ++ suf) = ⟨none, zsl.length⟩ := by
        rw [link_of_low fun t ht => Nat.le_trans (h.low t ht) hlo, h.length]
      refine ⟨{ z with header := z.header.set i ⟨none, zsl.length⟩ }, ?_, hz.nodes, hz.fresh, hz.tail,
        hz.length, fun j hj => ?_, fun j hj => ?_⟩
      · rw [hlast]
        dsimp only [spanWhole, Zskiplist.levelAt, Zskiplist.setLevel]
        rw [load_eq_ok.mpr hhead]
        rfl
      · by_cases hji : i = j
        · subst hji
          rw [getElem?_set_self (List.getElem?_eq_some_iff.mp hhead).1, hlink]
        rw [getElem?_set_ne hji]
        exact hz.header j (by omega)
      · rw [getElem?_set_ne (by omega)]
        exact hz.above j (by omega)
    obtain ⟨z, hrun, hz⟩ := forLevels_spec pre _ hturn hlt.le
      ⟨rfl, rfl, rfl, rfl, h.header, fun _ _ => rfl⟩
    rw [hnew] at hrun
    rw [if_pos hlt, Nat.max_eq_right hlt.le]
    refine ⟨{ z with level }, ?_, rfl, { hz with }⟩
    dsimp only
    rw [hrun, bind_ok, ← hnew, ← take_update hlt.le, take_append_drop]
  · rw [if_neg hlt, Nat.max_eq_left (Nat.not_lt.mp hlt)]
    exact ⟨zsl, rfl, rfl, rfl, rfl, rfl, rfl, h.header, fun _ _ => rfl⟩

/-- The levels of the new node that are linked already. -/
def levelsUpTo (suf : List (Tower S)) (i level : Nat) : List Level :=
  (List.range i).map (fun j => link j suf) ++ List.replicate (level - i) ⟨none, 0⟩

lemma levelsUpTo_set (suf : List (Tower S)) {i : Nat} (h : i < level) :
    (levelsUpTo suf i level).set i (link i suf) = levelsUpTo suf (i + 1) level := by
  obtain ⟨k, hk⟩ : ∃ k, level - i = k + 1 := ⟨level - i - 1, by omega⟩
  have hk' : level - (i + 1) = k := by omega
  rw [levelsUpTo, levelsUpTo, hk, hk', replicate_succ]
  simp [range_succ]

/-- The state between two turns of the loops of `zslInsert`, where the first `m`
levels of the new node `t` are linked. -/
structure Linking (pre suf : List (Tower S)) (t : Tower S) (top i m : Nat) (z0 z : Zskiplist S) :
    Prop where
  mixed : Mixed z pre (upTo i (t :: suf) suf) top
  frame : Frame (t.id :: pre.map Tower.id) top z0 z
  node : z.nodes t.id = some ⟨t.ele, t.score, none, levelsUpTo suf m t.height⟩

variable {t : Tower S} {top i : Nat} {z0 z : Zskiplist S}

lemma linkLevel_turn (ht : t.id ∉ pre.map Tower.id) (hi : i < t.height) (htop : t.height ≤ top)
    (h : Linking pre suf t top i i z0 z) :
    ∃ z', linkLevel t.id pre.length z i (lastAt i pre) = .ok z' ∧
      Linking pre suf t top (i + 1) (i + 1) z0 z' := by
  have hlen : i < (levelsUpTo suf i t.height).length := by
    rw [levelsUpTo, length_append, length_map, length_range, length_replicate]
    omega
  obtain ⟨z1, hz1⟩ : ∃ z1, z1 = z.setNode t.id
      (some ⟨t.ele, t.score, none, levelsUpTo suf (i + 1) t.height⟩) := ⟨_, rfl⟩
  have hset1 : z.setLevel (.node t.id) i (link i suf) = .ok z1 := by
    dsimp only [Zskiplist.setLevel, Zskiplist.node]
    rw [h.node]
    rw [bind_ok, load_eq_ok.mpr (getElem?_eq_getElem hlen), bind_ok, levelsUpTo_set suf hi, hz1]
  have hmix1 : Mixed z1 pre (upTo i (t :: suf) suf) top := by
    rw [hz1]
    exact h.mixed.of_nodes (fun u hu => if_neg fun he : u.id = t.id =>
      ht (he ▸ mem_map_of_mem hu)) rfl
  have hframe1 : Frame (t.id :: pre.map Tower.id) top z z1 := by
    rw [hz1]
    exact ⟨fun x hx => if_neg fun he : x = t.id => hx (he ▸ mem_cons_self ..), fun _ _ => rfl, rfl,
      rfl, rfl, rfl⟩
  obtain ⟨hread, _⟩ := h.mixed.turn (hi.trans_le htop)
  obtain ⟨_, z2, hset2, hmix2, hframe2⟩ := hmix1.turn (hi.trans_le htop)
  rw [link_high hi] at hset2
  refine ⟨z2, ?_, hmix2, h.frame.trans (hframe1.trans (hframe2.mono fun x hx =>
    mem_cons_of_mem _ hx)), ?_⟩
  · rw [linkLevel, hread, bind_ok]
    rw [Nat.add_sub_cancel_left, hset1, bind_ok, hset2]
  rw [hframe2.nodes _ ht, hz1]
  exact if_pos rfl

lemma widenLevel_turn (ht : t.id ∉ pre.map Tower.id) (hlow : t.height ≤ i) (hi : i < top)
    (h : Linking pre suf t top i m z0 z) :
    ∃ z', widenLevel z i (lastAt i pre) = .ok z' ∧ Linking pre suf t top (i + 1) m z0 z' := by
  obtain ⟨hread, z1, hset, hmix, hframe⟩ := h.mixed.turn hi
  rw [link_low hlow] at hset
  refine ⟨z1, ?_, hmix, h.frame.trans (hframe.mono fun x hx => mem_cons_of_mem _ hx), ?_⟩
  · rw [widenLevel, hread]
    exact hset
  · rw [hframe.nodes _ ht, h.node]

lemma linkLoops_spec (ht : t.id ∉ pre.map Tower.id) (htop : t.height ≤ top)
    (h : Linking pre suf t top 0 0 z0 z) :
    ∃ z1 z2, forLevels (linkLevel t.id pre.length)
        (((List.range top).map fun j => lastAt j pre).take t.height) 0 z = .ok z1 ∧
      forLevels widenLevel (((List.range top).map fun j => lastAt j pre).drop t.height) t.height z1 =
        .ok z2 ∧ Linking pre suf t top top t.height z0 z2 := by
  obtain ⟨z1, hrun1, h1⟩ := forLevels_spec pre (fun i z => Linking pre suf t top i i z0 z)
    (fun i z _ hi hP => linkLevel_turn ht hi htop hP) (Nat.zero_le _) h
  obtain ⟨z2, hrun2, h2⟩ := forLevels_spec pre (fun i z => Linking pre suf t top i t.height z0 z)
    (fun i z hlo hi hP => widenLevel_turn ht hlo hi hP) htop h1
  exact ⟨z1, z2, by rw [take_update htop]; exact hrun1, hrun2, h2⟩

end

lemma levelsUpTo_self (suf : List (Tower S)) (n : Nat) :
    levelsUpTo suf n n = (List.range n).map fun j => link j suf := by
  rw [levelsUpTo, Nat.sub_self, replicate_zero, append_nil]

lemma endPlace_orNull (pre : List (Tower S)) : (endPlace pre).orNull = lastId pre := by
  rcases eq_nil_or_concat' pre with rfl | ⟨a, u, rfl⟩
  · rfl
  rw [endPlace_append, lastId, getLast?_append]
  rfl

lemma zslInsert_at [LinearOrder S] {pre suf : List (Tower S)}
    (h : Valid zsl (pre ++ suf)) (hpos : 0 < level) (hmax : level ≤ zskiplistMaxlevel)
    {score : S} {ele : Bytes} (hs : search zsl (fun _ n => precedes score ele n) =
      .ok ((List.range zsl.level).map fun j => lastAt j pre)) :
    ∃ zsl', zslInsert zsl level score ele = .ok (zsl', zsl.fresh) ∧
      Valid zsl' (pre ++ ⟨zsl.fresh, score, ele, level⟩ :: suf) := by
  obtain ⟨t, ht⟩ : ∃ t : Tower S, t = ⟨zsl.fresh, score, ele, level⟩ := ⟨_, rfl⟩
  have hid : t.id = zsl.fresh := by rw [ht]
  have hheight : t.height = level := by rw [ht]
  have hnew : ∀ u ∈ pre ++ suf, u.id ≠ t.id := fun u hu he => by
    have := h.fresh u hu
    omega
  have hnodup : ((pre ++ t :: suf).map Tower.id).Nodup := by
    rw [map_append, map_cons, nodup_middle, ← map_append]
    refine nodup_cons.mpr ⟨fun hm => ?_, h.nodup⟩
    obtain ⟨u, hu, he⟩ := mem_map.mp hm
    exact hnew u hu he
  obtain ⟨htpre, htsuf, _, hsufnodup, hdis⟩ := nodup_parts hnodup
  have hppos : ∀ u ∈ pre, 0 < u.height := fun u hu => h.positive u (mem_append_left _ hu)
  obtain ⟨top, htop⟩ : ∃ top, top = max zsl.level level := ⟨_, rfl⟩
  obtain ⟨z0, hraise, hlevel0, hz0⟩ := raiseLevel_spec h hmax
  rw [← htop] at hraise hlevel0 hz0
  obtain ⟨z1, hz1⟩ : ∃ z1, z1 = (zslCreateNode z0 level score ele).1 := ⟨_, rfl⟩
  have hx : (zslCreateNode z0 level score ele).2 = t.id := by rw [hid]; exact hz0.fresh
  have hnode1 : ∀ x, z1.nodes x = if x = t.id then
      some ⟨t.ele, t.score, none, levelsUpTo suf 0 t.height⟩ else zsl.nodes x := by
    intro x
    rw [hz1, ht]
    dsimp only [zslCreateNode, Zskiplist.setNode]
    rw [hz0.nodes, hz0.fresh]
    rfl
  have hstart : Linking pre suf t top 0 0 z1 z1 := by
    have hmix := mixed_of_valid h (t :: suf)
    refine ⟨⟨hmix.linked.of_nodes fun u hu => ?_, fun i hi => ?_, hmix.nodup⟩, Frame.refl _ _ _, ?_⟩
    · rw [hnode1, if_neg (hnew u (mem_append_left _ hu))]
    · rw [hz1]
      exact hz0.header i hi
    · rw [hnode1, if_pos rfl]
  obtain ⟨z2, z3, hloop1, hloop2, hdone⟩ := linkLoops_spec htpre (by omega) hstart
  -- the predecessor of the new node
  obtain ⟨z4, hz4⟩ : ∃ z4, z4 = z3.setNode t.id (some (t.node (lastId pre) fun j => link j suf)) :=
    ⟨_, rfl⟩
  have hback : z3.setBackward t.id (lastId pre) = .ok z4 := by
    rw [Zskiplist.setBackward, Zskiplist.node, hdone.node, levelsUpTo_self, hz4]
    rfl
  have hnode4 : z4.nodes t.id = some (t.node (lastId pre) fun j => link j suf) := by
    rw [hz4]
    exact if_pos rfl
  have hother4 : ∀ u ∈ pre ++ suf, z4.nodes u.id = z3.nodes u.id := fun u hu => by
    rw [hz4]
    exact if_neg (hnew u hu)
  have hzero := levelAt_node (i := 0) (by rw [Zskiplist.node, hnode4]) (by omega)
  have hsuf : Linked z4.nodes (fun _ => []) (lastId pre) suf := by
    refine (Valid.behind h).of_nodes fun u hu => ?_
    have hmem := mem_append_right pre hu
    rw [hother4 u hmem, hdone.frame.nodes _ fun hm => ?_, hnode1, if_neg (hnew u hmem)]
    rcases mem_cons.mp hm with he | hm
    · exact hnew u hmem he
    · exact hdis _ hm (mem_map_of_mem hu)
  obtain ⟨z5, hnext, hheader5, hfresh5, hlength5, hlevel5, htail5, hnodes5, hsuf5⟩ :=
    setNextBackward_spec (some t.id) hzero hsuf hsufnodup fun u hu =>
      h.positive u (mem_append_right _ hu)
  have hmix5 : Mixed z5 pre (upTo top (t :: suf) suf) top := by
    refine hdone.mixed.of_nodes (fun u hu => ?_) (hheader5.trans (by rw [hz4]; rfl))
    rw [hnodes5 _ (hdis _ (mem_map_of_mem hu)), hother4 u (mem_append_left _ hu)]
  have hwhole : Linked z5.nodes (fun _ => []) (lastId pre) (t :: suf) :=
    ⟨by rw [hnodes5 _ htsuf, hnode4]; simp only [append_nil], hsuf5⟩
  have hlow : Low top (pre ++ suf) := fun u hu => Nat.le_trans (h.low u hu) (by omega)
  obtain ⟨hlinked, hheads⟩ := linked_whole hmix5 (low_append.mp hlow).1 hwhole
  subst hz1 hz4
  have hlen3 : z5.length = zsl.length := hlength5.trans (hdone.frame.length.trans hz0.length)
  have hlevel3 : z5.level = top := hlevel5.trans (hdone.frame.level.trans hlevel0)
  have hfresh3 : z5.fresh = zsl.fresh + 1 :=
    hfresh5.trans (hdone.frame.fresh.trans (congrArg (· + 1) hz0.fresh))
  have htail3 : z5.tail = lastId (pre ++ t :: suf) := by
    rw [lastId_append pre (cons_ne_nil _ _), htail5]
    split
    · rename_i hnil
      rw [hnil]
      rfl
    rename_i hnil
    refine (hdone.frame.tail.trans hz0.tail).trans ?_
    rw [h.tail, lastId_append pre hnil, lastId_cons t hnil]
  rw [← ht]
  refine ⟨{ z5 with length := z5.length + 1 }, ?_, ⟨hlinked, fun i hi => ?_, fun i hi hi' => ?_, hnodup,
    ?_, htail3, ?_, forall_mem_insert.mpr ⟨by omega, h.positive⟩, ?_, ?_, ?_, ?_⟩⟩
  · rw [zslInsert, hs, bind_ok, hraise, bind_ok]
    dsimp only
    rw [hheight] at hloop1 hloop2
    rw [load_update (by omega) pre hppos, bind_ok, hx, hloop1, bind_ok, hloop2, bind_ok, endPlace_orNull, hback,
      bind_ok, hnext, bind_ok, hid]
  · exact hheads i (by dsimp only at hi; omega)
  · dsimp only at hi ⊢
    rw [hheader5]
    obtain ⟨span, hspan⟩ := h.unused i (by omega) hi'
    exact ⟨span, (hdone.frame.header i (by omega)).trans ((hz0.above i (by omega)).trans hspan)⟩
  · dsimp only
    rw [hfresh3]
    exact forall_mem_insert.mpr ⟨by omega, fun u hu => Nat.lt_succ_of_lt (h.fresh u hu)⟩
  · dsimp only
    rw [hlen3, h.length, length_append, length_append, length_cons]
    omega
  · dsimp only
    have := h.level_pos
    omega
  · dsimp only
    have := h.level_le
    omega
  · dsimp only
    rw [hlevel3]
    exact forall_mem_insert.mpr ⟨by omega, hlow⟩
  · dsimp only
    rw [hlevel3]
    by_cases hlt : zsl.level < level
    · exact .inr ⟨t, by simp, by omega⟩
    rcases h.level with h1 | ⟨u, hu, he⟩
    · exact .inl (by omega)
    refine .inr ⟨u, ?_, by omega⟩
    simp only [mem_append, mem_cons] at hu ⊢
    tauto

end Redis.Skiplist.Update
