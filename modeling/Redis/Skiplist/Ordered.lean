import Redis.Skiplist.Update

/-! # A skiplist as a sorted list

The operations of the skiplist in terms of the list of its scores and
elements. -/
namespace Redis.Skiplist.Ordered
open List Option Lib Outcome Model Links Search Relink
open Update

variable {S : Type}

/-! ## Sorted lists -/

/-- Where a search in a sorted list ends, for a condition that holds in front of
every place where it holds. -/
lemma split_of_search {α : Type} {R : α → α → Prop} {p : α → Prop}
    (hmono : ∀ a b, R a b → p b → p a) {pre suf : List α} (hs : (pre ++ suf).Pairwise R)
    (hlast : ∀ a, pre.getLast? = some a → p a) (hhead : ∀ b, suf.head? = some b → ¬ p b) :
    (∀ a ∈ pre, p a) ∧ ∀ b ∈ suf, ¬ p b := by
  obtain ⟨hpre, hsuf, _⟩ := pairwise_append.mp hs
  constructor
  · intro a ha
    rcases eq_nil_or_concat' pre with rfl | ⟨xs, y, rfl⟩
    · cases ha
    have hy : p y := hlast y (by rw [getLast?_append]; rfl)
    rcases mem_append.mp ha with ha | ha
    · exact hmono a y ((pairwise_append.mp hpre).2.2 a ha y (mem_singleton.mpr rfl)) hy
    · rwa [mem_singleton.mp ha]
  intro b hb
  cases suf with
  | nil => cases hb
  | cons y ys =>
    have hy : ¬ p y := hhead y rfl
    rcases mem_cons.mp hb with rfl | hb
    · exact hy
    · exact fun hpb => hy (hmono y b ((pairwise_cons.mp hsuf).1 b hb) hpb)

lemma takeWhile_parts {α : Type} {p : α → Bool} {pre suf : List α} (hpre : ∀ a ∈ pre, p a = true)
    (hsuf : ∀ b ∈ suf, p b = false) :
    (pre ++ suf).takeWhile p = pre ∧ (pre ++ suf).dropWhile p = suf := by
  rw [takeWhile_append_of_pos hpre, dropWhile_append_of_pos hpre]
  cases suf with
  | nil => simp
  | cons y ys =>
    have hy : ¬ p y = true := by rw [hsuf y mem_cons_self]; decide
    rw [takeWhile_cons_of_neg hy, dropWhile_cons_of_neg hy, append_nil]
    exact ⟨rfl, rfl⟩

section
variable [LinearOrder S] {a b x : Item S} {zsl : Zskiplist S} {ts pre suf : List (Tower S)}

def Before (a b : Item S) : Prop := a.1 < b.1 ∨ a.1 = b.1 ∧ a.2 < b.2

instance (a b : Item S) : Decidable (Before a b) := inferInstanceAs (Decidable (_ ∨ _))

lemma Before.trans {c : Item S} (h : Before a b) (h' : Before b c) : Before a c := by
  rcases h with h | ⟨h, hl⟩ <;> rcases h' with h' | ⟨h', hl'⟩
  · exact .inl (lt_trans h h')
  · exact .inl (h' ▸ h)
  · exact .inl (h ▸ h')
  · exact .inr ⟨h.trans h', List.lt_trans hl hl'⟩

lemma Before.irrefl (a : Item S) : ¬ Before a a := by
  rintro (h | ⟨_, h⟩)
  · exact lt_irrefl _ h
  · exact List.lt_irrefl _ h

lemma Before.le (h : Before a b) : a.1 ≤ b.1 := by
  rcases h with h | ⟨h, _⟩
  · exact le_of_lt h
  · exact le_of_eq h

lemma Before.total (h : ¬ Before a b) (hne : a ≠ b) : Before b a := by
  rcases lt_trichotomy a.1 b.1 with h1 | h1 | h1
  · exact absurd (.inl h1) h
  · refine .inr ⟨h1.symm, ?_⟩
    have h2 : ¬ a.2 < b.2 := fun h2 => h (.inr ⟨h1, h2⟩)
    have h3 : a.2 ≠ b.2 := fun h3 => hne (Prod.ext h1 h3)
    exact Decidable.byContradiction fun hn =>
      h3 (List.le_antisymm (List.not_lt.mp hn) (List.not_lt.mp h2))
  · exact .inl h1

def insertItem (x : Item S) (l : List (Item S)) : List (Item S) :=
  l.takeWhile (fun a => Before a x) ++ x :: l.dropWhile fun a => Before a x

lemma insertItem_parts {pre suf : List (Item S)} (hpre : ∀ a ∈ pre, Before a x)
    (hsuf : ∀ b ∈ suf, ¬ Before b x) : insertItem x (pre ++ suf) = pre ++ x :: suf := by
  obtain ⟨h1, h2⟩ := takeWhile_parts (p := fun a => decide (Before a x))
    (fun a ha => decide_eq_true (hpre a ha)) fun b hb => decide_eq_false (hsuf b hb)
  rw [insertItem, h1, h2]

lemma sorted_insert {pre suf : List (Item S)} (hs : (pre ++ suf).Pairwise Before)
    (hpre : ∀ a ∈ pre, Before a x) (hsuf : ∀ b ∈ suf, Before x b) :
    (pre ++ x :: suf).Pairwise Before := by
  obtain ⟨h1, h2, h3⟩ := pairwise_append.mp hs
  refine pairwise_append.mpr ⟨h1, pairwise_cons.mpr ⟨hsuf, h2⟩, fun a ha b hb => ?_⟩
  rcases mem_cons.mp hb with rfl | hb
  · exact hpre a ha
  · exact h3 a ha b hb

lemma sorted_erase {pre suf : List (Item S)} (hs : (pre ++ x :: suf).Pairwise Before) :
    (pre ++ suf).Pairwise Before := by
  obtain ⟨h1, h2, h3⟩ := pairwise_append.mp hs
  exact pairwise_append.mpr ⟨h1, (pairwise_cons.mp h2).2,
    fun a ha b hb => h3 a ha b (mem_cons_of_mem _ hb)⟩

lemma filter_ne_parts {pre suf : List (Item S)} (hs : (pre ++ x :: suf).Pairwise Before) :
    (pre ++ x :: suf).filter (fun a => a ≠ x) = pre ++ suf := by
  obtain ⟨_, h2, h3⟩ := pairwise_append.mp hs
  have hpre : pre.filter (fun a => a ≠ x) = pre := filter_eq_self.mpr fun a ha =>
    decide_eq_true fun he => Before.irrefl x (he ▸ h3 a ha x mem_cons_self)
  have hsuf : suf.filter (fun a => a ≠ x) = suf := filter_eq_self.mpr fun a ha =>
    decide_eq_true fun he => Before.irrefl x (he ▸ (pairwise_cons.mp h2).1 a ha)
  rw [filter_append, hpre, filter_cons_of_neg (by simp), hsuf]

/-! ## The search for an item -/

structure Holds (zsl : Zskiplist S) (ts : List (Tower S)) : Prop where
  valid : Valid zsl ts
  sorted : (items ts).Pairwise Before

lemma plain_precedes (x : Item S) :
    Plain (S := S) fun _ n => precedes x.1 x.2 n := fun _ _ _ _ => rfl

lemma goes_precedes (x : Item S) (rank : Nat) (t : Tower S) :
    goes (fun _ n => precedes x.1 x.2 n) rank t = decide (Before t.item x) := by
  rw [Bool.eq_iff_iff, decide_eq_true_iff]
  simp [goes, precedes, Tower.node, Before, Tower.item]

lemma Holds.search (h : Holds zsl ts) (x : Item S) : ∃ pre suf, ts = pre ++ suf ∧
    Model.search zsl (fun _ n => precedes x.1 x.2 n) =
      .ok ((List.range zsl.level).map fun j => lastAt j pre) ∧
    (∀ a ∈ items pre, Before a x) ∧ ∀ b ∈ items suf, ¬ Before b x := by
  obtain ⟨pre, suf, rfl, hrun, hpass, hnext⟩ := search_spec h.valid (plain_precedes x)
  have hs := h.sorted
  rw [items, map_append] at hs
  have hlast : ∀ a, (pre.map Tower.item).getLast? = some a → Before a x := by
    intro a ha
    rw [getLast?_map] at ha
    obtain ⟨t, ht, rfl⟩ := map_eq_some_iff.mp ha
    exact of_decide_eq_true ((goes_precedes x _ t).symm.trans (hpass t ht))
  have hhead : ∀ b, (suf.map Tower.item).head? = some b → ¬ Before b x := by
    intro b hb
    rw [head?_map] at hb
    obtain ⟨t, ht, rfl⟩ := map_eq_some_iff.mp hb
    exact of_decide_eq_false ((goes_precedes x _ t).symm.trans (hnext t ht))
  obtain ⟨h1, h2⟩ := split_of_search (fun a b hab hb => hab.trans hb) hs hlast hhead
  exact ⟨pre, suf, rfl, hrun, h1, h2⟩

lemma zslRandomLevel_bounds (draws : Nat) :
    0 < zslRandomLevel draws ∧ zslRandomLevel draws ≤ zskiplistMaxlevel := by
  unfold zslRandomLevel
  have : 0 < zskiplistMaxlevel := by decide
  split <;> omega

lemma zslInsert_spec (h : Holds zsl ts) (draws : Nat) (hx : x ∉ items ts) :
    ∃ zsl' ts', zslInsert zsl (zslRandomLevel draws) x.1 x.2 = .ok (zsl', zsl.fresh) ∧
      Holds zsl' ts' ∧ items ts' = insertItem x (items ts) ∧ ∀ u ∈ ts', u.id = zsl.fresh ∨ u ∈ ts := by
  obtain ⟨pre, suf, rfl, hrun, hpre, hsuf⟩ := h.search x
  obtain ⟨hpos, hmax⟩ := zslRandomLevel_bounds draws
  obtain ⟨zsl', hins, hvalid⟩ := zslInsert_at h.valid hpos hmax hrun
  have hitems : items (pre ++ ⟨zsl.fresh, x.1, x.2, zslRandomLevel draws⟩ :: suf) =
      items pre ++ x :: items suf := by
    rw [items, map_append]
    rfl
  have hsplit : items (pre ++ suf) = items pre ++ items suf := map_append
  have hs := h.sorted
  rw [hsplit] at hs hx ⊢
  refine ⟨zsl', _, hins, ⟨hvalid, ?_⟩, ?_, fun u hu => ?_⟩
  · rw [hitems]
    refine sorted_insert hs hpre fun b hb => Before.total (hsuf b hb) fun he => hx ?_
    exact he ▸ mem_append_right _ hb
  · rw [hitems, insertItem_parts hpre hsuf]
  rcases mem_append.mp hu with hu | hu
  · exact .inr (mem_append_left _ hu)
  rcases mem_cons.mp hu with rfl | hu
  · exact .inl rfl
  · exact .inr (mem_append_right _ hu)

lemma isNode_spec (h : Holds zsl (pre ++ suf))
    (hpre : ∀ a ∈ items pre, Before a x) (hsuf : ∀ b ∈ items suf, ¬ Before b x) :
    (∃ t rest, suf = t :: rest ∧ t.item = x ∧
      isNode zsl (suf.head?.map Tower.id) x.1 x.2 = .ok (some t.id)) ∨
    (x ∉ items (pre ++ suf) ∧ isNode zsl (suf.head?.map Tower.id) x.1 x.2 = .ok none) := by
  have hs := h.sorted
  rw [items, map_append] at hs
  have hnpre : x ∉ items pre := fun hm => Before.irrefl x (hpre x hm)
  cases suf with
  | nil =>
    refine .inr ⟨fun hm => hnpre ?_, rfl⟩
    rwa [append_nil] at hm
  | cons t rest =>
    have hnode := h.valid.node
    have hrun : isNode zsl ((t :: rest).head?.map Tower.id) x.1 x.2 =
        .ok (if x.1 = t.score ∧ t.ele = x.2 then some t.id else none) := by
      rw [head?_cons, map_some, isNode, hnode]
      rfl
    by_cases he : x.1 = t.score ∧ t.ele = x.2
    · refine .inl ⟨t, rest, rfl, Prod.ext he.1.symm he.2, ?_⟩
      rw [hrun, if_pos he]
    refine .inr ⟨fun hm => ?_, by rw [hrun, if_neg he]⟩
    rw [items, map_append] at hm
    rcases mem_append.mp hm with hm | hm
    · exact hnpre hm
    rcases mem_cons.mp hm with rfl | hm
    · exact he ⟨rfl, rfl⟩
    -- a later item comes behind the first, which does not come before `x`
    have hlt := (pairwise_cons.mp (pairwise_append.mp hs).2.1).1 x hm
    exact hsuf t.item mem_cons_self hlt

variable {t : Tower S}

lemma Holds.erase {rest : List (Tower S)} {zsl' : Zskiplist S}
    (h : Holds zsl (pre ++ t :: rest)) (hvalid : Valid zsl' (pre ++ rest)) :
    Holds zsl' (pre ++ rest) ∧ items (pre ++ rest) = (items (pre ++ t :: rest)).filter (· ≠ t.item) := by
  have hs := h.sorted
  have hsplit : items (pre ++ t :: rest) = items pre ++ t.item :: items rest := by
    rw [items, map_append]
    rfl
  have hsplit' : items (pre ++ rest) = items pre ++ items rest := map_append
  rw [hsplit] at hs
  rw [hsplit, hsplit']
  exact ⟨⟨hvalid, hsplit' ▸ sorted_erase hs⟩, (filter_ne_parts hs).symm⟩

omit [LinearOrder S] in
lemma Valid.free {rest : List (Tower S)} {zsl' : Zskiplist S}
    (h : Valid zsl (pre ++ t :: rest)) (hvalid : Valid zsl' (pre ++ rest)) :
    Valid (zslFreeNode zsl' t.id) (pre ++ rest) := by
  obtain ⟨h1, h2, _⟩ := nodup_parts h.nodup
  refine Update.Valid.setNode hvalid ?_ none
  rw [map_append]
  exact fun hm => (mem_append.mp hm).elim h1 h2

lemma zslDelete_spec (h : Holds zsl ts) (x : Item S) :
    ∃ zsl' ts', zslDelete zsl x.1 x.2 = .ok (zsl', decide (x ∈ items ts)) ∧ Holds zsl' ts' ∧
      items ts' = (items ts).filter (· ≠ x) := by
  obtain ⟨pre, suf, rfl, hrun, hpre, hsuf⟩ := h.search x
  rw [zslDelete, hrun, bind_ok, nextOf_spec h.valid, bind_ok]
  rcases isNode_spec h hpre hsuf with ⟨t, rest, rfl, rfl, hnode⟩ | ⟨hnot, hnode⟩
  · obtain ⟨zsl', hdel, hvalid, _, _⟩ := zslDeleteNode_spec h.valid le_rfl
    obtain ⟨hholds, hitems⟩ := h.erase (Valid.free h.valid hvalid)
    refine ⟨_, _, ?_, hholds, hitems⟩
    have hmem : t.item ∈ items (pre ++ t :: rest) := mem_map_of_mem (by simp)
    rw [hnode, bind_ok]
    dsimp only
    rw [hdel, decide_eq_true hmem]
    rfl
  refine ⟨zsl, pre ++ suf, ?_, h, ?_⟩
  · rw [hnode, bind_ok, decide_eq_false hnot]
  refine (filter_eq_self.mpr fun a ha => ?_).symm
  rw [decide_eq_true_iff]
  rintro rfl
  exact hnot ha

/-! ## Another score -/

omit [LinearOrder S] in
lemma link_rescore (i : Nat) (c : List (Tower S)) (t : Tower S) (score : S) (d : List (Tower S)) :
    link i (c ++ { t with score } :: d) = link i (c ++ t :: d) := by
  induction c with
  | nil => rfl
  | cons u c ih => rw [cons_append, cons_append, link, link, ih]

omit [LinearOrder S] in
lemma Valid.rescore (h : Valid zsl (pre ++ t :: suf)) (score : S) :
    Valid (zsl.setNode t.id (some (Tower.node { t with score } (lastId pre) fun j => link j suf)))
      (pre ++ { t with score } :: suf) := by
  obtain ⟨htpre, htsuf, _⟩ := nodup_parts h.nodup
  obtain ⟨hpre, _, hsuf⟩ := linked_append.mp h.linked
  have hmem : ∀ u ∈ pre ++ { t with score } :: suf, ∃ v ∈ pre ++ t :: suf, u.id = v.id ∧
      u.height = v.height := by
    intro u hu
    rcases mem_append.mp hu with hu | hu
    · exact ⟨u, mem_append_left _ hu, rfl, rfl⟩
    rcases mem_cons.mp hu with rfl | hu
    · exact ⟨t, by simp, rfl, rfl⟩
    · exact ⟨u, by simp [hu], rfl, rfl⟩
  have hids : (pre ++ { t with score } :: suf).map Tower.id = (pre ++ t :: suf).map Tower.id := by
    simp
  refine ⟨linked_append.mpr ⟨?_, ?_, ?_⟩, fun i hi => ?_, h.unused, hids ▸ h.nodup, fun u hu => ?_, ?_, ?_,
    fun u hu => ?_, h.level_pos, h.level_le, fun u hu => ?_, ?_⟩
  · refine hpre.congr (fun u hu => if_neg fun he : u.id = t.id => ?_) fun a u b _ j _ => ?_
    · exact htpre (he ▸ mem_map_of_mem hu)
    have hl := link_rescore j b t score (suf ++ [])
    simpa only [cons_append] using hl
  · refine (if_pos (rfl : t.id = t.id)).trans ?_
    rw [lastId_eq]
    simp only [append_nil]
  · refine hsuf.of_nodes fun u hu => if_neg fun he : u.id = t.id => ?_
    exact htsuf (he ▸ mem_map_of_mem hu)
  · rw [link_rescore]
    exact h.header i hi
  · obtain ⟨v, hv, he, _⟩ := hmem u hu
    rw [he]
    exact h.fresh v hv
  · have htail := h.tail
    rw [lastId, ← getLast?_map] at htail
    exact (htail.trans (congrArg List.getLast? hids.symm)).trans getLast?_map
  · have hlen := h.length
    rw [length_append] at hlen ⊢
    exact hlen
  · obtain ⟨v, hv, _, he⟩ := hmem u hu
    rw [he]
    exact h.positive v hv
  · obtain ⟨v, hv, _, he⟩ := hmem u hu
    rw [he]
    exact h.low v hv
  · rcases h.level with h1 | ⟨v, hv, he⟩
    · exact .inl h1
    right
    rcases mem_append.mp hv with hv | hv
    · exact ⟨v, mem_append_left _ hv, he⟩
    rcases mem_cons.mp hv with rfl | hv
    · exact ⟨{ v with score }, by simp, he⟩
    · exact ⟨v, by simp [hv], he⟩

omit [LinearOrder S] in
lemma neighbour_before (h : Valid zsl (pre ++ suf)) (test : S → Bool) :
    ∃ b, neighbour zsl test (lastId pre) = .ok b ∧
      (b = true ↔ ∀ u, pre.getLast? = some u → test u.score = true) := by
  rcases eq_nil_or_concat' pre with rfl | ⟨a, t, rfl⟩
  · exact ⟨true, rfl, by simp⟩
  rw [append_assoc] at h
  refine ⟨test t.score, ?_, by simp⟩
  rw [lastId, getLast?_append, getLast?_singleton, some_or, map_some, neighbour,
    Links.Valid.node h, bind_ok, Tower.node]

omit [LinearOrder S] in
lemma neighbour_after (h : Valid zsl (pre ++ suf)) (test : S → Bool) :
    ∃ b, neighbour zsl test (suf.head?.map Tower.id) = .ok b ∧
      (b = true ↔ ∀ u, suf.head? = some u → test u.score = true) := by
  cases suf with
  | nil => exact ⟨true, rfl, by simp⟩
  | cons t suf =>
    refine ⟨test t.score, ?_, by simp⟩
    rw [head?_cons, map_some, neighbour, Links.Valid.node h, bind_ok, Tower.node]

lemma staysInPlace_spec (h : Valid zsl (pre ++ t :: suf)) (newscore : S) :
    ∃ b, staysInPlace zsl (t.node (lastId pre) fun j => link j suf) newscore = .ok b ∧
      (b = true ↔ (∀ u, pre.getLast? = some u → u.score < newscore) ∧
        ∀ u, suf.head? = some u → newscore < u.score) := by
  obtain ⟨b, hb, hbefore⟩ := neighbour_before h fun score => score < newscore
  have h' : Valid zsl ((pre ++ [t]) ++ suf) := by rwa [append_assoc]
  obtain ⟨b', hb', hafter⟩ := neighbour_after h' fun score => newscore < score
  have hlink : load (t.node (lastId pre) fun j => link j suf).level 0 = .ok (link 0 suf) :=
    load_range (h.positive t (by simp)) _
  have hsuf : ∀ u ∈ suf, 0 < u.height := fun u hu => h.positive u (by simp [hu])
  refine ⟨b && b', ?_, ?_⟩
  · rw [staysInPlace, Tower.node, hb, bind_ok]
    rw [Tower.node] at hlink
    rw [hlink, bind_ok, link_zero hsuf, hb', bind_ok]
  rw [Bool.and_eq_true, hbefore, hafter]
  simp only [decide_eq_true_iff]

lemma zslUpdateScore_missing (h : Holds zsl ts) (level : Nat) {cur : S} {ele : Bytes} (newscore : S)
    (hx : (cur, ele) ∉ items ts) : zslUpdateScore zsl level cur ele newscore = .error .assertion := by
  obtain ⟨pre, suf, rfl, hrun, hpre, hsuf⟩ := h.search (cur, ele)
  rw [zslUpdateScore, hrun, bind_ok, nextOf_spec h.valid, bind_ok]
  rcases isNode_spec h hpre hsuf with ⟨t, rest, rfl, ht, _⟩ | ⟨_, hnode⟩
  · exact absurd (ht ▸ mem_map_of_mem (by simp)) hx
  · rw [hnode, bind_ok]

lemma inPlace_parts {pre suf : List (Item S)} (hs : (pre ++ suf).Pairwise Before) {new : Item S}
    (hlast : ∀ a, pre.getLast? = some a → a.1 < new.1) (hhead : ∀ b, suf.head? = some b → new.1 < b.1) :
    (∀ a ∈ pre, Before a new) ∧ ∀ b ∈ suf, Before new b := by
  obtain ⟨hbefore, -⟩ := split_of_search (p := fun a => a.1 < new.1)
    (fun a b hab hb => lt_of_le_of_lt hab.le hb) hs hlast fun b hb => (hhead b hb).not_gt
  obtain ⟨-, hafter⟩ := split_of_search (p := fun a => a.1 ≤ new.1)
    (fun a b hab hb => hab.le.trans hb) hs (fun a ha => (hlast a ha).le)
    fun b hb => (hhead b hb).not_ge
  exact ⟨fun a ha => .inl (hbefore a ha), fun b hb => .inl (lt_of_not_ge (hafter b hb))⟩

lemma Holds.rescore (h : Holds zsl (pre ++ t :: suf))
    {score : S} (hlast : ∀ u, pre.getLast? = some u → u.score < score)
    (hhead : ∀ u, suf.head? = some u → score < u.score) :
    Holds (zsl.setNode t.id (some (Tower.node { t with score } (lastId pre) fun j => link j suf)))
      (pre ++ { t with score } :: suf) ∧
    items (pre ++ { t with score } :: suf) =
      insertItem (score, t.ele) ((items (pre ++ t :: suf)).filter (· ≠ t.item)) := by
  have hs := h.sorted
  have hsplit : ∀ u : Tower S, items (pre ++ u :: suf) = items pre ++ u.item :: items suf := by
    intro u
    rw [items, map_append]
    rfl
  rw [hsplit] at hs
  have hlast' : ∀ a, (items pre).getLast? = some a → a.1 < score := by
    intro a ha
    rw [items, getLast?_map] at ha
    obtain ⟨u, hu, rfl⟩ := map_eq_some_iff.mp ha
    exact hlast u hu
  have hhead' : ∀ b, (items suf).head? = some b → score < b.1 := by
    intro b hb
    rw [items, head?_map] at hb
    obtain ⟨u, hu, rfl⟩ := map_eq_some_iff.mp hb
    exact hhead u hu
  obtain ⟨hbefore, hafter⟩ : (∀ a ∈ items pre, Before a (score, t.ele)) ∧
      ∀ b ∈ items suf, Before (score, t.ele) b := inPlace_parts (sorted_erase hs) hlast' hhead'
  refine ⟨⟨Valid.rescore h.valid score, ?_⟩, ?_⟩
  · rw [hsplit]
    exact sorted_insert (sorted_erase hs) hbefore hafter
  rw [hsplit, hsplit, filter_ne_parts hs, insertItem_parts hbefore]
  · rfl
  · exact fun b hb hlt => Before.irrefl b (hlt.trans (hafter b hb))

lemma zslUpdateScore_spec (h : Holds zsl ts) (draws : Nat) {cur newscore : S} {ele : Bytes}
    (hx : (cur, ele) ∈ items ts) (hnew : (newscore, ele) ∉ (items ts).filter (· ≠ (cur, ele))) :
    ∃ zsl' ts' id, zslUpdateScore zsl (zslRandomLevel draws) cur ele newscore = .ok (zsl', id) ∧
      Holds zsl' ts' ∧ items ts' = insertItem (newscore, ele) ((items ts).filter (· ≠ (cur, ele))) := by
  obtain ⟨pre, suf, rfl, hrun, hpre, hsuf⟩ := h.search (cur, ele)
  rw [zslUpdateScore, hrun, bind_ok, nextOf_spec h.valid, bind_ok]
  rcases isNode_spec h hpre hsuf with ⟨t, rest, rfl, ht, hnode⟩ | ⟨hnot, _⟩
  · rw [hnode, bind_ok]
    dsimp only
    have hele : t.ele = ele := congrArg Prod.snd ht
    obtain ⟨stays, hrun', hstays⟩ := staysInPlace_spec h.valid newscore
    rw [h.valid.node, bind_ok, hrun', bind_ok]
    rw [← ht] at hnew ⊢
    rw [← hele] at hnew ⊢
    cases stays with
    | true =>
      obtain ⟨hlast, hhead⟩ := hstays.mp rfl
      obtain ⟨hholds, hitems⟩ := h.rescore hlast hhead
      exact ⟨_, _, _, rfl, hholds, hitems⟩
    | false =>
      obtain ⟨zsl1, hdel, hvalid, hfresh, _⟩ := zslDeleteNode_spec h.valid le_rfl
      obtain ⟨hholds, hitems⟩ := h.erase hvalid
      rw [← hitems] at hnew ⊢
      obtain ⟨zsl2, ts', hins, hholds', hitems', hids⟩ := zslInsert_spec hholds draws hnew
      refine ⟨zslFreeNode zsl2 t.id, ts', zsl1.fresh, ?_, ⟨?_, hholds'.sorted⟩, hitems'⟩
      · rw [hdel, bind_ok, Tower.node, hins]
        rfl
      refine Update.Valid.setNode hholds'.valid (fun hm => ?_) none
      obtain ⟨u, hu, he⟩ := mem_map.mp hm
      obtain ⟨h1, h2, _⟩ := nodup_parts h.valid.nodup
      rcases hids u hu with hu' | hu'
      · have := h.valid.fresh t (by simp)
        omega
      rcases mem_append.mp hu' with hu' | hu'
      · exact h1 (he ▸ mem_map_of_mem hu')
      · exact h2 (he ▸ mem_map_of_mem hu')
  · exact absurd hx hnot

end

end Redis.Skiplist.Ordered
