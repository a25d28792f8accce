import Redis.Skiplist.Links

/-! # The descent through the levels

Whatever condition the descent follows, `update[]` gets the last node of every level in front of
one position: a level is left only at a node in front of one that fails the condition, and no
lower level passes that node. -/
namespace Redis.Skiplist.Search
open List Lib Outcome Model Links

variable {S : Type}

def goes (go : Nat → ZskiplistNode S → Bool) (rank : Nat) (t : Tower S) : Bool :=
  go rank (t.node none fun _ => ⟨none, 0⟩)

/-- The condition looks at the score and the element only. -/
def Plain (go : Nat → ZskiplistNode S → Bool) : Prop :=
  ∀ rank (t : Tower S) backward level, go rank (t.node backward level) = goes go rank t

/-- The next node of level `i`, if there is one, fails the condition. -/
def Stopped (go : Nat → ZskiplistNode S → Bool) (i rank : Nat) (rest : List (Tower S)) : Prop :=
  Low i rest ∨ ∃ c u d, rest = c ++ u :: d ∧ Low i c ∧ i < u.height ∧
    goes go (rank + c.length + 1) u = false

/-- The towers `b` do not reach past one that fails the condition and is at
least `h` high. -/
def Halts (go : Nat → ZskiplistNode S → Bool) (h rank : Nat) (rest b : List (Tower S)) : Prop :=
  ∀ k u, rest[k]? = some u → h ≤ u.height → goes go (rank + k + 1) u = false → b.length ≤ k

/-- The last of the towers passed, if there is one, meets the condition. -/
def Passed (go : Nat → ZskiplistNode S → Bool) (rank : Nat) (b : List (Tower S)) : Prop :=
  ∀ t, b.getLast? = some t → goes go rank t = true

section
variable {zsl : Zskiplist S} {ts : List (Tower S)} {go : Nat → ZskiplistNode S → Bool} {i : Nat}

lemma visible_append {zsl : Zskiplist S} {i : Nat} (hi : i < zsl.level) (a : List (Tower S))
    {u : Tower S} (hu : i < u.height) : Visible zsl (a ++ [u]) i := by
  refine ⟨hi, fun t ht => ?_⟩
  rw [getLast?_append] at ht
  cases ht
  exact hu

lemma advance_spec (h : Valid zsl ts) (hgo : Plain go) : ∀ (rounds : Nat) (a rest : List (Tower S)),
    ts = a ++ rest → Visible zsl a i → rest.length < rounds →
    ∃ b rest', rest = b ++ rest' ∧ advance zsl go i rounds (endPlace a) a.length =
        .ok (endPlace (a ++ b), (a ++ b).length) ∧
      Visible zsl (a ++ b) i ∧ Passed go (a ++ b).length b ∧ Stopped go i (a ++ b).length rest' ∧
      Halts go (i + 1) a.length rest b
  | rounds + 1, a, rest, hts, hv, hr => by
    have hlevel := Valid.levelAt (hts ▸ h) hv
    -- stopping here
    have hstay : Stopped go i a.length rest → Visible zsl (a ++ []) i ∧ Passed go (a ++ []).length [] ∧
        Stopped go i (a ++ []).length rest ∧ Halts go (i + 1) a.length rest [] := fun hstop => by
      rw [append_nil]
      exact ⟨hv, nofun, hstop, fun k u _ _ _ => Nat.zero_le k⟩
    rw [advance, hlevel, bind_ok]
    rcases low_or_first i rest with hlow | ⟨c, u, d, rfl, hu, hc⟩
    · rw [link_of_low hlow]
      exact ⟨[], rest, rfl, by rw [append_nil], hstay (.inl hlow)⟩
    have hlink : link i (c ++ u :: d) = ⟨some u.id, c.length + 1⟩ := by
      rw [link_append_low hc, link_high hu]
    have hnode : zsl.node u.id = .ok (u.node (lastId (a ++ c)) fun j => link j d) := by
      rw [hts, ← append_assoc] at h
      exact h.node
    rw [hlink]
    dsimp only
    rw [hnode, bind_ok, hgo]
    cases hg : goes go (a.length + (c.length + 1)) u with
    | false => exact ⟨[], _, rfl, by rw [append_nil]; rfl, hstay (.inr ⟨c, u, d, rfl, hc, hu, hg⟩)⟩
    | true =>
      have hlen : (a ++ c ++ [u]).length = a.length + (c.length + 1) := by
        simp only [length_append, length_singleton, add_assoc]
      have hvis : Visible zsl (a ++ c ++ [u]) i := visible_append hv.1 _ hu
      obtain ⟨b, rest', rfl, hrun, hv', hpass, hstop, hhalt⟩ :=
        advance_spec h hgo rounds (a ++ c ++ [u]) d (by rw [hts]; simp) hvis (by
          simp only [length_append, length_cons] at hr
          omega)
      have hassoc : a ++ (c ++ [u] ++ b) = a ++ c ++ [u] ++ b := by simp
      refine ⟨c ++ [u] ++ b, rest', by simp, ?_, hassoc ▸ hv', ?_, hassoc ▸ hstop, ?_⟩
      · rw [if_pos rfl, hassoc, ← hrun, hlen, endPlace_append]
      · rw [hassoc]
        intro t ht
        rw [getLast?_append] at ht
        cases hb : b.getLast? with
        | some v =>
          rw [hb] at ht
          cases ht
          exact hpass t hb
        | none =>
          rw [hb, getLast?_append] at ht
          cases ht
          rw [getLast?_eq_none_iff.mp hb, append_nil, hlen]
          exact hg
      intro k v hk hv hfail
      simp only [length_append, length_singleton]
      rcases Nat.lt_trichotomy k c.length with hlt | rfl | hgt
      · rw [getElem?_append_left hlt] at hk
        have := hc v (mem_of_getElem? hk)
        omega
      · rw [getElem?_append_right le_rfl, Nat.sub_self] at hk
        cases hk
        rw [add_assoc, hg] at hfail
        cases hfail
      obtain ⟨m, rfl⟩ := Nat.exists_eq_add_of_lt hgt
      rw [getElem?_append_right (by omega)] at hk
      have hm : c.length + m + 1 - c.length = m + 1 := by omega
      rw [hm] at hk
      have := hhalt m v hk hv (by rw [← hfail]; congr 1; omega)
      omega

variable {b : List (Tower S)}

lemma eq_nil_of_low_zero (hp : ∀ t ∈ b, 0 < t.height) (h : Low 0 b) : b = [] := by
  cases b with
  | nil => rfl
  | cons t b =>
    have h1 := hp t mem_cons_self
    have h2 := h t mem_cons_self
    omega

/-- What lies in front of a node that halts the descent is low. -/
lemma low_of_stopped {rest rest' : List (Tower S)} {rank : Nat} (hs : Stopped go i rank rest)
    (hh : Halts go i rank rest b) (hb : rest = b ++ rest') : Low i b := by
  rcases hs with hlow | ⟨c, u, d, hc, hlow, hu, hfail⟩
  · rw [hb] at hlow
    exact (low_append.mp hlow).1
  have hlen : b.length ≤ c.length := by
    refine hh c.length u ?_ hu.le hfail
    rw [hc, getElem?_append_right le_rfl, Nat.sub_self]
    rfl
  have hpre : b = c.take b.length := by
    have := congrArg (List.take b.length) (hb.symm.trans hc)
    rwa [take_left, take_append_of_le_length hlen] at this
  intro t ht
  rw [hpre] at ht
  exact hlow t (mem_of_mem_take ht)

lemma lastAt_end {a : List (Tower S)} (hv : Visible zsl a i) (hb : Low i b) :
    lastAt i (a ++ b) = (endPlace a, a.length) := by
  rcases eq_nil_or_concat' a with rfl | ⟨a, t, rfl⟩
  · exact lastAt_low hb
  have ht : i < t.height := hv.2 t (by rw [getLast?_append]; rfl)
  rw [append_assoc, endPlace_append, length_append]
  exact lastAt_append ht hb a

lemma Passed.append {rank rank' : Nat} {c : List (Tower S)} (hb : Passed go rank b)
    (hc : Passed go rank' c) (h : c = [] → rank' = rank) : Passed go rank' (b ++ c) := by
  intro t ht
  cases c with
  | nil =>
    rw [append_nil] at ht
    rw [h rfl]
    exact hb t ht
  | cons u c =>
    rw [getLast?_append] at ht
    cases hl : (u :: c).getLast? with
    | none => cases getLast?_eq_none_iff.mp hl
    | some v =>
      rw [hl] at ht
      cases ht
      exact hc t hl

lemma descend_spec (h : Valid zsl ts) (hgo : Plain go) : ∀ (i : Nat) (a rest : List (Tower S)),
    ts = a ++ rest → i ≤ zsl.level → (∀ t, a.getLast? = some t → i ≤ t.height) →
    ∃ b rest', rest = b ++ rest' ∧ descend zsl go i (endPlace a) a.length =
        .ok ((List.range i).map fun j => lastAt j (a ++ b)) ∧
      Passed go (a ++ b).length b ∧
      (0 < i → ∀ u, rest'.head? = some u → goes go ((a ++ b).length + 1) u = false) ∧
      Halts go i a.length rest b
  | 0, a, rest, _, _, _ =>
    ⟨[], rest, rfl, rfl, nofun, fun h0 => absurd h0 (Nat.lt_irrefl 0),
      fun k u _ _ _ => Nat.zero_le k⟩
  | i + 1, a, rest, hts, hi, hl => by
    have hround : rest.length < zsl.length + 1 := by
      rw [h.length, hts, length_append]
      omega
    obtain ⟨b₁, rest₁, rfl, hadv, hv, hpass₁, hstop, hhalt₁⟩ :=
      advance_spec h hgo (zsl.length + 1) a rest hts ⟨hi, hl⟩ hround
    obtain ⟨b₂, rest', rfl, hdesc, hpass₂, hnext, hhalt₂⟩ :=
      descend_spec h hgo i (a ++ b₁) rest₁ (by rw [hts, append_assoc]) (Nat.le_of_succ_le hi)
        fun t ht => Nat.le_of_lt (hv.2 t ht)
    have hlow := low_of_stopped hstop hhalt₂ rfl
    have hassoc : a ++ (b₁ ++ b₂) = a ++ b₁ ++ b₂ := (append_assoc ..).symm
    refine ⟨b₁ ++ b₂, rest', (append_assoc ..).symm, ?_, ?_, fun _ u hu => ?_, ?_⟩
    · rw [descend, hadv, bind_ok]
      dsimp only
      rw [hdesc, bind_ok, hassoc, range_succ, map_append, map_singleton, lastAt_end hv hlow]
    · rw [hassoc]
      exact hpass₁.append hpass₂ fun hnil => by rw [hnil, append_nil]
    · cases i with
      | zero =>
        -- at level 0 nothing is low, so the next node is the one that stopped the level
        have hpos : ∀ t ∈ b₂ ++ rest', 0 < t.height := fun t ht =>
          h.positive t (by rw [hts]; simp [mem_append.mp ht])
        have hb₂ := eq_nil_of_low_zero (forall_mem_append.mp hpos).1 hlow
        subst hb₂
        rw [append_nil]
        rw [nil_append] at hstop hpos
        rcases hstop with hz | ⟨c, v, d, rfl, hc, _, hfail⟩
        · rw [eq_nil_of_low_zero hpos hz] at hu
          cases hu
        have hcn := eq_nil_of_low_zero (forall_mem_append.mp hpos).1 hc
        subst hcn
        cases hu
        exact hfail
      | succ i =>
        rw [hassoc]
        exact hnext (Nat.succ_pos i) u hu
    · intro k u hk hu hfail
      have h1 := hhalt₁ k u hk hu hfail
      rw [getElem?_append_right h1] at hk
      have h2 := hhalt₂ (k - b₁.length) u hk (Nat.le_of_succ_le hu) (by
        rw [← hfail, length_append]
        congr 1
        omega)
      rw [length_append]
      omega

/-- The search splits the list: the last node passed meets the condition, the
next one does not, and `update[]` is in front of the split on every level. -/
lemma search_spec (h : Valid zsl ts) (hgo : Plain go) : ∃ pre suf, ts = pre ++ suf ∧
    search zsl go = .ok ((List.range zsl.level).map fun j => lastAt j pre) ∧
    Passed go pre.length pre ∧ ∀ u, suf.head? = some u → goes go (pre.length + 1) u = false := by
  obtain ⟨b, rest, hts, hrun, hpass, hnext, _⟩ := descend_spec h hgo zsl.level [] ts rfl
    le_rfl nofun
  exact ⟨b, rest, hts, hrun, hpass, hnext h.level_pos⟩

end

lemma lastAt_zero {pre : List (Tower S)} (hp : ∀ t ∈ pre, 0 < t.height) :
    lastAt 0 pre = (endPlace pre, pre.length) := by
  rcases eq_nil_or_concat' pre with rfl | ⟨a, t, rfl⟩
  · rfl
  rw [endPlace_append, length_append]
  exact lastAt_append (hp t (by simp)) (Low.nil 0) a

lemma load_update {n : Nat} (h : 0 < n) (pre : List (Tower S)) (hp : ∀ t ∈ pre, 0 < t.height) :
    load ((List.range n).map fun j => lastAt j pre) 0 = .ok (endPlace pre, pre.length) := by
  rw [load_eq_ok, getElem?_map, getElem?_range h, Option.map_some, lastAt_zero hp]

lemma link_zero {suf : List (Tower S)} (hp : ∀ t ∈ suf, 0 < t.height) :
    (link 0 suf).forward = suf.head?.map Tower.id := by
  cases suf with
  | nil => rfl
  | cons u suf => rw [link_high (hp u mem_cons_self)]; rfl

lemma nextOf_spec {zsl : Zskiplist S} {pre suf : List (Tower S)} (h : Valid zsl (pre ++ suf)) :
    nextOf zsl ((List.range zsl.level).map fun j => lastAt j pre) = .ok (suf.head?.map Tower.id) := by
  have hp : ∀ t ∈ pre, 0 < t.height := fun t ht => h.positive t (mem_append_left _ ht)
  have hv : Visible zsl pre 0 := ⟨h.level_pos, fun t ht => hp t (mem_of_getLast? ht)⟩
  rw [nextOf, load_update h.level_pos pre hp, bind_ok]
  dsimp only
  rw [h.levelAt hv, bind_ok, link_zero fun t ht => h.positive t (mem_append_right _ ht)]

end Redis.Skiplist.Search
