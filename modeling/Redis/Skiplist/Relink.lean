import Mathlib.Data.List.Nodup
import Redis.Skiplist.Search

/-! # Changing the levels in front of a position

The loops of an insertion or a deletion assign to `update[i]->level[i]` one
level after the other. In between, the levels below `i` are linked to what will
come behind the position and the others to what came behind it before. -/
namespace Redis.Skiplist.Relink
open Function List Lib Outcome Model Links Search

variable {S : Type} {zsl : Zskiplist S}

/-- The header and the nodes in front of a position, with level `j` linked to
the towers `sel j` behind it. -/
structure Mixed (zsl : Zskiplist S) (pre : List (Tower S)) (sel : Nat → List (Tower S)) (top : Nat) :
    Prop where
  linked : Linked zsl.nodes sel none pre
  header : ∀ i < top, zsl.header[i]? = some (link i (pre ++ sel i))
  nodup : (pre.map Tower.id).Nodup

/-- What assignments to levels below `top` of the header and of these nodes
leave unchanged. -/
structure Frame (ids : List Nat) (top : Nat) (zsl zsl' : Zskiplist S) : Prop where
  nodes : ∀ x, x ∉ ids → zsl'.nodes x = zsl.nodes x
  header : ∀ i, top ≤ i → zsl'.header[i]? = zsl.header[i]?
  fresh : zsl'.fresh = zsl.fresh
  tail : zsl'.tail = zsl.tail
  length : zsl'.length = zsl.length
  level : zsl'.level = zsl.level

lemma Frame.refl (ids : List Nat) (top : Nat) (zsl : Zskiplist S) : Frame ids top zsl zsl :=
  ⟨fun _ _ => rfl, fun _ _ => rfl, rfl, rfl, rfl, rfl⟩

lemma Frame.trans {ids : List Nat} {top : Nat} {zsl zsl' zsl'' : Zskiplist S}
    (h : Frame ids top zsl zsl') (h' : Frame ids top zsl' zsl'') : Frame ids top zsl zsl'' :=
  ⟨fun x hx => (h'.nodes x hx).trans (h.nodes x hx), fun i hi => (h'.header i hi).trans (h.header i hi),
    h'.fresh.trans h.fresh, h'.tail.trans h.tail, h'.length.trans h.length, h'.level.trans h.level⟩

lemma Frame.mono {ids ids' : List Nat} {top : Nat} {z z' : Zskiplist S} (h : Frame ids top z z')
    (hsub : ∀ x ∈ ids, x ∈ ids') : Frame ids' top z z' :=
  { h with nodes := fun x hx => h.nodes x fun hm => hx (hsub x hm) }

lemma set_map_range {n i : Nat} (f : Nat → Level) (l : Level) :
    ((List.range n).map f).set i l = (List.range n).map (update f i l) := by
  refine ext_getElem (by simp) fun k _ _ => ?_
  rw [getElem_set, getElem_map, getElem_map, getElem_range]
  by_cases hi : i = k
  · rw [if_pos hi, hi, update_self]
  · rw [if_neg hi, update_of_ne (Ne.symm hi)]

section
variable {zsl : Zskiplist S} {pre : List (Tower S)} {sel : Nat → List (Tower S)} {top i : Nat}

lemma Mixed.of_nodes {z : Zskiplist S} (h : Mixed zsl pre sel top)
    (hn : ∀ u ∈ pre, z.nodes u.id = zsl.nodes u.id) (hh : z.header = zsl.header) :
    Mixed z pre sel top :=
  ⟨h.linked.of_nodes hn, hh ▸ h.header, h.nodup⟩

/-- `update[i]->level[i]` is the link to what comes behind the position, plus
the way to the position. -/
lemma Mixed.levelAt (h : Mixed zsl pre sel top) (hi : i < top) : zsl.levelAt (lastAt i pre).1 i =
      .ok ⟨(link i (sel i)).forward, pre.length - (lastAt i pre).2 + (link i (sel i)).span⟩ := by
  rcases low_or_last i pre with hlow | ⟨a, t, b, rfl, ht, hb⟩
  · rw [lastAt_low hlow, Nat.sub_zero, ← link_append_low hlow]
    exact load_eq_ok.mpr (h.header i hi)
  have hn := (linked_append.mp h.linked).2.1
  have hlen : (a ++ t :: b).length - (a.length + 1) = b.length := by
    rw [length_append, length_cons]
    omega
  rw [lastAt_append ht hb, hlen, ← link_append_low hb]
  dsimp only [Zskiplist.levelAt, Zskiplist.node]
  rw [hn]
  exact load_range ht _

lemma Mixed.setLevel (h : Mixed zsl pre sel top) (hi : i < top) (s : List (Tower S)) :
    ∃ zsl', zsl.setLevel (lastAt i pre).1 i
        ⟨(link i s).forward, pre.length - (lastAt i pre).2 + (link i s).span⟩ = .ok zsl' ∧
      Mixed zsl' pre (update sel i s) top ∧ Frame (pre.map Tower.id) top zsl zsl' := by
  rcases low_or_last i pre with hlow | ⟨a, t, b, rfl, ht, hb⟩
  · rw [lastAt_low hlow, Nat.sub_zero, ← link_append_low hlow]
    refine ⟨{ zsl with header := zsl.header.set i (link i (pre ++ s)) }, ?_,
      ⟨h.linked.congr (fun _ _ => rfl) fun a t b hab j hj => ?_, fun j hj => ?_, h.nodup⟩,
      ⟨fun _ _ => rfl, fun j hj => ?_, rfl, rfl, rfl, rfl⟩⟩
    · rw [Zskiplist.setLevel, load_eq_ok.mpr (h.header i hi)]
      rfl
    · -- no node in front of the position has level `i`
      have hle : t.height ≤ i := hlow t (by rw [hab]; simp)
      rw [update_of_ne (by omega)]
    · have hlt := (List.getElem?_eq_some_iff.mp (h.header i hi)).1
      by_cases hji : i = j
      · subst hji
        rw [getElem?_set_self hlt, update_self]
      · rw [getElem?_set_ne hji, update_of_ne (Ne.symm hji), h.header j hj]
    · rw [getElem?_set_ne (by omega)]
  obtain ⟨hla, hn, hlb⟩ := linked_append.mp h.linked
  have hlen : (a ++ t :: b).length - (a.length + 1) = b.length := by
    rw [length_append, length_cons]
    omega
  have hnodup := h.nodup
  rw [map_append] at hnodup
  obtain ⟨_, hnb, hdis⟩ := nodup_append.mp hnodup
  rw [lastAt_append ht hb, hlen, ← link_append_low hb]
  refine ⟨zsl.setNode t.id (some (t.node (a.getLast?.map Tower.id <|> none) fun j =>
    link j (b ++ update sel i s j))), ?_,
    ⟨linked_append.mpr ⟨?_, ?_, ?_⟩, fun j hj => ?_, h.nodup⟩, ⟨fun x hx => ?_, fun _ _ => rfl, rfl,
      rfl, rfl, rfl⟩⟩
  · dsimp only [Zskiplist.setLevel, Zskiplist.node]
    rw [hn]
    dsimp only [Tower.node]
    have hf : update (fun j => link j (b ++ sel j)) i (link i (b ++ s)) =
        fun j => link j (b ++ update sel i s j) := by
      funext j
      by_cases hji : j = i
      · subst hji
        simp
      · simp [update_of_ne hji]
    rw [bind_ok, load_range ht, bind_ok, set_map_range, hf]
  · refine hla.congr (fun u hu => ?_) fun c u d hcd j hj => ?_
    · refine if_neg ?_
      exact hdis _ (mem_map_of_mem hu) _ mem_cons_self
    by_cases hji : j = i
    · subst hji
      have hhigh : ¬ Low j (d ++ t :: b) := fun hl =>
        Nat.not_lt.mpr ((low_cons.mp (low_append.mp hl).2).1) ht
      have := link_append_high hhigh (update sel j s j) (sel j)
      rwa [append_assoc, append_assoc] at this
    · rw [update_of_ne hji]
  · exact if_pos rfl
  · refine hlb.congr (fun u hu => ?_) fun c u d hcd j hj => ?_
    · refine if_neg fun he => ?_
      exact (nodup_cons.mp hnb).1 (he ▸ mem_map_of_mem hu)
    have hle : u.height ≤ i := hb u (by rw [hcd]; simp)
    rw [update_of_ne (by omega)]
  · by_cases hji : j = i
    · subst hji
      have hhigh : ¬ Low j (a ++ t :: b) := fun hl =>
        Nat.not_lt.mpr ((low_cons.mp (low_append.mp hl).2).1) ht
      rw [link_append_high hhigh _ (sel j)]
      exact h.header j hj
    · rw [update_of_ne hji]
      exact h.header j hj
  · refine if_neg fun he => hx ?_
    rw [he]
    simp

end

/-! ## Loops -/

/-- A loop over the levels from `lo` up to `hi` and what each turn keeps. -/
lemma forLevels_spec {body : Zskiplist S → Nat → Place × Nat → Outcome (Zskiplist S)}
    (pre : List (Tower S)) (P : Nat → Zskiplist S → Prop) {lo hi : Nat}
    (hstep : ∀ i zsl, lo ≤ i → i < hi → P i zsl →
      ∃ zsl', body zsl i (lastAt i pre) = .ok zsl' ∧ P (i + 1) zsl')
    (hle : lo ≤ hi) (hP : P lo zsl) :
    ∃ zsl', forLevels body (((List.range hi).map fun j => lastAt j pre).drop lo) lo zsl = .ok zsl' ∧
      P hi zsl' := by
  induction hk : hi - lo generalizing lo zsl with
  | zero =>
    have he : lo = hi := by omega
    subst he
    rw [drop_of_length_le (by rw [length_map, length_range])]
    exact ⟨zsl, rfl, hP⟩
  | succ k ih =>
    have hlt : lo < hi := by omega
    obtain ⟨zsl1, h1, hP1⟩ := hstep lo zsl le_rfl hlt hP
    obtain ⟨zsl2, h2, hP2⟩ := ih (fun i z hi' => hstep i z (by omega)) hlt hP1 (by omega)
    refine ⟨zsl2, ?_, hP2⟩
    rw [drop_eq_getElem_cons (by rwa [length_map, length_range]), getElem_map,
      getElem_range, forLevels, h1, bind_ok, h2]

/-- Levels below `i` are linked to `s'`, the others still to `s`. -/
def upTo (i : Nat) (s' s : List (Tower S)) : Nat → List (Tower S) := fun j => if j < i then s' else s

lemma upTo_succ (i : Nat) (s' s : List (Tower S)) :
    update (upTo i s' s) i s' = upTo (i + 1) s' s := by
  funext j
  unfold upTo
  by_cases hj : j = i
  · subst hj
    rw [update_self, if_pos (Nat.lt_succ_self j)]
  rw [update_of_ne hj]
  by_cases hlt : j < i
  · rw [if_pos hlt, if_pos (by omega)]
  · rw [if_neg hlt, if_neg (by omega)]

lemma upTo_self (i : Nat) (s' s : List (Tower S)) : upTo i s' s i = s := if_neg (Nat.lt_irrefl i)

lemma Mixed.turn {pre s s' : List (Tower S)} {top i : Nat}
    (h : Mixed zsl pre (upTo i s' s) top) (hi : i < top) :
    zsl.levelAt (lastAt i pre).1 i =
        .ok ⟨(link i s).forward, pre.length - (lastAt i pre).2 + (link i s).span⟩ ∧
      ∃ zsl', zsl.setLevel (lastAt i pre).1 i
          ⟨(link i s').forward, pre.length - (lastAt i pre).2 + (link i s').span⟩ = .ok zsl' ∧
        Mixed zsl' pre (upTo (i + 1) s' s) top ∧ Frame (pre.map Tower.id) top zsl zsl' := by
  have h1 := h.levelAt hi
  have h2 := h.setLevel hi s'
  rw [upTo_self] at h1
  rw [upTo_succ] at h2
  exact ⟨h1, h2⟩

lemma mixed_of_valid {pre suf : List (Tower S)} (h : Valid zsl (pre ++ suf))
    (s' : List (Tower S)) : Mixed zsl pre (upTo 0 s' suf) zsl.level := by
  have hsel : upTo 0 s' suf = fun _ => suf := by
    funext j
    exact if_neg (Nat.not_lt_zero j)
  have hl := (linked_append.mp h.linked).1
  simp only [append_nil] at hl
  refine ⟨hl, h.header, ?_⟩
  have hn := h.nodup
  rw [map_append] at hn
  exact (nodup_append.mp hn).1

end Redis.Skiplist.Relink
