import Mathlib.Data.List.Basic
import Mathlib.Data.List.TakeWhile
import Redis.Skiplist.Model

/-! # The nodes of a skiplist as a list of towers

In the order of level 0 a skiplist is a list of towers, and every pointer and
span follows from it: `link` says what level `i` of a node holds, given the
towers behind the node. -/
namespace Redis.Skiplist.Links
open List Lib Model

/-- A node without its pointers. -/
structure Tower (S : Type) where
  id : Nat
  score : S
  ele : Bytes
  height : Nat

variable {S : Type} {a b : List (Tower S)} {i : Nat} {t : Tower S} {ts : List (Tower S)}

abbrev Item (S : Type) := S × Bytes

def Tower.item (t : Tower S) : Item S := (t.score, t.ele)

def items (ts : List (Tower S)) : List (Item S) := ts.map Tower.item

/-- Level `i` of a node in front of these towers: the next tower that reaches the
level and the distance to it, or to the end of the list. -/
def link (i : Nat) : List (Tower S) → Level
  | [] => ⟨none, 0⟩
  | t :: ts =>
    if i < t.height then ⟨some t.id, 1⟩ else ⟨(link i ts).forward, (link i ts).span + 1⟩

def Low (i : Nat) (ts : List (Tower S)) : Prop := ∀ t ∈ ts, t.height ≤ i

lemma Low.nil (i : Nat) : Low i ([] : List (Tower S)) := nofun

lemma low_append : Low i (a ++ b) ↔ Low i a ∧ Low i b := by
  simp only [Low, mem_append, or_imp, forall_and]

lemma low_cons : Low i (t :: b) ↔ t.height ≤ i ∧ Low i b := by
  simp only [Low, mem_cons, or_imp, forall_and, forall_eq]

lemma link_high (h : i < t.height) (ts : List (Tower S)) :
    link i (t :: ts) = ⟨some t.id, 1⟩ := if_pos h

lemma link_low (h : t.height ≤ i) (ts : List (Tower S)) :
    link i (t :: ts) = ⟨(link i ts).forward, (link i ts).span + 1⟩ := if_neg (Nat.not_lt.mpr h)

lemma link_append_low {c : List (Tower S)} (h : Low i c) (s : List (Tower S)) :
    link i (c ++ s) = ⟨(link i s).forward, c.length + (link i s).span⟩ := by
  induction c with
  | nil => rw [nil_append, length_nil, zero_add]
  | cons t c ih =>
    obtain ⟨ht, hc⟩ := low_cons.mp h
    rw [cons_append, link_low ht, ih hc, length_cons]
    dsimp only
    congr 1
    omega

lemma link_append_high {c : List (Tower S)} (h : ¬ Low i c) (s s' : List (Tower S)) :
    link i (c ++ s) = link i (c ++ s') := by
  induction c with
  | nil => exact absurd (Low.nil i) h
  | cons t c ih =>
    by_cases ht : i < t.height
    · rw [cons_append, cons_append, link_high ht, link_high ht]
    have ht' := Nat.not_lt.mp ht
    have hc : ¬ Low i c := fun hc => h (low_cons.mpr ⟨ht', hc⟩)
    rw [cons_append, cons_append, link_low ht', link_low ht', ih hc]

lemma link_of_low (h : Low i ts) : link i ts = ⟨none, ts.length⟩ := by
  have := link_append_low h []
  rwa [append_nil] at this

lemma low_or_last (i : Nat) (ts : List (Tower S)) :
    Low i ts ∨ ∃ a t b, ts = a ++ t :: b ∧ i < t.height ∧ Low i b := by
  induction ts with
  | nil => exact .inl (Low.nil i)
  | cons t ts ih =>
    rcases ih with h | ⟨a, u, b, rfl, hu, hb⟩
    · by_cases ht : i < t.height
      · exact .inr ⟨[], t, ts, rfl, ht, h⟩
      · exact .inl (low_cons.mpr ⟨Nat.not_lt.mp ht, h⟩)
    · exact .inr ⟨t :: a, u, b, rfl, hu, hb⟩

lemma low_or_first (i : Nat) (ts : List (Tower S)) :
    Low i ts ∨ ∃ a t b, ts = a ++ t :: b ∧ i < t.height ∧ Low i a := by
  induction ts with
  | nil => exact .inl (Low.nil i)
  | cons t ts ih =>
    by_cases ht : i < t.height
    · exact .inr ⟨[], t, ts, rfl, ht, Low.nil i⟩
    have ht' := Nat.not_lt.mp ht
    rcases ih with h | ⟨a, u, b, rfl, hu, ha⟩
    · exact .inl (low_cons.mpr ⟨ht', h⟩)
    · exact .inr ⟨t :: a, u, b, rfl, hu, low_cons.mpr ⟨ht', ha⟩⟩

lemma forward_mem {y : Nat} (h : (link i ts).forward = some y) : y ∈ ts.map Tower.id := by
  induction ts with
  | nil => cases h
  | cons t ts ih =>
    by_cases ht : i < t.height
    · rw [link_high ht] at h
      cases h
      exact mem_cons_self ..
    rw [link_low (Nat.not_lt.mp ht)] at h
    exact mem_cons_of_mem _ (ih h)

/-! ## The place in front of a level -/

/-- The last tower that reaches level `i`, or the header, and its rank. -/
def lastAt (i : Nat) (pre : List (Tower S)) : Place × Nat :=
  match pre.reverse.dropWhile fun t => t.height ≤ i with
  | [] => (.header, 0)
  | t :: r => (.node t.id, r.length + 1)

lemma lastAt_low {pre : List (Tower S)} (h : Low i pre) : lastAt i pre = (.header, 0) := by
  have hd : (pre.reverse.dropWhile fun t => decide (t.height ≤ i)) = [] :=
    dropWhile_eq_nil_iff.mpr fun t ht => decide_eq_true (h t (mem_reverse.mp ht))
  rw [lastAt, hd]

lemma lastAt_append (ht : i < t.height) (hb : Low i b)
    (a : List (Tower S)) : lastAt i (a ++ t :: b) = (.node t.id, a.length + 1) := by
  have hd : ((a ++ t :: b).reverse.dropWhile fun t => decide (t.height ≤ i)) = t :: a.reverse := by
    rw [reverse_append, reverse_cons, append_assoc, dropWhile_append_of_pos,
      singleton_append]
    · simpa using ht
    · exact fun u hu => decide_eq_true (hb u (mem_reverse.mp hu))
  rw [lastAt, hd]
  dsimp only
  rw [length_reverse]

def endPlace (a : List (Tower S)) : Place :=
  match a.getLast? with
  | none => .header
  | some t => .node t.id

@[simp] lemma endPlace_nil : endPlace ([] : List (Tower S)) = .header := rfl

@[simp] lemma endPlace_append (a : List (Tower S)) (t : Tower S) :
    endPlace (a ++ [t]) = .node t.id := by
  rw [endPlace, getLast?_append]
  rfl

/-- `backward` of what comes behind these towers. -/
def lastId (a : List (Tower S)) : Option Nat := a.getLast?.map Tower.id

/-! ## Memory -/

def Tower.node (t : Tower S) (backward : Option Nat) (level : Nat → Level) : ZskiplistNode S :=
  ⟨t.ele, t.score, backward, (List.range t.height).map level⟩

/-- The nodes of these towers are in memory, where level `j` is linked as if the
towers `sel j` came behind the list. -/
def Linked (nodes : Nat → Option (ZskiplistNode S)) (sel : Nat → List (Tower S)) :
    (backward : Option Nat) → List (Tower S) → Prop
  | _, [] => True
  | backward, t :: ts =>
    nodes t.id = some (t.node backward fun j => link j (ts ++ sel j)) ∧
      Linked nodes sel (some t.id) ts

lemma linked_append {nodes : Nat → Option (ZskiplistNode S)} {sel : Nat → List (Tower S)}
    {backward : Option Nat} : Linked nodes sel backward (a ++ b) ↔
      Linked nodes (fun j => b ++ sel j) backward a ∧
        Linked nodes sel (a.getLast?.map Tower.id <|> backward) b := by
  induction a generalizing backward with
  | nil => simp [Linked]
  | cons t a ih =>
    have hlast : ((t :: a).getLast?.map Tower.id <|> backward) =
        (a.getLast?.map Tower.id <|> some t.id) := by
      cases a with
      | nil => rfl
      | cons u a => rfl
    rw [cons_append, Linked, Linked, ih, hlast]
    simp only [append_assoc, and_assoc]

lemma Tower.node_congr (t : Tower S) (backward : Option Nat) {f g : Nat → Level}
    (h : ∀ j < t.height, f j = g j) : t.node backward f = t.node backward g := by
  have hl : (List.range t.height).map f = (List.range t.height).map g :=
    map_congr_left fun j hj => h j (mem_range.mp hj)
  rw [Tower.node, Tower.node, hl]

/-- What a change of the memory and of the links has to respect. -/
lemma Linked.congr {nodes nodes' : Nat → Option (ZskiplistNode S)} {sel sel' : Nat → List (Tower S)}
    {backward : Option Nat} (h : Linked nodes sel backward ts)
    (hn : ∀ t ∈ ts, nodes' t.id = nodes t.id)
    (hl : ∀ a t b, ts = a ++ t :: b → ∀ j < t.height, link j (b ++ sel' j) = link j (b ++ sel j)) :
    Linked nodes' sel' backward ts := by
  induction ts generalizing backward with
  | nil => trivial
  | cons t ts ih =>
    obtain ⟨h1, h2⟩ := h
    refine ⟨?_, ih h2 (forall_mem_cons.mp hn).2 fun a u b hab =>
      hl (t :: a) u b (by rw [hab]; rfl)⟩
    rw [hn t mem_cons_self, h1, t.node_congr backward fun j hj => (hl [] t ts rfl j hj).symm]

lemma Linked.of_nodes {nodes nodes' : Nat → Option (ZskiplistNode S)} {sel : Nat → List (Tower S)}
    {backward : Option Nat} (h : Linked nodes sel backward ts)
    (hn : ∀ t ∈ ts, nodes' t.id = nodes t.id) : Linked nodes' sel backward ts :=
  h.congr hn fun _ _ _ _ _ _ => rfl

/-! ## The representation -/

/-- The skiplist holds these towers: the pointers and spans of the header and of
the nodes are those of the list, `backward`, `tail`, `length` and `level` are
exact, and the levels the header has above `level` are empty. -/
structure Valid (zsl : Zskiplist S) (ts : List (Tower S)) : Prop where
  linked : Linked zsl.nodes (fun _ => []) none ts
  header : ∀ i < zsl.level, zsl.header[i]? = some (link i ts)
  unused : ∀ i, zsl.level ≤ i → i < zskiplistMaxlevel → ∃ span, zsl.header[i]? = some ⟨none, span⟩
  nodup : (ts.map Tower.id).Nodup
  fresh : ∀ t ∈ ts, t.id < zsl.fresh
  tail : zsl.tail = lastId ts
  length : zsl.length = ts.length
  positive : ∀ t ∈ ts, 0 < t.height
  level_pos : 0 < zsl.level
  level_le : zsl.level ≤ zskiplistMaxlevel
  low : Low zsl.level ts
  level : zsl.level = 1 ∨ ∃ t ∈ ts, t.height = zsl.level

lemma valid_create : Valid (zslCreate : Zskiplist S) [] := by
  refine ⟨trivial, fun i hi => ?_, fun i _ hi => ⟨0, ?_⟩, .nil, nofun, rfl, rfl,
    nofun, Nat.one_pos, (by decide : 1 ≤ 32), nofun, Or.inl rfl⟩
  · have hi0 : i = 0 := Nat.lt_one_iff.mp hi
    subst hi0
    rfl
  · exact getElem?_replicate_of_lt hi

/-- The last tower of the list, if any, reaches the level; the header reaches
those in use. -/
def Visible (zsl : Zskiplist S) (a : List (Tower S)) (i : Nat) : Prop :=
  i < zsl.level ∧ ∀ t, a.getLast? = some t → i < t.height

lemma Valid.node {zsl : Zskiplist S} {a b : List (Tower S)} {t : Tower S}
    (h : Valid zsl (a ++ t :: b)) : zsl.node t.id = .ok (t.node (lastId a) fun j => link j b) := by
  have hn := (linked_append.mp h.linked).2.1
  rw [Zskiplist.node, hn]
  cases hl : a.getLast? with
  | none | some u => simp [lastId, hl]

lemma load_range {n : Nat} (h : i < n) (f : Nat → Level) :
    load ((List.range n).map f) i = .ok (f i) := by
  rw [load_eq_ok, getElem?_map, getElem?_range h]
  rfl

lemma Valid.levelAt {zsl : Zskiplist S} {rest : List (Tower S)}
    (h : Valid zsl (a ++ rest)) (hv : Visible zsl a i) :
    zsl.levelAt (endPlace a) i = .ok (link i rest) := by
  rcases eq_nil_or_concat' a with rfl | ⟨a, t, rfl⟩
  · exact load_eq_ok.mpr (h.header i hv.1)
  have ht : i < t.height := hv.2 t (by rw [getLast?_append]; rfl)
  rw [append_assoc] at h
  rw [endPlace_append, Zskiplist.levelAt, Valid.node h]
  exact load_range ht _

end Redis.Skiplist.Links
