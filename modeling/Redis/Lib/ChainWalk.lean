import Redis.Lib.Buckets
import Mathlib.Data.List.Nodup

/-! # Walking an array of chains while it changes

A walk goes through the chains in order, and through each chain member by member. Between two
steps it keeps the chain it is in and the member it comes to next. `rest` is what the walk still
comes to. A change of members other than the next one leaves every other member of the rest
there and brings none back. -/
namespace Redis.Lib.ChainWalk
open List Buckets

variable {α : Type} [DecidableEq α] {l r : List α} {a : α}

/-- The chain a walk is in, and the member of it that comes next. -/
structure Cursor (α : Type) where
  chain : Nat
  next : Option α

def tailFrom (chain : List α) : Option α → List α
  | none => []
  | some a => chain.dropWhile (· ≠ a)

/-- What the walk still comes to; all members before it has begun. -/
def rest (cs : List (List α)) : Option (Cursor α) → List α
  | none => cs.flatten
  | some c => tailFrom (cs.getD c.chain []) c.next ++ (cs.drop (c.chain + 1)).flatten

structure Valid (cs : List (List α)) (c : Cursor α) : Prop where
  lt : c.chain < cs.length
  mem : ∀ a, c.next = some a → a ∈ cs.getD c.chain []

/-- Changes in which only members with `P` come and go. -/
inductive Change (P : α → Prop) : List (List α) → List (List α) → Prop where
  | refl (cs) : Change P cs cs
  | extend (cs) (n : Nat) : Change P cs (cs ++ List.replicate n [])
  | push {cs i b k} : P k → cs[i]? = some b → Change P cs (cs.set i (k :: b))
  | unlink {cs i l r k} : P k → cs[i]? = some (l ++ k :: r) → Change P cs (cs.set i (l ++ r))
  | trans {cs cs' cs''} : Change P cs cs' → Change P cs' cs'' → Change P cs cs''

/-! ## The members of the rest -/

lemma tailFrom_cut (h : a ∉ l) : tailFrom (l ++ a :: r) (some a) = a :: r := by
  rw [tailFrom, dropWhile_append_of_pos, dropWhile_cons_of_neg (by simp)]
  intro x hx
  have hxa : x ≠ a := fun hxa => h (hxa ▸ hx)
  simpa using hxa

lemma tailFrom_sublist (chain : List α) (next : Option α) :
    (tailFrom chain next).Sublist chain := by
  cases next with
  | none => exact nil_sublist chain
  | some a => exact dropWhile_sublist _

variable {cs : List (List α)} {b : List α} {i : Nat} {c : Cursor α} {b' : List α} {x : α}

omit [DecidableEq α] in
lemma drop_flatten (hi : cs[i]? = some b) :
    (cs.drop i).flatten = b ++ (cs.drop (i + 1)).flatten := by
  obtain ⟨hlt, rfl⟩ := List.getElem?_eq_some_iff.mp hi
  rw [drop_eq_getElem_cons hlt, flatten_cons]

lemma rest_sublist (cs : List (List α)) (c : Option (Cursor α)) :
    (rest cs c).Sublist cs.flatten := by
  cases c with
  | none => exact List.Sublist.refl _
  | some c =>
    have hdrop : ∀ i, (cs.drop i).flatten.Sublist cs.flatten := fun i => by
      conv => rhs; rw [← take_append_drop i cs, flatten_append]
      exact sublist_append_right _ _
    cases hi : cs[c.chain]? with
    | none =>
      have hnil : tailFrom (cs.getD c.chain []) c.next = [] := by
        rw [getD_eq_getElem?_getD, hi]
        exact sublist_nil.mp (tailFrom_sublist [] c.next)
      rw [rest, hnil]
      exact hdrop _
    | some b =>
      have hget : cs.getD c.chain [] = b := by rw [getD_eq_getElem?_getD, hi]; rfl
      rw [rest, hget]
      refine ((tailFrom_sublist b c.next).append_right _).trans ?_
      rw [← drop_flatten hi]
      exact hdrop _

lemma mem_rest_next (h : Valid cs c) (ha : c.next = some a) : a ∈ rest cs (some c) := by
  refine mem_append_left _ ?_
  obtain ⟨l, r, hlr, hal⟩ := eq_append_cons_of_mem (h.mem a ha)
  rw [ha, hlr, tailFrom_cut hal]
  exact mem_cons_self

/-! ## Steps of the walk -/

lemma tailFrom_head? (h : (l ++ a :: r).Nodup) : tailFrom (l ++ a :: r) r.head? = r := by
  cases r with
  | nil => rfl
  | cons b r =>
    have hb : b ∉ l ++ [a] := by
      rw [append_cons] at h
      exact fun hmem => (nodup_append.mp h).2.2 b hmem b mem_cons_self rfl
    rw [append_cons, head?_cons, tailFrom_cut hb]

lemma rest_next (hi : cs[i]? = some (l ++ a :: r)) (hnodup : (l ++ a :: r).Nodup) :
    rest cs (some ⟨i, some a⟩) = a :: rest cs (some ⟨i, r.head?⟩) := by
  have hget : cs.getD i [] = l ++ a :: r := by simp [hi]
  have hal : a ∉ l := fun hmem => (nodup_append.mp hnodup).2.2 a hmem a mem_cons_self rfl
  simp only [rest, hget, tailFrom_cut hal, tailFrom_head? hnodup, cons_append]

lemma rest_first (hi : cs[i]? = some (a :: r)) (hnodup : (a :: r).Nodup) :
    (cs.drop i).flatten = a :: rest cs (some ⟨i, r.head?⟩) := by
  have hget : cs.getD i [] = [] ++ a :: r := by simp [hi]
  rw [drop_flatten hi, rest, hget, tailFrom_head? hnodup]
  rfl

/-! ## Changes -/

omit [DecidableEq α] in
lemma mem_flatten_set (hi : cs[i]? = some b) (h : x ∈ b' ↔ x ∈ b) :
    x ∈ (cs.set i b').flatten ↔ x ∈ cs.flatten := by
  induction cs generalizing i with
  | nil => simp at hi
  | cons c cs ih =>
    cases i with
    | zero =>
      obtain rfl : c = b := by simpa using hi
      simp [h]
    | succ i =>
      simp only [set_cons_succ, flatten_cons, mem_append]
      rw [ih (by simpa using hi)]

/-- Exchanging one chain for another whose tails have the member `x` at the same time. -/
lemma mem_rest_set (hi : cs[i]? = some b) (h : x ∈ b' ↔ x ∈ b)
    (htail : x ∈ tailFrom b' c.next ↔ x ∈ tailFrom b c.next) :
    x ∈ rest (cs.set i b') (some c) ↔ x ∈ rest cs (some c) := by
  have hlt := (List.getElem?_eq_some_iff.mp hi).1
  simp only [rest, mem_append, getD_eq_getElem?_getD]
  rcases Nat.lt_trichotomy i c.chain with hic | hic | hic
  · rw [getElem?_set_ne (Nat.ne_of_lt hic), drop_set_of_lt (Nat.lt_succ_of_lt hic)]
  · subst hic
    rw [getElem?_set_self hlt, hi, drop_set_of_lt (Nat.lt_succ_self _)]
    simp only [Option.getD_some, htail]
  rw [getElem?_set_ne (Nat.ne_of_gt hic), drop_set, if_neg (Nat.not_lt.mpr hic)]
  rw [mem_flatten_set (by rw [getElem?_drop, Nat.add_sub_cancel' hic]; exact hi) h]

omit [DecidableEq α] in
lemma mem_dropWhile_unlink {p : α → Bool} {k : α} (hk : p k = true) (hx : x ≠ k)
    (l r : List α) : x ∈ (l ++ r).dropWhile p ↔ x ∈ (l ++ k :: r).dropWhile p := by
  induction l with
  | nil => simp [dropWhile_cons_of_pos hk]
  | cons y l ih =>
    by_cases hy : p y = true
    · simpa only [cons_append, dropWhile_cons_of_pos hy] using ih
    · simp [dropWhile_cons_of_neg hy, hx]

omit [DecidableEq α] in
lemma Valid.set (h : Valid cs c)
    (hi : cs[i]? = some b) (hb : ∀ a, c.next = some a → a ∈ b → a ∈ b') :
    Valid (cs.set i b') c := by
  have hlt := (List.getElem?_eq_some_iff.mp hi).1
  refine ⟨by simpa using h.lt, fun a ha => ?_⟩
  have hmem := h.mem a ha
  rw [getD_eq_getElem?_getD] at hmem ⊢
  by_cases hic : i = c.chain
  · subst hic
    rw [hi] at hmem
    rw [getElem?_set_self hlt]
    exact hb a ha hmem
  · rwa [getElem?_set_ne hic]

lemma Change.rest {P : α → Prop} {cs'} (h : Change P cs cs')
    (hc : Valid cs c) (hP : ∀ a, c.next = some a → ¬ P a) :
    Valid cs' c ∧ ∀ x, ¬ P x → (x ∈ rest cs' (some c) ↔ x ∈ rest cs (some c)) := by
  induction h with
  | refl cs => exact ⟨hc, fun x _ => Iff.rfl⟩
  | extend cs n =>
    have hget : (cs ++ List.replicate n []).getD c.chain [] = cs.getD c.chain [] := by
      simp [getElem?_append_left hc.lt]
    refine ⟨⟨?_, fun a ha => hget ▸ hc.mem a ha⟩, fun x _ => ?_⟩
    · rw [length_append]
      exact Nat.lt_add_right _ hc.lt
    simp only [ChainWalk.rest, hget, drop_append_of_le_length hc.lt]
    simp
  | @push cs i b k hk hi =>
    have htail : ∀ x, x ∈ tailFrom (k :: b) c.next ↔ x ∈ tailFrom b c.next := by
      intro x
      cases hn : c.next with
      | none => exact Iff.rfl
      | some a =>
        have hka : k ≠ a := fun h => hP a hn (h ▸ hk)
        rw [tailFrom, dropWhile_cons_of_pos (by simpa using hka)]
        exact Iff.rfl
    refine ⟨hc.set hi fun a _ ha => mem_cons_of_mem k ha, fun x hx => ?_⟩
    have hxk : x ≠ k := fun h => hx (h ▸ hk)
    exact mem_rest_set hi (by simp [hxk]) (htail x)
  | @unlink cs i l r k hk hi =>
    have hmem : ∀ x, x ≠ k → (x ∈ l ++ r ↔ x ∈ l ++ k :: r) := by
      intro x hx
      simp [hx]
    have htail : ∀ x, x ≠ k →
        (x ∈ tailFrom (l ++ r) c.next ↔ x ∈ tailFrom (l ++ k :: r) c.next) := by
      intro x hx
      cases hn : c.next with
      | none => exact Iff.rfl
      | some a =>
        have hka : k ≠ a := fun h => hP a hn (h ▸ hk)
        exact mem_dropWhile_unlink (by simpa using hka) hx l r
    refine ⟨hc.set hi fun a ha hmemA => (hmem a fun h => hP a ha (h ▸ hk)).mpr hmemA,
      fun x hx => ?_⟩
    have hxk : x ≠ k := fun h => hx (h ▸ hk)
    exact mem_rest_set hi (hmem x hxk) (htail x hxk)
  | trans _ _ ih ih' =>
    obtain ⟨hc', hrest⟩ := ih hc
    obtain ⟨hc'', hrest'⟩ := ih' hc'
    exact ⟨hc'', fun x hx => (hrest' x hx).trans (hrest x hx)⟩

end Redis.Lib.ChainWalk
