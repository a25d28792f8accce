import Mathlib.Data.List.Perm.Basic

/-! # Arrays of chains

A chained table is a list of chains. Replacing one chain changes the multiset of members by the
difference of the two chains; counts, membership and absence of duplicates follow from that one
permutation. `Placed` says that each member sits in the chain its index function names. -/
namespace Redis.Lib.Buckets
open List

variable {α : Type} {bs : List (List α)} {b : List α} {i : Nat} {x : α}

lemma perm_set : ∀ {bs : List (List α)} {i : Nat} {b : List α} (b' : List α),
    bs[i]? = some b → (b' ++ bs.flatten).Perm (b ++ (bs.set i b').flatten)
  | [], _, _, _, h => by simp at h
  | c :: bs, 0, b, b', h => by
    simp only [getElem?_cons_zero, Option.some.injEq] at h
    subst h
    simpa only [flatten_cons, set_cons_zero] using perm_append_comm_assoc b' c bs.flatten
  | c :: bs, i + 1, b, b', h => by
    simp only [getElem?_cons_succ] at h
    have ih := perm_set b' h
    exact (perm_append_comm_assoc b' c _).trans ((ih.append_left c).trans (perm_append_comm_assoc c b _))

lemma perm_push (x : α)
    (h : bs[i]? = some b) : (bs.set i (x :: b)).flatten.Perm (x :: bs.flatten) := by
  have hp := perm_set (x :: b) h
  have hc : (b ++ (x :: bs.flatten)).Perm (b ++ (bs.set i (x :: b)).flatten) := perm_middle.trans hp
  exact ((perm_append_left_iff b).mp hc).symm

lemma perm_clear (h : bs[i]? = some b) : bs.flatten.Perm (b ++ (bs.set i []).flatten) := by
  simpa using perm_set [] h

lemma perm_unlink {l r} (h : bs[i]? = some (l ++ x :: r)) :
    bs.flatten.Perm (x :: (bs.set i (l ++ r)).flatten) := by
  have hp := perm_set (l ++ r) h
  have hc : ((l ++ x :: r) ++ (bs.set i (l ++ r)).flatten).Perm
      ((l ++ r) ++ x :: (bs.set i (l ++ r)).flatten) := by
    simp only [append_assoc]
    refine List.Perm.append_left l ?_
    exact perm_middle.symm
  exact (perm_append_left_iff (l ++ r)).mp (hp.trans hc)

lemma perm_replace {l r} (y : α) (h : bs[i]? = some (l ++ x :: r)) :
    ∃ rest, bs.flatten.Perm (x :: rest) ∧ (bs.set i (l ++ y :: r)).flatten.Perm (y :: rest) := by
  refine ⟨(bs.set i (l ++ r)).flatten, perm_unlink h, ?_⟩
  have hi : i < bs.length := (List.getElem?_eq_some_iff.mp h).1
  have hs : (bs.set i (l ++ y :: r))[i]? = some (l ++ y :: r) := getElem?_set_self hi
  simpa only [set_set] using perm_unlink hs

def Placed (ix : α → Nat) (bs : List (List α)) : Prop := ∀ i b, bs[i]? = some b → ∀ x ∈ b, ix x = i

lemma Placed.set {ix : α → Nat} (h : Placed ix bs)
    (hb : ∀ x ∈ b, ix x = i) : Placed ix (bs.set i b) := by
  intro j c hc x hx
  rw [getElem?_set] at hc
  split at hc
  · rename_i hij
    split at hc
    · cases hc; rw [← hij]; exact hb x hx
    · cases hc
  · exact h j c hc x hx

lemma placed_replicate_nil (ix : α → Nat) (n : Nat) :
    Placed ix (List.replicate n ([] : List α)) := by
  intro i b hb x hx
  have := mem_of_getElem? hb
  rw [eq_of_mem_replicate this] at hx
  cases hx

lemma Placed.mem_flatten {ix : α → Nat} (h : Placed ix bs) :
    x ∈ bs.flatten ↔ ∃ b, bs[ix x]? = some b ∧ x ∈ b := by
  constructor
  · intro hx
    obtain ⟨b, hb, hxb⟩ := List.mem_flatten.mp hx
    obtain ⟨i, hi⟩ := mem_iff_getElem?.mp hb
    have := h i b hi x hxb
    exact ⟨b, this ▸ hi, hxb⟩
  · rintro ⟨b, hb, hx⟩
    exact List.mem_flatten.mpr ⟨b, List.mem_of_getElem? hb, hx⟩

def StoredFrom (bs : List (List α)) (i : Nat) : Prop := ∃ j b, i ≤ j ∧ bs[j]? = some b ∧ b ≠ []

/-- The chains from `i` up to but not including `j` are empty. -/
def EmptyBetween (bs : List (List α)) (i j : Nat) : Prop :=
  ∀ k b, i ≤ k → k < j → bs[k]? = some b → b = []

lemma StoredFrom.lt_length (h : StoredFrom bs i) : i < bs.length := by
  obtain ⟨j, b, hij, hb, -⟩ := h
  have := (List.getElem?_eq_some_iff.mp hb).1
  omega

lemma StoredFrom.succ (h : StoredFrom bs i) (hi : bs[i]? = some []) : StoredFrom bs (i + 1) := by
  obtain ⟨j, b, hij, hb, hne⟩ := h
  refine ⟨j, b, ?_, hb, hne⟩
  rcases Nat.lt_or_ge i j with hlt | hge
  · exact hlt
  have : j = i := by omega
  subst this
  rw [hb] at hi; cases hi; exact absurd rfl hne

lemma emptyBetween_self (bs : List (List α)) (i : Nat) : EmptyBetween bs i i :=
  fun _ _ h1 h2 => by omega

lemma EmptyBetween.cons {bs : List (List α)} {i j : Nat} (h : EmptyBetween bs (i + 1) j)
    (hi : bs[i]? = some []) : EmptyBetween bs i j := by
  intro k b h1 h2 hk
  rcases Nat.lt_or_ge i k with hlt | hge
  · exact h k b hlt h2 hk
  have : k = i := by omega
  subst this
  rw [hi] at hk; cases hk; rfl

lemma EmptyBetween.append {j k} (h : EmptyBetween bs i j)
    (h' : EmptyBetween bs j k) : EmptyBetween bs i k := by
  intro l b h1 h2 hl
  rcases Nat.lt_or_ge l j with hlt | hge
  · exact h l b h1 hlt hl
  · exact h' l b hge h2 hl

lemma EmptyBetween.clear {j} (h : EmptyBetween bs i j) : EmptyBetween (bs.set j []) i (j + 1) := by
  intro k b h1 h2 hk
  rw [getElem?_set] at hk
  split at hk
  · split at hk
    · cases hk; rfl
    · cases hk
  · exact h k b h1 (by omega) hk

/-- A chain that holds something lies outside an empty stretch, so overwriting
it leaves the stretch empty. -/
lemma EmptyBetween.set {r b'} (h : EmptyBetween bs 0 r) (hb : bs[i]? = some b) (hne : b ≠ []) :
    EmptyBetween (bs.set i b') 0 r := by
  intro k c h1 h2 hk
  rw [getElem?_set] at hk
  split at hk
  · exact absurd (h i b (Nat.zero_le _) (by omega) hb) hne
  · exact h k c h1 h2 hk

/-- If something is stored and the chains below `r` are empty, some chain from
`r` on is not. -/
lemma storedFrom_of_ne_nil {r} (hne : bs.flatten ≠ [])
    (hr : EmptyBetween bs 0 r) : StoredFrom bs r := by
  obtain ⟨x, hx⟩ := exists_mem_of_ne_nil _ hne
  obtain ⟨b, hb, hxb⟩ := mem_flatten.mp hx
  obtain ⟨i, hi⟩ := mem_iff_getElem?.mp hb
  refine ⟨i, b, ?_, hi, ne_nil_of_mem hxb⟩
  by_contra hlt
  exact ne_nil_of_mem hxb (hr i b (by omega) (by omega) hi)

end Redis.Lib.Buckets
