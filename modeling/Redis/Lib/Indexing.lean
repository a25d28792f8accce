import Mathlib.Data.List.Forall2
import Redis.Lib.Outcome

/-! # Lists addressed from both ends

Index `0` is the first element, `-1` the last. -/
namespace Redis.Lib
open Option List

variable {α : Type} {i : Int} {xs : List α}

def atIndex (xs : List α) (i : Int) : Option α :=
  if 0 ≤ i then xs[i.toNat]?
  else if -i ≤ xs.length then xs[xs.length - (-i).toNat]? else none

lemma atIndex_add_length (h : i < 0) (h' : 0 ≤ xs.length + i) :
    atIndex xs i = atIndex xs (xs.length + i) := by
  have : xs.length - (-i).toNat = ((xs.length : Int) + i).toNat := by omega
  rw [atIndex, atIndex, if_neg (by omega), if_pos (by omega), if_pos h', this]

lemma atIndex_eq_none (h : (xs.length : Int) ≤ i ∨ xs.length + i < 0) : atIndex xs i = none := by
  unfold atIndex
  split
  · exact getElem?_eq_none (by omega)
  · rw [if_neg (by omega)]

lemma reverse_getElem? (xs : List α) (n : Nat) : xs.reverse[n]? = atIndex xs (-1 - n) := by
  have hneg : ¬ (0 : Int) ≤ -1 - n := by omega
  have hto : (-(-1 - (n : Int))).toNat = n + 1 := by omega
  rw [atIndex, if_neg hneg]
  by_cases hn : n < xs.length
  · rw [if_pos (by omega), getElem?_reverse hn]
    congr 1
    omega
  · rw [if_neg (by omega), getElem?_eq_none (by rw [length_reverse]; omega)]

lemma mem_of_atIndex {x : α} (h : atIndex xs i = some x) : x ∈ xs := by
  unfold atIndex at h
  split at h
  · exact mem_of_getElem? h
  split at h
  · exact mem_of_getElem? h
  · cases h

lemma forall₂_getElem? {β : Type} {R : α → β → Prop} {ys}
    (h : List.Forall₂ R xs ys) (n : Nat) : Option.Rel R xs[n]? ys[n]? := by
  induction h generalizing n with
  | nil => exact .none
  | cons hxy _ ih =>
    cases n with
    | zero => exact .some hxy
    | succ n => exact ih n

lemma forall₂_atIndex {β : Type} {R : α → β → Prop} {ys}
    (h : List.Forall₂ R xs ys) (i : Int) : Option.Rel R (atIndex xs i) (atIndex ys i) := by
  unfold atIndex
  rw [h.length_eq]
  split
  · exact forall₂_getElem? h _
  split
  · exact forall₂_getElem? h _
  · exact .none

/-- The position an index denotes in a list of `n` elements. -/
def normIndex (n : Nat) (i : Int) : Option Nat :=
  let j := if i < 0 then n + i else i
  if 0 ≤ j ∧ j < n then some j.toNat else none

lemma atIndex_eq_bind (xs : List α) (i : Int) :
    atIndex xs i = (normIndex xs.length i).bind fun k => xs[k]? := by
  unfold normIndex
  by_cases hi : i < 0
  · by_cases hr : 0 ≤ (xs.length : Int) + i
    · rw [atIndex_add_length hi hr, atIndex, if_pos hr]
      simp only [if_pos hi]
      rw [if_pos ⟨hr, by omega⟩, bind_some]
    rw [atIndex_eq_none (by omega)]
    simp only [if_pos hi]
    rw [if_neg (fun h => hr h.1), bind_none]
  by_cases hr : i < xs.length
  · rw [atIndex, if_pos (by omega)]
    simp only [if_neg hi]
    rw [if_pos ⟨by omega, hr⟩, bind_some]
  rw [atIndex_eq_none (by omega)]
  simp only [if_neg hi]
  rw [if_neg (fun h => hr h.2), bind_none]

lemma normIndex_eq_some {n k} (h : normIndex n i = some k) :
    (if i < 0 then (n : Int) + i else i) = k ∧ k < n := by
  simp only [normIndex, ite_none_right_eq_some, some.injEq] at h
  omega

def removeRange (xs : List α) (i : Int) (num : Nat) : List α :=
  match normIndex xs.length i with
  | none => xs
  | some k => xs.take k ++ xs.drop (k + num)

lemma normIndex_cases (xs : List α) (i : Int) : normIndex xs.length i = none ∨
      ∃ ys y zs, xs = ys ++ y :: zs ∧ normIndex xs.length i = some ys.length := by
  cases h : normIndex xs.length i with
  | none => exact .inl rfl
  | some k =>
    have hk : k < xs.length := (normIndex_eq_some h).2
    refine .inr ⟨xs.take k, xs[k], xs.drop (k + 1), ?_, ?_⟩
    · rw [getElem_cons_drop, take_append_drop]
    · rw [length_take, Nat.min_eq_left hk.le]

end Redis.Lib
