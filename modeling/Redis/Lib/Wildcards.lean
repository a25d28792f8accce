import Mathlib.Computability.Language

/-! # Wildcard patterns

A pattern is a sequence of atoms, each of which stands for any sequence or for one letter of
a class. For a backtracking matcher the point is what a failure says: a pattern none of whose
words is a suffix of `s` keeps that property when atoms are put in front of it, `s` growing by
a letter for each class. -/
namespace Redis.Lib.Wildcards
open List

variable {α : Type} {s : List α}

inductive Atom (α : Type) where
  | star
  | one (accepts : α → Bool)

def Atom.words : Atom α → Language α
  | star => Set.univ
  | one accepts => {w | ∃ a, w = [a] ∧ accepts a = true}

def language (p : List (Atom α)) : Language α := (p.map Atom.words).prod

lemma mem_language_nil : s ∈ language ([] : List (Atom α)) ↔ s = [] := Language.mem_one s

variable {p : List (Atom α)} {accepts : α → Bool}

lemma mem_language_star : s ∈ language (.star :: p) ↔ ∃ t, t <:+ s ∧ t ∈ language p := by
  constructor
  · rintro ⟨u, -, t, ht, rfl⟩
    exact ⟨t, suffix_append u t, ht⟩
  rintro ⟨t, ⟨u, rfl⟩, ht⟩
  exact ⟨u, Set.mem_univ u, t, ht, rfl⟩

lemma mem_language_one {a : α} :
    a :: s ∈ language (.one accepts :: p) ↔ accepts a = true ∧ s ∈ language p := by
  constructor
  · rintro ⟨u, ⟨b, rfl, hb⟩, t, ht, heq⟩
    obtain ⟨rfl, rfl⟩ := List.cons.inj heq
    exact ⟨hb, ht⟩
  rintro ⟨ha, hs⟩
  exact ⟨[a], ⟨a, rfl, ha⟩, s, hs, rfl⟩

lemma nil_not_mem_one : [] ∉ language (.one accepts :: p) := by
  rintro ⟨u, ⟨b, rfl, -⟩, t, -, heq⟩
  cases heq

lemma language_star_star (p : List (Atom α)) :
    language (.star :: .star :: p) = language (.star :: p) := by
  ext s
  rw [mem_language_star]
  constructor
  · rintro ⟨t, hts, ht⟩
    obtain ⟨u, hut, hu⟩ := mem_language_star.mp ht
    exact mem_language_star.mpr ⟨u, hut.trans hts, hu⟩
  intro hs
  exact ⟨s, suffix_refl s, hs⟩

lemma nil_mem_language : [] ∈ language p ↔ ∀ a ∈ p, a = .star := by
  induction p with
  | nil => simp [mem_language_nil]
  | cons a p ih =>
    cases a with
    | star => simp [mem_language_star, ih]
    | one accepts => simp [nil_not_mem_one]

/-! ## What a failure excludes -/

def Excluded (p : List (Atom α)) (s : List α) : Prop := ∀ t, t <:+ s → t ∉ language p

lemma excluded_star (h : Excluded p s) : Excluded (.star :: p) s := by
  intro t hts ht
  obtain ⟨u, hut, hu⟩ := mem_language_star.mp ht
  exact h u (hut.trans hts) hu

lemma excluded_one (a : α) (h : Excluded p s) : Excluded (.one accepts :: p) (a :: s) := by
  intro t hts ht
  cases t with
  | nil => exact nil_not_mem_one ht
  | cons b t =>
    have hsuffix : t <:+ s := by
      rcases suffix_cons_iff.mp hts with heq | hts
      · rw [(List.cons.inj heq).2]
      · exact (suffix_cons b t).trans hts
    exact h t hsuffix (mem_language_one.mp ht).2

lemma excluded_cons {a : α} (h : Excluded p s)
    (ha : a :: s ∉ language p) : Excluded p (a :: s) := by
  intro t hts
  rcases suffix_cons_iff.mp hts with rfl | hts
  · exact ha
  · exact h t hts

end Redis.Lib.Wildcards
