import Mathlib.Data.Fintype.Card

/-! # Majority votes

`n` voters grant votes to candidates, each vote for a term. Where no voter grants two
candidates the same term, two candidates cannot both hold a majority for it. -/
namespace Redis.Lib.Voting

variable {n : Nat} {κ : Type}

/-- Who granted which candidate which term. -/
abbrev Votes (n : Nat) (κ : Type) := List (Fin n × κ × Nat)

def OnePerTerm (votes : Votes n κ) : Prop :=
  ∀ v c c' t, (v, c, t) ∈ votes → (v, c', t) ∈ votes → c = c'

/-- Different voters, more than half of them, granted `c` the term `t`. -/
def Majority (votes : Votes n κ) (c : κ) (t : Nat) : Prop :=
  ∃ vs : List (Fin n), vs.Nodup ∧ n / 2 + 1 ≤ vs.length ∧ ∀ v ∈ vs, (v, c, t) ∈ votes

lemma OnePerTerm.nil : OnePerTerm ([] : Votes n κ) := fun _ _ _ _ h => absurd h List.not_mem_nil

section
variable {votes : Votes n κ} {v w : Fin n} {c c' : κ} {t t' : Nat}

lemma mem_of_mem_cons_other (hne : w ≠ v) (h : (w, c', t') ∈ (v, c, t) :: votes) :
    (w, c', t') ∈ votes :=
  (List.mem_cons.mp h).resolve_left fun heq => hne (congrArg Prod.fst heq)

lemma le_of_mem_cons_self (hfresh : ∀ c' t', (v, c', t') ∈ votes → t' < t)
    (h : (v, c', t') ∈ (v, c, t) :: votes) : t' ≤ t := by
  rcases List.mem_cons.mp h with h | h
  · exact (congrArg (·.2.2) h).le
  · exact (hfresh c' t' h).le

lemma OnePerTerm.cons (h : OnePerTerm votes) (hfresh : ∀ c' t', (v, c', t') ∈ votes → t' < t) :
    OnePerTerm ((v, c, t) :: votes) := by
  intro w a b u ha hb
  rcases List.mem_cons.mp ha with ha | ha <;> rcases List.mem_cons.mp hb with hb | hb
  · simp only [Prod.mk.injEq] at ha hb
    rw [ha.2.1, hb.2.1]
  · simp only [Prod.mk.injEq] at ha
    have := hfresh b u (ha.1 ▸ hb)
    omega
  · simp only [Prod.mk.injEq] at hb
    have := hfresh a u (hb.1 ▸ ha)
    omega
  · exact h w a b u ha hb

end

lemma Majority.mono {votes votes' : Votes n κ} {c : κ} {t : Nat} (h : Majority votes c t)
    (hsub : ∀ x ∈ votes, x ∈ votes') : Majority votes' c t := by
  obtain ⟨vs, hnd, hlen, hall⟩ := h
  exact ⟨vs, hnd, hlen, fun v hv => hsub _ (hall v hv)⟩

/-- Two lists of different voters that together are longer than the list of all voters
share one. -/
lemma exists_common {as bs : List (Fin n)} (ha : as.Nodup) (hb : bs.Nodup)
    (hlen : n < as.length + bs.length) : ∃ v, v ∈ as ∧ v ∈ bs := by
  by_contra hnone
  push Not at hnone
  have hnd : (as ++ bs).Nodup :=
    List.nodup_append.mpr ⟨ha, hb, fun a hma b hmb he => hnone a hma (he ▸ hmb)⟩
  have hcard := hnd.length_le_card
  rw [Fintype.card_fin, List.length_append] at hcard
  omega

lemma Majority.unique {votes : Votes n κ} {c c' : κ} {t : Nat} (hone : OnePerTerm votes)
    (h : Majority votes c t) (h' : Majority votes c' t) : c = c' := by
  obtain ⟨vs, hnd, hlen, hall⟩ := h
  obtain ⟨vs', hnd', hlen', hall'⟩ := h'
  obtain ⟨v, hv, hv'⟩ := exists_common hnd hnd' (by omega)
  exact hone v c c' t (hall v hv) (hall' v hv')

end Redis.Lib.Voting
