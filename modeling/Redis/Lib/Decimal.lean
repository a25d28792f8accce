import Redis.Lib.Bytes

/-! # Decimal text of natural numbers

`decimal n` is the shortest decimal text of `n` in ASCII, and `value` reads a
list of digits back. A text of digits that does not start with a zero is the decimal text of its
value, so parsers that refuse leading zeros are invertible. -/
namespace Redis.Lib.Decimal
open List Lib

def digit (d : Nat) : UInt8 := UInt8.ofNat (48 + d)

def decimal (n : Nat) : Bytes :=
  if n < 10 then [digit n] else decimal (n / 10) ++ [digit (n % 10)]
termination_by n
decreasing_by omega

def IsDigit (c : UInt8) : Prop := 48 ≤ c.toNat ∧ c.toNat ≤ 57

instance (c : UInt8) : Decidable (IsDigit c) := inferInstanceAs (Decidable (_ ∧ _))

/-- Horner evaluation of digits, after digits worth `v`. -/
def value (v : Nat) (s : Bytes) : Nat := s.foldl (fun v c => v * 10 + (c.toNat - 48)) v

variable {d n : Nat}

lemma toNat_digit (h : d < 10) : (digit d).toNat = 48 + d := by
  rw [digit, UInt8.toNat_ofNat']
  omega

lemma isDigit_digit (h : d < 10) : IsDigit (digit d) := by
  rw [IsDigit, toNat_digit h]; omega

lemma digit_toNat {c} (h : IsDigit c) : digit (c.toNat - 48) = c := by
  have h1 := h.1
  have h2 := h.2
  apply UInt8.toNat_inj.mp
  rw [toNat_digit (by omega)]
  omega

lemma decimal_of_lt (h : n < 10) : decimal n = [digit n] := by
  rw [decimal, if_pos h]

lemma decimal_append_digit (hn : 0 < n) (hd : d < 10) :
    decimal (n * 10 + d) = decimal n ++ [digit d] := by
  rw [decimal, if_neg (by omega), show (n * 10 + d) / 10 = n by omega,
    show (n * 10 + d) % 10 = d by omega]

lemma decimal_ne_nil (n : Nat) : decimal n ≠ [] := by
  rw [decimal]; split <;> simp

lemma isDigit_of_mem_decimal : ∀ {n : Nat} {c : UInt8}, c ∈ decimal n → IsDigit c := by
  intro n
  induction n using Nat.strongRecOn with
  | ind n ih =>
    intro c hc
    rw [decimal] at hc
    split at hc
    · rename_i h
      rw [mem_singleton.mp hc]
      exact isDigit_digit h
    rcases mem_append.mp hc with hc | hc
    · exact ih (n / 10) (by omega) hc
    rw [mem_singleton.mp hc]
    exact isDigit_digit (Nat.mod_lt _ (by omega))

lemma value_append (v : Nat) (s t : Bytes) : value v (s ++ t) = value (value v s) t := foldl_append

lemma value_singleton (v : Nat) (c : UInt8) : value v [c] = v * 10 + (c.toNat - 48) := rfl

lemma value_decimal (n : Nat) : value 0 (decimal n) = n := by
  induction n using Nat.strongRecOn with
  | ind n ih =>
    rw [decimal]
    split
    · rename_i h
      rw [value_singleton, toNat_digit h]; omega
    rw [value_append, ih (n / 10) (by omega), value_singleton,
      toNat_digit (Nat.mod_lt _ (by omega))]
    omega

lemma decimal_eq_cons : ∀ {n : Nat}, 0 < n →
    ∃ c t, decimal n = c :: t ∧ 49 ≤ c.toNat ∧ c.toNat ≤ 57 := by
  intro n
  induction n using Nat.strongRecOn with
  | ind n ih =>
    intro hn
    rw [decimal]
    split
    · rename_i h
      exact ⟨_, [], rfl, by rw [toNat_digit h]; omega, by rw [toNat_digit h]; omega⟩
    obtain ⟨c, t, ht, h1, h2⟩ := ih (n / 10) (by omega) (by omega)
    exact ⟨c, t ++ [digit (n % 10)], by rw [ht]; rfl, h1, h2⟩

lemma decimal_value {v} (hv : 0 < v) {s} (hs : ∀ c ∈ s, IsDigit c) :
    decimal (value v s) = decimal v ++ s := by
  induction s generalizing v with
  | nil => simp [value]
  | cons c s ih =>
    have hc := hs c mem_cons_self
    have h2 := hc.2
    have hstep : value v (c :: s) = value (v * 10 + (c.toNat - 48)) s := rfl
    rw [hstep, ih (by omega) (forall_mem_cons.mp hs).2,
      decimal_append_digit hv (by omega), digit_toNat hc, append_assoc]
    rfl

lemma value_mono (v : Nat) (s : Bytes) : v ≤ value v s := by
  induction s generalizing v with
  | nil => exact Nat.le_refl v
  | cons c s ih => exact Nat.le_trans (by omega) (ih (v * 10 + (c.toNat - 48)))

lemma length_decimal_le {k} (h : n < 10 ^ (k + 1)) : (decimal n).length ≤ k + 1 := by
  induction k generalizing n with
  | zero => rw [decimal_of_lt (by omega)]; rfl
  | succ k ih =>
    rw [decimal]
    split
    · simp
    have := ih (n := n / 10) (by omega)
    simp only [length_append, length_singleton]
    omega

end Redis.Lib.Decimal
