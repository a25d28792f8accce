import Mathlib.Data.Nat.Bitwise

/-! # Outcomes of C code

A C function either returns or stops the process: an assertion fails, a load
goes past its object, a null pointer is followed, or the allocator gives up.
`Outcome` carries that distinction, so that "no read outside the buffer" and "no assertion
fires" are statements about values. A loop without a structural bound gets one, and running past
it is the fault `loop`. -/
namespace Redis.Lib

/-- Why a run stopped instead of returning. -/
inductive Fault where
  | assertion
  | bounds
  | null
  | memory
  | loop
deriving DecidableEq, Repr

abbrev Outcome (α : Type) := Except Fault α

namespace Outcome
variable {α β : Type}

@[simp] lemma bind_ok (a : α) (f : α → Outcome β) : (Except.ok a >>= f) = f a := rfl

@[simp] lemma bind_error (e : Fault) (f : α → Outcome β) :
    ((Except.error e : Outcome α) >>= f) = .error e := rfl

@[simp] lemma pure_eq (a : α) : (pure a : Outcome α) = .ok a := rfl

/-- Peel one computation off a run that returned. -/
lemma bind_eq_ok {ε : Type} {x} {f : α → Except ε β} {b : β} :
    (x >>= f) = .ok b ↔ ∃ a, x = .ok a ∧ f a = .ok b := by
  cases x with
  | error e => exact ⟨nofun, fun ⟨_, h, _⟩ => (nomatch h)⟩
  | ok a => exact ⟨fun h => ⟨a, rfl, h⟩, fun ⟨_, h, h'⟩ => by cases h; exact h'⟩

/-- A loop whose body never fails where `P` holds, and keeps it. -/
lemma foldlM_keeps {P : α → Prop} {f : α → β → Outcome α}
    (hf : ∀ s b, P s → ∃ s', f s b = .ok s' ∧ P s') (bs : List β) :
    ∀ s, P s → ∃ s', bs.foldlM f s = .ok s' ∧ P s' := by
  induction bs with
  | nil => exact fun s h => ⟨s, rfl, h⟩
  | cons b bs ih =>
    intro s h
    obtain ⟨s1, hrun, h1⟩ := hf s b h
    rw [List.foldlM_cons, hrun]
    exact ih s1 h1

end Outcome

/-- `assert(p)`. -/
def check (p : Prop) [Decidable p] : Outcome Unit :=
  if p then .ok () else .error .assertion

lemma check_pos {p : Prop} [Decidable p] (h : p) : check p = .ok () := if_pos h

/-- A load at index `i` of an object of known extent. -/
def load {α : Type} (xs : List α) (i : Nat) : Outcome α :=
  match xs[i]? with
  | some a => .ok a
  | none => .error .bounds

@[simp] lemma load_eq_ok {α : Type} {xs i} {a : α} : load xs i = .ok a ↔ xs[i]? = some a := by
  unfold load; cases xs[i]? <;> simp

end Redis.Lib
