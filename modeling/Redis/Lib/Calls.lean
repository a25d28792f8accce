import Mathlib.Init

/-! # Programs that call the outside

A program makes calls on a world it does not see, gets a result for each, and may end early.
`Always` is its weakest precondition for a condition that has to hold at every instant: before
and after each call, and where a call is interrupted, with a result it need not be able to
return. -/
namespace Redis.Lib

variable {C R W α β : Type}

inductive Prog (C R α : Type) where
  | ret (a : α)
  | exit
  | call (c : C) (k : R → Prog C R α)

namespace Prog

def bind : Prog C R α → (α → Prog C R β) → Prog C R β
  | ret a, f => f a
  | exit, _ => exit
  | call c k, f => call c fun r => (k r).bind f

instance : Monad (Prog C R) where
  pure := ret
  bind := bind

def perform (c : C) : Prog C R R := call c ret

variable {p : Prog C R α}

section
variable (effect : C → R → W → W) (Returned : C → R → W → Prop)

/-- The worlds in which the program can be stopped. -/
inductive Reaches : Prog C R α → W → W → Prop
  | here (p : Prog C R α) (w : W) : Reaches p w w
  | during (c : C) (k : R → Prog C R α) (r : R) (w : W) : Reaches (call c k) w (effect c r w)
  | after {c : C} {k : R → Prog C R α} {r : R} {w w' : W} (hr : Returned c r w)
      (h : Reaches (k r) (effect c r w) w') : Reaches (call c k) w w'

/-- The values with which the program can end, and the worlds it leaves. -/
inductive Ends : Prog C R α → W → α → W → Prop
  | ret (a : α) (w : W) : Ends (ret a) w a w
  | call {c : C} {k : R → Prog C R α} {r : R} {w w' : W} {a : α} (hr : Returned c r w)
      (h : Ends (k r) (effect c r w) a w') : Ends (call c k) w a w'

/-- Every world the program passes meets `P`, and what it ends with meets `Q`. -/
def Always (P : W → Prop) : Prog C R α → (α → W → Prop) → W → Prop
  | .ret a, Q, w => P w ∧ Q a w
  | .exit, _, w => P w
  | .call c k, Q, w => P w ∧ ∀ r, P (effect c r w) ∧
      (Returned c r w → Always P (k r) Q (effect c r w))

variable {effect Returned} {P : W → Prop} {w : W} {Q : α → W → Prop}

lemma Always.here (h : Always effect Returned P p Q w) : P w := by
  cases p with
  | ret a => exact h.1
  | exit => exact h
  | call c k => exact h.1

lemma Always.of_reaches {w'}
    (h : Always effect Returned P p Q w) (hr : Reaches effect Returned p w w') : P w' := by
  induction hr with
  | here p w => exact h.here
  | during c k r w => exact (h.2 r).1
  | after hr _ ih => exact ih ((h.2 _).2 hr)

lemma Always.of_ends {w'} {a : α}
    (h : Always effect Returned P p Q w) (he : Ends effect Returned p w a w') : Q a w' := by
  induction he with
  | ret a w => exact h.2
  | call hr _ ih => exact ih ((h.2 _).2 hr)

lemma Always.mono {Q' : α → W → Prop} (hQ : ∀ a w, Q a w → Q' a w) :
    ∀ {w : W}, Always effect Returned P p Q w → Always effect Returned P p Q' w := by
  induction p with
  | ret a => exact fun h => ⟨h.1, hQ _ _ h.2⟩
  | exit => exact fun h => h
  | call c k ih => exact fun h => ⟨h.1, fun r => ⟨(h.2 r).1, fun hr => ih r ((h.2 r).2 hr)⟩⟩

lemma Always.bind {f : α → Prog C R β} {Q : β → W → Prop} :
    ∀ {w : W}, Always effect Returned P p (fun a => Always effect Returned P (f a) Q) w →
      Always effect Returned P (p >>= f) Q w := by
  induction p with
  | ret a => exact fun h => h.2
  | exit => exact fun h => h
  | call c k ih => exact fun h => ⟨h.1, fun r => ⟨(h.2 r).1, fun hr => ih r ((h.2 r).2 hr)⟩⟩

lemma Always.seq {f : α → Prog C R β} {Q' : β → W → Prop} (hp : Always effect Returned P p Q w)
    (hf : ∀ a w, Q a w → Always effect Returned P (f a) Q' w) :
    Always effect Returned P (p >>= f) Q' w :=
  (hp.mono hf).bind

end

/-! ## Running a program on given results -/

/-- The program with one result after the other; `none` where they do not suffice or
cannot be returned, and where it ends early. -/
def exec (effect : C → R → W → W) (returned : C → R → W → Bool) :
    Prog C R α → List R → W → Option (α × W)
  | ret a, _, w => some (a, w)
  | exit, _, _ => none
  | call _ _, [], _ => none
  | call c k, r :: rs, w =>
    if returned c r w then exec effect returned (k r) rs (effect c r w) else none

lemma ends_of_exec {effect : C → R → W → W} {returned : C → R → W → Bool}
    {Returned : C → R → W → Prop} (hret : ∀ c r w, returned c r w = true → Returned c r w) :
    ∀ {rs : List R} {w w' : W} {a : α}, exec effect returned p rs w = some (a, w') →
      Ends effect Returned p w a w' := by
  induction p with
  | ret a =>
    intro rs w w' b h
    cases h
    exact .ret a w
  | exit =>
    intro rs w w' b h
    cases h
  | call c k ih =>
    intro rs w w' b h
    cases rs with
    | nil => cases h
    | cons r rs =>
      rw [exec] at h
      split at h
      · rename_i hr
        exact .call (hret c r w hr) (ih r h)
      · cases h

end Prog

end Redis.Lib
