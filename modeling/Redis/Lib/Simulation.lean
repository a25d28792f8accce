import Redis.Lib.Outcome

/-! # Forward simulation over runs

A component is a step function on states, its purpose a step function on abstract values, and a
relation connects the two. `run_simulates` lifts what is proved about one step to every run. The
relation may count steps: the length of a run limits what it can have built. -/
namespace Redis.Lib.Simulation
open Lib Outcome

variable {σ α ω ρ : Type} {step : ω → σ → Outcome (σ × ρ)}

/-- A list of operations with the replies it produces, up to the first
fault. -/
def run (step : ω → σ → Outcome (σ × ρ)) : List ω → σ → Outcome (σ × List ρ)
  | [], s => .ok (s, [])
  | op :: ops, s => do
    let (s, r) ← step op s
    let (s, rs) ← run step ops s
    .ok (s, r :: rs)

/-- The same operations on the abstract value. -/
def specRun (spec : ω → α → α × ρ) : List ω → α → α × List ρ
  | [], a => (a, [])
  | op :: ops, a => ((specRun spec ops (spec op a).1).1,
      (spec op a).2 :: (specRun spec ops (spec op a).1).2)

/-- One step: either the reply is the abstract one and the relation holds
again, or the step stops with a fault that `F` allows at this step. -/
def StepSimulates (step : ω → σ → Outcome (σ × ρ)) (spec : ω → α → α × ρ)
    (R : Nat → σ → α → Prop) (F : Nat → Fault → Prop) : Prop :=
  ∀ n op s a, R n s a → (∃ s', step op s = .ok (s', (spec op a).2) ∧ R (n + 1) s' (spec op a).1) ∨
    (∃ f, step op s = .error f ∧ F n f)

lemma run_simulates {spec : ω → α → α × ρ}
    {R : Nat → σ → α → Prop} {F : Nat → Fault → Prop} (h : StepSimulates step spec R F) :
    ∀ (ops : List ω) (n : Nat) (s : σ) (a : α), R n s a →
      (∃ s', run step ops s = .ok (s', (specRun spec ops a).2) ∧
        R (n + ops.length) s' (specRun spec ops a).1) ∨
      (∃ k f, k < ops.length ∧ run step ops s = .error f ∧ F (n + k) f)
  | [], n, s, a, hr => .inl ⟨s, rfl, hr⟩
  | op :: ops, n, s, a, hr => by
    rcases h n op s a hr with ⟨s', hs, hr'⟩ | ⟨f, hs, hf⟩
    · rcases run_simulates h ops (n + 1) s' _ hr' with ⟨s'', hs', hr''⟩ | ⟨k, f, hk, hs', hf⟩
      · refine .inl ⟨s'', ?_, ?_⟩
        · simp only [run, hs, bind_ok, hs', specRun]
        rw [List.length_cons, add_comm ops.length 1, ← add_assoc]
        exact hr''
      refine .inr ⟨k + 1, f, Nat.succ_lt_succ hk, ?_, ?_⟩
      · simp only [run, hs, bind_ok, hs', bind_error]
      rw [add_comm k 1, ← add_assoc]
      exact hf
    · refine .inr ⟨0, f, Nat.succ_pos _, ?_, hf⟩
      simp only [run, hs, bind_error]

/-- Two outcomes with the same fault, or with the same reply and related
states. It serves a specification that itself says when the code stops. -/
inductive Agree (R : σ → α → Prop) : Outcome (σ × ρ) → Outcome (α × ρ) → Prop
  | ok {s : σ} {a : α} (r : ρ) : R s a → Agree R (.ok (s, r)) (.ok (a, r))
  | error (f : Fault) : Agree R (.error f) (.error f)

lemma Agree.mono {R Q : σ → α → Prop} (h : ∀ s a, R s a → Q s a) {x : Outcome (σ × ρ)}
    {y : Outcome (α × ρ)} (hxy : Agree R x y) : Agree Q x y := by
  cases hxy with
  | ok r hr => exact .ok r (h _ _ hr)
  | error f => exact .error f

lemma run_agrees {spec : ω → α → Outcome (α × ρ)}
    {R : σ → α → Prop} (h : ∀ op s a, R s a → Agree R (step op s) (spec op a)) (ops : List ω) :
    ∀ s a, R s a → Agree R (run step ops s) (run spec ops a) := by
  induction ops with
  | nil => exact fun s a hr => .ok [] hr
  | cons op ops ih =>
    intro s a hr
    rw [run, run]
    have hstep := h op s a hr
    generalize step op s = x, spec op a = y at hstep
    cases hstep with
    | error f => exact .error f
    | ok r hr' =>
      simp only [bind_ok]
      have hrest := ih _ _ hr'
      generalize run step ops _ = x, run spec ops _ = y at hrest
      cases hrest with
      | error f => exact .error f
      | ok rs hr'' => exact .ok (r :: rs) hr''

end Redis.Lib.Simulation
