/-! # Runs of a guarded step function

`step s a` is `none` where the action `a` is not possible in `s`. An invariant that each
possible step keeps, as long as the step meets a side condition, holds at the end of every
run all of whose steps meet it. -/
namespace Redis.Lib.Runs

variable {σ α : Type} {step : σ → α → Option σ}

def run (step : σ → α → Option σ) : List α → σ → Option σ
  | [], s => some s
  | a :: as, s => (step s a).bind (run step as)

/-- A step with a guard was possible. -/
theorem of_guarded {c : Prop} [Decidable c] {s t : σ} (h : (if c then some s else none) = some t) :
    c ∧ s = t :=
  ⟨(Option.ite_none_right_eq_some.mp h).1, Option.some.inj (Option.ite_none_right_eq_some.mp h).2⟩

/-- Every step of the run meets `P`, in the state it is taken in. -/
def Along (step : σ → α → Option σ) (P : σ → α → Prop) : List α → σ → Prop
  | [], _ => True
  | a :: as, s => P s a ∧ ∀ s', step s a = some s' → Along step P as s'

theorem invariant_run {P : σ → α → Prop} {Inv : σ → Prop}
    (hstep : ∀ s a s', Inv s → P s a → step s a = some s' → Inv s') :
    ∀ (as : List α) (s t : σ), Inv s → Along step P as s → run step as s = some t → Inv t
  | [], s, t, hs, _, hr => by
    cases hr
    exact hs
  | a :: as, s, t, hs, hp, hr => by
    obtain ⟨s', hs', hr'⟩ := Option.bind_eq_some_iff.mp hr
    exact invariant_run hstep as s' t (hstep s a s' hs hp.1 hs') (hp.2 s' hs') hr'

theorem along_true : ∀ (as : List α) (s : σ), Along step (fun _ _ => True) as s
  | [], _ => trivial
  | _ :: as, _ => ⟨trivial, fun s' _ => along_true as s'⟩

theorem invariant_run_of_step {Inv : σ → Prop}
    (hstep : ∀ s a s', Inv s → step s a = some s' → Inv s') (as : List α) (s t : σ)
    (hs : Inv s) (hr : run step as s = some t) : Inv t :=
  invariant_run (fun s a s' h _ => hstep s a s' h) as s t hs (along_true as s) hr

/-- Deciding the side condition along a run by running it. -/
def along? (step : σ → α → Option σ) (p : σ → α → Bool) : List α → σ → Bool
  | [], _ => true
  | a :: as, s => p s a && ((step s a).map (along? step p as)).getD true

theorem along_of_along? {p : σ → α → Bool} {P : σ → α → Prop} (hp : ∀ s a, p s a = true → P s a) :
    ∀ (as : List α) (s : σ), along? step p as s = true → Along step P as s
  | [], _, _ => trivial
  | a :: as, s, h => by
    obtain ⟨ha, hrest⟩ := Bool.and_eq_true_iff.mp h
    refine ⟨hp s a ha, ?_⟩
    intro s' hs'
    rw [hs'] at hrest
    exact along_of_along? hp as s' hrest

end Redis.Lib.Runs
