import Mathlib.Order.WellFounded

-- What a system comes to whichever of its steps it takes.

namespace Nanocached

variable {σ α : Type} {step : σ → σ → Prop} {goal : σ → Prop}

inductive Inevitable (step : σ → σ → Prop) (goal : σ → Prop) : σ → Prop
  | now   {s : σ} : goal s → Inevitable step goal s
  | later {s : σ} : (∃ s', step s s') → (∀ s', step s s' → Inevitable step goal s') →
    Inevitable step goal s

namespace Inevitable

-- A system that is stuck nowhere but at the goal and does not go on forever.
theorem of_rank [LT α] [WellFoundedLT α] (inv : σ → Prop) (rank : σ → α)
    (preserved : ∀ {s s'}, inv s → step s s' → inv s')
    (decreases : ∀ {s s'}, inv s → step s s' → rank s' < rank s)
    (enabled : ∀ {s}, inv s → ¬goal s → ∃ s', step s s') {s : σ} (h : inv s) :
    Inevitable step goal s := by
  induction hr : rank s using WellFoundedLT.induction generalizing s with | _ r ih =>
  subst hr
  by_cases hg : goal s
  case pos => exact .now hg
  case neg =>
    refine .later (enabled h hg) fun s' hs => ?_
    exact ih (rank s') (decreases h hs) (preserved h hs) rfl

end Inevitable
end Nanocached
