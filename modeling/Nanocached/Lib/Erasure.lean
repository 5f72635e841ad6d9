import Mathlib.Data.Option.Basic

-- Runs of a deterministic machine with events of which some are inert: they have no influence on
-- what the machine answers to the others.
namespace Erasure

universe u

variable {σ ε α : Type u}

-- The state after a run, and the events that are not inert along with their answers.
def keptRun (step : σ → ε → Option (σ × α)) (inert : σ → ε → Bool) :
    σ → List ε → Option (σ × List (ε × α))
  | s, []      => some (s, [])
  | s, e :: es => do
    let (s', a) ← step s e
    let (s'', kept) ← keptRun step inert s' es
    return (s'', if inert s e then kept else (e, a) :: kept)

-- A relation between the states of two runs which differ in inert events only.
structure Unwinding (step : σ → ε → Option (σ × α)) (inert : σ → ε → Bool) (R : σ → σ → Prop) :
    Prop where
  left  : ∀ {s t s' e a}, R s t → inert s e → step s e = some (s', a) → R s' t
  right : ∀ {s t t' e a}, R s t → inert t e → step t e = some (t', a) → R s t'
  both  : ∀ {s t s' t' e a b}, R s t → inert s e = false → inert t e = false →
            step s e = some (s', a) → step t e = some (t', b) → a = b ∧ R s' t'

variable {step : σ → ε → Option (σ × α)} {inert : σ → ε → Bool} {R : σ → σ → Prop}
variable {s t s' t' : σ} {e : ε} {es fs : List ε} {kept kept' : List (ε × α)}

theorem keptRun_cons (h : keptRun step inert s (e :: es) = some (s', kept)) :
    ∃ s₁ a k, step s e = some (s₁, a) ∧ keptRun step inert s₁ es = some (s', k) ∧
      kept = if inert s e then k else (e, a) :: k := by
  obtain ⟨⟨s₁, a⟩, hs, h⟩ := Option.bind_eq_some_iff.mp h
  obtain ⟨⟨s₂, k⟩, hr, h⟩ := Option.bind_eq_some_iff.mp h
  cases h
  exact ⟨s₁, a, k, hs, hr, rfl⟩

namespace Unwinding

variable (u : Unwinding step inert R)

include u

theorem of_inert_run (h : R s t) (hr : keptRun step inert t fs = some (t', [])) : R s t' := by
  induction fs generalizing t
  case nil =>
    cases hr
    exact h
  case cons e fs hi =>
    obtain ⟨t₁, a, k, hs, hr, hk⟩ := keptRun_cons hr
    split at hk
    case isTrue he =>
      subst hk
      exact hi (u.right h he hs) hr
    case isFalse => contradiction

-- The next event that is not inert.
theorem next_kept {b : α} (h : R s t) (hr : keptRun step inert t fs = some (t', (e, b) :: kept)) :
    ∃ t₁ t₂ fs', R s t₁ ∧ inert t₁ e = false ∧ step t₁ e = some (t₂, b) ∧
      keptRun step inert t₂ fs' = some (t', kept) := by
  induction fs generalizing t
  case nil => simp [keptRun] at hr
  case cons e' fs hi =>
    obtain ⟨t₁, a, k, hs, hr, hk⟩ := keptRun_cons hr
    split at hk
    case isTrue he =>
      subst hk
      exact hi (u.right h he hs) hr
    case isFalse he =>
      cases hk
      exact ⟨t, t₁, fs, h, Bool.not_eq_true _ ▸ he, hs, hr⟩

theorem kept_eq (h : R s t) (h₁ : keptRun step inert s es = some (s', kept))
    (h₂ : keptRun step inert t fs = some (t', kept')) (hk : kept.map Prod.fst = kept'.map Prod.fst) :
    kept = kept' ∧ R s' t' := by
  induction es generalizing s t fs kept kept'
  case nil =>
    cases h₁
    cases List.map_eq_nil_iff.mp hk.symm
    exact ⟨rfl, u.of_inert_run h h₂⟩
  case cons e es hi =>
    obtain ⟨s₁, a, k, hs, hr, rfl⟩ := keptRun_cons h₁
    split at hk
    case isTrue he =>
      rw [if_pos he]
      exact hi (u.left h he hs) hr h₂ hk
    case isFalse he =>
      rw [if_neg he]
      cases kept'
      case nil => contradiction
      case cons x k' =>
        obtain ⟨e', b⟩ := x
        obtain ⟨hx, hks⟩ := List.cons.inj hk
        cases hx
        obtain ⟨t₁, t₂, fs', ht, hn, hs', hr'⟩ := u.next_kept h h₂
        obtain ⟨rfl, hR⟩ := u.both ht (Bool.not_eq_true _ ▸ he) hn hs hs'
        obtain ⟨rfl, hR⟩ := hi hR hr hr' hks
        exact ⟨rfl, hR⟩

end Unwinding
end Erasure
