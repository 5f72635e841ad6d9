import Mathlib

-- When a computation that can fail does not.

namespace Fallible

universe u v

variable {ε : Type u} {α β : Type v} {a : α} {b : β} {error : ε}

theorem bind_eq_ok {x : Except ε α} {f : α → Except ε β} :
    x >>= f = .ok b ↔ ∃ a, x = .ok a ∧ f a = .ok b := by
  cases x
  case error => simp [bind, Except.bind]
  case ok    => simp [bind, Except.bind]

theorem pure_eq_ok {a' : α} : (pure a : Except ε α) = .ok a' ↔ a = a' :=
  ⟨Except.ok.inj, congrArg Except.ok⟩

theorem throw_eq_ok : (throw error : Except ε α) = .ok a ↔ False :=
  ⟨fun h => by contradiction, False.elim⟩

theorem map_eq_ok {x : Except ε α} {f : α → β} :
    f <$> x = .ok b ↔ ∃ a, x = .ok a ∧ f a = b := by
  cases x
  case error => simp [Functor.map, Except.map]
  case ok    => simp [Functor.map, Except.map]

-- A check which fails with an error.
theorem check_eq_ok {c : Prop} [Decidable c] {x : Except ε α} :
    (if c then throw error >>= fun _ : PUnit => x else x) = .ok a ↔ ¬c ∧ x = .ok a := by
  split <;> simp [bind_eq_ok, throw_eq_ok, *]

theorem mapM_eq_ok {f : α → Except ε β} {R : α → β → Prop} (hf : ∀ {a b}, f a = .ok b ↔ R a b)
    {l : List α} {l' : List β} : l.mapM f = .ok l' ↔ List.Forall₂ R l l' := by
  induction l generalizing l'
  case nil =>
    rw [List.mapM_nil, pure_eq_ok, List.forall₂_nil_left_iff]
    exact eq_comm
  case cons a l hi =>
    simp only [List.mapM_cons, bind_eq_ok, pure_eq_ok, hf, hi, List.forall₂_cons_left_iff]
    constructor
    case mp =>
      rintro ⟨b, hb, l'', hl, rfl⟩
      exact ⟨b, l'', hb, hl, rfl⟩
    case mpr =>
      rintro ⟨b, l'', hb, hl, rfl⟩
      exact ⟨b, hb, l'', hl, rfl⟩

end Fallible
