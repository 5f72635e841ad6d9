import Nanocached.Cache.TimedMap

namespace Nanocached

variable {bytes digits : Bytes} {n : Int}

theorem parseMagnitude_eq_some_iff {negative : Bool} : parseMagnitude negative digits = some n ↔
    Decimal.IsCanonical digits ∧
    if negative then Decimal.value digits ≤ 2 ^ 63 ∧ n = -Decimal.value digits
    else Decimal.value digits < 2 ^ 63 ∧ n = Decimal.value digits := by
  rw [parseMagnitude]
  split
  case isTrue h =>
    refine iff_of_false nofun fun hc => ?_
    rcases Bool.or_eq_true_iff.mp h with h | h
    · exact hc.left.nonempty (List.isEmpty_iff.mp h)
    · simp [List.all_eq_true.mpr hc.left.isDigit] at h
  split
  case isTrue h =>
    simp only [Bool.and_eq_true, decide_eq_true_eq] at h
    exact iff_of_false nofun fun hc => hc.left.leading h.left h.right
  case isFalse hd hz =>
    have hc : Decimal.IsCanonical digits := by
      simp only [Bool.or_eq_true, List.isEmpty_iff, Bool.not_eq_true', not_or, Bool.not_eq_false,
        List.all_eq_true] at hd
      simp only [Bool.and_eq_true, decide_eq_true_eq, not_and] at hz
      exact ⟨hd.left, hd.right, hz⟩
    cases negative <;> simp only [hc, true_and] <;> grind

theorem not_isCanonical_minus : ¬Decimal.IsCanonical (45 :: digits) := by
  intro h
  have := h.isDigit 45 (.head _)
  contradiction

theorem parseDecimalI64_eq_some_iff : parseDecimalI64 bytes = some n ↔ IsDecimalI64 bytes n := by
  constructor
  case mp =>
    intro h
    unfold parseDecimalI64 at h
    split at h
    case h_1 digits =>
      have ⟨hc, hv, hn⟩ := parseMagnitude_eq_some_iff.mp h
      refine ⟨⟨by omega, by omega⟩, ?_⟩
      rw [← hc.ofNat_value]
      rcases Nat.eq_zero_or_pos (Decimal.value digits) with hz | hz
      case inl =>
        rw [hz]
        exact .inr ⟨rfl, by omega⟩
      case inr =>
        refine .inl ?_
        rw [toDecimal, if_pos (by omega), hn, Int.natAbs_neg, Int.natAbs_natCast]
    case h_2 =>
      have ⟨hc, hv, hn⟩ := parseMagnitude_eq_some_iff.mp h
      refine ⟨⟨by omega, by omega⟩, .inl ?_⟩
      rw [toDecimal, if_neg (by omega), hn, Int.natAbs_natCast, hc.ofNat_value]
  case mpr =>
    rintro ⟨⟨hl, hu⟩, rfl | ⟨rfl, rfl⟩⟩
    case inr => rfl
    case inl =>
      have hc := Decimal.isCanonical_ofNat n.natAbs
      rw [toDecimal]
      split
      case isTrue hn =>
        refine parseMagnitude_eq_some_iff.mpr ⟨hc, ?_⟩
        rw [if_pos rfl, Decimal.value_ofNat]
        omega
      case isFalse hn =>
        unfold parseDecimalI64
        split
        case h_1 he => exact (not_isCanonical_minus (he ▸ hc)).elim
        case h_2 =>
          refine parseMagnitude_eq_some_iff.mpr ⟨hc, ?_⟩
          rw [if_neg Bool.false_ne_true, Decimal.value_ofNat]
          omega

end Nanocached
