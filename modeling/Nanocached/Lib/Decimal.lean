import Mathlib

-- Numbers in decimal, written as ASCII bytes.
namespace Decimal

def isDigit (byte : UInt8) : Bool :=
  48 ≤ byte && byte ≤ 57

-- The number written by the given digits.
def value (digits : List UInt8) : Nat :=
  digits.foldl (fun n digit => 10 * n + (digit.toNat - 48)) 0

-- The digits a number is written with, none of them a leading zero.
def ofNat (n : Nat) : List UInt8 :=
  (Nat.toDigits 10 n).map Char.toUInt8

-- There is at least one digit, and the first one is zero only if it is the last one.
structure IsCanonical (digits : List UInt8) : Prop where
  nonempty : digits ≠ []
  isDigit  : ∀ digit ∈ digits, isDigit digit
  leading  : 1 < digits.length → digits.head? ≠ some 48

variable {digits : List UInt8} {digit : UInt8} {n : Nat}

theorem value_concat : value (digits ++ [digit]) = 10 * value digits + (digit.toNat - 48) := by
  simp [value]

-- A number does not get smaller when digits are appended to it.
theorem le_foldl (digits : List UInt8) (n : Nat) :
    n ≤ digits.foldl (fun n digit => 10 * n + (digit.toNat - 48)) n := by
  induction digits generalizing n
  case nil => exact le_rfl
  case cons digit digits hi => exact le_trans (by dsimp only; omega) (hi _)

theorem isDigit_iff : isDigit digit ↔ 48 ≤ digit.toNat ∧ digit.toNat ≤ 57 := by
  simp [isDigit, UInt8.le_iff_toNat_le]

theorem toUInt8_digitChar (h : n < 10) : n.digitChar.toUInt8 = UInt8.ofNat (48 + n) := by
  interval_cases n <;> rfl

theorem ofNat_of_lt (h : n < 10) : ofNat n = [UInt8.ofNat (48 + n)] := by
  rw [ofNat, Nat.toDigits_of_lt_base h, List.map_singleton, toUInt8_digitChar h]

theorem ofNat_of_le (h : 10 ≤ n) : ofNat n = ofNat (n / 10) ++ [UInt8.ofNat (48 + n % 10)] := by
  rw [ofNat, Nat.toDigits_of_base_le (by decide) h, List.map_append, List.map_singleton,
    toUInt8_digitChar (Nat.mod_lt _ (by decide)), ofNat]

theorem toNat_ofNat_digit (h : n < 10) : (UInt8.ofNat (48 + n)).toNat = 48 + n :=
  UInt8.toNat_ofNat_of_lt' (by rw [UInt8.size]; omega)

theorem isCanonical_ofNat (n : Nat) : IsCanonical (ofNat n) := by
  induction n using Nat.strongRecOn
  case ind n hi =>
    by_cases hn : n < 10
    case pos =>
      rw [ofNat_of_lt hn]
      refine ⟨by simp, fun digit hd => ?_, by simp⟩
      cases List.mem_singleton.mp hd
      rw [isDigit_iff, toNat_ofNat_digit hn]
      omega
    case neg =>
      have ⟨hne, hd, hl⟩ := hi (n / 10) (by omega)
      rw [ofNat_of_le (by omega)]
      refine ⟨by simp, fun digit hm => ?_, fun _ => ?_⟩
      · rcases List.mem_append.mp hm with hm | hm
        · exact hd digit hm
        · cases List.mem_singleton.mp hm
          rw [isDigit_iff, toNat_ofNat_digit (Nat.mod_lt _ (by decide))]
          omega
      · rw [List.head?_append_of_ne_nil _ hne]
        by_cases hlt : n / 10 < 10
        case neg =>
          refine hl ?_
          rw [ofNat_of_le (by omega)]
          have := List.length_pos_iff.mpr (hi (n / 10 / 10) (by omega)).nonempty
          simpa using this
        case pos =>
          rw [ofNat_of_lt hlt, List.head?_cons]
          intro he
          have := congrArg UInt8.toNat (Option.some.inj he)
          rw [toNat_ofNat_digit hlt] at this
          simp at this
          omega

@[simp]
theorem value_ofNat (n : Nat) : value (ofNat n) = n := by
  induction n using Nat.strongRecOn
  case ind n hi =>
    by_cases hn : n < 10
    case pos =>
      rw [ofNat_of_lt hn, value, List.foldl_cons, List.foldl_nil, toNat_ofNat_digit hn]
      omega
    case neg =>
      rw [ofNat_of_le (by omega), value_concat, hi _ (by omega),
        toNat_ofNat_digit (Nat.mod_lt _ (by decide))]
      omega

theorem IsCanonical.ofNat_value (h : IsCanonical digits) : ofNat (value digits) = digits := by
  induction digits using List.reverseRecOn
  case nil => exact absurd rfl h.nonempty
  case append_singleton digits digit hi =>
    have ⟨hl, hu⟩ := isDigit_iff.mp (h.isDigit digit (by simp))
    have hd : UInt8.ofNat (48 + (digit.toNat - 48)) = digit := by
      rw [Nat.add_sub_of_le hl, UInt8.ofNat_toNat]
    by_cases hn : digits = []
    case pos =>
      subst hn
      rw [value_concat, show value [] = 0 from rfl, ofNat_of_lt (by omega), Nat.mul_zero,
        Nat.zero_add, hd, List.nil_append]
    case neg =>
      have hlen := List.length_pos_iff.mpr hn
      have hz := h.leading (by simpa using hlen)
      rw [List.head?_append_of_ne_nil _ hn] at hz
      have hi := hi ⟨hn, fun d hm => h.isDigit d (by simp [hm]), fun _ => hz⟩
      -- A first digit other than zero makes the number at least one.
      have hv : 0 < value digits := by
        by_contra hv
        rw [Nat.eq_zero_of_not_pos hv] at hi
        exact hz (hi ▸ rfl)
      rw [value_concat, ofNat_of_le (by omega)]
      rw [show (10 * value digits + (digit.toNat - 48)) / 10 = value digits by omega, hi,
        show (10 * value digits + (digit.toNat - 48)) % 10 = digit.toNat - 48 by omega, hd]

theorem ofNat_injective {m n : Nat} (h : ofNat m = ofNat n) : m = n := by
  rw [← value_ofNat m, h, value_ofNat]

theorem length_ofNat_le {k : Nat} (hk : 0 < k) (h : n < 10 ^ k) : (ofNat n).length ≤ k := by
  rw [ofNat, List.length_map]
  exact (Nat.length_toDigits_le_iff (by decide) hk).mpr h

end Decimal
