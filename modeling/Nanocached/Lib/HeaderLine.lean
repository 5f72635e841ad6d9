import Nanocached.Lib.Decimal

-- Header lines: fields of ASCII text which are separated by spaces (32), and a newline (10).
namespace HeaderLine

variable {field line body : List UInt8} {fields : List (List UInt8)} {n k : Nat}

-- Each of the fields with a space in front of it.
def spaced (fields : List (List UInt8)) : List UInt8 :=
  fields.flatMap (32 :: ·)

-- What can stand between two spaces.
structure IsField (field : List UInt8) : Prop where
  space : 32 ∉ field
  lf    : 10 ∉ field

theorem spaced_append (fields fields' : List (List UInt8)) :
    spaced (fields ++ fields') = spaced fields ++ spaced fields' :=
  List.flatMap_append

theorem intercalate_cons (field : List UInt8) (fields : List (List UInt8)) :
    [32].intercalate (field :: fields) = field ++ spaced fields := by
  induction fields generalizing field
  case nil => simp [spaced]
  case cons field' fields hi =>
    rw [List.intercalate_cons_cons, hi]
    simp [spaced]

theorem splitOn_spaced (h : ∀ f ∈ field :: fields, IsField f) :
    (field ++ spaced fields).splitOn 32 = field :: fields := by
  rw [← intercalate_cons]
  exact List.splitOn_intercalate 32 (fun f hf => (h f hf).space) (List.cons_ne_nil _ _)

theorem lf_notMem_spaced (h : ∀ f ∈ fields, IsField f) : 10 ∉ spaced fields := by
  simp only [spaced, List.mem_flatMap, List.mem_cons]
  rintro ⟨f, hf, he | hm⟩
  · exact absurd he (by decide)
  · exact (h f hf).lf hm

theorem lf_notMem_line (h : ∀ f ∈ field :: fields, IsField f) : 10 ∉ field ++ spaced fields := by
  rw [List.forall_mem_cons] at h
  rw [List.mem_append]
  rintro (hm | hm)
  · exact h.left.lf hm
  · exact lf_notMem_spaced h.right hm

-- The line ends where the newline is.
theorem findIdx?_line (h : 10 ∉ line) (body : List UInt8) :
    (line ++ 10 :: body).findIdx? (· == 10) = some line.length := by
  have hl : line.findIdx? (· == 10) = none := by
    rw [List.findIdx?_eq_none_iff]
    intro byte hm
    exact beq_eq_false_iff_ne.mpr fun he => h (he ▸ hm)
  rw [List.findIdx?_append, hl]
  simp [List.findIdx?_cons]

theorem length_spaced (fields : List (List UInt8)) :
    (spaced fields).length = (fields.map List.length).sum + fields.length := by
  induction fields
  case nil => rfl
  case cons field fields hi =>
    simp only [spaced, List.flatMap_cons, List.length_append, List.map_cons, List.sum_cons,
      List.length_cons] at hi ⊢
    omega

theorem length_spaced_le (h : ∀ f ∈ fields, f.length ≤ k) :
    (spaced fields).length ≤ (k + 1) * fields.length := by
  rw [length_spaced]
  have hs := List.sum_le_card_nsmul (fields.map List.length) k (by simpa using h)
  rw [List.length_map, smul_eq_mul] at hs
  rw [Nat.add_mul, Nat.one_mul, Nat.mul_comm k]
  omega

theorem le_length_spaced (h : ∀ f ∈ fields, k ≤ f.length) :
    (k + 1) * fields.length ≤ (spaced fields).length := by
  rw [length_spaced]
  have hs := List.card_nsmul_le_sum (fields.map List.length) k (by simpa using h)
  rw [List.length_map, smul_eq_mul] at hs
  rw [Nat.add_mul, Nat.one_mul, Nat.mul_comm k]
  omega

section Numbers

theorem isField_of_isDigit (h : ∀ byte ∈ field, Decimal.isDigit byte) : IsField field where
  space hm := absurd (h 32 hm) (by decide)
  lf hm    := absurd (h 10 hm) (by decide)

theorem isField_ofNat (n : Nat) : IsField (Decimal.ofNat n) :=
  isField_of_isDigit (Decimal.isCanonical_ofNat n).isDigit

end Numbers
end HeaderLine
