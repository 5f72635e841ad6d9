import Nanocached.HashRing.Basic
import Nanocached.Lib.JsNumber

namespace Nanocached.TypeScript

-- The BigInt hash of a node name.
def fnv1aBig (bytes : Bytes) : Nat :=
  bytes.foldl (fun hash byte => (hash ^^^ byte.toNat) * 0x100000001b3 &&& 2 ^ 64 - 1)
    0xcbf29ce484222325

-- The module scratch pair `partsHi`, `partsLo`.
structure Parts where
  hi : Int
  lo : Int
  deriving DecidableEq

open Js

variable (d : Double)

def mulHi32 (a b : Int) : Int :=
  let a0 := land a 0xffff
  let a1 := ushr a 16
  let b0 := land b 0xffff
  let b1 := ushr b 16
  let low := d.mul a0 b0
  let mid1 := d.add (d.mul a1 b0) (ushr low 16)
  let mid2 := d.add (d.mul a0 b1) (land mid1 0xffff)
  ushr (d.add (d.add (d.mul a1 b1) (ushr mid1 16)) (ushr mid2 16)) 0

-- The division is by a power of two, so its floor is that of the integers.
def feedPart (parts : Parts) (byte : Int) : Parts :=
  let lo := ushr (lxor parts.lo byte) 0
  let product := d.mul lo 0x1b3
  let carry := product / 4294967296
  { hi := ushr (d.add (d.add (imul parts.hi 0x1b3) carry) (shl lo 8)) 0
    lo := ushr product 0 }

def feedParts (parts : Parts) (bytes : Bytes) : Parts :=
  bytes.foldl (fun parts byte => feedPart d parts byte.toNat) parts

def namespaceParts (ns : Bytes) : Parts :=
  let parts : Parts := ⟨0xcbf29ce4, 0x84222325⟩
  if ns.length > 0 then
    let length : Int := ns.length
    let parts := feedPart d parts (ushr length 24)
    let parts := feedPart d parts (land (ushr length 16) 0xff)
    let parts := feedPart d parts (land (ushr length 8) 0xff)
    let parts := feedPart d parts (land length 0xff)
    feedParts d parts ns
  else parts

def scoreParts (hiIn loIn : Int) : Parts :=
  let hi := ushr hiIn 0
  let lo := ushr loIn 0
  let lo := ushr (lxor lo (ushr hi 1)) 0
  let nextLo := ushr (imul lo 0xed558ccd) 0
  let hi := ushr (d.add (d.add (mulHi32 d lo 0xed558ccd) (imul lo 0xff51afd7))
    (imul hi 0xed558ccd)) 0
  let lo := nextLo
  let lo := ushr (lxor lo (ushr hi 1)) 0
  let nextLo := ushr (imul lo 0x1a85ec53) 0
  let hi := ushr (d.add (d.add (mulHi32 d lo 0x1a85ec53) (imul lo 0xc4ceb9fe))
    (imul hi 0x1a85ec53)) 0
  let lo := nextLo
  let lo := ushr (lxor lo (ushr hi 1)) 0
  ⟨hi, lo⟩

section Arithmetic

theorem land_16 {x : Int} : land x 0xffff = x % 2 ^ 16 :=
  land_mask (n := 16) (by decide)

theorem land_8 {x : Int} : land x 0xff = x % 2 ^ 8 :=
  land_mask (n := 8) (by decide)

theorem mul_bounds {x y : Int} {m n : Nat} (hx : 0 ≤ x ∧ x ≤ m) (hy : 0 ≤ y ∧ y ≤ n) :
    0 ≤ x * y ∧ x * y ≤ m * n :=
  ⟨mul_nonneg hx.left hy.left, mul_le_mul hx.right hy.right hy.left (by omega)⟩

theorem exact_of_lt {x : Int} (h : 0 ≤ x ∧ x < 2 ^ 52) : |x| ≤ 2 ^ 53 :=
  abs_le.mpr ⟨by omega, by omega⟩

-- The schoolbook product of two words in halves of 16 bits.
theorem mulHi32_halves {a0 a1 b0 b1 : Int} (ha0 : 0 ≤ a0 ∧ a0 ≤ (65535 : Nat))
    (ha1 : 0 ≤ a1 ∧ a1 ≤ (65535 : Nat)) (hb0 : 0 ≤ b0 ∧ b0 ≤ (65535 : Nat))
    (hb1 : 0 ≤ b1 ∧ b1 ≤ (65535 : Nat)) :
    mulHi32 d (a1 * 2 ^ 16 + a0) (b1 * 2 ^ 16 + b0) =
      (a1 * b1 * 2 ^ 32 + (a1 * b0 + a0 * b1) * 2 ^ 16 + a0 * b0) / 2 ^ 32 := by
  have h00 := mul_bounds ha0 hb0
  have h01 := mul_bounds ha0 hb1
  have h10 := mul_bounds ha1 hb0
  have h11 := mul_bounds ha1 hb1
  rw [mulHi32]
  simp only [land_16, ushr_eq]
  rw [show (a1 * 2 ^ 16 + a0) % 2 ^ 16 = a0 by omega,
    show (b1 * 2 ^ 16 + b0) % 2 ^ 16 = b0 by omega,
    show (a1 * 2 ^ 16 + a0) % 2 ^ 32 / 2 ^ 16 = a1 by omega,
    show (b1 * 2 ^ 16 + b0) % 2 ^ 32 / 2 ^ 16 = b1 by omega,
    d.mul_eq (exact_of_lt (by omega)), d.mul_eq (exact_of_lt (by omega)),
    d.mul_eq (exact_of_lt (by omega)), d.mul_eq (exact_of_lt (by omega))]
  generalize a0 * b0 = low at *
  generalize a1 * b0 = p at *
  generalize a0 * b1 = q at *
  generalize a1 * b1 = high at *
  rw [d.add_eq (x := p) (exact_of_lt (by omega)), d.add_eq (x := q) (exact_of_lt (by omega)),
    d.add_eq (x := high) (exact_of_lt (by omega)), d.add_eq (exact_of_lt (by omega))]
  omega

theorem mulHi32_eq {a b : Int} (ha : 0 ≤ a ∧ a < 2 ^ 32) (hb : 0 ≤ b ∧ b < 2 ^ 32) :
    mulHi32 d a b = a * b / 2 ^ 32 := by
  have h {x : Int} (h : 0 ≤ x ∧ x < 2 ^ 32) : x = x / 2 ^ 16 * 2 ^ 16 + x % 2 ^ 16 := by omega
  rw [h ha, h hb, mulHi32_halves d (by omega) (by omega) (by omega) (by omega)]
  congr 1
  ring

def halves (hash : UInt64) : Parts :=
  ⟨(hash.toNat / 2 ^ 32 : Nat), (hash.toNat % 2 ^ 32 : Nat)⟩

-- What is left of a sum of words after its overflow.
theorem halves_ofNat_sum {hash : UInt64} {a b c : Nat}
    (h : hash.toNat = (a * 2 ^ 64 + b * 2 ^ 32 + c) % 2 ^ 64) :
    halves hash = ⟨(b + c / 2 ^ 32 : Nat) % 2 ^ 32, (c : Int) % 2 ^ 32⟩ := by
  have hh : hash.toNat / 2 ^ 32 = (b + c / 2 ^ 32) % 2 ^ 32 := by omega
  have hl : hash.toNat % 2 ^ 32 = c % 2 ^ 32 := by omega
  rw [halves, hh, hl]
  rfl

theorem toNat_fnvStep (hash : UInt64) (byte : UInt8) :
    ((hash ^^^ byte.toUInt64) * fnvPrime).toNat =
      (hash.toNat / 2 ^ 32 * 2 ^ 32 + (hash.toNat % 2 ^ 32 ^^^ byte.toNat)) *
        (2 ^ 40 + 435) % 2 ^ 64 := by
  have hb : byte.toNat < 2 ^ 32 := byte.toNat_lt.trans (by decide)
  have hx : hash.toNat ^^^ byte.toNat =
      hash.toNat / 2 ^ 32 * 2 ^ 32 + (hash.toNat % 2 ^ 32 ^^^ byte.toNat) := by
    rw [← Nat.div_add_mod' (hash.toNat ^^^ byte.toNat) (2 ^ 32), Nat.xor_div_two_pow,
      Nat.xor_mod_two_pow, Nat.div_eq_of_lt hb, Nat.mod_eq_of_lt hb, Nat.xor_zero]
  rw [UInt64.toNat_mul, UInt64.toNat_xor, UInt8.toNat_toUInt64, hx]
  rfl

theorem feedPart_halves (hash : UInt64) (byte : UInt8) :
    feedPart d (halves hash) byte.toNat = halves ((hash ^^^ byte.toUInt64) * fnvPrime) := by
  have hl : hash.toNat % 2 ^ 32 < 2 ^ 32 := Nat.mod_lt _ (by decide)
  have hb : byte.toNat < 2 ^ 32 := byte.toNat_lt.trans (by decide)
  have hx : hash.toNat % 2 ^ 32 ^^^ byte.toNat < 2 ^ 32 := Nat.xor_lt_two_pow hl hb
  have hs := toNat_fnvStep hash byte
  rw [feedPart, halves]
  simp only [ushr_eq, lxor_emod hl hb, pow_zero, Int.ediv_one]
  generalize hash.toNat % 2 ^ 32 ^^^ byte.toNat = lo at hx hs ⊢
  generalize hash.toNat / 2 ^ 32 = hi at hs ⊢
  have hi₁ := Js.imul_emod (x := hi) (y := 0x1b3)
  have hi₂ := abs_le.mp (Js.abs_imul_le (x := hi) (y := 0x1b3))
  have hl₁ := Js.shl_emod (x := lo) (n := 8)
  have hl₂ := abs_le.mp (Js.abs_shl_le (x := lo) (n := 8))
  rw [d.mul_eq (exact_of_lt (by omega))]
  generalize imul hi 0x1b3 = x at hi₁ hi₂ ⊢
  generalize shl lo 8 = y at hl₁ hl₂ ⊢
  rw [d.add_eq (x := x) (abs_le.mpr (by omega)), d.add_eq (abs_le.mpr (by omega)),
    halves_ofNat_sum (a := hi * 2 ^ 8) (b := hi * 435 + lo * 2 ^ 8) (c := lo * 435)
      (hs.trans (congrArg (· % 2 ^ 64) (by ring)))]
  congr 1
  push_cast
  omega

theorem feedParts_halves (hash : UInt64) (bytes : Bytes) :
    feedParts d (halves hash) bytes = halves (fnv1aContinue hash bytes) := by
  induction bytes generalizing hash
  case nil => rfl
  case cons byte bytes hi =>
    rw [feedParts, List.foldl_cons, feedPart_halves]
    exact hi _

-- The shifted and masked length is its big-endian bytes.
theorem be32_eq {n : Nat} (hn : n < 2 ^ 32) :
    (be32 (.ofNat n)).map (fun byte => (byte.toNat : Int)) =
      [ushr n 24, land (ushr n 16) 0xff, land (ushr n 8) 0xff, land n 0xff] := by
  simp only [be32, List.map_cons, List.map_nil, ushr_eq, land_8, UInt32.toNat_toUInt8,
    UInt32.toNat_shiftRight, Nat.shiftRight_eq_div_pow, UInt32.toNat_ofNat_of_lt' hn]
  rw [show UInt32.toNat 24 % 32 = 24 from rfl, show UInt32.toNat 16 % 32 = 16 from rfl,
    show UInt32.toNat 8 % 32 = 8 from rfl]
  refine List.cons_eq_cons.mpr ⟨by omega, List.cons_eq_cons.mpr ⟨by omega, ?_⟩⟩
  exact List.cons_eq_cons.mpr ⟨by omega, List.cons_eq_cons.mpr ⟨by omega, rfl⟩⟩

theorem feedParts_eq_map (parts : Parts) (bytes : Bytes) :
    feedParts d parts bytes =
      (bytes.map fun byte => (byte.toNat : Int)).foldl (feedPart d) parts := by
  rw [feedParts, List.foldl_map]

theorem namespaceParts_eq {ns : Bytes} {hash : UInt64} (h : namespaceState ns = some hash) :
    namespaceParts d ns = halves hash := by
  rw [namespaceState] at h
  rw [namespaceParts]
  have ho : (⟨0xcbf29ce4, 0x84222325⟩ : Parts) = halves fnvOffsetBasis := by decide
  split at h
  case isTrue he =>
    cases h
    rw [if_neg (by simpa using he)]
    exact ho
  case isFalse he =>
    obtain ⟨hl, h⟩ := Option.ite_none_right_eq_some.mp h
    cases h
    rw [if_pos (by simpa [List.length_pos_iff] using he), fnv1a, ← feedParts_halves d,
      ← feedParts_halves d, feedParts_eq_map d _ (be32 _), be32_eq hl, ho]
    rfl

theorem halves_xor_shift (hash : UInt64) :
    halves (hash ^^^ hash >>> 33) =
      ⟨(halves hash).hi, ushr (lxor (halves hash).lo (ushr (halves hash).hi 1)) 0⟩ := by
  have hn : hash.toNat < 2 ^ 64 := hash.toNat_lt
  have hs : (hash >>> 33).toNat = hash.toNat / 2 ^ 33 := by
    rw [UInt64.toNat_shiftRight, Nat.shiftRight_eq_div_pow]
    rfl
  have hh : ushr (hash.toNat / 2 ^ 32 : Nat) 1 = (hash.toNat / 2 ^ 33 : Nat) := by
    rw [ushr_eq]
    omega
  simp only [halves, UInt64.toNat_xor, hs, hh, Nat.xor_div_two_pow, Nat.xor_mod_two_pow]
  rw [ushr_eq, lxor_emod (by omega) (by omega), pow_zero, Int.ediv_one,
    Nat.div_eq_of_lt (show hash.toNat / 2 ^ 33 < 2 ^ 32 by omega), Nat.xor_zero,
    Nat.mod_eq_of_lt (show hash.toNat / 2 ^ 33 < 2 ^ 32 by omega)]

theorem halves_mul (hash c : UInt64) :
    halves (hash * c) =
      ⟨ushr (d.add (d.add (mulHi32 d (halves hash).lo (halves c).lo)
        (imul (halves hash).lo (halves c).hi)) (imul (halves hash).hi (halves c).lo)) 0,
      ushr (imul (halves hash).lo (halves c).lo) 0⟩ := by
  have hn : (hash * c).toNat = hash.toNat * c.toNat % 2 ^ 64 := UInt64.toNat_mul ..
  rw [← Nat.div_add_mod' hash.toNat (2 ^ 32), ← Nat.div_add_mod' c.toNat (2 ^ 32)] at hn
  have hl : hash.toNat % 2 ^ 32 < 2 ^ 32 := Nat.mod_lt _ (by decide)
  have hc : c.toNat % 2 ^ 32 < 2 ^ 32 := Nat.mod_lt _ (by decide)
  simp only [halves]
  change halves _ = _
  generalize hash.toNat % 2 ^ 32 = lo at hl hn ⊢
  generalize hash.toNat / 2 ^ 32 = hi at hn ⊢
  generalize c.toNat % 2 ^ 32 = cLo at hc hn ⊢
  generalize c.toNat / 2 ^ 32 = cHi at hn ⊢
  have hm := mul_bounds (x := lo) (y := cLo) (m := 2 ^ 32 - 1) (n := 2 ^ 32 - 1) (by omega)
    (by omega)
  rw [mulHi32_eq d (by omega) (by omega), ushr_eq, ushr_eq, pow_zero, Int.ediv_one, Int.ediv_one,
    imul_emod, halves_ofNat_sum (a := hi * cHi) (b := hi * cLo + lo * cHi) (c := lo * cLo)
      (hn.trans (congrArg (· % 2 ^ 64) (by ring)))]
  have h₁ := Js.imul_emod (x := lo) (y := cHi)
  have h₁' := abs_le.mp (Js.abs_imul_le (x := lo) (y := cHi))
  have h₂ := Js.imul_emod (x := hi) (y := cLo)
  have h₂' := abs_le.mp (Js.abs_imul_le (x := hi) (y := cLo))
  congr 1
  push_cast at hm ⊢
  generalize imul lo cHi = x at h₁ h₁' ⊢
  generalize imul hi cLo = y at h₂ h₂' ⊢
  rw [d.add_eq (y := x) (abs_le.mpr (by omega)), d.add_eq (abs_le.mpr (by omega))]
  omega

-- The value of two numbers as the halves, each taken modulo a word.
def ofParts (hi lo : Int) : UInt64 :=
  .ofNat ((hi % 2 ^ 32).toNat * 2 ^ 32 + (lo % 2 ^ 32).toNat)

theorem halves_ofParts (hi lo : Int) : halves (ofParts hi lo) = ⟨ushr hi 0, ushr lo 0⟩ := by
  rw [halves, ofParts, UInt64.toNat_ofNat_of_lt' (by change _ < 2 ^ 64; omega), ushr_eq, ushr_eq]
  congr 1 <;> omega

theorem scoreParts_eq (hi lo : Int) : scoreParts d hi lo = halves (fmix64 (ofParts hi lo)) := by
  rw [fmix64]
  simp only [halves_xor_shift, halves_mul d, halves_ofParts]
  rfl

theorem fnv1aBig_eq (bytes : Bytes) : fnv1aBig bytes = (fnv1a bytes).toNat := by
  have h (hash : UInt64) : bytes.foldl
      (fun hash byte => (hash ^^^ byte.toNat) * 0x100000001b3 &&& 2 ^ 64 - 1) hash.toNat =
        (fnv1aContinue hash bytes).toNat := by
    induction bytes generalizing hash
    case nil => rfl
    case cons byte bytes hi =>
      have hs : (hash.toNat ^^^ byte.toNat) * 0x100000001b3 &&& 2 ^ 64 - 1 =
          ((hash ^^^ byte.toUInt64) * fnvPrime).toNat := by
        rw [Nat.and_two_pow_sub_one_eq_mod, UInt64.toNat_mul, UInt64.toNat_xor,
          UInt8.toNat_toUInt64]
        rfl
      rw [List.foldl_cons, hs, hi]
      rfl
  exact h fnvOffsetBasis

end Arithmetic

end Nanocached.TypeScript
