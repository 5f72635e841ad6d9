import Mathlib

-- The integral numbers of JavaScript. Sums and products are rounded to doubles, and the bitwise
-- operators work on 32-bit words.

structure Double where
  round : Int → Int
  exact : ∀ {x}, |x| ≤ 2 ^ 53 → round x = x

namespace Double

-- Enough where no result leaves the exact range.
def integers : Double := ⟨id, fun _ => rfl⟩

variable (d : Double) {x y : Int}

def add (x y : Int) : Int := d.round (x + y)

def mul (x y : Int) : Int := d.round (x * y)

theorem add_eq (h : |x + y| ≤ 2 ^ 53) : d.add x y = x + y :=
  d.exact h

theorem mul_eq (h : |x * y| ≤ 2 ^ 53) : d.mul x y = x * y :=
  d.exact h

end Double

namespace Js

def toWord (x : Int) : BitVec 32 := BitVec.ofInt 32 x

def land (x y : Int) : Int := (toWord x &&& toWord y).toInt

def lxor (x y : Int) : Int := (toWord x ^^^ toWord y).toInt

def shl (x : Int) (n : Nat) : Int := (toWord x <<< n).toInt

-- The unsigned shift `>>>`.
def ushr (x : Int) (n : Nat) : Int := (toWord x >>> n).toNat

def imul (x y : Int) : Int := (toWord x * toWord y).toInt

section Words

variable {x y : Int} {a b n : Nat} {w : BitVec 32}

theorem toNat_toWord : ((toWord x).toNat : Int) = x % 2 ^ 32 := by
  rw [toWord, BitVec.toNat_ofInt]
  omega

theorem toNat_toWord_natCast (h : a < 2 ^ 32) : (toWord a).toNat = a := by
  have h := toNat_toWord (x := a)
  omega

theorem toInt_emod : w.toInt % 2 ^ 32 = w.toNat := by
  rw [← toNat_toWord, toWord, BitVec.ofInt_toInt]

theorem abs_toInt_le : |w.toInt| ≤ 2 ^ 31 := by
  have h₁ := w.toInt_lt
  have h₂ := w.le_toInt
  exact abs_le.mpr ⟨by omega, by omega⟩

end Words

variable {x y : Int} {a b n : Nat}

theorem ushr_eq : ushr x n = x % 2 ^ 32 / 2 ^ n := by
  rw [ushr, BitVec.toNat_ushiftRight, Nat.shiftRight_eq_div_pow, ← toNat_toWord]
  norm_cast

theorem imul_emod : imul x y % 2 ^ 32 = x * y % 2 ^ 32 := by
  rw [imul, toInt_emod, BitVec.toNat_mul, Int.mul_emod x y, ← toNat_toWord (x := x),
    ← toNat_toWord (x := y)]
  norm_cast

theorem abs_imul_le : |imul x y| ≤ 2 ^ 31 :=
  abs_toInt_le

theorem shl_emod : shl x n % 2 ^ 32 = x * 2 ^ n % 2 ^ 32 := by
  have hm : x % 2 ^ 32 * 2 ^ n % 2 ^ 32 = x * 2 ^ n % 2 ^ 32 := (Int.mod_modEq x _).mul_right _
  rw [shl, toInt_emod, BitVec.toNat_shiftLeft, Nat.shiftLeft_eq, ← hm,
    ← toNat_toWord (x := x)]
  norm_cast

theorem abs_shl_le : |shl x n| ≤ 2 ^ 31 :=
  abs_toInt_le

theorem lxor_emod (ha : a < 2 ^ 32) (hb : b < 2 ^ 32) : lxor a b % 2 ^ 32 = (a ^^^ b : Nat) := by
  rw [lxor, toInt_emod, BitVec.toNat_xor, toNat_toWord_natCast ha, toNat_toWord_natCast hb]

-- A mask with a sign bit of zero keeps the number nonnegative.
theorem land_mask (hn : n < 32) : land x (2 ^ n - 1 : Nat) = x % 2 ^ n := by
  have hp : 2 ^ n ≤ 2 ^ 31 := Nat.pow_le_pow_right two_pos (by omega)
  have hw : (toWord x &&& toWord (2 ^ n - 1 : Nat)).toNat = (toWord x).toNat % 2 ^ n := by
    rw [BitVec.toNat_and, toNat_toWord_natCast (by omega), Nat.and_two_pow_sub_one_eq_mod]
  have hl : (toWord x).toNat % 2 ^ n < 2 ^ n := Nat.mod_lt _ (Nat.two_pow_pos n)
  have hd : (2 ^ n : Int) ∣ 2 ^ 32 := pow_dvd_pow 2 (by omega)
  rw [land, BitVec.toInt_eq_toNat_of_lt (by omega), hw, ← Int.emod_emod_of_dvd x hd, ← toNat_toWord]
  norm_cast

end Js
