import Mathlib.Algebra.GroupWithZero.Nat
import WordExpr.Word.Width

/-!
# Word widths as natural numbers

A word of `w.bits` bits is a number below `2 ^ w.bits`, and `Width.reduce` takes the remainder
(`Width.toNat_reduce`).
-/

namespace WordExpr.Width

theorem bits_lt (w : Width) : w.bits < 64 := Nat.lt_of_le_of_lt w.le_max (by decide)

theorem two_pow_bits_lt (w : Width) : 2 ^ w.bits < 2 ^ 64 :=
  Nat.pow_lt_pow_right (by decide) w.bits_lt

theorem toNat_radix (w : Width) : w.radix.toNat = 2 ^ w.bits := by
  have h := w.bits_lt
  have hb : (UInt64.ofNat w.bits).toNat = w.bits :=
    UInt64.toNat_ofNat_of_lt' (by show w.bits < 2 ^ 64; omega)
  rw [radix, UInt64.toNat_shiftLeft, hb, Nat.mod_eq_of_lt h, Nat.shiftLeft_eq]
  simpa using Nat.mod_eq_of_lt w.two_pow_bits_lt

theorem toNat_mask (w : Width) : w.mask.toNat = 2 ^ w.bits - 1 := by
  have h1 : 1 ≤ 2 ^ w.bits := Nat.one_le_two_pow
  unfold mask
  rw [UInt64.toNat_sub_of_le _ _ (by rw [UInt64.le_iff_toNat_le, toNat_radix]; simpa using h1),
    toNat_radix]
  rfl

theorem toNat_reduce (w : Width) (v : UInt64) : (w.reduce v).toNat = v.toNat % 2 ^ w.bits := by
  unfold reduce
  rw [UInt64.toNat_and, toNat_mask, Nat.and_two_pow_sub_one_eq_mod]

theorem toNat_reduce_lt (w : Width) (v : UInt64) : (w.reduce v).toNat < 2 ^ w.bits := by
  rw [toNat_reduce]
  exact Nat.mod_lt _ (Nat.two_pow_pos _)

end WordExpr.Width
