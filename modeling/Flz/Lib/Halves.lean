import Mathlib.Data.Nat.Bitwise

/-! # Bytes and words in parts

The two halves of a byte, and a shift followed by an or as a sum.
-/
namespace Flz.Lib.Halves

theorem shift_or {n k m : ℕ} (h : m < 2 ^ k) : n <<< k ||| m = n * 2 ^ k + m := by
  rw [← Nat.shiftLeft_add_eq_or_of_lt h, Nat.shiftLeft_eq]

theorem high_toNat (c : UInt8) : (c >>> 4).toNat = c.toNat / 16 := by
  rw [UInt8.toNat_shiftRight, Nat.shiftRight_eq_div_pow]
  rfl

theorem low_toNat (c : UInt8) : (c &&& 0xf).toNat = c.toNat % 16 := by
  rw [UInt8.toNat_and]
  exact Nat.and_two_pow_sub_one_eq_mod c.toNat 4

theorem high_lt (c : UInt8) : (c >>> 4).toNat < 16 := by
  have hc := c.toNat_lt
  rw [high_toNat]
  omega

theorem low_lt (c : UInt8) : (c &&& 0xf).toNat < 16 := by
  rw [low_toNat]
  exact Nat.mod_lt _ (by decide)

/-- A byte put together from two parts below 16. -/
theorem join_toNat {x y : UInt8} (hx : x.toNat < 16) (hy : y.toNat < 16) :
    (x <<< 4 ||| y).toNat = 16 * x.toNat + y.toNat := by
  have hshift : (x <<< 4).toNat = x.toNat <<< 4 := by
    have hsmall : x.toNat <<< 4 < 2 ^ 8 := by
      rw [Nat.shiftLeft_eq]
      omega
    rw [UInt8.toNat_shiftLeft]
    exact Nat.mod_eq_of_lt hsmall
  rw [UInt8.toNat_or, hshift, shift_or hy]
  omega

/-- The halves of a byte give the byte. -/
theorem join_halves {x y c : UInt8} (hx : x.toNat = (c >>> 4).toNat) (hy : y.toNat = (c &&& 0xf).toNat) :
    x <<< 4 ||| y = c := by
  apply UInt8.toNat_inj.mp
  rw [join_toNat (hx ▸ high_lt c) (hy ▸ low_lt c), hx, hy, high_toNat, low_toNat]
  omega

end Flz.Lib.Halves
