import Mathlib.Data.BitVec

/-! # Zigzag numbers

Signed numbers of small magnitude become small unsigned ones: `0, -1, 1, -2, ..` are numbered
`0, 1, 2, 3, ..`. All arithmetic wraps around.
-/
namespace Flz.Lib
variable {w : ℕ}

def zigzag (v : BitVec w) : BitVec w := if v.slt 0#w then (-v) * 2#w - 1#w else v * 2#w

def unzigzag (v : BitVec w) : BitVec w := (v >>> 1) ^^^ -(v &&& 1#w)

theorem double_eq_shiftLeft (v : BitVec w) : v * 2#w = v <<< 1 := by
  have h2 : 2#w = BitVec.twoPow w 1 := by
    apply BitVec.eq_of_toNat_eq
    simp [BitVec.toNat_twoPow]
  rw [h2, BitVec.shiftLeft_eq_mul_twoPow]

theorem zigzag_of_msb_false {v : BitVec w} (h : v.msb = false) : zigzag v = v <<< 1 := by
  rw [zigzag, BitVec.slt_zero_eq_msb, h, ← double_eq_shiftLeft]
  rfl

theorem zigzag_of_msb_true {v : BitVec w} (h : v.msb = true) : zigzag v = ~~~(v <<< 1) := by
  rw [zigzag, BitVec.slt_zero_eq_msb, h, BitVec.not_eq_neg_add, ← double_eq_shiftLeft,
    ← BitVec.neg_mul]
  rfl

/-- The top bit of `v` comes back as the low bit of the zigzag number. -/
theorem unzigzag_zigzag (v : BitVec w) : unzigzag (zigzag v) = v := by
  cases h : v.msb with
  | false =>
    have hlow : (v <<< 1) &&& 1#w = 0#w := by
      apply BitVec.eq_of_getLsbD_eq
      intro i hi
      simp
      omega
    rw [zigzag_of_msb_false h, unzigzag, hlow, BitVec.neg_zero, BitVec.xor_zero]
    apply BitVec.eq_of_getLsbD_eq
    intro i hi
    rw [BitVec.msb_eq_getLsbD_last] at h
    by_cases hl : 1 + i < w
    · simp [hl, BitVec.getLsbD_eq_getElem hi]
    · have hlast : i = w - 1 := by omega
      subst hlast
      simp [hl, h]
  | true =>
    have hw : 0 < w := by
      rcases Nat.eq_zero_or_pos w with rfl | hw
      · simp [BitVec.msb_eq_getLsbD_last] at h
      · exact hw
    have hlow : ~~~(v <<< 1) &&& 1#w = 1#w := by
      apply BitVec.eq_of_getLsbD_eq
      intro i hi
      simp
      omega
    rw [zigzag_of_msb_true h, unzigzag, hlow, BitVec.neg_one_eq_allOnes, BitVec.xor_allOnes]
    apply BitVec.eq_of_getLsbD_eq
    intro i hi
    rw [BitVec.msb_eq_getLsbD_last] at h
    by_cases hl : 1 + i < w
    · simp [hl, hi]
    · have hlast : i = w - 1 := by omega
      subst hlast
      simp [hl, h, hi]

end Flz.Lib
