import Flz.Lib.Radix
import Mathlib.Data.Nat.Bitwise

/-! # Bits of byte strings

The bits of a byte string from the highest bit of its first byte on, and what the first `n` of them make of
a prefix: its mask, and the lowest and the highest string that agree with a given one on the prefix.
-/
namespace Flz.Lib.Bits

/-- The bit at `i`; behind the end all bits are clear. -/
def bit (bytes : List UInt8) (i : ℕ) : Bool := (bytes.getD (i / 8) 0).toNat.testBit (7 - i % 8)

/-- The bits of a prefix of `n` are set and no other of the first `w`. -/
def IsMask (w n : ℕ) (mask : List UInt8) : Prop := ∀ i < w, bit mask i = decide (i < n)

/-- `bytes` with the bits behind the prefix clear. -/
def IsNetwork (w n : ℕ) (bytes network : List UInt8) : Prop :=
  ∀ i < w, bit network i = (bit bytes i && decide (i < n))

/-- `bytes` with the bits behind the prefix set. -/
def IsBroadcast (w n : ℕ) (bytes broadcast : List UInt8) : Prop :=
  ∀ i < w, bit broadcast i = (bit bytes i || decide (n ≤ i))

theorem leBytes_getD {k j : ℕ} (h : j < k) (v : ℕ) : (leBytes k v).getD j 0 = UInt8.ofNat (v / 256 ^ j) := by
  induction k generalizing j v with
  | zero => omega
  | succ k ih =>
    cases j with
    | zero => simp [leBytes]
    | succ j =>
      rw [leBytes, List.getD_cons_succ, ih (by omega), Nat.div_div_eq_div_mul, Nat.pow_succ']

/-- The bits of a number that stands with its highest byte first. -/
theorem bit_reverse_leBytes {k i : ℕ} (h : i < 8 * k) (v : ℕ) :
    bit (leBytes k v).reverse i = v.testBit (8 * k - 1 - i) := by
  have hbyte : (leBytes k v).reverse.getD (i / 8) 0 = UInt8.ofNat (v / 256 ^ (k - 1 - i / 8)) := by
    rw [← leBytes_getD (show k - 1 - i / 8 < k by omega), List.getD_eq_getElem?_getD, List.getD_eq_getElem?_getD,
      List.getElem?_reverse (by rw [leBytes_length]; omega), leBytes_length]
  have hpow : 256 ^ (k - 1 - i / 8) = 2 ^ (8 * (k - 1 - i / 8)) := by rw [Nat.pow_mul]
  rw [bit, hbyte, UInt8.toNat_ofNat', Nat.testBit_mod_two_pow, hpow, Nat.testBit_div_two_pow,
    decide_eq_true (show 7 - i % 8 < 8 by omega), Bool.true_and]
  congr 1
  omega

theorem leBytes_and (k x y : ℕ) :
    leBytes k (x &&& y) = List.zipWith (· &&& ·) (leBytes k x) (leBytes k y) := by
  induction k generalizing x y with
  | zero => rfl
  | succ k ih =>
    have hhead : UInt8.ofNat (x &&& y) = UInt8.ofNat x &&& UInt8.ofNat y := UInt8.ofNat_and x y
    have hrest : (x &&& y) / 2 ^ 8 = x / 2 ^ 8 &&& y / 2 ^ 8 := Nat.and_div_two_pow
    rw [leBytes, leBytes, leBytes, List.zipWith_cons_cons, hhead, ← ih]
    exact congrArg (_ :: leBytes k ·) hrest

theorem bit_and {xs ys : List UInt8} (h : xs.length = ys.length) (i : ℕ) :
    bit (List.zipWith (· &&& ·) xs ys) i = (bit xs i && bit ys i) := by
  have hbyte : (List.zipWith (· &&& ·) xs ys).getD (i / 8) 0 = xs.getD (i / 8) 0 &&& ys.getD (i / 8) 0 := by
    simp only [List.getD_eq_getElem?_getD, List.getElem?_zipWith]
    by_cases hi : i / 8 < xs.length
    · rw [List.getElem?_eq_getElem hi, List.getElem?_eq_getElem (h ▸ hi)]
      rfl
    · rw [List.getElem?_eq_none (Nat.le_of_not_lt hi), List.getElem?_eq_none (h ▸ Nat.le_of_not_lt hi)]
      rfl
  rw [bit, hbyte, UInt8.toNat_and, Nat.testBit_and]
  rfl

end Flz.Lib.Bits
