import Mathlib.Data.List.Basic
import Mathlib.Tactic.Common

/-! # Overwriting a range of a list

A contiguous vector written at an offset: the elements from the offset on are
replaced, and the vector grows when the written range reaches past its end.
-/
namespace Flz.Lib
variable {α : Type*}

/-- `xs` with `ys` written over it from index `i` on. -/
def overwrite (xs : List α) (i : ℕ) (ys : List α) : List α :=
  xs.take i ++ ys ++ xs.drop (i + ys.length)

@[simp] theorem overwrite_nil (xs : List α) (i : ℕ) : overwrite xs i [] = xs := by
  simp [overwrite]

theorem overwrite_length {xs ys : List α} {i : ℕ} (h : i + ys.length ≤ xs.length) :
    (overwrite xs i ys).length = xs.length := by
  simp only [overwrite, List.length_append, List.length_take, List.length_drop]
  omega

theorem overwrite_length_le {xs ys : List α} {i : ℕ} (h : i ≤ xs.length) :
    (overwrite xs i ys).length = max xs.length (i + ys.length) := by
  simp only [overwrite, List.length_append, List.length_take, List.length_drop]
  omega

theorem overwrite_end (xs ys : List α) : overwrite xs xs.length ys = xs ++ ys := by
  simp [overwrite]

/-- Two adjacent ranges are one range. -/
theorem overwrite_overwrite {xs ys zs : List α} {i : ℕ} (h : i ≤ xs.length) :
    overwrite (overwrite xs i ys) (i + ys.length) zs = overwrite xs i (ys ++ zs) := by
  have hl : (xs.take i ++ ys).length = i + ys.length := by
    rw [List.length_append, List.length_take, Nat.min_eq_left h]
  have ht : (overwrite xs i ys).take (i + ys.length) = xs.take i ++ ys := by
    rw [overwrite, ← hl, List.take_left]
  have hd : (overwrite xs i ys).drop (i + ys.length + zs.length) =
      xs.drop (i + ys.length + zs.length) := by
    rw [← List.drop_drop, overwrite, ← hl, List.drop_left, List.drop_drop]
  rw [overwrite, ht, hd, overwrite, List.length_append, ← Nat.add_assoc]
  simp only [List.append_assoc]

/-- A range inside the first part leaves the second part alone. -/
theorem overwrite_append_left {xs zs ys : List α} {i : ℕ} (h : i + ys.length ≤ xs.length) :
    overwrite (xs ++ zs) i ys = overwrite xs i ys ++ zs := by
  simp only [overwrite, List.append_assoc]
  rw [List.take_append_of_le_length (by omega), List.drop_append_of_le_length h]

/-- A range inside the second part leaves the first part alone. -/
theorem overwrite_append_right (xs zs ys : List α) (i : ℕ) :
    overwrite (xs ++ zs) (xs.length + i) ys = xs ++ overwrite zs i ys := by
  simp only [overwrite, List.append_assoc, Nat.add_assoc]
  rw [List.take_length_add_append, List.drop_length_add_append, List.append_assoc]

/-- A range that starts in the first part and runs over its end. -/
theorem overwrite_append_split {xs zs ys : List α} {i : ℕ} (hi : i ≤ xs.length)
    (h : xs.length ≤ i + ys.length) :
    overwrite (xs ++ zs) i ys =
      overwrite xs i (ys.take (xs.length - i)) ++ overwrite zs 0 (ys.drop (xs.length - i)) := by
  have hk : (ys.take (xs.length - i)).length = xs.length - i := by
    rw [List.length_take]
    omega
  have hdrop : xs.drop (i + (ys.take (xs.length - i)).length) = [] := by
    apply List.drop_eq_nil_of_le
    omega
  have hzs : (xs ++ zs).drop (i + ys.length) = zs.drop (0 + (ys.drop (xs.length - i)).length) := by
    rw [List.drop_append, List.drop_eq_nil_of_le h, List.nil_append, List.length_drop]
    congr 1
    omega
  simp only [overwrite, hdrop, hzs, List.take_append_of_le_length hi, List.append_nil,
    List.take_zero, List.nil_append, List.append_assoc]
  rw [← List.append_assoc (ys.take _), List.take_append_drop]

/-- Writing into a prefix of a vector commutes with cutting the vector after the range. -/
theorem take_overwrite {xs ys : List α} {i n : ℕ} (hi : i + ys.length ≤ n)
    (hn : n ≤ xs.length) : (overwrite xs i ys).take n = overwrite (xs.take n) i ys := by
  have hs : xs = xs.take n ++ xs.drop n := (List.take_append_drop n xs).symm
  have hl : (xs.take n).length = n := by
    rw [List.length_take]
    omega
  conv_lhs => rw [hs, overwrite_append_left (by omega)]
  rw [List.take_append_of_le_length (by rw [overwrite_length (by omega)]; omega)]
  apply List.take_of_length_le
  rw [overwrite_length (by omega)]
  omega

/-- A written range that reaches at least to `n` decides where the prefix of length
`i + ys.length` ends. -/
theorem take_overwrite_of_le {xs ys : List α} {i n : ℕ} (hi : i ≤ n) (hn : n ≤ i + ys.length)
    (hx : i + ys.length ≤ xs.length) :
    (overwrite xs i ys).take (i + ys.length) = overwrite (xs.take n) i ys := by
  have hd : (xs.take n).drop (i + ys.length) = [] := by
    apply List.drop_eq_nil_of_le
    rw [List.length_take]
    omega
  have ht : (xs.take n).take i = xs.take i := by
    rw [List.take_take, Nat.min_eq_left hi]
  simp only [overwrite, hd, ht, List.append_nil]
  rw [List.take_append_of_le_length]
  · apply List.take_of_length_le
    simp only [List.length_append, List.length_take]
    omega
  · simp only [List.length_append, List.length_take]
    omega

/-- A prefix of a vector that is written to at or before its end, up to its new end. -/
theorem take_overwrite_max {xs ys : List α} {i n : ℕ} (hi : i ≤ n) (hn : n ≤ xs.length)
    (hx : i + ys.length ≤ xs.length) :
    (overwrite xs i ys).take (max n (i + ys.length)) = overwrite (xs.take n) i ys := by
  rcases Nat.le_total n (i + ys.length) with h | h
  · rw [Nat.max_eq_right h, take_overwrite_of_le hi h hx]
  · rw [Nat.max_eq_left h, take_overwrite h hn]

end Flz.Lib
