import Mathlib.Data.List.Lex
import Mathlib.Order.Compare
import Mathlib.Order.Lattice

/-! # Comparing sequences from the front

Two sequences of known lengths, of which a common number of entries is compared first and then the
lengths. That is the order of the lists of their entries.
-/
namespace Flz.Lib.Lexicographic
variable {α : Type} [LinearOrder α]

/-- The first `n` entries. -/
def comparePrefix (p q : ℕ → α) : ℕ → Ordering
  | 0 => .eq
  | n + 1 => (comparePrefix p q n).then (compare (p n) (q n))

def entries (p : ℕ → α) (n : ℕ) : List α := (List.range n).map p

variable {p q : ℕ → α} {m n : ℕ}

theorem comparePrefix_eq_iff : comparePrefix p q n = .eq ↔ ∀ i < n, p i = q i := by
  induction n with
  | zero => simp [comparePrefix]
  | succ n ih =>
    rw [comparePrefix, Ordering.then_eq_eq, ih, compare_eq_iff_eq, Nat.forall_lt_succ_right]

theorem comparePrefix_lt_iff : comparePrefix p q n = .lt ↔ ∃ i < n, (∀ j < i, p j = q j) ∧ p i < q i := by
  induction n with
  | zero => simp [comparePrefix]
  | succ n ih =>
    rw [comparePrefix, Ordering.then_eq_lt, ih, comparePrefix_eq_iff, compare_lt_iff_lt, Nat.exists_lt_succ_right]

/-- What decides in a shorter prefix decides in a longer one. -/
theorem comparePrefix_of_le (hmn : m ≤ n) (h : comparePrefix p q m ≠ .eq) : comparePrefix p q n = comparePrefix p q m := by
  induction n, hmn using Nat.le_induction with
  | base => rfl
  | succ n hmn ih =>
    rw [comparePrefix, ih]
    cases hm : comparePrefix p q m with
    | lt => rfl
    | eq => exact absurd hm h
    | gt => rfl

omit [LinearOrder α] in
theorem entries_length (p : ℕ → α) (n : ℕ) : (entries p n).length = n := by
  simp [entries]

theorem entries_eq_iff : entries p m = entries q n ↔ m = n ∧ comparePrefix p q m = .eq := by
  rw [comparePrefix_eq_iff]
  constructor
  · intro h
    have hlength : m = n := by
      simpa [entries_length] using congrArg List.length h
    subst hlength
    refine ⟨rfl, fun i hi => ?_⟩
    exact List.map_inj_left.mp h i (List.mem_range.mpr hi)
  · rintro ⟨rfl, h⟩
    exact List.map_congr_left fun i hi => h i (List.mem_range.mp hi)

theorem entries_lt_iff : entries p m < entries q n ↔
    comparePrefix p q (min m n) = .lt ∨ comparePrefix p q (min m n) = .eq ∧ m < n := by
  rw [List.lt_iff_exists, comparePrefix_lt_iff, comparePrefix_eq_iff, or_comm]
  refine or_congr ?_ ?_
  · simp only [entries, List.length_map, List.length_range, List.getElem_map, List.getElem_range, Nat.lt_min]
    constructor
    · rintro ⟨i, hm, hn, h⟩
      exact ⟨i, ⟨hm, hn⟩, h⟩
    · rintro ⟨i, ⟨hm, hn⟩, h⟩
      exact ⟨i, hm, hn, h⟩
  · simp only [entries_length]
    refine and_congr_left fun hlt => ?_
    have htake : (entries q n).take m = entries q m := by
      rw [entries, ← List.map_take, List.take_range, Nat.min_eq_left hlt.le]
      rfl
    rw [htake, entries_eq_iff, comparePrefix_eq_iff, Nat.min_eq_left hlt.le]
    exact and_iff_right rfl

end Flz.Lib.Lexicographic
