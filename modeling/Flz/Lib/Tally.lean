import Mathlib.Algebra.BigOperators.Group.List.Basic
import Mathlib.Algebra.Ring.Nat

/-! # Tallies

What the members of a list have together, when members come and change.
-/
namespace Flz.Lib
variable {α : Type*} (w : α → ℕ) {l : List α} {a b : α} {i j : ℕ}

def tally (l : List α) : ℕ := (l.map w).sum

@[simp] theorem tally_nil : tally w [] = 0 := rfl

@[simp] theorem tally_cons (a : α) (l : List α) : tally w (a :: l) = w a + tally w l := by
  simp [tally]

@[simp] theorem tally_append (l l' : List α) : tally w (l ++ l') = tally w l + tally w l' := by
  simp [tally]

/-- A member changes. -/
theorem tally_set (h : l[i]? = some a) (b : α) : tally w (l.set i b) + w a = tally w l + w b := by
  induction l generalizing i with
  | nil => cases h
  | cons c l ih =>
    cases i with
    | zero =>
      obtain rfl := Option.some.inj h
      simp only [List.set_cons_zero, tally_cons]
      omega
    | succ i =>
      have hset := ih h
      simp only [List.set_cons_succ, tally_cons]
      omega

/-- The other members stay. -/
theorem mem_set_of_ne {x : α} (ha : l[i]? = some a) (hx : x ∈ l) (hne : x ≠ a) : x ∈ l.set i b := by
  obtain ⟨j, hj, rfl⟩ := List.mem_iff_getElem.mp hx
  have hij : i ≠ j := by
    rintro rfl
    exact hne (Option.some.inj ((List.getElem?_eq_getElem hj).symm.trans ha))
  have hset : (l.set i b)[j]? = some l[j] := by
    rw [List.getElem?_set_ne hij]
    exact List.getElem?_eq_getElem hj
  exact List.mem_of_getElem? hset

theorem le_tally (h : a ∈ l) : w a ≤ tally w l := by
  induction l with
  | nil => cases h
  | cons c l ih =>
    rw [tally_cons]
    rcases List.mem_cons.mp h with rfl | h
    · exact Nat.le_add_right _ _
    · exact Nat.le_trans (ih h) (Nat.le_add_left _ _)

/-- Two members have no more than all of them. -/
theorem add_le_tally (ha : l[i]? = some a) (hb : l[j]? = some b) (hij : i ≠ j) :
    w a + w b ≤ tally w l := by
  induction l generalizing i j with
  | nil => cases ha
  | cons c l ih =>
    rw [tally_cons]
    cases i with
    | zero =>
      cases j with
      | zero => exact absurd rfl hij
      | succ j =>
        obtain rfl := Option.some.inj ha
        have hmem : b ∈ l := List.mem_of_getElem? (i := j) hb
        exact Nat.add_le_add_left (le_tally w hmem) _
    | succ i =>
      cases j with
      | zero =>
        obtain rfl := Option.some.inj hb
        have hmem : a ∈ l := List.mem_of_getElem? (i := i) ha
        rw [Nat.add_comm]
        exact Nat.add_le_add_left (le_tally w hmem) _
      | succ j =>
        have hrest := ih ha hb (fun heq => hij (congrArg Nat.succ heq))
        exact Nat.le_trans hrest (Nat.le_add_left _ _)

/-- The same for how often a value is there. -/
theorem count_set_add [DecidableEq α] (h : l[i]? = some a) (b x : α) :
    (l.set i b).count x + (if a = x then 1 else 0) = l.count x + (if b = x then 1 else 0) := by
  induction l generalizing i with
  | nil => cases h
  | cons c l ih =>
    cases i with
    | zero =>
      obtain rfl := Option.some.inj h
      simp only [List.set_cons_zero, List.count_cons, beq_iff_eq]
      omega
    | succ i =>
      have hset := ih h
      simp only [List.set_cons_succ, List.count_cons, beq_iff_eq]
      omega

end Flz.Lib
