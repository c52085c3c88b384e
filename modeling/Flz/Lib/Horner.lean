import Mathlib.Algebra.BigOperators.Ring.Finset
import Mathlib.Data.List.GetD
import Mathlib.Tactic.Ring

/-! # Horner's scheme

A list of coefficients, the highest first, is evaluated with one multiplication a step.
-/
namespace Flz.Lib
open Finset

variable {R : Type*} [CommSemiring R] {x c : R} {cs : List R}

/-- One step takes the next coefficient in. -/
def horner (x : R) (cs : List R) : R := cs.foldl (fun h c => x * h + c) 0

theorem horner_concat : horner x (cs ++ [c]) = x * horner x cs + c := by
  simp [horner]

/-- What the steps add up to. -/
def coeffSum (x : R) (cs : List R) : R := ∑ i ∈ range cs.length, cs.getD i 0 * x ^ (cs.length - 1 - i)

theorem coeffSum_concat : coeffSum x (cs ++ [c]) = x * coeffSum x cs + c := by
  have hlast : (cs ++ [c]).getD cs.length 0 * x ^ (cs.length + 1 - 1 - cs.length) = c := by
    simp
  have hearlier : ∀ i ∈ range cs.length, (cs ++ [c]).getD i 0 * x ^ (cs.length + 1 - 1 - i) =
      x * (cs.getD i 0 * x ^ (cs.length - 1 - i)) := by
    intro i hi
    have hlt := mem_range.mp hi
    have hpower : cs.length + 1 - 1 - i = cs.length - 1 - i + 1 := by omega
    rw [List.getD_append cs [c] 0 i hlt, hpower, pow_succ]
    ring
  rw [coeffSum, List.length_append, List.length_singleton, sum_range_succ, hlast, sum_congr rfl hearlier, coeffSum,
    mul_sum]

theorem horner_eq_coeffSum (x : R) (cs : List R) : horner x cs = coeffSum x cs := by
  induction cs using List.reverseRecOn with
  | nil => rfl
  | append_singleton cs c ih => rw [horner_concat, coeffSum_concat, ih]

theorem horner_map_sub {R α : Type*} [CommRing R] (x : R) (f g : α → R) (l : List α) :
    horner x (l.map fun a => f a - g a) = horner x (l.map f) - horner x (l.map g) := by
  induction l using List.reverseRecOn with
  | nil => simp [horner]
  | append_singleton l a ih =>
    simp only [List.map_append, List.map_cons, List.map_nil, horner_concat, ih]
    ring

end Flz.Lib
