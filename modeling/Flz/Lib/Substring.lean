import Mathlib.Data.List.Infix
import Mathlib.Tactic.Cases

/-! # Occurrences of a text in another one -/
namespace Flz.Lib.Substring
variable {α : Type} [DecidableEq α]

/-- Where `pat` occurs first. -/
def firstOf (pat : List α) : List α → Option ℕ
  | [] => if pat = [] then some 0 else none
  | c :: s => if pat <+: c :: s then some 0 else (firstOf pat s).map (· + 1)

/-- Where it occurs first from `pos` on. -/
def find (pat s : List α) (pos : ℕ) : Option ℕ :=
  if pos ≤ s.length then (firstOf pat (s.drop pos)).map (pos + ·) else none

/-- The occurrences from left to right, none of which reaches into the one before, are replaced with `w`. -/
inductive Replaced (pat w : List α) : List α → List α → Prop
  | done {s : List α} (h : ¬ pat <:+: s) : Replaced pat w s s
  | next {x y r : List α} (first : ∀ z t, x ++ (pat ++ y) = z ++ (pat ++ t) → x.length ≤ z.length)
    (rest : Replaced pat w y r) : Replaced pat w (x ++ (pat ++ y)) (x ++ (w ++ r))

variable {pat s x y : List α} {k : ℕ}

theorem firstOf_eq_none (h : firstOf pat s = none) : ¬ pat <:+: s := by
  induction s with
  | nil =>
    intro hinfix
    rw [firstOf, if_pos (List.infix_nil.mp hinfix)] at h
    cases h
  | cons c s ih =>
    rw [firstOf] at h
    split at h
    · cases h
    · rename_i hnot
      rw [List.infix_cons_iff]
      exact not_or.mpr ⟨hnot, ih (Option.map_eq_none_iff.mp h)⟩

theorem firstOf_eq_some (h : firstOf pat s = some k) : ∃ x y, s = x ++ (pat ++ y) ∧ x.length = k ∧
    ∀ z t, s = z ++ (pat ++ t) → x.length ≤ z.length := by
  induction s generalizing k with
  | nil =>
    rw [firstOf] at h
    split at h
    · rename_i hnil
      cases h
      exact ⟨[], [], by simp [hnil], rfl, fun _ _ _ => Nat.zero_le _⟩
    · cases h
  | cons c s ih =>
    rw [firstOf] at h
    split at h
    · rename_i hprefix
      cases h
      obtain ⟨y, hy⟩ := hprefix
      exact ⟨[], y, hy.symm, rfl, fun _ _ _ => Nat.zero_le _⟩
    · rename_i hnot
      obtain ⟨j, hj, rfl⟩ := Option.map_eq_some_iff.mp h
      obtain ⟨x, y, rfl, rfl, hfirst⟩ := ih hj
      refine ⟨c :: x, y, rfl, rfl, fun z t hz => ?_⟩
      cases z with
      | nil => exact absurd ⟨t, hz.symm⟩ hnot
      | cons d z =>
        have hle := hfirst z t (List.cons.inj hz).2
        simpa using hle

theorem find_drop (hpos : x.length = k) : find pat (x ++ y) k = (firstOf pat y).map (x.length + ·) := by
  subst hpos
  rw [find, if_pos (by simp), List.drop_left]

theorem firstOf_nil_left (s : List α) : firstOf [] s = some 0 := by
  cases s with
  | nil => rfl
  | cons c s => exact if_pos List.nil_prefix

/-- One entry. -/
theorem firstOf_singleton (a : α) (s : List α) : firstOf [a] s = s.findIdx? (· == a) := by
  induction s with
  | nil => rfl
  | cons c s ih =>
    rw [firstOf, List.findIdx?_cons, ih]
    by_cases hc : c = a
    · simp [hc]
    · simp [hc, Ne.symm hc]

end Flz.Lib.Substring
