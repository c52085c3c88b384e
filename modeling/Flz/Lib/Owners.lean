import Mathlib.Data.Finset.Insert
import Mathlib.Data.Finset.Erase
import Mathlib.Logic.Function.Basic

/-! # Owners

Resources that are given out and taken back, each of them to one owner. `held` is what an owner has; `others` have
some of what is in use as well.
-/
namespace Flz.Lib
variable {ι ρ : Type*}

/-- Nobody has what another one has or what is not in use, and only a stray resource is in use with nobody who
has it. -/
structure Owned (held : ι → Option ρ) (used others : Finset ρ) (stray : Set ρ) : Prop where
  given : ∀ i r, held i = some r → r ∈ used
  alone : ∀ i j r, held i = some r → held j = some r → i = j
  apart : ∀ i r, held i = some r → r ∉ others
  outside : others ⊆ used
  covered : ∀ r ∈ used, r ∈ others ∨ (∃ i, held i = some r) ∨ r ∈ stray

namespace Owned
variable {held : ι → Option ρ} {used others : Finset ρ} {stray : Set ρ} {i : ι} {r : ρ}

theorem start (others : Finset ρ) (stray : Set ρ) : Owned (fun _ : ι => none) others others stray where
  given i r h := by cases h
  alone i j r h := by cases h
  apart i r h := by cases h
  outside := Finset.Subset.refl others
  covered r hr := Or.inl hr

/-- What an owner has after a change for one of them. -/
theorem update_eq_some [DecidableEq ι] {o : Option ρ} {j : ι} {q : ρ} (h : Function.update held i o j = some q) :
    j = i ∧ o = some q ∨ j ≠ i ∧ held j = some q := by
  by_cases hj : j = i
  · rw [hj, Function.update_self] at h
    exact Or.inl ⟨hj, h⟩
  · rw [Function.update_of_ne hj] at h
    exact Or.inr ⟨hj, h⟩

variable [DecidableEq ρ]

/-- The others get a new one. -/
theorem takeOther (h : Owned held used others stray) (hr : r ∉ used) :
    Owned held (insert r used) (insert r others) stray where
  given j q hj := Finset.mem_insert_of_mem (h.given j q hj)
  alone := h.alone
  apart j q hj hq := by
    rcases Finset.mem_insert.mp hq with rfl | hq
    · exact hr (h.given j q hj)
    · exact h.apart j q hj hq
  outside := Finset.insert_subset_insert r h.outside
  covered q hq := by
    rcases Finset.mem_insert.mp hq with rfl | hq
    · exact Or.inl (Finset.mem_insert_self q others)
    · exact (h.covered q hq).imp_left Finset.mem_insert_of_mem

/-- The others give one back. -/
theorem releaseOther (h : Owned held used others stray) (hr : r ∈ others) :
    Owned held (used.erase r) (others.erase r) stray where
  given j q hj := by
    refine Finset.mem_erase.mpr ⟨?_, h.given j q hj⟩
    rintro rfl
    exact h.apart j q hj hr
  alone := h.alone
  apart j q hj hq := h.apart j q hj (Finset.mem_of_mem_erase hq)
  outside := Finset.erase_subset_erase r h.outside
  covered q hq := by
    obtain ⟨hne, hq⟩ := Finset.mem_erase.mp hq
    exact (h.covered q hq).imp_left fun hother => Finset.mem_erase.mpr ⟨hne, hother⟩

/-- One that may go astray is given to nobody. -/
theorem lose (h : Owned held used others stray) (hr : r ∈ stray) : Owned held (insert r used) others stray where
  given j q hj := Finset.mem_insert_of_mem (h.given j q hj)
  alone := h.alone
  apart := h.apart
  outside := h.outside.trans (Finset.subset_insert r used)
  covered q hq := by
    rcases Finset.mem_insert.mp hq with rfl | hq
    · exact Or.inr (Or.inr hr)
    · exact h.covered q hq

variable [DecidableEq ι]

/-- An owner without a resource gets a new one. -/
theorem take (h : Owned held used others stray) (hi : held i = none) (hr : r ∉ used) :
    Owned (Function.update held i (some r)) (insert r used) others stray where
  given j q hj := by
    rcases update_eq_some hj with ⟨-, hq⟩ | ⟨-, hq⟩
    · rw [Option.some.inj hq]
      exact Finset.mem_insert_self q used
    · exact Finset.mem_insert_of_mem (h.given j q hq)
  alone j k q hj hk := by
    rcases update_eq_some hj with ⟨rfl, hjq⟩ | ⟨-, hjq⟩ <;> rcases update_eq_some hk with ⟨rfl, hkq⟩ | ⟨-, hkq⟩
    · rfl
    · obtain rfl := Option.some.inj hjq
      exact absurd (h.given k r hkq) hr
    · obtain rfl := Option.some.inj hkq
      exact absurd (h.given j r hjq) hr
    · exact h.alone j k q hjq hkq
  apart j q hj := by
    rcases update_eq_some hj with ⟨-, hq⟩ | ⟨-, hq⟩
    · obtain rfl := Option.some.inj hq
      exact fun hother => hr (h.outside hother)
    · exact h.apart j q hq
  outside := h.outside.trans (Finset.subset_insert r used)
  covered q hq := by
    rcases Finset.mem_insert.mp hq with rfl | hq
    · exact Or.inr (Or.inl ⟨i, Function.update_self ..⟩)
    · refine (h.covered q hq).imp_right (Or.imp_left ?_)
      rintro ⟨j, hj⟩
      refine ⟨j, ?_⟩
      rw [Function.update_of_ne, hj]
      rintro rfl
      rw [hi] at hj
      cases hj

/-- An owner gives back what he has. -/
theorem release (h : Owned held used others stray) (hi : held i = some r) :
    Owned (Function.update held i none) (used.erase r) others stray where
  given j q hj := by
    rcases update_eq_some hj with ⟨-, hq⟩ | ⟨hne, hq⟩
    · cases hq
    · refine Finset.mem_erase.mpr ⟨?_, h.given j q hq⟩
      rintro rfl
      exact hne (h.alone j i q hq hi)
  alone j k q hj hk := by
    rcases update_eq_some hj with ⟨-, hjq⟩ | ⟨-, hjq⟩
    · cases hjq
    · rcases update_eq_some hk with ⟨-, hkq⟩ | ⟨-, hkq⟩
      · cases hkq
      · exact h.alone j k q hjq hkq
  apart j q hj := by
    rcases update_eq_some hj with ⟨-, hq⟩ | ⟨-, hq⟩
    · cases hq
    · exact h.apart j q hq
  outside q hq := by
    refine Finset.mem_erase.mpr ⟨?_, h.outside hq⟩
    rintro rfl
    exact h.apart i q hi hq
  covered q hq := by
    obtain ⟨hne, hq⟩ := Finset.mem_erase.mp hq
    refine (h.covered q hq).imp_right (Or.imp_left ?_)
    rintro ⟨j, hj⟩
    refine ⟨j, ?_⟩
    rw [Function.update_of_ne, hj]
    rintro rfl
    exact hne (Option.some.inj (hj.symm.trans hi))

end Owned
end Flz.Lib
