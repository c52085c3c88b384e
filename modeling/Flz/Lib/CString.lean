import Flz.Lib.Segments

/-! # Strings that end at a `NUL` -/
namespace Flz.Lib
open Segments

/-- The text of a string up to its first `NUL`. -/
def c_str (s : List UInt8) : List UInt8 := before 0 s

theorem c_str_eq_iff {s : List UInt8} : c_str s = s ↔ 0 ∉ s := by
  constructor
  · intro h hmem
    rw [← h] at hmem
    exact not_mem_before hmem
  · exact before_of_not_mem

theorem c_str_prefix_append (s t : List UInt8) : c_str s <+: c_str (s ++ t) := by
  by_cases h : 0 ∈ s
  · exact ⟨[], (List.append_nil _).trans (before_append_of_mem h).symm⟩
  · have happend : before 0 (s ++ t) = s ++ before 0 t :=
      List.takeWhile_append_of_pos fun b hb => by simpa using ne_of_mem_of_not_mem hb h
    rw [c_str, c_str, happend, before_of_not_mem h]
    exact List.prefix_append s _

end Flz.Lib
