import Flz.Http.Params

/-! # Trimming

`StringUtil::Trim`, `TrimLeft` and `TrimRight` of `src/util.cc`.
-/
namespace Flz.StringUtil

/-- `std::string::find_first_not_of`. -/
def find_first_not_of (str delimit : List UInt8) : Option ℕ := str.findIdx? (· ∉ delimit)

/-- `std::string::find_last_not_of`. -/
def find_last_not_of (str delimit : List UInt8) : Option ℕ :=
  (str.reverse.findIdx? (· ∉ delimit)).map (str.length - 1 - ·)

/-- `StringUtil::Trim`. -/
def Trim (str delimit : List UInt8) : List UInt8 :=
  match find_first_not_of str delimit, find_last_not_of str delimit with
  | some begin, some last => (str.drop begin).take (last - begin + 1)
  -- one of them is found if and only if the other one is
  | _, _ => []

/-- `StringUtil::TrimLeft`. -/
def TrimLeft (str delimit : List UInt8) : List UInt8 :=
  match find_first_not_of str delimit with
  | none => []
  | some begin => str.drop begin

/-- `StringUtil::TrimRight`, which takes `end` for the length. -/
def TrimRight (str delimit : List UInt8) : List UInt8 :=
  match find_last_not_of str delimit with
  | none => []
  | some last => str.take last

/-- Both sides in either order, with nothing else cut off. -/
structure Trims (s d : List UInt8) : Prop where
  left_right : Trim s d = TrimLeft (TrimRight s d) d
  right_left : Trim s d = TrimRight (TrimLeft s d) d
  head : ∀ c ∈ (Trim s d).head?, c ∉ d
  last : ∀ c ∈ (Trim s d).getLast?, c ∉ d
  padded : ∃ a b, (∀ c ∈ a, c ∈ d) ∧ (∀ c ∈ b, c ∈ d) ∧ s = a ++ Trim s d ++ b

section
variable {s d : List UInt8} {i : ℕ}

/-! ## What is cut off -/

theorem drop_first (h : find_first_not_of s d = some i) : s.drop i = s.dropWhile (· ∈ d) := by
  obtain ⟨-, hi⟩ := List.findIdx?_eq_some_iff_findIdx_eq.mp h
  rw [List.dropWhile_eq_drop_findIdx_not, ← hi]
  simp

theorem take_last (h : find_last_not_of s d = some i) : s.take (i + 1) = s.rdropWhile (· ∈ d) ∧ i < s.length := by
  obtain ⟨j, hj, rfl⟩ := Option.map_eq_some_iff.mp h
  obtain ⟨hlt, -⟩ := List.findIdx?_eq_some_iff_findIdx_eq.mp hj
  rw [List.length_reverse] at hlt
  have hlength : s.length - 1 - j + 1 = s.length - j := by omega
  rw [List.rdropWhile, ← drop_first hj, List.drop_reverse, List.reverse_reverse, hlength]
  exact ⟨rfl, by omega⟩

theorem first_eq_none : find_first_not_of s d = none ↔ ∀ c ∈ s, c ∈ d := by
  rw [find_first_not_of, List.findIdx?_eq_none_iff]
  simp

theorem last_eq_none : find_last_not_of s d = none ↔ ∀ c ∈ s, c ∈ d := by
  rw [find_last_not_of, Option.map_eq_none_iff, List.findIdx?_eq_none_iff]
  simp

theorem TrimLeft_eq (s d : List UInt8) : TrimLeft s d = s.dropWhile (· ∈ d) := by
  cases h : find_first_not_of s d with
  | none =>
    have hall : s.dropWhile (· ∈ d) = [] := List.dropWhile_eq_nil_iff.mpr (by simpa using first_eq_none.mp h)
    rw [TrimLeft, h, hall]
  | some i =>
    rw [TrimLeft, h]
    exact drop_first h

/-- One character too many. -/
theorem TrimRight_eq (s d : List UInt8) : TrimRight s d = (s.rdropWhile (· ∈ d)).dropLast := by
  cases h : find_last_not_of s d with
  | none =>
    have hall : s.rdropWhile (· ∈ d) = [] := List.rdropWhile_eq_nil_iff.mpr (by simpa using last_eq_none.mp h)
    rw [TrimRight, h, hall]
    rfl
  | some i =>
    obtain ⟨htake, hlt⟩ := take_last h
    have hlength : (s.take (i + 1)).length = i + 1 := List.length_take_of_le hlt
    rw [TrimRight, h, ← htake, List.dropLast_eq_take, hlength, List.take_take, Nat.add_sub_cancel,
      min_eq_left (Nat.le_succ i)]

theorem Trim_eq_nil : Http.Trim d s = [] ↔ ∀ c ∈ s, c ∈ d := by
  constructor
  · intro h c hc
    by_contra hd
    exact List.ne_nil_of_mem (Http.mem_Trim hd hc) h
  · intro h
    have hdrop : s.dropWhile (· ∈ d) = [] := List.dropWhile_eq_nil_iff.mpr (by simpa using h)
    rw [Http.Trim, hdrop]
    rfl

/-- The left side stays as it is, unless nothing is left behind it. -/
theorem rdropWhile_eq (h : ¬ ∀ c ∈ s, c ∈ d) : s.rdropWhile (· ∈ d) = s.takeWhile (· ∈ d) ++ Http.Trim d s := by
  have hne : ((s.dropWhile (· ∈ d)).reverse.dropWhile (· ∈ d)).isEmpty = false := by
    rw [List.isEmpty_eq_false_iff, ← List.reverse_ne_nil_iff]
    exact mt Trim_eq_nil.mp h
  conv_lhs => rw [← List.takeWhile_append_dropWhile (p := (· ∈ d)) (l := s)]
  rw [List.rdropWhile, List.reverse_append, List.dropWhile_append, hne]
  simp [Http.Trim, List.rdropWhile]

theorem length_takeWhile (h : find_first_not_of s d = some i) : (s.takeWhile (· ∈ d)).length = i := by
  obtain ⟨hlt, hi⟩ := List.findIdx?_eq_some_iff_findIdx_eq.mp h
  have htake : s.takeWhile (· ∈ d) = s.take i := by
    rw [List.takeWhile_eq_take_findIdx_not, ← hi]
    simp
  rw [htake, List.length_take_of_le hlt.le]

/-- From the first character to the last one that stay. -/
theorem Trim_eq (s d : List UInt8) : Trim s d = Http.Trim d s := by
  cases hfirst : find_first_not_of s d with
  | none =>
    rw [Trim, hfirst, Trim_eq_nil.mpr (first_eq_none.mp hfirst)]
  | some i =>
    have hall : ¬ ∀ c ∈ s, c ∈ d := fun hall => by simp [first_eq_none.mpr hall] at hfirst
    cases hlast : find_last_not_of s d with
    | none => exact absurd (last_eq_none.mp hlast) hall
    | some j =>
      obtain ⟨htake, hlt⟩ := take_last hlast
      have hleft := length_takeWhile hfirst
      have hpos : 0 < (Http.Trim d s).length := List.length_pos_iff.mpr (mt Trim_eq_nil.mp hall)
      have hlength : j + 1 = i + (Http.Trim d s).length := by
        rw [← hleft, ← List.length_append, ← rdropWhile_eq hall, ← htake, List.length_take_of_le hlt]
      have hsize : i + (j - i + 1) = j + 1 := by omega
      have hcode : Trim s d = (s.drop i).take (j - i + 1) := by
        rw [Trim, hfirst, hlast]
      rw [hcode, List.take_drop, hsize, htake, rdropWhile_eq hall, List.drop_left' hleft]

theorem head_not_mem : ∀ c ∈ (Http.Trim d s).head?, c ∉ d := by
  intro c hc
  have hprefix : Http.Trim d s <+: s.dropWhile (· ∈ d) := List.rdropWhile_prefix _ _
  have hhead : (s.dropWhile (· ∈ d)).head? = some c := by
    obtain ⟨t, ht⟩ := hprefix
    rw [← ht, List.head?_append, hc]
    rfl
  have hnot := List.head?_dropWhile_not (· ∈ d) s
  rw [hhead] at hnot
  simpa using hnot

theorem last_not_mem : ∀ c ∈ (Http.Trim d s).getLast?, c ∉ d := by
  intro c hc
  obtain ⟨hne, rfl⟩ := List.mem_getLast?_eq_getLast hc
  have hlast := List.rdropWhile_last_not (· ∈ d) (s.dropWhile (· ∈ d)) hne
  exact fun hmem => hlast (decide_eq_true hmem)

theorem exists_padding (s d : List UInt8) :
    ∃ a b, (∀ c ∈ a, c ∈ d) ∧ (∀ c ∈ b, c ∈ d) ∧ s = a ++ Http.Trim d s ++ b := by
  refine ⟨s.takeWhile (· ∈ d), (s.dropWhile (· ∈ d)).rtakeWhile (· ∈ d), ?_, ?_, ?_⟩
  · intro c hc
    simpa using List.mem_takeWhile_imp hc
  · intro c hc
    simpa using List.mem_rtakeWhile_imp hc
  · rw [List.append_assoc, Http.Trim, List.rdropWhile_append_rtakeWhile, List.takeWhile_append_dropWhile]

end

/-- Exactly the texts of delimiters alone are trimmed to the same on both ways. -/
theorem trims_iff (s d : List UInt8) : Trims s d ↔ ∀ c ∈ s, c ∈ d := by
  constructor
  · intro h
    have hlast : Http.Trim d s = (Http.Trim d s).dropLast := by
      conv_lhs => rw [← Trim_eq, h.right_left, TrimLeft_eq, TrimRight_eq]
      rfl
    rw [← Trim_eq_nil]
    by_contra hne
    have hlength := congrArg List.length hlast
    have hpos := List.length_pos_iff.mpr hne
    rw [List.length_dropLast] at hlength
    omega
  · intro hall
    have hnil : Trim s d = [] := (Trim_eq s d).trans (Trim_eq_nil.mpr hall)
    have hleft : TrimLeft s d = [] := by
      rw [TrimLeft, first_eq_none.mpr hall]
    have hright : TrimRight s d = [] := by
      rw [TrimRight, last_eq_none.mpr hall]
    refine ⟨?_, ?_, ?_, ?_, ?_⟩
    · rw [hnil, hright]
      rfl
    · rw [hnil, hleft]
      rfl
    · rw [Trim_eq]
      exact head_not_mem
    · rw [Trim_eq]
      exact last_not_mem
    · rw [Trim_eq]
      exact exists_padding s d

/-- `TrimRight("a")` is empty. -/
theorem last_character_lost : ¬ ∀ s d, Trims s d := fun h =>
  absurd ((trims_iff [97] [32]).mp (h _ _)) (by decide)

end Flz.StringUtil
