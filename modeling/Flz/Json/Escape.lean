import Mathlib.Data.List.Basic
import Mathlib.Order.Basic
import Mathlib.Tactic.Cases

/-! # Escaped texts

`JsonUtil::NeedEscape` and `JsonUtil::Escape` of `src/json_util.cc`.
-/
namespace Flz.JsonUtil

/-- The `case`s of `NeedEscape` and of the first pass: `\f`, `\t`, `\r`, `\n`, `\b`, `"` and `\`. -/
def special : List UInt8 := [12, 9, 13, 10, 8, 34, 92]

/-- `JsonUtil::NeedEscape`. -/
def NeedEscape (v : List UInt8) : Bool := v.any (· ∈ special)

/-- The first pass of `Escape`. -/
def sizePass (v : List UInt8) : ℕ := v.foldl (fun size c => size + if c ∈ special then 2 else 1) 0

/-- What the second one appends for a character. -/
def escaped (c : UInt8) : List UInt8 :=
  if c = 12 then [92, 102]
  else if c = 9 then [92, 116]
  else if c = 13 then [92, 114]
  else if c = 10 then [92, 110]
  else if c = 8 then [92, 98]
  else if c = 34 then [92, 34]
  else if c = 92 then [92, 92]
  else [c]

/-- The second pass. -/
def appendPass (rt v : List UInt8) : List UInt8 := v.foldl (fun rt c => rt ++ escaped c) rt

/-- `JsonUtil::Escape`. -/
def Escape (v : List UInt8) : List UInt8 :=
  if sizePass v = v.length then v
  -- `rt.resize(size)` where `reserve` was meant
  else appendPass (List.replicate (sizePass v) 0) v

/-- There is a quote that no backslash takes. -/
def bareQuote : List UInt8 → Bool
  | [] => false
  | [c] => c = 34
  | c :: d :: s => if c = 92 then bareQuote s else c = 34 || bareQuote (d :: s)

/-- The escapes one behind the other, of the length computed, without bare quotes, and changed if needed. -/
structure Escapes (v : List UInt8) : Prop where
  concat : Escape v = v.flatMap escaped
  length : (Escape v).length = sizePass v
  quotes : bareQuote (Escape v) = false
  need : NeedEscape v = true ↔ Escape v ≠ v

section
variable {v s : List UInt8} {c : UInt8}

/-! ## One character -/

theorem escaped_of_special (h : c ∈ special) : ∃ d, escaped c = [92, d] := by
  simp only [special, List.mem_cons, List.not_mem_nil, or_false] at h
  rcases h with rfl | rfl | rfl | rfl | rfl | rfl | rfl <;> exact ⟨_, rfl⟩

theorem escaped_of_plain (h : c ∉ special) : escaped c = [c] := by
  simp only [special, List.mem_cons, List.not_mem_nil, or_false, not_or] at h
  simp [escaped, h]

theorem length_escaped (c : UInt8) : (escaped c).length = if c ∈ special then 2 else 1 := by
  by_cases h : c ∈ special
  · obtain ⟨d, hd⟩ := escaped_of_special h
    rw [hd, if_pos h]
    rfl
  · rw [escaped_of_plain h, if_neg h]
    rfl

theorem bareQuote_plain (hquote : c ≠ 34) (hslash : c ≠ 92) : bareQuote (c :: s) = bareQuote s := by
  cases s with
  | nil => simp [bareQuote, hquote]
  | cons d s => simp [bareQuote, hquote, hslash]

theorem bareQuote_escaped (c : UInt8) (s : List UInt8) : bareQuote (escaped c ++ s) = bareQuote s := by
  by_cases h : c ∈ special
  · obtain ⟨d, hd⟩ := escaped_of_special h
    rw [hd, List.cons_append, List.cons_append, List.nil_append, bareQuote, if_pos rfl]
  · rw [escaped_of_plain h, List.cons_append, List.nil_append]
    exact bareQuote_plain (by rintro rfl; exact h (by decide)) (by rintro rfl; exact h (by decide))

/-! ## Both passes -/

theorem foldl_size (v : List UInt8) (n : ℕ) :
    v.foldl (fun size c => size + if c ∈ special then 2 else 1) n = n + (v.flatMap escaped).length := by
  induction v generalizing n with
  | nil => rfl
  | cons c v ih =>
    rw [List.foldl_cons, ih, List.flatMap_cons, List.length_append, length_escaped]
    omega

theorem sizePass_eq (v : List UInt8) : sizePass v = (v.flatMap escaped).length :=
  (foldl_size v 0).trans (Nat.zero_add _)

theorem appendPass_eq (rt v : List UInt8) : appendPass rt v = rt ++ v.flatMap escaped := by
  induction v generalizing rt with
  | nil => simp [appendPass]
  | cons c v ih => simpa [appendPass] using ih (rt ++ escaped c)

theorem flatMap_plain (h : ∀ c ∈ v, c ∉ special) : v.flatMap escaped = v := by
  induction v with
  | nil => rfl
  | cons c v ih =>
    rw [List.forall_mem_cons] at h
    rw [List.flatMap_cons, escaped_of_plain h.1, ih h.2]
    rfl

theorem length_le_flatMap (v : List UInt8) : v.length ≤ (v.flatMap escaped).length := by
  induction v with
  | nil => exact Nat.le_refl 0
  | cons c v ih =>
    rw [List.flatMap_cons, List.length_append, length_escaped, List.length_cons]
    split <;> omega

/-- The length tells whether there is anything to escape. -/
theorem sizePass_eq_length_iff : sizePass v = v.length ↔ ∀ c ∈ v, c ∉ special := by
  rw [sizePass_eq]
  constructor
  · intro h
    induction v with
    | nil => simp
    | cons c v ih =>
      have hle := length_le_flatMap v
      rw [List.flatMap_cons, List.length_append, length_escaped, List.length_cons] at h
      split at h
      · omega
      · rename_i hc
        exact List.forall_mem_cons.mpr ⟨hc, ih (by omega)⟩
  · intro h
    rw [flatMap_plain h]

theorem bareQuote_flatMap (v : List UInt8) : bareQuote (v.flatMap escaped) = false := by
  induction v with
  | nil => rfl
  | cons c v ih => rw [List.flatMap_cons, bareQuote_escaped, ih]

theorem bareQuote_replicate (n : ℕ) (s : List UInt8) : bareQuote (List.replicate n 0 ++ s) = bareQuote s := by
  induction n with
  | zero => rfl
  | succ n ih => rw [List.replicate_succ, List.cons_append, bareQuote_plain (by decide) (by decide), ih]

/-! ## The result -/

theorem Escape_of_plain (h : ∀ c ∈ v, c ∉ special) : Escape v = v := if_pos (sizePass_eq_length_iff.mpr h)

theorem Escape_of_special (h : ¬ ∀ c ∈ v, c ∉ special) :
    Escape v = List.replicate (sizePass v) 0 ++ v.flatMap escaped := by
  rw [Escape, if_neg (mt sizePass_eq_length_iff.mp h), appendPass_eq]

theorem length_Escape_of_special (h : ¬ ∀ c ∈ v, c ∉ special) :
    (Escape v).length = sizePass v + sizePass v ∧ v.length < sizePass v := by
  have hne := mt sizePass_eq_length_iff.mp h
  have hle := length_le_flatMap v
  rw [← sizePass_eq] at hle
  rw [Escape_of_special h, List.length_append, List.length_replicate, ← sizePass_eq]
  exact ⟨rfl, by omega⟩

theorem NeedEscape_eq_false : NeedEscape v = false ↔ ∀ c ∈ v, c ∉ special := by
  simp [NeedEscape]

theorem NeedEscape_iff (v : List UInt8) : NeedEscape v = true ↔ Escape v ≠ v := by
  rw [← Bool.not_eq_false, not_congr NeedEscape_eq_false]
  constructor
  · intro h heq
    obtain ⟨hlength, hlt⟩ := length_Escape_of_special h
    rw [heq] at hlength
    omega
  · exact mt Escape_of_plain

theorem bareQuote_Escape (v : List UInt8) : bareQuote (Escape v) = false := by
  by_cases h : ∀ c ∈ v, c ∉ special
  · have hquote := bareQuote_flatMap v
    rwa [flatMap_plain h, ← Escape_of_plain h] at hquote
  · rw [Escape_of_special h, bareQuote_replicate, bareQuote_flatMap]

end

/-- Exactly the texts that have nothing to escape come out right. -/
theorem escapes_iff (v : List UInt8) : Escapes v ↔ ∀ c ∈ v, c ∉ special := by
  constructor
  · intro h
    by_contra hspecial
    obtain ⟨hlength, hlt⟩ := length_Escape_of_special hspecial
    have heq := h.length
    omega
  · intro h
    refine ⟨?_, ?_, bareQuote_Escape v, NeedEscape_iff v⟩
    · rw [Escape_of_plain h, flatMap_plain h]
    · rw [Escape_of_plain h, sizePass_eq_length_iff.mpr h]

/-- `Escape("\n")` is four characters long. -/
theorem newline_padded : ¬ ∀ v, Escapes v := fun h =>
  absurd ((escapes_iff [10]).mp (h _)) (by decide)

end Flz.JsonUtil
