import Mathlib.Algebra.Ring.Nat
import Mathlib.Data.Nat.Basic

/-! # Numbers as text

The digits of a number in some base, as bytes, and their value.
-/
namespace Flz.Lib.Digits

def ofDigit (d : ℕ) : UInt8 := UInt8.ofNat d.digitChar.toNat

/-- The text of `n` in base `b`. -/
def digits (b n : ℕ) : List UInt8 := (Nat.toDigits b n).map fun c => UInt8.ofNat c.toNat

section
variable {b n : ℕ}

theorem digits_of_lt (h : n < b) : digits b n = [ofDigit n] := by
  rw [digits, Nat.toDigits_of_lt_base h]
  rfl

theorem digits_of_le (hb : 1 < b) (h : b ≤ n) : digits b n = digits b (n / b) ++ [ofDigit (n % b)] := by
  rw [digits, Nat.toDigits_of_base_le hb h, List.map_append]
  rfl

theorem digits_ne_nil : digits b n ≠ [] := by
  rw [digits, ne_eq, List.map_eq_nil_iff]
  exact Nat.toDigits_ne_nil

theorem digits_length_le {k : ℕ} (hb : 1 < b) (hk : 0 < k) (h : n < b ^ k) : (digits b n).length ≤ k := by
  rw [digits, List.length_map]
  exact (Nat.length_toDigits_le_iff hb hk).mpr h

/-- The first digit of a number but zero. -/
theorem digits_head (hb : 1 < b) (h : 0 < n) : ∃ d ds, digits b n = ofDigit d :: ds ∧ 0 < d ∧ d < b := by
  induction n using Nat.strong_induction_on with
  | _ n ih =>
    by_cases hn : n < b
    · exact ⟨n, [], digits_of_lt hn, h, hn⟩
    · have hle := Nat.le_of_not_lt hn
      obtain ⟨d, ds, hds, hd⟩ := ih (n / b) (Nat.div_lt_self h hb) (Nat.div_pos hle (by omega))
      exact ⟨d, ds ++ [ofDigit (n % b)], by rw [digits_of_le hb hle, hds, List.cons_append], hd⟩

/-- What holds of every digit holds of the text. -/
theorem forall_mem_digits {p : UInt8 → Prop} (hb : 1 < b) (h : ∀ d < b, p (ofDigit d)) (n : ℕ) :
    ∀ c ∈ digits b n, p c := by
  induction n using Nat.strong_induction_on with
  | _ n ih =>
    by_cases hn : n < b
    · rw [digits_of_lt hn]
      simpa using h n hn
    · have hle := Nat.le_of_not_lt hn
      rw [digits_of_le hb hle]
      intro c hc
      rcases List.mem_append.mp hc with hc | hc
      · exact ih (n / b) (Nat.div_lt_self (by omega) hb) c hc
      · rw [List.mem_singleton.mp hc]
        exact h _ (Nat.mod_lt _ (by omega))

/-- The text is read as the number by whoever knows the digits. -/
theorem foldl_digits (value : UInt8 → ℕ) (hb : 1 < b) (h : ∀ d < b, value (ofDigit d) = d) (n : ℕ) :
    (digits b n).foldl (fun v c => v * b + value c) 0 = n := by
  induction n using Nat.strong_induction_on with
  | _ n ih =>
    by_cases hn : n < b
    · rw [digits_of_lt hn]
      simpa using h n hn
    · have hle := Nat.le_of_not_lt hn
      rw [digits_of_le hb hle, List.foldl_append, ih (n / b) (Nat.div_lt_self (by omega) hb), List.foldl_cons,
        List.foldl_nil, h _ (Nat.mod_lt _ (by omega)), Nat.div_add_mod']

end
end Flz.Lib.Digits
