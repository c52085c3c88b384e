import Flz.Http.Params
import Flz.Lib.Substring

/-! # Replacing text

The three overloads of `replace` of `src/hash_util.cc`.
-/
namespace Flz.Replace
open Lib Substring Http

/-- The loop that all have, with what looks for the next `index` and what changes the text there; `none` is no more
fuel. -/
def loop (find : List UInt8 → ℕ → Option ℕ) (edit : List UInt8 → ℕ → List UInt8) (n : ℕ) :
    ℕ → List UInt8 → Option ℕ → Option (List UInt8)
  | _, str, none => some str
  | 0, _, some _ => none
  | fuel + 1, str, some index => loop find edit n fuel (edit str index) (find (edit str index) (index + n))

/-- `replace(const std::string&, const std::string&, const std::string&)`. -/
def replace (str1 find replaceWith : List UInt8) (fuel : ℕ) : Option (List UInt8) :=
  loop (Substring.find find) (fun str index => str.take index ++ replaceWith ++ str.drop (index + find.length))
    replaceWith.length fuel str1 (Substring.find find str1 0)

/-- `replace(const std::string&, char, const std::string&)`. -/
def replaceCharText (str1 : List UInt8) (find : UInt8) (replaceWith : List UInt8) (fuel : ℕ) : Option (List UInt8) :=
  loop (stringFind · find) (fun str index => str.take index ++ replaceWith ++ str.drop (index + 1))
    replaceWith.length fuel str1 (stringFind str1 find 0)

/-- `replace(const std::string&, char, char)`. -/
def replaceChar (str1 : List UInt8) (find replaceWith : UInt8) (fuel : ℕ) : Option (List UInt8) :=
  loop (stringFind · find) (fun str index => str.set index replaceWith) 1 fuel str1 (stringFind str1 find 0)

/-- The loop ends after enough rounds. -/
def Returns (run : ℕ → Option (List UInt8)) (r : List UInt8) : Prop := ∃ fuel, run fuel = some r

/-- It ends, with the occurrences replaced, and the overloads for characters do the same. -/
structure Replaces (str1 find replaceWith : List UInt8) : Prop where
  terminates : ∃ r, Returns (replace str1 find replaceWith) r
  replaced : find ≠ [] → ∀ r, Returns (replace str1 find replaceWith) r → Replaced find replaceWith str1 r
  charText : ∀ c, replaceCharText str1 c replaceWith = replace str1 [c] replaceWith
  char : ∀ c d, replaceChar str1 c d = replace str1 [c] [d]

section
variable {find w str : List UInt8} {edit : List UInt8 → ℕ → List UInt8} {n fuel : ℕ} {index : Option ℕ}

/-! ## Fuel -/

theorem loop_mono {search : List UInt8 → ℕ → Option ℕ} {m : ℕ} {r : List UInt8} (hle : fuel ≤ m)
    (h : loop search edit n fuel str index = some r) : loop search edit n m str index = some r := by
  induction fuel generalizing str index m with
  | zero =>
    cases index with
    | none => cases m <;> exact h
    | some i => cases h
  | succ fuel ih =>
    obtain ⟨m, rfl⟩ := Nat.exists_eq_add_of_le' (Nat.one_le_of_lt hle)
    cases index with
    | none => exact h
    | some i =>
      rw [loop] at h ⊢
      exact ih (Nat.le_of_succ_le_succ hle) h

theorem returns_unique {r r' : List UInt8} (h : Returns (replace str find w) r) (h' : Returns (replace str find w) r') :
    r = r' := by
  obtain ⟨k, hk⟩ := h
  obtain ⟨m, hm⟩ := h'
  have hk' := loop_mono (le_max_left k m) hk
  have hm' := loop_mono (le_max_right k m) hm
  exact Option.some.inj (hk'.symm.trans hm')

/-! ## What is replaced -/

theorem loop_none {search : List UInt8 → ℕ → Option ℕ} : loop search edit n fuel str none = some str := by
  cases fuel <;> rfl

/-- What one round makes of an occurrence behind `pre`. -/
theorem edit_append (pre y : List UInt8) : (pre ++ (find ++ y)).take pre.length ++ w ++
    (pre ++ (find ++ y)).drop (pre.length + find.length) = pre ++ w ++ y := by
  rw [List.take_left, ← List.append_assoc pre find y, ← List.length_append, List.drop_left]

/-- By induction on what stands behind the occurrence. -/
theorem exists_replaced (hfind : find ≠ []) (y : List UInt8) : ∃ r, Replaced find w y r ∧ ∀ pre fuel, y.length < fuel →
    loop (Substring.find find) (fun str index => str.take index ++ w ++ str.drop (index + find.length)) w.length fuel
      (pre ++ (find ++ y)) (some pre.length) = some (pre ++ (w ++ r)) := by
  induction hlength : y.length using Nat.strong_induction_on generalizing y with
  | _ l ih =>
    have hnext (pre : List UInt8) : Substring.find find (pre ++ w ++ y) (pre.length + w.length) =
        (firstOf find y).map ((pre ++ w).length + ·) := find_drop (by simp)
    cases hfirst : firstOf find y with
    | none =>
      refine ⟨y, .done (firstOf_eq_none hfirst), fun pre fuel hfuel => ?_⟩
      obtain ⟨fuel, rfl⟩ := Nat.exists_eq_add_of_le' (Nat.one_le_of_lt hfuel)
      rw [loop, edit_append, hnext, hfirst, Option.map_none, loop_none, List.append_assoc]
    | some k =>
      obtain ⟨x, y', rfl, rfl, hleft⟩ := firstOf_eq_some hfirst
      have hpos : 0 < find.length := List.length_pos_iff.mpr hfind
      simp only [List.length_append] at hlength
      obtain ⟨r, hr, hloop⟩ := ih y'.length (by omega) y' rfl
      refine ⟨x ++ (w ++ r), .next hleft hr, fun pre fuel hfuel => ?_⟩
      obtain ⟨fuel, rfl⟩ := Nat.exists_eq_add_of_le' (Nat.one_le_of_lt hfuel)
      have hstate : pre ++ w ++ (x ++ (find ++ y')) = (pre ++ w ++ x) ++ (find ++ y') := by simp
      have hindex : (pre ++ w).length + x.length = (pre ++ w ++ x).length := List.length_append.symm
      rw [loop, edit_append, hnext, hfirst, Option.map_some, hindex, hstate, hloop _ fuel (by omega)]
      simp

theorem replace_returns (hfind : find ≠ []) (str : List UInt8) :
    ∃ r, Returns (replace str find w) r ∧ Replaced find w str r := by
  have hstart : Substring.find find str 0 = firstOf find str := by
    simp [Substring.find]
  cases hfirst : firstOf find str with
  | none =>
    refine ⟨str, ⟨0, ?_⟩, .done (firstOf_eq_none hfirst)⟩
    rw [replace, hstart, hfirst, loop_none]
  | some k =>
    obtain ⟨x, y, rfl, rfl, hleft⟩ := firstOf_eq_some hfirst
    obtain ⟨r, hr, hloop⟩ := exists_replaced (w := w) hfind y
    refine ⟨x ++ (w ++ r), ⟨y.length + 1, ?_⟩, .next hleft hr⟩
    rw [replace, hstart, hfirst]
    exact hloop x _ (Nat.lt_succ_self _)

/-! ## The empty text -/

theorem find_nil (h : n ≤ str.length) : Substring.find [] str n = some n := by
  rw [Substring.find, if_pos h, firstOf_nil_left]
  rfl

/-- It is found again behind what it was replaced with. -/
theorem loop_nil {i : ℕ} (h : i ≤ str.length) :
    loop (Substring.find []) (fun str index => str.take index ++ w ++ str.drop (index + 0)) w.length fuel str (some i) =
      none := by
  induction fuel generalizing str i with
  | zero => rfl
  | succ fuel ih =>
    have hle : i + w.length ≤ (str.take i ++ w ++ str.drop (i + 0)).length := by
      simp
      omega
    rw [loop, find_nil hle]
    exact ih hle

/-! ## Characters -/

theorem find_singleton (c : UInt8) : Substring.find [c] str n = stringFind str c n := by
  rw [Substring.find, stringFind]
  split
  · rw [firstOf_singleton]
  · rename_i hlong
    rw [List.drop_eq_nil_of_le (by omega)]
    rfl

theorem replaceCharText_eq (str : List UInt8) (c : UInt8) (w : List UInt8) :
    replaceCharText str c w = replace str [c] w := by
  have hfind : Substring.find [c] = (stringFind · c) := by
    funext s i
    exact find_singleton c
  funext fuel
  rw [replaceCharText, replace, hfind]
  rfl

theorem stringFind_lt {i : ℕ} {c : UInt8} (h : stringFind str c n = some i) : i < str.length := by
  rw [stringFind] at h
  obtain ⟨j, hj, rfl⟩ := Option.map_eq_some_iff.mp h
  obtain ⟨hlt, -⟩ := List.findIdx?_eq_some_iff_getElem.mp hj
  rw [List.length_drop] at hlt
  omega

/-- Writing one character in place is cutting it out and putting one in. -/
theorem loop_set {c d : UInt8} (hindex : ∀ i ∈ index, i < str.length) :
    loop (stringFind · c) (fun str index => str.set index d) 1 fuel str index =
      loop (stringFind · c) (fun str index => str.take index ++ [d] ++ str.drop (index + 1)) 1 fuel str index := by
  induction fuel generalizing str index with
  | zero => cases index <;> rfl
  | succ fuel ih =>
    cases index with
    | none => rfl
    | some i =>
      have hset : str.set i d = str.take i ++ [d] ++ str.drop (i + 1) := by
        rw [List.set_eq_take_append_cons_drop, if_pos (hindex i rfl), List.append_assoc]
        rfl
      rw [loop, loop, hset]
      exact ih fun j hj => stringFind_lt hj

theorem replaceChar_eq (str : List UInt8) (c d : UInt8) : replaceChar str c d = replace str [c] [d] := by
  rw [← replaceCharText_eq]
  funext fuel
  exact loop_set fun i hi => stringFind_lt hi

end

/-- Exactly the empty text is looked for without an end. -/
theorem replaces_iff (str1 find replaceWith : List UInt8) : Replaces str1 find replaceWith ↔ find ≠ [] := by
  constructor
  · rintro h rfl
    obtain ⟨r, fuel, hfuel⟩ := h.terminates
    rw [replace, find_nil (Nat.zero_le _)] at hfuel
    cases hfuel.symm.trans (loop_nil (Nat.zero_le _))
  · intro hfind
    obtain ⟨r, hr, hreplaced⟩ := replace_returns (w := replaceWith) hfind str1
    refine ⟨⟨r, hr⟩, fun _ r' hr' => ?_, fun c => replaceCharText_eq str1 c replaceWith, replaceChar_eq str1⟩
    rwa [returns_unique hr' hr]

/-- `replace("a", "", "")` goes on at the same place. -/
theorem empty_endless : ¬ ∀ str1 find replaceWith, Replaces str1 find replaceWith := fun h =>
  (replaces_iff [97] [] []).mp (h _ _ _) rfl

end Flz.Replace
