import Flz.Lib.CString
import Mathlib.Data.List.Count
import Mathlib.Tactic.Cases

/-! # Splitting text

The two overloads of `split` of `src/hash_util.cc`.
-/
namespace Flz.Split
open Lib

/-- The text in front of the first delimiter. -/
def piece (isDelim : UInt8 → Bool) (rest : List UInt8) : List UInt8 := rest.takeWhile (!isDelim ·)

/-- The text behind it. -/
def behind (isDelim : UInt8 → Bool) (rest : List UInt8) : List UInt8 := (rest.dropWhile (!isDelim ·)).tail

section
variable {isDelim : UInt8 → Bool} {rest : List UInt8}

theorem exists_delim (h : rest.any isDelim = true) :
    ∃ d, isDelim d = true ∧ rest = piece isDelim rest ++ d :: behind isDelim rest := by
  induction rest with
  | nil => cases h
  | cons c rest ih =>
    by_cases hc : isDelim c = true
    · exact ⟨c, hc, by simp [piece, behind, hc]⟩
    · rw [List.any_cons, Bool.eq_false_iff.mpr hc, Bool.false_or] at h
      obtain ⟨d, hd, hrest⟩ := ih h
      refine ⟨d, hd, ?_⟩
      simpa [piece, behind, hc] using hrest

theorem piece_free : ∀ c ∈ piece isDelim rest, isDelim c = false := by
  intro c hc
  simpa using List.mem_takeWhile_imp hc

theorem behind_length_lt (h : rest.any isDelim = true) : (behind isDelim rest).length < rest.length := by
  obtain ⟨d, -, hrest⟩ := exists_delim h
  have hlength := congrArg List.length hrest
  simp only [List.length_append, List.length_cons] at hlength
  omega

theorem countP_behind (h : rest.any isDelim = true) :
    rest.countP isDelim = (behind isDelim rest).countP isDelim + 1 := by
  obtain ⟨d, hd, hrest⟩ := exists_delim h
  have hpiece : (piece isDelim rest).countP isDelim = 0 :=
    List.countP_eq_zero.mpr fun c hc => by simp [piece_free c hc]
  conv_lhs => rw [hrest]
  rw [List.countP_append, hpiece, List.countP_cons_of_pos hd, Nat.zero_add]

end

/-- The loop that both have; `rest` is the text from `last` on, and `isDelim` tells what is looked for. -/
def loop (isDelim : UInt8 → Bool) (result : List (List UInt8)) (max : UInt64) (rest : List UInt8) : List (List UInt8) :=
  if h : rest.any isDelim = true then
    -- `if(--max == 1)`
    if max - 1 = 1 then result ++ [piece isDelim rest] ++ [behind isDelim rest]
    else loop isDelim (result ++ [piece isDelim rest]) (max - 1) (behind isDelim rest)
  else result ++ [rest]
termination_by rest.length
decreasing_by exact behind_length_lt h

/-- `split(const std::string&, char, size_t)`. -/
def split (str : List UInt8) (delim : UInt8) (max : UInt64) : List (List UInt8) :=
  if str = [] then [] else loop (· == delim) [] max str

/-- `split(const std::string&, const char*, size_t)`. -/
def splitAny (str delims : List UInt8) (max : UInt64) : List (List UInt8) :=
  if str = [] then [] else loop (· ∈ c_str delims) [] max str

/-- The pieces with one delimiter between each two. -/
inductive Joined (isDelim : UInt8 → Bool) : List (List UInt8) → List UInt8 → Prop
  | last (x : List UInt8) : Joined isDelim [x] x
  | cons (x : List UInt8) {d : UInt8} {xs : List (List UInt8)} {s : List UInt8} (hd : isDelim d = true)
    (rest : Joined isDelim xs s) : Joined isDelim (x :: xs) (x ++ d :: s)

/-- At most `max` pieces, which make up the text, without delimiters but in the last one if there are too many. -/
structure Splits (isDelim : UInt8 → Bool) (max : UInt64) (str : List UInt8) (pieces : List (List UInt8)) : Prop where
  pos : 1 ≤ pieces.length
  bounded : pieces.length ≤ max.toNat
  joined : Joined isDelim pieces str
  free : ∀ x ∈ pieces.dropLast, ∀ c ∈ x, isDelim c = false
  complete : str.countP isDelim < max.toNat → ∀ x ∈ pieces, ∀ c ∈ x, isDelim c = false

section
variable {isDelim : UInt8 → Bool} {result : List (List UInt8)} {max : UInt64} {rest str : List UInt8}

theorem loop_append (isDelim : UInt8 → Bool) (result : List (List UInt8)) (max : UInt64) (rest : List UInt8) :
    loop isDelim result max rest = result ++ loop isDelim [] max rest := by
  induction hlength : rest.length using Nat.strong_induction_on generalizing result max rest with
  | _ l ih =>
    by_cases h : rest.any isDelim = true
    · have hlt := behind_length_lt h
      rw [loop, loop.eq_def isDelim [] max rest, dif_pos h, dif_pos h]
      split
      · simp
      · rw [ih _ (hlength ▸ hlt) (result ++ _) _ _ rfl, ih _ (hlength ▸ hlt) ([] ++ _) _ _ rfl]
        simp
    · rw [loop, loop.eq_def isDelim [] max rest, dif_neg h, dif_neg h]
      simp

theorem loop_of_none (h : ¬ rest.any isDelim = true) : loop isDelim [] max rest = [rest] := by
  rw [loop, dif_neg h, List.nil_append]

theorem loop_of_delim (h : rest.any isDelim = true) : loop isDelim [] max rest =
    piece isDelim rest ::
      if max - 1 = 1 then [behind isDelim rest] else loop isDelim [] (max - 1) (behind isDelim rest) := by
  rw [loop, dif_pos h]
  split
  · rfl
  · rw [loop_append]
    rfl

theorem loop_pos : 1 ≤ (loop isDelim [] max rest).length := by
  by_cases h : rest.any isDelim = true
  · rw [loop_of_delim h, List.length_cons]
    omega
  · rw [loop_of_none h]
    rfl

theorem free_of_countP (h : rest.countP isDelim = 0) : ∀ c ∈ rest, isDelim c = false := fun c hc =>
  Bool.eq_false_iff.mpr (List.countP_eq_zero.mp h c hc)

/-- One piece, because there is no delimiter. -/
theorem splits_single (h : ¬ rest.any isDelim = true) (hmax : 1 ≤ max.toNat) : Splits isDelim max rest [rest] where
  pos := le_rfl
  bounded := hmax
  joined := .last rest
  free x hx := absurd hx List.not_mem_nil
  complete _ := by
    simpa using h

/-- A piece in front of the others. -/
theorem Splits.cons {pieces : List (List UInt8)} (h : rest.any isDelim = true) (hmax : (max - 1).toNat + 1 = max.toNat)
    (hs : Splits isDelim (max - 1) (behind isDelim rest) pieces) :
    Splits isDelim max rest (piece isDelim rest :: pieces) where
  pos := by simp
  bounded := by
    have hbounded := hs.bounded
    rw [List.length_cons]
    omega
  joined := by
    obtain ⟨d, hd, hrest⟩ := exists_delim h
    have hjoined := Joined.cons (piece isDelim rest) hd hs.joined
    rwa [← hrest] at hjoined
  free := by
    have hne : pieces ≠ [] := List.ne_nil_of_length_pos hs.pos
    rw [List.dropLast_cons_of_ne_nil hne]
    exact List.forall_mem_cons.mpr ⟨piece_free, hs.free⟩
  complete hcount := by
    rw [countP_behind h] at hcount
    exact List.forall_mem_cons.mpr ⟨piece_free, hs.complete (by omega)⟩

/-- The rest is the last piece. -/
theorem splits_last (hmax : max - 1 = 1) : Splits isDelim (max - 1) rest [rest] where
  pos := le_rfl
  bounded := by
    rw [hmax]
    rfl
  joined := .last rest
  free x hx := absurd hx List.not_mem_nil
  complete hcount := by
    have hzero : rest.countP isDelim = 0 := by
      rw [hmax] at hcount
      exact Nat.lt_one_iff.mp hcount
    exact List.forall_mem_singleton.mpr (free_of_countP hzero)

theorem toNat_pred (h : 1 ≤ max.toNat) : (max - 1).toNat + 1 = max.toNat := by
  have hle : 1 ≤ max := UInt64.le_iff_toNat_le.mpr h
  rw [UInt64.toNat_sub_of_le _ _ hle]
  exact Nat.sub_add_cancel h

theorem loop_splits (hmax : 2 ≤ max.toNat) : Splits isDelim max rest (loop isDelim [] max rest) := by
  induction hlength : rest.length using Nat.strong_induction_on generalizing max rest with
  | _ l ih =>
    by_cases h : rest.any isDelim = true
    · have hpred : (max - 1).toNat + 1 = max.toNat := toNat_pred (by omega)
      rw [loop_of_delim h]
      refine Splits.cons h hpred ?_
      split
      · rename_i hone
        exact splits_last hone
      · rename_i hone
        have htwo : (max - 1).toNat ≠ 1 := fun heq => hone (UInt64.toNat_inj.mp heq)
        exact ih _ (hlength ▸ behind_length_lt h) (by omega) rfl
    · rw [loop_of_none h]
      exact splits_single h (by omega)

/-- One piece is all that is allowed, and there are more. -/
theorem loop_splits_iff (hmax : 1 ≤ max.toNat) :
    Splits isDelim max rest (loop isDelim [] max rest) ↔ max ≠ 1 ∨ ∀ c ∈ rest, isDelim c = false := by
  by_cases hone : max = 1
  · subst hone
    by_cases h : rest.any isDelim = true
    · refine iff_of_false (fun hs => ?_) ?_
      · have hbounded := hs.bounded
        have hrest : 1 ≤ (loop isDelim [] (1 - 1) (behind isDelim rest)).length := loop_pos
        rw [loop_of_delim h, if_neg (by decide), List.length_cons] at hbounded
        have hvalue : (1 : UInt64).toNat = 1 := rfl
        omega
      · rintro (hne | hfree)
        · exact hne rfl
        · obtain ⟨c, hc, hd⟩ := List.any_eq_true.mp h
          exact absurd hd (Bool.eq_false_iff.mp (hfree c hc))
    · rw [loop_of_none h]
      exact iff_of_true (splits_single h le_rfl) (.inr (by simpa using h))
  · have htwo : max.toNat ≠ 1 := fun heq => hone (UInt64.toNat_inj.mp heq)
    exact iff_of_true (loop_splits (by omega)) (.inl hone)

/-- One delimiter that is the same everywhere. -/
theorem Joined.intercalate {delim : UInt8} {pieces : List (List UInt8)} (h : Joined (· == delim) pieces str) :
    [delim].intercalate pieces = str := by
  induction h with
  | last x => simp [List.intercalate]
  | @cons x d xs s hd rest ih =>
    obtain rfl := eq_of_beq hd
    have hne : xs ≠ [] := by
      rintro rfl
      cases rest
    rw [List.intercalate_cons_of_ne_nil hne, ih]
    simp

end

/-- The law of both overloads holds for exactly these limits and texts. -/
theorem splits_iff {str : List UInt8} (delim : UInt8) (delims : List UInt8) {max : UInt64} (hstr : str ≠ [])
    (hmax : 1 ≤ max.toNat) :
    (Splits (· == delim) max str (split str delim max) ∧ [delim].intercalate (split str delim max) = str ∧
      Splits (· ∈ c_str delims) max str (splitAny str delims max)) ↔
    max ≠ 1 ∨ delim ∉ str ∧ ∀ c ∈ str, c ∉ c_str delims := by
  have hone : Splits (· == delim) max str (split str delim max) ↔ max ≠ 1 ∨ delim ∉ str := by
    rw [split, if_neg hstr, loop_splits_iff hmax]
    refine or_congr_right ⟨fun h hmem => ?_, fun h c hc => beq_eq_false_iff_ne.mpr (ne_of_mem_of_not_mem hc h)⟩
    simpa using h delim hmem
  have hany : Splits (· ∈ c_str delims) max str (splitAny str delims max) ↔
      max ≠ 1 ∨ ∀ c ∈ str, c ∉ c_str delims := by
    rw [splitAny, if_neg hstr, loop_splits_iff hmax]
    simp
  constructor
  · rintro ⟨hsplits, -, hsplits'⟩
    rw [or_and_left]
    exact ⟨hone.mp hsplits, hany.mp hsplits'⟩
  · intro h
    rw [or_and_left] at h
    have hsplits := hone.mpr h.1
    exact ⟨hsplits, hsplits.joined.intercalate, hany.mpr h.2⟩

theorem splits_iff_two : Splits (· == 44) 2 [97, 44, 98] (split [97, 44, 98] 44 2) ∧
    [44].intercalate (split [97, 44, 98] 44 2) = [97, 44, 98] ∧
    Splits (· ∈ c_str [44, 59]) 2 [97, 44, 98] (splitAny [97, 44, 98] [44, 59] 2) :=
  (splits_iff 44 [44, 59] (List.cons_ne_nil _ _) (by decide)).mpr (.inl (by decide))

/-- `split("a,b", ',', 1)` gives two pieces. -/
theorem limit_of_one_exceeded : ¬ ∀ str delim delims (max : UInt64), str ≠ [] → 1 ≤ max.toNat →
    Splits (· == delim) max str (split str delim max) ∧ [delim].intercalate (split str delim max) = str ∧
      Splits (· ∈ c_str delims) max str (splitAny str delims max) := by
  intro h
  have hone : (1 : UInt64) ≠ 1 ∨ (44 : UInt8) ∉ [97, 44, 98] ∧ ∀ c ∈ [97, 44, 98], c ∉ c_str [] :=
    (splits_iff 44 [] (List.cons_ne_nil _ _) le_rfl).mp (h [97, 44, 98] 44 [] 1 (List.cons_ne_nil _ _) le_rfl)
  exact absurd hone (by decide)

end Flz.Split
