import Mathlib.Data.List.Basic

/-! # Lines of a text

A line ends with a line feed; a carriage return before it belongs to the end. The lines of texts
that end with a line feed are put together, and a head, the lines up to the first empty one, ends
where the lines of its parts say.
-/
namespace Flz.Lib.Lines

/-- A line without the carriage return at its end. -/
def chomp (line : List UInt8) : List UInt8 :=
  if line.getLast? = some 13 then line.dropLast else line

/-- The lines of a text that end in it; `line` was read of the first one. -/
def lines : List UInt8 → List UInt8 → List (List UInt8)
  | _, [] => []
  | line, b :: text => if b = 10 then chomp line :: lines [] text else lines (line ++ [b]) text

/-- The lines up to the first empty one, and the text behind that. -/
def splitHead : List UInt8 → List UInt8 → Option (List (List UInt8) × List UInt8)
  | _, [] => none
  | line, b :: text =>
    if b = 10 then
      if chomp line = [] then some ([], text)
      else (splitHead [] text).map (fun o => (chomp line :: o.1, o.2))
    else splitHead (line ++ [b]) text

variable {line x y : List UInt8}

theorem chomp_return (line : List UInt8) : chomp (line ++ [13]) = line := by
  simp [chomp]

theorem lines_append (line x y : List UInt8) :
    lines line (x ++ 10 :: y) = lines line (x ++ [10]) ++ lines [] y := by
  induction x generalizing line with
  | nil => simp [lines]
  | cons b x ih =>
    by_cases hb : b = 10
    · simp [lines, hb, ih]
    · simp [lines, hb, ih]

theorem lines_ne (line x : List UInt8) : lines line (x ++ [10]) ≠ [] := by
  induction x generalizing line with
  | nil => simp [lines]
  | cons b x ih =>
    by_cases hb : b = 10
    · simp [lines, hb]
    · simpa [lines, hb] using ih (line ++ [b])

/-- A line of which no part ends before it. -/
theorem lines_line (h : (10 : UInt8) ∉ x) (line : List UInt8) :
    lines line (x ++ [13, 10]) = [line ++ x] := by
  induction x generalizing line with
  | nil => simp [lines, chomp_return]
  | cons b x ih =>
    obtain ⟨hb, hx⟩ := not_or.mp (fun hmem => h (List.mem_cons.mpr hmem))
    simp [lines, Ne.symm hb, ih hx]

/-- A text without an empty line belongs to the head. -/
theorem splitHead_append (h : ∀ l ∈ lines line (x ++ [10]), l ≠ []) (y : List UInt8) :
    splitHead line (x ++ 10 :: y) =
      (splitHead [] y).map (fun o => (lines line (x ++ [10]) ++ o.1, o.2)) := by
  induction x generalizing line with
  | nil =>
    have hline : chomp line ≠ [] := h _ (by simp [lines])
    simp [splitHead, lines, hline]
  | cons b x ih =>
    by_cases hb : b = 10
    · have hline : chomp line ≠ [] := h _ (by simp [lines, hb])
      have hrest : ∀ l ∈ lines [] (x ++ [10]), l ≠ [] := fun l hl => h l (by simp [lines, hb, hl])
      simp [splitHead, lines, hb, hline, ih hrest, Function.comp_def]
    · have hrest : ∀ l ∈ lines (line ++ [b]) (x ++ [10]), l ≠ [] := by simpa [lines, hb] using h
      simp [splitHead, lines, hb, ih hrest]

/-- A head ends with the first empty line, whatever follows. -/
theorem splitHead_early (h : [] ∈ lines line (x ++ [10])) (y : List UInt8) :
    ∃ ls rest, splitHead line (x ++ 10 :: y) = some (ls, rest ++ y) := by
  induction x generalizing line with
  | nil =>
    have hline : chomp line = [] := (List.mem_singleton.mp h).symm
    exact ⟨[], [], by simp [splitHead, hline]⟩
  | cons b x ih =>
    by_cases hb : b = 10
    · by_cases hline : chomp line = []
      · exact ⟨[], x ++ [10], by simp [splitHead, hb, hline]⟩
      · have hrest : [] ∈ lines [] (x ++ [10]) := by simpa [lines, hb, Ne.symm hline] using h
        obtain ⟨ls, rest, hsplit⟩ := ih hrest
        exact ⟨chomp line :: ls, rest, by simp [splitHead, hb, hline, hsplit]⟩
    · have hrest : [] ∈ lines (line ++ [b]) (x ++ [10]) := by simpa [lines, hb] using h
      obtain ⟨ls, rest, hsplit⟩ := ih hrest
      exact ⟨ls, rest, by simp [splitHead, hb, hsplit]⟩

/-- The empty line that ends a head. -/
theorem splitHead_empty (y : List UInt8) : splitHead [] (13 :: 10 :: y) = some ([], y) := by
  simp [splitHead, chomp]

/-- The head of a text whose lines are known is what stands before an empty line exactly when
none of them is empty. -/
theorem splitHead_iff {ls : List (List UInt8)} {body : List UInt8} :
    splitHead [] (x ++ 10 :: 13 :: 10 :: body) = some (ls, body) ↔
      (∀ l ∈ lines [] (x ++ [10]), l ≠ []) ∧ ls = lines [] (x ++ [10]) := by
  by_cases h : ∀ l ∈ lines [] (x ++ [10]), l ≠ []
  · rw [splitHead_append h, splitHead_empty]
    simp only [Option.map_some, List.append_nil, Option.some.injEq, Prod.mk.injEq, and_true]
    exact ⟨fun heq => ⟨h, heq.symm⟩, fun hall => hall.2.symm⟩
  · have hempty : [] ∈ lines [] (x ++ [10]) := by
      by_contra hno
      exact h fun l hl heq => hno (heq ▸ hl)
    obtain ⟨ls', rest, hsplit⟩ := splitHead_early hempty (13 :: 10 :: body)
    rw [hsplit]
    refine iff_of_false (fun heq => ?_) fun hall => h hall.1
    have hlen := congrArg List.length (Prod.mk.inj (Option.some.inj heq)).2
    rw [List.length_append, List.length_cons, List.length_cons] at hlen
    omega

end Flz.Lib.Lines
