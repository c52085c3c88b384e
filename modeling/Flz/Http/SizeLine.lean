import Flz.Http.Connection

/-! # Size lines

The line at the head of a chunk: hexadecimal digits and a line end. It is parsed as a whole, or
what was read of it is lost; only leading zeros make no difference.
-/
namespace Flz.Http
open Lib

/-! ## Digits -/

theorem xdigit_iff (b : UInt8) : ByteClass.xdigit.holds b = (digitValue 16 b).isSome := by
  have h := forall_byte (p := fun b => ByteClass.xdigit.holds b == (digitValue 16 b).isSome)
    (by decide +kernel) b
  exact beq_iff_eq.mp h

theorem xdigit_first {b : UInt8} (hb : ByteClass.xdigit.holds b = true) :
    isspace b = false ∧ b ≠ 45 ∧ b ≠ 43 ∧ b ≠ 120 ∧ b ≠ 88 := by
  have h := forall_byte (p := fun b => !ByteClass.xdigit.holds b ||
    (!isspace b && b != 45 && b != 43 && b != 120 && b != 88)) (by decide +kernel) b
  rw [hb] at h
  simpa [and_assoc] using h

section
variable {base n : ℕ} {b : UInt8} {xs ys digits rest : List UInt8}

theorem readDigits_append (h : ∀ b ∈ xs, (digitValue base b).isSome = true) (ys : List UInt8) :
    readDigits base n (xs ++ ys) = readDigits base (readDigits base n xs) ys := by
  induction xs generalizing n with
  | nil => rfl
  | cons b xs ih =>
    obtain ⟨hb, hxs⟩ := List.forall_mem_cons.mp h
    obtain ⟨d, hd⟩ := Option.isSome_iff_exists.mp hb
    simp only [List.cons_append, readDigits, hd]
    exact ih hxs

theorem readDigits_end (h : digitValue base b = none) (ys : List UInt8) :
    readDigits base n (b :: ys) = n := by
  rw [readDigits, h]

/-- The value of a text of hexadecimal digits. -/
def hexValue (digits : List UInt8) : ℕ := readDigits 16 0 digits

theorem skipPrefix_digits (h : ∀ b ∈ digits, ByteClass.xdigit.holds b = true) (rest : List UInt8) :
    skipPrefix 16 (digits ++ 13 :: rest) = digits ++ 13 :: rest := by
  unfold skipPrefix
  split
  · rename_i x d tail heq
    have hx : ¬ (x = 120 ∨ x = 88) := by
      cases digits with
      | nil => cases heq
      | cons a digits =>
        cases digits with
        | nil =>
          cases heq
          decide
        | cons c digits =>
          obtain rfl : c = x := by
            injection heq with _ heq
            injection heq
          have hc := xdigit_first (h c (List.mem_cons_of_mem _ List.mem_cons_self))
          exact not_or.mpr hc.2.2.2
    rw [if_neg (fun hp => hx hp.2.1)]
  · rfl

theorem strtol_digits (hne : digits ≠ []) (h : ∀ b ∈ digits, ByteClass.xdigit.holds b = true)
    (rest : List UInt8) :
    strtol 16 (digits ++ 13 :: rest) = min (hexValue digits : ℤ) (2 ^ 63 - 1) := by
  have hskip := skipPrefix_digits h rest
  have hvalue : readDigits 16 0 (digits ++ 13 :: rest) = hexValue digits := by
    rw [readDigits_append (fun b hb => xdigit_iff b ▸ h b hb), readDigits_end (by decide)]
    rfl
  obtain ⟨d, ds, rfl⟩ := List.exists_cons_of_ne_nil hne
  obtain ⟨hspace, hminus, hplus, -, -⟩ := xdigit_first (h d List.mem_cons_self)
  have hdrop : (d :: ds ++ 13 :: rest).dropWhile isspace = d :: (ds ++ 13 :: rest) := by
    rw [List.cons_append, List.dropWhile_cons_of_neg (by rw [hspace]; decide)]
  rw [strtol, hdrop]
  split
  · rename_i heq
    cases heq
    exact absurd rfl hminus
  · rename_i heq
    cases heq
    exact absurd rfl hplus
  · rw [← List.cons_append, hskip, hvalue]

end

/-! ## A line that is parsed at once -/

set_option maxRecDepth 20000 in
theorem sizeArcs : responseScanner.onClass 1 ByteClass.xdigit ([.mark], 2) = true ∧
    responseScanner.onClass 2 ByteClass.xdigit ([], 2) = true := by
  constructor <;> decide +kernel

section
variable {digits rest buffer : List UInt8} {parser : HttpResponseParser}

/-- Digits are read while nothing is known of them but where they begin. -/
theorem digits_read (hne : digits ≠ []) (h : ∀ b ∈ digits, ByteClass.xdigit.holds b = true) :
    responseScanner.Reads (HttpResponseParser.act buffer) 0 1 parser.init.reset digits 2 parser.init := by
  obtain ⟨d, ds, rfl⟩ := List.exists_cons_of_ne_nil hne
  obtain ⟨hd, hds⟩ := List.forall_mem_cons.mp h
  exact Scanner.Reads.cons (Scanner.arc_of_onClass sizeArcs.1 hd) rfl rfl
    (Scanner.Reads.loop fun b hb => Scanner.arc_of_onClass sizeArcs.2 (hds b hb))

/-- Digits without the end of the line are consumed and forgotten. -/
theorem execute_digits (hne : digits ≠ []) (h : ∀ b ∈ digits, ByteClass.xdigit.holds b = true) :
    parser.execute digits true = .ok ([], { parser.init with cs := 2 }) := by
  have hlen := List.length_pos_iff.mpr hne
  have hrun := @digits_read digits digits parser hne h
  rw [Scanner.Reads, Nat.zero_add] at hrun
  rw [HttpResponseParser.execute_chunk,
    HttpResponseParser.execute_of_run hrun (Nat.le_refl _) (Nat.zero_le _)
      (HttpResponseParser.Upto.checked ⟨Nat.zero_le _, Nat.zero_le _, Nat.zero_le _⟩ hlen), List.drop_length]
  rfl

/-- What `strtol` makes of a size line, as an `int`. -/
def sizeOf (digits : List UInt8) : ℤ := toInt (min (hexValue digits : ℤ) (2 ^ 63 - 1))

theorem sizeOf_eq (h : hexValue digits ≤ intMax) : sizeOf digits = hexValue digits := by
  have hmin : min (hexValue digits : ℤ) (2 ^ 63 - 1) = hexValue digits := by
    unfold intMax at h
    omega
  rw [sizeOf, hmin, toInt_eq h]

/-- The parser behind a size line. -/
def HttpResponseParser.afterSize (s : HttpResponseParser) (digits : List UInt8) : HttpResponseParser :=
  { s.init with
    cs := 120, bodyStart := digits.length + 2, chunked := true, contentLen := sizeOf digits
    chunksDone := sizeOf digits ≤ 0 }

theorem run_sizeLine (hne : digits ≠ []) (h : ∀ b ∈ digits, ByteClass.xdigit.holds b = true) :
    responseScanner.run (HttpResponseParser.act (digits ++ 13 :: 10 :: rest)) 0 1
      (digits ++ 13 :: 10 :: rest) parser.init.reset =
      .ok (digits.length + 2, .left 120, { parser.afterSize digits with cs := 1 }) := by
  have hcr : responseScanner.arc 2 13 = some ([.chunkSize], 3) := by decide
  have hlf : responseScanner.arc 3 10 = some ([.done], 120) := by decide
  have hread := @digits_read digits (digits ++ 13 :: 10 :: rest) parser hne h
  have hsize : HttpResponseParser.act (digits ++ 13 :: 10 :: rest) (0 + digits.length) .chunkSize parser.init =
      .ok { parser.init with
        chunked := true, contentLen := sizeOf digits, chunksDone := sizeOf digits ≤ 0 } := by
    have hvalue := strtol_digits hne h (10 :: rest)
    change Except.ok (parser.init.onChunkSize ((digits ++ 13 :: 10 :: rest).drop 0)) = _
    rw [List.drop_zero, HttpResponseParser.onChunkSize, hvalue]
    rfl
  rw [hread.run_append, Scanner.run_cons hcr rfl (by rw [List.foldlM_cons, hsize]; rfl), Scanner.run, hlf]
  simp only [List.foldlM_cons, List.foldlM_nil, bind, Except.bind, pure, Except.pure,
    HttpResponseParser.act, Nat.zero_add]
  rw [if_pos (show [HttpClientParserAction.done].any responseScanner.leaves = true from rfl)]
  rfl

/-- A line that is parsed as a whole gives its size. -/
theorem execute_sizeLine (hne : digits ≠ []) (h : ∀ b ∈ digits, ByteClass.xdigit.holds b = true)
    (rest : List UInt8) (parser : HttpResponseParser) :
    parser.execute (digits ++ 13 :: 10 :: rest) true = .ok (rest, parser.afterSize digits) := by
  have hlen : (digits ++ 13 :: 10 :: rest).length = digits.length + 2 + rest.length := by
    rw [List.length_append, List.length_cons, List.length_cons]
    omega
  have hdrop : (digits ++ 13 :: 10 :: rest).drop (digits.length + 2) = rest := by
    rw [← List.drop_drop, List.drop_left]
    rfl
  have hupto : ({ parser.afterSize digits with cs := 1 } : HttpResponseParser).Upto ((digits ++ 13 :: 10 :: rest).length - 1) :=
    ⟨Nat.zero_le _, Nat.zero_le _, Nat.zero_le _⟩
  rw [HttpResponseParser.execute_chunk,
    HttpResponseParser.execute_of_run (run_sizeLine hne h) (by omega)
      (show digits.length + 2 ≤ _ by omega) (hupto.checked (by omega)), hdrop]
  rfl

/-- A line in the buffer is parsed without a read. -/
theorem chunkHead_sizeLine {n : ℕ} (hmax : n ≤ intMax) (hne : digits ≠ [])
    (h : ∀ b ∈ digits, ByteClass.xdigit.holds b = true) (hrest : rest.length < n)
    (herr : parser.error = 0) (s : Stream) :
    chunkHead n (digits ++ 13 :: 10 :: rest) parser s =
      .ok (some (rest, parser.afterSize digits), s) := by
  have hpos : ¬ (digits ++ 13 :: 10 :: rest).length = 0 := by
    rw [List.length_append, List.length_cons]
    omega
  have hok : (parser.afterSize digits).hasError = false :=
    HttpResponseParser.hasError_false herr (show 120 ≠ 0 by decide)
  have hfinished : (parser.afterSize digits).isFinished ≠ 0 := Int.one_ne_zero
  have hroom : ¬ (rest.length : ℤ) = toInt n := by
    rw [toInt_eq hmax]
    omega
  rw [chunkHead, if_neg hpos, execute_sizeLine hne h]
  dsimp only
  rw [if_neg (Bool.eq_false_iff.mp hok), if_neg hroom, if_pos hfinished]

end
end Flz.Http
