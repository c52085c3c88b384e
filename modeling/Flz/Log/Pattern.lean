import Flz.Http.Message
import Flz.Lib.Segments
import Mathlib.Data.List.Flatten

/-! # Patterns of the log

`LogFormatter::init` and `LogFormatter::format` of `src/log.cc`.
-/
namespace Flz
open Http

/-- The classes of the items, but the one for texts. -/
inductive FormatClass
  | MessageFormatItem
  | LevelFormatItem
  | ElapseFormatItem
  | NameFormatItem
  | ThreadIdFormatItem
  | NewLineFormatItem
  | DateTimeFormatItem
  | FilenameFormatItem
  | LineFormatItem
  | TabFormatItem
  | FiberIdFormatItem
  | ThreadNameFormatItem
  deriving DecidableEq, Repr

/-- An item with the argument of its constructor. -/
inductive FormatItem
  | StringFormatItem (str : List UInt8)
  | new (C : FormatClass) (fmt : List UInt8)
  deriving DecidableEq, Repr

structure LogFormatter where
  m_pattern : List UInt8
  m_items : List FormatItem
  m_error : Bool
  deriving DecidableEq, Repr

/-- `isalpha` in the C locale. -/
def isalpha (c : UInt8) : Bool := (65 ≤ c && c ≤ 90) || (97 ≤ c && c ≤ 122)

namespace LogFormatter

/-- Where the loop over a directive stops; `rest` begins at `m_pattern[n]`. -/
structure Directive where
  str : List UInt8
  fmt : List UInt8
  fmt_status : ℕ
  rest : List UInt8
  deriving DecidableEq, Repr

/-- The loop with `fmt_status` 1; `fmt` is what lies behind `fmt_begin`. -/
def readFmt (str fmt : List UInt8) : List UInt8 → Directive
  | [] => ⟨str, [], 1, []⟩
  | c :: s => if c = 125 then ⟨str, fmt, 0, s⟩ else readFmt str (fmt ++ [c]) s

/-- The loop with `fmt_status` 0; `str` is `m_pattern.substr(i + 1, n - i - 1)`. -/
def readStr (str : List UInt8) : List UInt8 → Directive
  | [] => ⟨str, [], 0, []⟩
  | c :: s =>
    if !isalpha c && c ≠ 123 && c ≠ 125 then ⟨str, [], 0, c :: s⟩
    else if c = 123 then readFmt str [] s
    else readStr (str ++ [c]) s

theorem length_readFmt (str fmt s : List UInt8) : (readFmt str fmt s).rest.length ≤ s.length := by
  induction s generalizing fmt with
  | nil => exact le_rfl
  | cons c s ih =>
    rw [readFmt]
    split
    · exact Nat.le_succ _
    · exact (ih _).trans (Nat.le_succ _)

theorem length_readStr (str s : List UInt8) : (readStr str s).rest.length ≤ s.length := by
  induction s generalizing str with
  | nil => exact le_rfl
  | cons c s ih =>
    rw [readStr]
    split
    · exact le_rfl
    · split
      · exact (length_readFmt _ _ _).trans (Nat.le_succ _)
      · exact (ih _).trans (Nat.le_succ _)

/-- `nstr` goes to `vec` unless it is empty. -/
def flush (nstr : List UInt8) : List (List UInt8 × List UInt8 × ℕ) := if nstr = [] then [] else [(nstr, [], 0)]

/-- The loop of `init` from `m_pattern[i]` on: what it puts into `vec`, and whether it sets `m_error`. -/
def scan (nstr : List UInt8) : List UInt8 → List (List UInt8 × List UInt8 × ℕ) × Bool
  | [] => (flush nstr, false)
  | c :: s =>
    if c ≠ 37 then scan (nstr ++ [c]) s
    else if s.head? = some 37 then scan (nstr ++ [37]) s
    else
      let d := readStr [] s
      if d.fmt_status = 0 then
        let next := scan [] d.rest
        (flush nstr ++ (d.str, d.fmt, 1) :: next.1, next.2)
      else
        let next := scan nstr s
        ((ascii "<<pattern_error>>", d.fmt, 0) :: next.1, true)
termination_by s => s.length
decreasing_by
  all_goals
    have hlength := length_readStr [] s
    simp only [List.length_cons]
    omega

def s_format_items : List (List UInt8 × FormatClass) :=
  [(ascii "m", .MessageFormatItem), (ascii "p", .LevelFormatItem), (ascii "r", .ElapseFormatItem),
    (ascii "c", .NameFormatItem), (ascii "t", .ThreadIdFormatItem), (ascii "n", .NewLineFormatItem),
    (ascii "d", .DateTimeFormatItem), (ascii "f", .FilenameFormatItem), (ascii "l", .LineFormatItem),
    (ascii "T", .TabFormatItem), (ascii "F", .FiberIdFormatItem), (ascii "N", .ThreadNameFormatItem)]

/-- The item for an entry of `vec`. -/
def item : List UInt8 × List UInt8 × ℕ → FormatItem
  | (str, _, 0) => .StringFormatItem str
  | (str, fmt, _) =>
    match s_format_items.lookup str with
    | none => .StringFormatItem (ascii "<<error_format %" ++ str)
    | some C => .new C fmt

/-- `LogFormatter(pattern)`, which calls `init`. -/
def new (pattern : List UInt8) : LogFormatter where
  m_pattern := pattern
  m_items := (scan [] pattern).1.map item
  m_error := (scan [] pattern).2

/-- `format(..)`, with what the items other than texts write. -/
def format (f : LogFormatter) (write : FormatClass → List UInt8 → List UInt8) : List UInt8 :=
  f.m_items.flatMap fun
    | .StringFormatItem str => str
    | .new C fmt => write C fmt

end LogFormatter

/-! ## Pieces -/

/-- The letter of a directive. -/
def FormatClass.letter : FormatClass → UInt8
  | .MessageFormatItem => 109
  | .LevelFormatItem => 112
  | .ElapseFormatItem => 114
  | .NameFormatItem => 99
  | .ThreadIdFormatItem => 116
  | .NewLineFormatItem => 110
  | .DateTimeFormatItem => 100
  | .FilenameFormatItem => 102
  | .LineFormatItem => 108
  | .TabFormatItem => 84
  | .FiberIdFormatItem => 70
  | .ThreadNameFormatItem => 78

/-- A part of a pattern. -/
inductive Piece
  | literal (text : List UInt8)
  | escape
  | directive (C : FormatClass) (fmt : Option (List UInt8))
  deriving DecidableEq

/-- A character of the output, or an item. -/
inductive Token
  | char (c : UInt8)
  | item (C : FormatClass) (fmt : List UInt8)
  deriving DecidableEq

namespace Piece

def text : Piece → List UInt8
  | literal text => text
  | escape => ascii "%%"
  | directive C none => [37, C.letter]
  | directive C (some fmt) => [37, C.letter, 123] ++ fmt ++ [125]

/-- What a piece stands for. -/
def tokens : Piece → List Token
  | literal text => text.map .char
  | escape => [.char 37]
  | directive C fmt => [.item C (fmt.getD [])]

/-- A piece, with the text behind it. -/
def Valid (next : List UInt8) : Piece → Prop
  | literal text => 37 ∉ text
  | escape => True
  | directive _ none => ∀ c ∈ next.head?, isalpha c = false ∧ c ≠ 123 ∧ c ≠ 125
  | directive _ (some fmt) => 125 ∉ fmt

/-- The pattern made of the pieces. -/
def pattern (ps : List Piece) : List UInt8 := ps.flatMap text

def WellFormed : List Piece → Prop
  | [] => True
  | p :: ps => p.Valid (pattern ps) ∧ WellFormed ps

instance (next : List UInt8) : DecidablePred (Valid next)
  | literal text => inferInstanceAs (Decidable (37 ∉ text))
  | escape => inferInstanceAs (Decidable True)
  | directive _ none => inferInstanceAs (Decidable (∀ c ∈ next.head?, _))
  | directive _ (some fmt) => inferInstanceAs (Decidable (125 ∉ fmt))

instance decidableWellFormed : DecidablePred WellFormed
  | [] => inferInstanceAs (Decidable True)
  | p :: ps =>
    have := decidableWellFormed ps
    inferInstanceAs (Decidable (p.Valid (pattern ps) ∧ WellFormed ps))

end Piece

def FormatItem.tokens : FormatItem → List Token
  | .StringFormatItem str => str.map .char
  | .new C fmt => [.item C fmt]

/-- What a token becomes in a message. -/
def Token.text (write : FormatClass → List UInt8 → List UInt8) : Token → List UInt8
  | .char c => [c]
  | .item C fmt => write C fmt

/-- The formatter has an item for every directive, and between them the other pieces. -/
structure Compiles (ps : List Piece) : Prop where
  error : (LogFormatter.new (Piece.pattern ps)).m_error = false
  items : (LogFormatter.new (Piece.pattern ps)).m_items.flatMap FormatItem.tokens = ps.flatMap Piece.tokens

/-! ## What a pattern is read as -/

namespace LogFormatter
open Piece
variable {c : UInt8} {nstr s t next : List UInt8} {p : Piece} {ps qs : List Piece} {j k : ℕ}

/-- The tokens of what is to come, if there is no error. -/
def out (nstr s : List UInt8) : Option (List Token) :=
  if (scan nstr s).2 then none else some ((scan nstr s).1.flatMap fun e => (item e).tokens)

theorem compiles_iff : Compiles ps ↔ out [] (pattern ps) = some (ps.flatMap tokens) := by
  have hitems : (new (pattern ps)).m_items.flatMap FormatItem.tokens =
      (scan [] (pattern ps)).1.flatMap fun e => (item e).tokens := List.flatMap_map ..
  rw [out]
  constructor
  · rintro ⟨herror, htokens⟩
    rw [if_neg (by simpa [new] using herror), ← hitems, htokens]
  · intro h
    split at h
    · cases h
    · rename_i herror
      exact ⟨by simpa [new] using herror, hitems.trans (Option.some.inj h)⟩

/-- A message is written piece by piece. -/
theorem format_eq (h : Compiles ps) (write : FormatClass → List UInt8 → List UInt8) :
    (new (pattern ps)).format write = (ps.flatMap tokens).flatMap (Token.text write) := by
  rw [← h.items, format, List.flatMap_assoc]
  congr 1
  funext i
  cases i with
  | StringFormatItem str => simp [FormatItem.tokens, Token.text, List.flatMap_map]
  | new C fmt => simp [FormatItem.tokens, Token.text]

theorem tokens_flush (nstr : List UInt8) :
    (flush nstr).flatMap (fun e => (item e).tokens) = nstr.map Token.char := by
  rw [flush]
  split
  · rename_i h
    rw [h]
    rfl
  · simp [item, FormatItem.tokens]

theorem scan_cons (h : c ≠ 37) (nstr s : List UInt8) : scan nstr (c :: s) = scan (nstr ++ [c]) s := by
  rw [scan, if_pos h]

theorem scan_escape (nstr s : List UInt8) : scan nstr (37 :: 37 :: s) = scan (nstr ++ [37]) (37 :: s) := by
  rw [scan, if_neg (by simp)]
  exact if_pos rfl

theorem out_nil (nstr : List UInt8) : out nstr [] = some (nstr.map .char) := by
  rw [out, scan]
  exact congrArg some (tokens_flush nstr)

theorem scan_directive (h : s.head? ≠ some 37) (nstr : List UInt8) : scan nstr (37 :: s) =
    if (readStr [] s).fmt_status = 0 then
      (flush nstr ++ ((readStr [] s).str, (readStr [] s).fmt, 1) :: (scan [] (readStr [] s).rest).1,
        (scan [] (readStr [] s).rest).2)
    else ((ascii "<<pattern_error>>", (readStr [] s).fmt, 0) :: (scan nstr s).1, true) := by
  rw [scan, if_neg (by simp), if_neg h]

/-- What is no escape is a directive. -/
theorem out_directive (h : s.head? ≠ some 37) (nstr : List UInt8) : out nstr (37 :: s) =
    if (readStr [] s).fmt_status = 0 then
      (out [] (readStr [] s).rest).map fun ts =>
        nstr.map .char ++ (item ((readStr [] s).str, (readStr [] s).fmt, 1)).tokens ++ ts
    else none := by
  rw [out, scan_directive h]
  by_cases hstatus : (readStr [] s).fmt_status = 0
  · simp only [if_pos hstatus, List.flatMap_append, List.flatMap_cons, tokens_flush, out]
    cases (scan [] (readStr [] s).rest).2 <;> simp
  · simp only [if_neg hstatus]
    rfl

/-- The text that has been read comes first. -/
theorem out_append_nstr (nstr s : List UInt8) : out nstr s = (out [] s).map (nstr.map Token.char ++ ·) := by
  induction hn : s.length using Nat.strong_induction_on generalizing nstr s with
  | _ n ih =>
    -- one more character of the text
    have hchar : ∀ (c : UInt8) (t : List UInt8), t.length < n →
        (∀ nstr, scan nstr s = scan (nstr ++ [c]) t) → out nstr s = (out [] s).map (nstr.map Token.char ++ ·) := by
      intro c t hlt hscan
      have hout : ∀ nstr, out nstr s = out (nstr ++ [c]) t := fun nstr => by rw [out, hscan, out]
      rw [hout nstr, hout [], ih t.length hlt _ t rfl, ih t.length hlt ([] ++ [c]) t rfl, Option.map_map]
      congr 1
      funext ts
      simp
    cases s with
    | nil => simp [out_nil]
    | cons c s =>
      by_cases hc : c = 37
      · subst hc
        by_cases hhead : s.head? = some 37
        · cases s with
          | nil => cases hhead
          | cons d t =>
            cases hhead
            exact hchar 37 (37 :: t) (by simp [← hn]) fun nstr => scan_escape nstr t
        · rw [out_directive hhead, out_directive hhead]
          split
          · simp [Function.comp_def]
          · rfl
      · exact hchar c s (by simp [← hn]) fun nstr => scan_cons hc nstr s

theorem out_cons (h : c ≠ 37) (s : List UInt8) : out [] (c :: s) = (out [] s).map (Token.char c :: ·) := by
  rw [out, scan_cons h]
  exact out_append_nstr [c] s

theorem out_escape (s : List UInt8) : out [] (37 :: 37 :: s) = (out [] (37 :: s)).map (Token.char 37 :: ·) := by
  rw [out, scan_escape]
  exact out_append_nstr [37] (37 :: s)

/-! ## Pieces other than escapes -/

/-- Letters, and what ends them. -/
theorem readStr_letter (C : FormatClass) (s : List UInt8) : readStr [] (C.letter :: s) = readStr [C.letter] s := by
  cases C <;> rfl

theorem readStr_end (h : ∀ c ∈ s.head?, isalpha c = false ∧ c ≠ 123 ∧ c ≠ 125) (str : List UInt8) :
    readStr str s = ⟨str, [], 0, s⟩ := by
  cases s with
  | nil => rfl
  | cons c s =>
    obtain ⟨halpha, hopen, hclose⟩ := h c rfl
    rw [readStr, if_pos (by simp [halpha, hopen, hclose])]

theorem readFmt_append (h : 125 ∉ t) (str fmt s : List UInt8) :
    readFmt str fmt (t ++ 125 :: s) = ⟨str, fmt ++ t, 0, s⟩ := by
  induction t generalizing fmt with
  | nil => rw [List.nil_append, readFmt, if_pos rfl, List.append_nil]
  | cons c t ih =>
    obtain ⟨hc, ht⟩ := not_or.mp (mt List.mem_cons.mpr h)
    rw [List.cons_append, readFmt, if_neg (Ne.symm hc), ih ht, List.append_assoc]
    rfl

theorem item_letter (C : FormatClass) (fmt : List UInt8) : item ([C.letter], fmt, 1) = .new C fmt := by
  cases C <;> rfl

theorem letter_ne (C : FormatClass) : C.letter ≠ 37 := by
  cases C <;> decide

/-- A piece is read as what it stands for. -/
theorem out_text (hp : p ≠ .escape) (h : p.Valid s) : out [] (p.text ++ s) = (out [] s).map (p.tokens ++ ·) := by
  cases p with
  | literal text =>
    have htext : 37 ∉ text := h
    simp only [Piece.text, tokens]
    clear h
    induction text with
    | nil => simp
    | cons c text ih =>
      obtain ⟨hc, htext⟩ := not_or.mp (mt List.mem_cons.mpr htext)
      rw [List.cons_append, out_cons (Ne.symm hc), ih nofun htext, Option.map_map]
      rfl
  | escape => exact absurd rfl hp
  | directive C fmt =>
    cases fmt with
    | none =>
      have hd : readStr [] (C.letter :: s) = ⟨[C.letter], [], 0, s⟩ := by rw [readStr_letter, readStr_end h]
      have hhead : (C.letter :: s).head? ≠ some 37 := by simpa using letter_ne C
      show out [] (37 :: C.letter :: s) = _
      rw [out_directive hhead, hd, if_pos rfl, item_letter]
      rfl
    | some fmt =>
      have hd : readStr [] (C.letter :: 123 :: (fmt ++ 125 :: s)) = ⟨[C.letter], fmt, 0, s⟩ := by
        rw [readStr_letter, readStr, if_neg (by simp), if_pos rfl, readFmt_append h, List.nil_append]
      have hhead : (C.letter :: 123 :: (fmt ++ 125 :: s)).head? ≠ some 37 := by simpa using letter_ne C
      have htext : (Piece.directive C (some fmt)).text ++ s = 37 :: C.letter :: 123 :: (fmt ++ 125 :: s) := by
        simp [Piece.text]
      rw [htext, out_directive hhead, hd, if_pos rfl, item_letter]
      rfl

/-- Pieces in front that are no escapes are read as what they stand for. -/
theorem out_pattern_append (hnone : .escape ∉ ps) (h : WellFormed (ps ++ qs)) :
    out [] (pattern (ps ++ qs)) = (out [] (pattern qs)).map (ps.flatMap tokens ++ ·) := by
  induction ps with
  | nil => simp
  | cons p ps ih =>
    obtain ⟨hp, hps⟩ := not_or.mp (mt List.mem_cons.mpr hnone)
    have htext : pattern (p :: ps ++ qs) = p.text ++ pattern (ps ++ qs) := rfl
    have hvalid : p.Valid (pattern (ps ++ qs)) := h.1
    rw [htext, out_text (Ne.symm hp) hvalid, ih hps h.2, Option.map_map]
    simp [Function.comp_def]

/-- So is a pattern without escapes. -/
theorem out_pattern (hnone : .escape ∉ ps) (h : WellFormed ps) : out [] (pattern ps) = some (ps.flatMap tokens) := by
  rw [← List.append_nil ps] at h
  rw [← List.append_nil ps, out_pattern_append hnone h, show pattern [] = [] from rfl, out_nil]
  simp

theorem notMem_tokens (hnone : .escape ∉ ps) (h : WellFormed (ps ++ qs)) : Token.char 37 ∉ ps.flatMap tokens := by
  induction ps with
  | nil => exact List.not_mem_nil
  | cons p ps ih =>
    obtain ⟨hp, hps⟩ := not_or.mp (mt List.mem_cons.mpr hnone)
    rw [List.flatMap_cons, List.mem_append, not_or]
    refine ⟨?_, ih hps h.2⟩
    cases p with
    | literal text =>
      have htext : 37 ∉ text := h.1
      simpa [tokens] using htext
    | escape => exact absurd rfl hp
    | directive C fmt => simp [tokens]

/-! ## Escapes -/

/-- What stands for a directive that is not known. -/
def error_format : List Token := (ascii "<<error_format %").map .char

/-- A directive begins with an item or with `<`. -/
theorem head_item (str fmt : List UInt8) :
    ∃ a ts, (item (str, fmt, 1)).tokens = a :: ts ∧ ∀ c, a = .char c → c = 60 := by
  show ∃ a ts, (match s_format_items.lookup str with
    | none => FormatItem.StringFormatItem (ascii "<<error_format %" ++ str)
    | some C => .new C fmt).tokens = a :: ts ∧ ∀ c, a = .char c → c = 60
  cases s_format_items.lookup str with
  | none => exact ⟨_, _, rfl, fun c h => (Token.char.inj h).symm⟩
  | some C => exact ⟨.item C fmt, [], rfl, fun _ h => nomatch h⟩

theorem out_lone : out [] [37] = some error_format := by
  rw [out_directive (by simp), readStr, if_pos rfl, out_nil]
  rfl

theorem out_less (s : List UInt8) : out [] (37 :: 60 :: s) = (out [] (60 :: s)).map (error_format ++ ·) := by
  have hd : readStr [] (60 :: s) = ⟨[], [], 0, 60 :: s⟩ := rfl
  rw [out_directive (by simp), hd, if_pos rfl]
  rfl

theorem WellFormed.right (h : WellFormed (ps ++ qs)) : WellFormed qs := by
  induction ps with
  | nil => exact h
  | cons p ps ih => exact ih h.2

/-- Two texts that differ by `<<error_format %` in front cannot both go on without an escape, and at the next one
they differ by the same. -/
theorem exists_escape (h : WellFormed ps) (hout : (out [] (pattern ps)).map
    ((List.replicate (j + 1) error_format).flatten ++ ·) = some (ps.flatMap tokens)) :
    ∃ qs, qs.length < ps.length ∧ WellFormed qs ∧ (out [] (37 :: pattern qs)).map
      ((List.replicate (j + 1) error_format).flatten ++ ·) = some (qs.flatMap tokens) := by
  by_cases hnone : Piece.escape ∈ ps
  · obtain ⟨front, qs, rfl, hfront⟩ := List.eq_append_cons_of_mem hnone
    have hpattern : pattern (.escape :: qs) = 37 :: 37 :: pattern qs := rfl
    rw [out_pattern_append hfront h, hpattern, out_escape, Option.map_map, Option.map_map, Option.map_eq_some_iff]
      at hout
    obtain ⟨ts, hts, heq⟩ := hout
    let e : List Token := (ascii "<<error_format ").map .char
    have herror : error_format = e ++ [.char 37] := rfl
    have hsplit : e ++ .char 37 :: ((List.replicate j error_format).flatten ++ front.flatMap tokens ++ .char 37 :: ts) =
        front.flatMap tokens ++ .char 37 :: qs.flatMap tokens := by
      simpa [herror, List.replicate_succ, tokens] using heq
    have hlow : Token.char 37 ∉ e := by decide
    obtain ⟨he, hqs⟩ := Lib.Segments.append_cons_inj hlow (notMem_tokens hfront h) hsplit
    refine ⟨qs, ?_, (WellFormed.right h).2, ?_⟩
    · simp only [List.length_append, List.length_cons]
      omega
    · rw [hts, Option.map_some, ← hqs, ← he]
      simp [herror, List.replicate_succ']
  · rw [out_pattern hnone h, Option.map_some, Option.some.injEq] at hout
    have hlength := congrArg List.length hout
    simp only [List.length_append, List.replicate_succ, List.flatten_cons] at hlength
    have hpos : 0 < error_format.length := by decide
    omega

/-- A directive is no escape. -/
theorem out_ne (h : c ≠ 37) (hless : c ≠ 60) (s : List UInt8) (ts : List Token) :
    out [] (37 :: c :: s) ≠ some (.char c :: ts) := by
  rw [out_directive (by simpa using h)]
  obtain ⟨a, as, ha, hchar⟩ := head_item (readStr [] (c :: s)).str (readStr [] (c :: s)).fmt
  split
  · rw [ha]
    intro heq
    obtain ⟨rest, -, hrest⟩ := Option.map_eq_some_iff.mp heq
    exact hless (hchar c (List.cons.inj hrest).1)
  · nofun

/-- What the second character of the last escape is read as moves all that follows: by some more of these characters,
or by some texts for a directive that is not known. -/
theorem shifted_ne (h : WellFormed ps) :
    (∀ k, (out [] (37 :: pattern ps)).map (List.replicate k (.char 37) ++ ·) ≠ some (ps.flatMap tokens)) ∧
      ∀ j, (out [] (37 :: pattern ps)).map ((List.replicate j error_format).flatten ++ ·) ≠
        some (ps.flatMap tokens) := by
  induction hn : ps.length using Nat.strong_induction_on generalizing ps with
  | _ n ih =>
    -- one token that both would have to begin with
    have hmoved : ∀ (a : Token) (ts : List Token) (o : Option (List Token)), a ≠ .char 37 → o ≠ some (a :: ts) →
        ∀ k, o.map (List.replicate k (.char 37) ++ ·) ≠ some (a :: ts) := by
      intro a ts o ha ho k heq
      obtain ⟨us, rfl, hus⟩ := Option.map_eq_some_iff.mp heq
      cases k with
      | zero => exact ho (congrArg some hus)
      | succ k => exact ha (List.cons.inj hus).1.symm
    have herror : ∀ (a : Token) (ts : List Token) (o : Option (List Token)), a ≠ .char 60 → o ≠ some (a :: ts) →
        ∀ j, o.map ((List.replicate j error_format).flatten ++ ·) ≠ some (a :: ts) := by
      intro a ts o ha ho j heq
      obtain ⟨us, rfl, hus⟩ := Option.map_eq_some_iff.mp heq
      cases j with
      | zero => exact ho (congrArg some hus)
      | succ j => exact ha (List.cons.inj hus).1.symm
    cases ps with
    | nil =>
      have hnone : ∀ w : List Token, (out [] (37 :: pattern [])).map (w ++ ·) ≠ some ([].flatMap tokens) := by
        intro w heq
        rw [show pattern [] = [] from rfl, out_lone, Option.map_some, Option.some.injEq] at heq
        exact absurd (List.append_eq_nil_iff.mp heq).2 (by decide)
      exact ⟨fun k => hnone _, fun j => hnone _⟩
    | cons p ps =>
      have hlt : ps.length < n := by simp [← hn]
      obtain ⟨hpercent, hless⟩ := ih ps.length hlt h.2 rfl
      cases p with
      | escape =>
        have hpattern : pattern (.escape :: ps) = 37 :: 37 :: pattern ps := rfl
        have hmore : ∀ k, (out [] (37 :: pattern (.escape :: ps))).map (List.replicate k (.char 37) ++ ·) ≠
            some ((Piece.escape :: ps).flatMap tokens) := by
          intro k heq
          rw [hpattern, out_escape, out_escape] at heq
          simp only [Option.map_map, Option.map_eq_some_iff] at heq
          obtain ⟨ts, hts, heq⟩ := heq
          refine hpercent (k + 1) (Option.map_eq_some_iff.mpr ⟨ts, hts, ?_⟩)
          have hmove : List.replicate k (Token.char 37) ++ .char 37 :: .char 37 :: ts =
              .char 37 :: (List.replicate (k + 1) (.char 37) ++ ts) := by
            rw [← List.cons_append, ← List.replicate_succ, List.replicate_succ', List.replicate_succ']
            simp
          exact (List.cons.inj (hmove.symm.trans heq)).2
        exact ⟨hmore, herror _ _ _ (by decide) fun heq => hmore 0 (by rw [heq]; rfl)⟩
      | directive C fmt =>
        have hne : out [] (37 :: pattern (.directive C fmt :: ps)) ≠
            some ((Piece.directive C fmt :: ps).flatMap tokens) := by
          have hhead : ∃ s, pattern (.directive C fmt :: ps) = 37 :: s := by
            cases fmt <;> exact ⟨_, rfl⟩
          obtain ⟨s, hs⟩ := hhead
          rw [hs, out_escape]
          intro heq
          obtain ⟨ts, -, hts⟩ := Option.map_eq_some_iff.mp heq
          exact nomatch (List.cons.inj hts).1
        exact ⟨hmoved _ _ _ nofun hne, herror _ _ _ nofun hne⟩
      | literal text =>
        cases text with
        | nil => exact ⟨hpercent, hless⟩
        | cons c t =>
          have hc : c ≠ 37 := (List.ne_of_not_mem_cons (h.1 : 37 ∉ c :: t)).symm
          have hpattern : pattern (.literal (c :: t) :: ps) = c :: pattern (.literal t :: ps) := rfl
          by_cases hsixty : c = 60
          · subst hsixty
            have hmore : ∀ j, (out [] (37 :: pattern (.literal (60 :: t) :: ps))).map
                ((List.replicate j error_format).flatten ++ ·) ≠
                  some ((Piece.literal (60 :: t) :: ps).flatMap tokens) := by
              intro j heq
              rw [hpattern, out_less, ← hpattern, Option.map_map] at heq
              have hone : (out [] (pattern (.literal (60 :: t) :: ps))).map
                  ((List.replicate (j + 1) error_format).flatten ++ ·) =
                    some ((Piece.literal (60 :: t) :: ps).flatMap tokens) := by
                rw [← heq]
                congr 1
                funext ts
                simp [List.replicate_succ']
              obtain ⟨qs, hshort, hqs, hout⟩ := exists_escape h hone
              exact (ih qs.length (hn ▸ hshort) hqs rfl).2 (j + 1) hout
            exact ⟨hmoved _ _ _ (by decide) fun heq => hmore 0 (by rw [heq]; rfl), hmore⟩
          · have hne : out [] (37 :: pattern (.literal (c :: t) :: ps)) ≠
                some ((Piece.literal (c :: t) :: ps).flatMap tokens) := out_ne hc hsixty _ _
            exact ⟨hmoved _ _ _ (fun h => hc (Token.char.inj h)) hne,
              herror _ _ _ (fun h => hsixty (Token.char.inj h)) hne⟩

/-- A pattern is compiled to what its pieces stand for exactly when none of them is an escape: of the two characters
of an escape only the first is passed. -/
theorem init_iff (h : WellFormed ps) : Compiles ps ↔ Piece.escape ∉ ps := by
  rw [compiles_iff]
  constructor
  · intro hout hmem
    obtain ⟨front, qs, rfl, hfront⟩ := List.eq_append_cons_of_mem hmem
    have hpattern : pattern (.escape :: qs) = 37 :: 37 :: pattern qs := rfl
    rw [out_pattern_append hfront h, hpattern, out_escape, Option.map_map, Option.map_eq_some_iff] at hout
    obtain ⟨ts, hts, heq⟩ := hout
    refine (shifted_ne (WellFormed.right h).2).1 0 (Option.map_eq_some_iff.mpr ⟨ts, hts, ?_⟩)
    simpa [tokens] using heq
  · intro hnone
    exact out_pattern hnone h

set_option maxRecDepth 2000 in
/-- The pattern of the loggers, up to its brackets. -/
theorem init_iff_pattern : Compiles [.directive .DateTimeFormatItem (some (ascii "%Y-%m-%d")),
      .directive .TabFormatItem none, .literal (ascii " "), .directive .MessageFormatItem none] ↔
    Piece.escape ∉ [.directive .DateTimeFormatItem (some (ascii "%Y-%m-%d")), .directive .TabFormatItem none,
      .literal (ascii " "), .directive .MessageFormatItem none] :=
  init_iff (by decide)

/-- `100%%` ends with a directive without a name. -/
theorem escape_misread : ¬ ∀ ps, WellFormed ps → Compiles ps := by
  intro h
  have hout := compiles_iff.mp (h [.literal (ascii "100"), .escape] (by decide))
  have hread : out [] (pattern [.literal (ascii "100"), .escape]) =
      some ((ascii "100%").map .char ++ error_format) := by
    have hpattern : pattern [.literal (ascii "100"), .escape] = 49 :: 48 :: 48 :: 37 :: 37 :: [] := rfl
    rw [hpattern, out_cons (by decide), out_cons (by decide), out_cons (by decide), out_escape, out_lone]
    rfl
  rw [hread] at hout
  exact absurd hout (by decide)

end LogFormatter

end Flz
