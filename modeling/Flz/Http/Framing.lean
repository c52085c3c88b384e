import Mathlib.Data.List.TakeWhile
import Flz.Http.DumpResponse
import Flz.Lib.Lines
import Flz.Lib.Segments

/-! # The framing of printed messages

`dump` prints the user's fields but `Connection`, and then its own `Content-Length` when there is a
body. Whether the head says once how long the body is depends on the lines that the start line
and the user's fields make, and these may be any.
-/
namespace Flz.Http
open Lib Lib.Lines

/-! ## The lines of a head -/

def lineName (l : List UInt8) : List UInt8 := l.takeWhile (· ≠ 58)

def lineValue (l : List UInt8) : List UInt8 :=
  ((l.dropWhile (· ≠ 58)).drop 1).dropWhile (fun b => b == 32 || b == 9)

/-- A line with a field of this name, in any case. -/
def IsLineOf (name : String) (l : List UInt8) : Prop :=
  58 ∈ l ∧ (lineName l).map tolower = ascii name

def IsLengthLine (l : List UInt8) : Prop := IsLineOf "content-length" l

/-- A line that announces chunks; the receiver knows no other transfer coding. -/
def IsChunkedLine (l : List UInt8) : Prop :=
  IsLineOf "transfer-encoding" l ∧ (lineValue l).map tolower = ascii "chunked"

instance (name : String) (l : List UInt8) : Decidable (IsLineOf name l) := by
  unfold IsLineOf
  infer_instance

instance : DecidablePred IsLengthLine := fun l => inferInstanceAs (Decidable (IsLineOf _ l))

instance : DecidablePred IsChunkedLine := fun l => by
  unfold IsChunkedLine
  infer_instance

/-- The lines `ls` are the head of a text, with the body behind the empty line. Behind the first
one at most one tells a length, and it tells that of the body; none announces chunks. -/
structure Framed (lexicalCast : List UInt8 → Option UInt64) (text body : List UInt8)
    (ls : List (List UInt8)) : Prop where
  head : splitHead [] text = some (ls, body)
  once : (ls.tail.filter IsLengthLine).length ≤ 1
  length : ∀ l ∈ ls.tail, IsLengthLine l → lexicalCast (lineValue l) = some (UInt64.ofNat body.length)
  plain : ∀ l ∈ ls.tail, ¬ IsChunkedLine l

/-- The lines that fields make. -/
def fieldLines (fs : List (List UInt8 × List UInt8)) : List (List UInt8) :=
  fs.flatMap (fun e => lines [] (fieldLine e))

/-- What the lines of the start line and of the user's fields do not do: none is empty, none
announces chunks, and none tells a length, but one that tells 0 of an empty body. -/
structure Silent (lexicalCast : List UInt8 → Option UInt64) (start : List UInt8)
    (user : List (List UInt8 × List UInt8)) (body : List UInt8) : Prop where
  full : ∀ l ∈ lines [] start ++ fieldLines user, l ≠ []
  plain : ∀ l ∈ (lines [] start).tail ++ fieldLines user, ¬ IsChunkedLine l
  once : (((lines [] start).tail ++ fieldLines user).filter IsLengthLine).length ≤ 1
  length : ∀ l ∈ (lines [] start).tail ++ fieldLines user, IsLengthLine l →
    body = [] ∧ lexicalCast (lineValue l) = some 0

section
variable {lexicalCast : List UInt8 → Option UInt64} {start body x : List UInt8}
  {fs gs user before after : List (List UInt8 × List UInt8)} {e : List UInt8 × List UInt8}

theorem fieldLines_append (fs gs : List (List UInt8 × List UInt8)) :
    fieldLines (fs ++ gs) = fieldLines fs ++ fieldLines gs := List.flatMap_append

theorem fieldLine_ends (e : List UInt8 × List UInt8) : fieldLine e = (e.1 ++ ascii ": " ++ e.2 ++ [13]) ++ [10] := by
  have hend : ascii "\r\n" = [13] ++ [10] := by decide
  rw [fieldLine, hend, ← List.append_assoc]

/-- The lines of a start line with fields. -/
theorem lines_fields (x : List UInt8) (fs : List (List UInt8 × List UInt8)) :
    ∃ y, x ++ [10] ++ fs.flatMap fieldLine = y ++ [10] ∧
      lines [] (y ++ [10]) = lines [] (x ++ [10]) ++ fieldLines fs := by
  induction fs generalizing x with
  | nil => exact ⟨x, by simp, by simp [fieldLines]⟩
  | cons e fs ih =>
    obtain ⟨y, hy, hlines⟩ := ih (x ++ [10] ++ (e.1 ++ ascii ": " ++ e.2 ++ [13]))
    refine ⟨y, ?_, ?_⟩
    · rw [← hy, List.flatMap_cons, fieldLine_ends]
      simp only [List.append_assoc]
    · have hfirst : x ++ [10] ++ (e.1 ++ ascii ": " ++ e.2 ++ [13]) ++ [10] = x ++ 10 :: fieldLine e := by
        rw [fieldLine_ends]
        simp only [List.append_assoc, List.cons_append, List.nil_append]
      rw [hlines, hfirst, lines_append, List.append_assoc]
      rfl

/-- A field whose lines say nothing of the body. -/
def Inert (e : List UInt8 × List UInt8) : Prop :=
  ∀ l ∈ lines [] (fieldLine e), l ≠ [] ∧ ¬ IsLengthLine l ∧ ¬ IsChunkedLine l

theorem connection_inert (close : Bool) : Inert (ascii "connection", connectionValue close) := by
  unfold Inert
  cases close <;> decide

theorem mem_fieldLines {l : List UInt8} : l ∈ fieldLines fs ↔ ∃ e ∈ fs, l ∈ lines [] (fieldLine e) :=
  List.mem_flatMap

/-! ## The lines of a field that can be read -/

theorem IsField.without (he : IsField e) :
    (10 : UInt8) ∉ e.1 ++ ascii ": " ++ e.2 ∧ (58 : UInt8) ∉ e.1 := by
  have hten : tokenChar.holds 10 = false ∧ valueChar.holds 10 = false ∧ tokenChar.holds 58 = false ∧
      (10 : UInt8) ∉ ascii ": " := by decide
  obtain ⟨hname, hvalue, hcolon, hblank⟩ := hten
  refine ⟨fun hmem => ?_, fun hmem => Bool.false_ne_true (hcolon.symm.trans (he.name 58 hmem))⟩
  rcases List.mem_append.mp hmem with hmem | hmem
  · rcases List.mem_append.mp hmem with hmem | hmem
    · exact Bool.false_ne_true (hname.symm.trans (he.name 10 hmem))
    · exact hblank hmem
  · exact Bool.false_ne_true (hvalue.symm.trans (he.value 10 hmem))

/-- The line that is made by a field. -/
theorem IsField.lines (he : IsField e) : Lines.lines [] (fieldLine e) = [e.1 ++ ascii ": " ++ e.2] := by
  have hend : ascii "\r\n" = [13, 10] := by decide
  rw [fieldLine, hend, lines_line he.without.1, List.nil_append]

theorem IsField.line_parts (he : IsField e) : 58 ∈ e.1 ++ ascii ": " ++ e.2 ∧
    lineName (e.1 ++ ascii ": " ++ e.2) = e.1 ∧ lineValue (e.1 ++ ascii ": " ++ e.2) = e.2 := by
  have hsplit : e.1 ++ ascii ": " ++ e.2 = e.1 ++ 58 :: 32 :: e.2 := by
    have hcolon : ascii ": " = [58, 32] := by decide
    rw [hcolon, List.append_assoc]
    rfl
  have hname : ∀ b ∈ e.1, decide (b ≠ 58) = true := fun b hb =>
    decide_eq_true fun heq => he.without.2 (heq ▸ hb)
  refine ⟨by rw [hsplit]; simp, ?_, ?_⟩
  · rw [lineName, hsplit, List.takeWhile_append_of_pos hname]
    simp
  · rw [lineValue, hsplit, List.dropWhile_append_of_pos hname]
    cases hvalue : e.2 with
    | nil => simp
    | cons b value =>
      have hb : valueChar.holds b = true := he.value b (by rw [hvalue]; exact List.mem_cons_self)
      have h32 : b ≠ 32 := he.value_head b (by rw [hvalue]; rfl)
      have h9 : b ≠ 9 := by
        rintro rfl
        exact Bool.false_ne_true ((by decide : valueChar.holds 9 = false).symm.trans hb)
      simp [h32, h9]

theorem IsField.lengthLine_iff (he : IsField e) : IsLengthLine (e.1 ++ ascii ": " ++ e.2) ↔
    e.1.map tolower = ascii "content-length" := by
  obtain ⟨hmem, hname, -⟩ := he.line_parts
  rw [IsLengthLine, IsLineOf, hname]
  exact and_iff_right hmem

theorem IsField.chunkedLine_iff (he : IsField e) : IsChunkedLine (e.1 ++ ascii ": " ++ e.2) ↔ IsChunked e := by
  obtain ⟨hmem, hname, hvalue⟩ := he.line_parts
  rw [IsChunkedLine, IsLineOf, hname, hvalue, and_iff_right hmem]
  rfl

/-! ## What is added -/

/-- The field for the length of a body. -/
def bodyField (body : List UInt8) : List (List UInt8 × List UInt8) :=
  if body = [] then [] else [(ascii "content-length", decimal body.length)]

theorem fieldLines_bodyField (body : List UInt8) : fieldLines (bodyField body) =
    if body = [] then [] else [ascii "content-length" ++ ascii ": " ++ decimal body.length] := by
  rw [bodyField]
  split
  · rfl
  · exact (List.flatMap_singleton ..).trans (decimal_isField _).lines

theorem bodyLine (n : ℕ) : IsLengthLine (ascii "content-length" ++ ascii ": " ++ decimal n) ∧
    lineValue (ascii "content-length" ++ ascii ": " ++ decimal n) = decimal n ∧
    ¬ IsChunkedLine (ascii "content-length" ++ ascii ": " ++ decimal n) := by
  have he := decimal_isField n
  have hsame : (ascii "content-length").map tolower = ascii "content-length" := by decide
  refine ⟨he.lengthLine_iff.mpr hsame, he.line_parts.2.2, fun h => ?_⟩
  have hname : (ascii "content-length").map tolower ≠ ascii "transfer-encoding" := by decide
  exact hname (he.chunkedLine_iff.mp h).1

theorem bodyField_lines {body l : List UInt8} (hl : l ∈ fieldLines (bodyField body)) :
    l ≠ [] ∧ lineValue l = decimal body.length ∧ ¬ IsChunkedLine l := by
  rw [fieldLines_bodyField] at hl
  split at hl
  · cases hl
  · rw [List.mem_singleton.mp hl]
    exact ⟨by simp [ascii], (bodyLine body.length).2⟩

theorem inert_lines (h : ∀ e ∈ fs, Inert e) {l : List UInt8} (hl : l ∈ fieldLines fs) :
    l ≠ [] ∧ ¬ IsLengthLine l ∧ ¬ IsChunkedLine l := by
  obtain ⟨e, he, hl⟩ := mem_fieldLines.mp hl
  exact h e he l hl

/-- How many lines behind the first one tell a length. -/
theorem lengthLines_count (user : List (List UInt8 × List UInt8)) (body : List UInt8)
    (hbefore : ∀ e ∈ before, Inert e) (hafter : ∀ e ∈ after, Inert e) (hstart : lines [] start ≠ []) :
    ((lines [] start ++ fieldLines (before ++ user ++ after ++ bodyField body)).tail.filter
        IsLengthLine).length =
      (((lines [] start).tail ++ fieldLines user).filter IsLengthLine).length +
        if body = [] then 0 else 1 := by
  have hinert : ∀ {fs : List (List UInt8 × List UInt8)}, (∀ e ∈ fs, Inert e) →
      (fieldLines fs).filter IsLengthLine = [] := fun h =>
    List.filter_eq_nil_iff.mpr fun l hl => by simpa using (inert_lines h hl).2.1
  have hbody : ((fieldLines (bodyField body)).filter IsLengthLine).length = if body = [] then 0 else 1 := by
    rw [fieldLines_bodyField]
    split
    · rfl
    · rw [List.filter_singleton, decide_eq_true (bodyLine body.length).1]
      rfl
  rw [List.tail_append_of_ne_nil hstart]
  simp only [fieldLines_append, List.filter_append, List.length_append, hinert hbefore, hinert hafter, hbody,
    List.length_nil]
  omega

/-- What a head says of its body is what `dump` says, exactly when the user's part is silent. -/
theorem framed_iff (hbefore : ∀ e ∈ before, Inert e) (hafter : ∀ e ∈ after, Inert e)
    (hcast : lexicalCast (decimal body.length) = some (UInt64.ofNat body.length))
    (hstart : start = x ++ [10]) :
    (∃ ls, Framed lexicalCast (start ++ (before ++ user ++ after ++ bodyField body).flatMap fieldLine ++
        13 :: 10 :: body) body ls) ↔ Silent lexicalCast start user body := by
  subst hstart
  obtain ⟨y, hy, hlines⟩ := lines_fields x (before ++ user ++ after ++ bodyField body)
  have hcount := lengthLines_count user body hbefore hafter (lines_ne [] x)
  have hmem : ∀ l, l ∈ (lines [] (x ++ [10]) ++ fieldLines (before ++ user ++ after ++ bodyField body)).tail ↔
      l ∈ (lines [] (x ++ [10])).tail ++ fieldLines user ∨ l ∈ fieldLines before ∨ l ∈ fieldLines after ∨
        l ∈ fieldLines (bodyField body) := by
    intro l
    rw [List.tail_append_of_ne_nil (lines_ne [] x)]
    simp only [fieldLines_append, List.mem_append]
    tauto
  have hbody : ∀ l ∈ fieldLines (bodyField body), l ≠ [] ∧
      lexicalCast (lineValue l) = some (UInt64.ofNat body.length) ∧ ¬ IsChunkedLine l := by
    intro l hl
    obtain ⟨hfull, hvalue, hplain⟩ := bodyField_lines hl
    rw [hvalue]
    exact ⟨hfull, hcast, hplain⟩
  rw [hy, List.append_assoc, List.singleton_append]
  constructor
  · rintro ⟨ls, hhead, honce, hlength, hplain⟩
    obtain ⟨hfull, rfl⟩ := splitHead_iff.mp hhead
    rw [hlines] at hfull honce hlength hplain
    rw [hcount] at honce
    refine ⟨fun l hl => hfull l ?_, fun l hl => hplain l ((hmem l).mpr (Or.inl hl)), by omega,
      fun l hl htells => ?_⟩
    · simp only [fieldLines_append, List.mem_append] at hl ⊢
      tauto
    · have hempty : body = [] := by
        by_contra hne
        rw [if_neg hne] at honce
        have hnone := List.length_eq_zero_iff.mp (Nat.le_zero.mp (Nat.le_of_succ_le_succ honce))
        exact List.filter_eq_nil_iff.mp hnone l hl (decide_eq_true htells)
      have hvalue := hlength l ((hmem l).mpr (Or.inl hl)) htells
      rw [hempty] at hvalue
      exact ⟨hempty, hvalue⟩
  · intro hsilent
    refine ⟨_, splitHead_iff.mpr ⟨?_, rfl⟩, ?_, ?_, ?_⟩ <;> rw [hlines]
    · intro l hl
      simp only [fieldLines_append, List.mem_append] at hl
      rcases hl with hl | ((hl | hl) | hl) | hl
      · exact hsilent.full l (List.mem_append_left _ hl)
      · exact (inert_lines hbefore hl).1
      · exact hsilent.full l (List.mem_append_right _ hl)
      · exact (inert_lines hafter hl).1
      · exact (hbody l hl).1
    · rw [hcount]
      by_cases hempty : body = []
      · rw [if_pos hempty]
        exact hsilent.once
      · have hnone : ((lines [] (x ++ [10])).tail ++ fieldLines user).filter IsLengthLine = [] :=
          List.filter_eq_nil_iff.mpr fun l hl htells =>
            hempty (hsilent.length l hl (of_decide_eq_true htells)).1
        rw [hnone, if_neg hempty]
        decide
    · intro l hl htells
      rcases (hmem l).mp hl with hl | hl | hl | hl
      · obtain ⟨hempty, hvalue⟩ := hsilent.length l hl htells
        rw [hempty]
        exact hvalue
      · exact absurd htells (inert_lines hbefore hl).2.1
      · exact absurd htells (inert_lines hafter hl).2.1
      · exact (hbody l hl).2.1
    · intro l hl
      rcases (hmem l).mp hl with hl | hl | hl | hl
      · exact hsilent.plain l hl
      · exact (inert_lines hbefore hl).2.2
      · exact (inert_lines hafter hl).2.2
      · exact (hbody l hl).2.2

/-! ## What the receiver makes of it -/

theorem Silent.field (h : Silent lexicalCast start user body) (he : e ∈ user) (hfield : IsField e) :
    ¬ IsChunked e ∧ (e.1.map tolower = ascii "content-length" → body = [] ∧ lexicalCast e.2 = some 0) := by
  have hmem : e.1 ++ ascii ": " ++ e.2 ∈ (lines [] start).tail ++ fieldLines user := by
    refine List.mem_append_right _ (mem_fieldLines.mpr ⟨e, he, ?_⟩)
    rw [hfield.lines]
    exact List.mem_cons_self
  refine ⟨fun hchunked => h.plain _ hmem (hfield.chunkedLine_iff.mpr hchunked), fun hname => ?_⟩
  have htells := h.length _ hmem (hfield.lengthLine_iff.mpr hname)
  rwa [hfield.line_parts.2.2] at htells

/-- The name of a field that can be read is compared as it stands. -/
theorem IsField.lower (he : IsField e) {key : List UInt8} (hkey : key.all (· ≠ 0) = true)
    (h : strcasecmp key e.1 = .eq) : e.1.map tolower = key.map tolower := by
  have hnul : ∀ s : List UInt8, (∀ b ∈ s, b ≠ 0) → s.takeWhile (· ≠ 0) = s := fun s hs =>
    Segments.before_of_not_mem fun hmem => hs 0 hmem rfl
  have htoken : tokenChar.holds 0 = false := by decide
  rw [strcasecmp, hnul key fun b hb => of_decide_eq_true (List.all_eq_true.mp hkey b hb),
    hnul e.1 fun b hb heq => Bool.false_ne_true (htoken.symm.trans (heq ▸ he.name b hb)), compareLower_eq] at h
  exact (Std.LawfulEqCmp.eq_of_compare h).symm

/-- The length that is read is that of the body. -/
theorem Silent.getAs (h : Silent lexicalCast start user body) (hfields : ∀ e ∈ user, IsField e)
    (hbefore : ∀ e ∈ before ++ after, e.1 = ascii "connection")
    (hcast : lexicalCast (decimal body.length) = some (UInt64.ofNat body.length))
    (hlen : body.length < 2 ^ 63) :
    toInt64 (MapType.getAs lexicalCast (OrderedMap.ofAssignments strcasecmp
      (before ++ user ++ after ++ bodyField body)) (ascii "content-length")).toNat = body.length := by
  rw [MapType.getAs, MapType.find, OrderedMap.val_ofAssignments]
  by_cases hbody : body = []
  · cases hlast : OrderedMap.lastVal strcasecmp (ascii "content-length")
        (before ++ user ++ after ++ bodyField body) with
    | none =>
      rw [hbody, Option.bind_none, Option.getD_none]
      decide
    | some v =>
      obtain ⟨e, he, hsame, rfl⟩ := OrderedMap.lastVal_mem hlast
      have huser : e ∈ user := by
        rw [bodyField, if_pos hbody, List.append_nil, List.mem_append, List.mem_append] at he
        by_contra hno
        have hname : e.1 = ascii "connection" := hbefore e (List.mem_append.mpr (by tauto))
        rw [hname] at hsame
        exact absurd hsame (by decide)
      have hlower := (hfields e huser).lower (by decide) hsame
      have hzero := (h.field huser (hfields e huser)).2 (hlower.trans (by decide))
      rw [Option.bind_some, hzero.2, hbody]
      decide
  · have hsame : strcasecmp (ascii "content-length") (ascii "content-length") = .eq :=
      Std.ReflCmp.compare_self
    rw [bodyField, if_neg hbody, OrderedMap.lastVal_last hsame, Option.bind_some, hcast,
      Option.getD_some, UInt64.toNat_ofNat', Nat.mod_eq_of_lt (by omega)]
    exact toInt64_eq hlen

end

/-! ## Requests -/

namespace HttpRequest

/-- The request line. -/
def startLine (q : HttpRequest) : List UInt8 :=
  HttpMethodToString q.method ++ [32] ++ q.path ++ optional 63 q.query ++ optional 35 q.fragment ++ [32] ++
    ascii "HTTP/" ++ decimal (q.version.toNat / 16) ++ ascii "." ++ decimal (q.version.toNat % 16) ++
    ascii "\r\n"

/-- The fields of the header that are printed. -/
def userFields (q : HttpRequest) (websocket : Bool) : List (List UInt8 × List UInt8) :=
  q.headers.filter (fun e => websocket || strcasecmp e.1 (ascii "connection") != .eq)

/-- A request whose text frames its body: at most one line tells a length, that of the body, and
none announces chunks; and when a receiver can read its head, and gets it with one read and with
nothing of what follows the request, it takes the body and is then behind it. -/
structure SelfFramed (lexicalCast : List UInt8 → Option UInt64) (q : HttpRequest) (websocket : Bool) :
    Prop where
  text : ∃ ls, Framed lexicalCast (q.dump websocket) q.body ls
  received : ∀ {r : Bool} {queryStart n : ℕ} {st : Stream} {data rest : List UInt8}, q.Readable r →
    q.method ≠ .MSEARCH → n ≤ intMax → Arrives n st (q.printedHead websocket ++ 13 :: 10 :: data) →
    st.pending = q.dump websocket ++ rest → data.length ≤ q.body.length →
    q.body.length ≤ data.length + intMax →
    ∃ req st', recvRequest lexicalCast r queryStart n st = .ok (some req, st') ∧ req.body = q.body ∧
      st'.pending = rest

section
variable {lexicalCast : List UInt8 → Option UInt64} {q : HttpRequest} {websocket : Bool}

theorem printedFields_split (q : HttpRequest) (websocket : Bool) : q.printedFields websocket =
    connectionField q websocket ++ q.userFields websocket ++ [] ++ bodyField q.body := by
  rw [List.append_nil]
  rfl

theorem printedHead_split (q : HttpRequest) (websocket : Bool) :
    q.printedHead websocket = q.startLine ++ (q.printedFields websocket).flatMap fieldLine := by
  simp only [printedHead, startLine, List.append_assoc]

theorem text_iff (hcast : lexicalCast (decimal q.body.length) = some (UInt64.ofNat q.body.length))
    (websocket : Bool) : (∃ ls, Framed lexicalCast (q.dump websocket) q.body ls) ↔
      Silent lexicalCast q.startLine (q.userFields websocket) q.body := by
  have hend : ∃ x, q.startLine = x ++ [10] := by
    have hreturn : ascii "\r\n" = [13] ++ [10] := by decide
    rw [startLine, hreturn, ← List.append_assoc]
    exact ⟨_, rfl⟩
  obtain ⟨x, hx⟩ := hend
  have hinert : ∀ e ∈ connectionField q websocket, Inert e := by
    intro e he
    rw [connectionField] at he
    split at he
    · cases he
    · rw [List.mem_singleton.mp he]
      exact connection_inert q.close
  rw [dump_eq, printedHead_split, printedFields_split]
  exact framed_iff hinert (fun e he => by cases he) hcast hx

theorem received_silent (h : Silent lexicalCast q.startLine (q.userFields websocket) q.body)
    (hcast : lexicalCast (decimal q.body.length) = some (UInt64.ofNat q.body.length))
    (hlen : q.body.length < 2 ^ 63) {r : Bool} {queryStart n : ℕ} {st : Stream} {data rest : List UInt8}
    (hreadable : q.Readable r) (hdash : q.method ≠ .MSEARCH) (hmax : n ≤ intMax)
    (hread : Arrives n st (q.printedHead websocket ++ 13 :: 10 :: data))
    (hpending : st.pending = q.dump websocket ++ rest) (hdata : data.length ≤ q.body.length)
    (hmissing : q.body.length ≤ data.length + intMax) :
    ∃ req st', recvRequest lexicalCast r queryStart n st = .ok (some req, st') ∧ req.body = q.body ∧
      st'.pending = rest := by
  have hfields : ∀ e ∈ q.userFields websocket, IsField e := fun e he =>
    hreadable.fields e (List.mem_filter.mp he).1
  have hconnection : ∀ e ∈ connectionField q websocket ++ [], e.1 = ascii "connection" := by
    intro e he
    rw [List.append_nil] at he
    exact mem_connectionField he
  have hlength : (q.parsed websocket).contentLength lexicalCast = q.body.length := by
    have hget := h.getAs hfields hconnection hcast hlen
    rw [← printedFields_split] at hget
    exact hget
  have hpending' : st.pending = q.printedHead websocket ++ 13 :: 10 :: (q.body ++ rest) := by
    rw [hpending, dump_eq]
    simp only [List.append_assoc, List.cons_append]
  have hcond : q.body.length ≤ data.length ∨ 0 < toInt (q.body.length - data.length : ℕ) := by
    rw [toInt_eq (by omega)]
    omega
  have hrecv := recvRequest_printed hreadable hdash websocket queryStart hmax hread
    hpending' hlength
  rw [if_pos hcond, max_eq_right hdata] at hrecv
  refine ⟨_, _, hrecv, ?_, ?_⟩
  · rw [complete_eq]
  · rw [Stream.skip_pending, hpending', ← List.drop_drop, ← List.drop_drop, List.drop_left]
    exact List.drop_left

end
end HttpRequest

/-! ## Responses -/

namespace HttpResponse

/-- The fields of the header that are printed, and the cookies. -/
def userFields (q : HttpResponse) (websocket : Bool) (cookies : List (List UInt8)) :
    List (List UInt8 × List UInt8) :=
  q.headers.filter (fun e => websocket || strcasecmp e.1 (ascii "connection") != .eq) ++
    cookies.map (fun c => (ascii "Set-Cookie", c))

/-- A response whose head can be read, as far as chunks are not concerned. -/
structure Readable (q : HttpResponse) (websocket : Bool) (cookies : List (List UInt8)) : Prop where
  reported : q.Reported
  fields : ∀ e ∈ q.userFields websocket cookies, IsField e
  closes : ∀ e ∈ q.userFields websocket cookies, e.2 ≠ [] ∨
    e.1.map tolower ∉ [ascii "connection", ascii "transfer-encoding", ascii "content-length"]

/-- The same for responses. -/
structure SelfFramed (lexicalCast : List UInt8 → Option UInt64) (q : HttpResponse) (websocket : Bool)
    (cookies : List (List UInt8)) : Prop where
  text : ∃ ls, Framed lexicalCast (q.dump websocket cookies) q.body ls
  received : ∀ {n : ℕ} {st : Stream} {data rest : List UInt8}, q.Readable websocket cookies →
    n ≤ intMax → Arrives n st (q.printedHead (q.printedFields websocket cookies) ++ data) →
    st.pending = q.dump websocket cookies ++ rest → data.length ≤ q.body.length →
    q.body.length ≤ data.length + intMax →
    ∃ rsp st', recvResponse lexicalCast n st = .ok (some rsp, st') ∧ rsp.body = q.body ∧
      st'.pending = rest

section
variable {lexicalCast : List UInt8 → Option UInt64} {q : HttpResponse} {websocket : Bool}
  {cookies : List (List UInt8)}

/-- The connection field, if it is printed. -/
def connectionField (q : HttpResponse) (websocket : Bool) : List (List UInt8 × List UInt8) :=
  if websocket then [] else [(ascii "connection", connectionValue q.close)]

theorem mem_connectionField {e : List UInt8 × List UInt8} (he : e ∈ q.connectionField websocket) :
    e = (ascii "connection", connectionValue q.close) := by
  rw [connectionField] at he
  split at he
  · cases he
  · exact List.mem_singleton.mp he

theorem printedFields_split (q : HttpResponse) (websocket : Bool) (cookies : List (List UInt8)) :
    q.printedFields websocket cookies =
      [] ++ q.userFields websocket cookies ++ q.connectionField websocket ++ bodyField q.body := rfl

theorem dump_split (q : HttpResponse) (websocket : Bool) (cookies : List (List UInt8)) :
    q.dump websocket cookies = q.printedHead (q.printedFields websocket cookies) ++ q.body := by
  have hend : ascii "\r\n" = [13, 10] := by decide
  rw [dump, printedHead, hend]
  simp only [List.append_assoc]

theorem text_iff (hcast : lexicalCast (decimal q.body.length) = some (UInt64.ofNat q.body.length))
    (websocket : Bool) (cookies : List (List UInt8)) :
    (∃ ls, Framed lexicalCast (q.dump websocket cookies) q.body ls) ↔
      Silent lexicalCast q.statusLine (q.userFields websocket cookies) q.body := by
  have hend : ∃ x, q.statusLine = x ++ [10] := by
    have hreturn : ascii "\r\n" = [13] ++ [10] := by decide
    rw [statusLine, hreturn, ← List.append_assoc]
    exact ⟨_, rfl⟩
  obtain ⟨x, hx⟩ := hend
  have hinert : ∀ e ∈ q.connectionField websocket, Inert e := by
    intro e he
    rw [mem_connectionField he]
    exact connection_inert q.close
  have htext : q.dump websocket cookies = q.statusLine ++ ([] ++ q.userFields websocket cookies ++
      q.connectionField websocket ++ bodyField q.body).flatMap fieldLine ++ 13 :: 10 :: q.body := by
    rw [dump_split, printedHead, printedFields_split]
    simp only [List.append_assoc, List.cons_append, List.nil_append]
  rw [htext]
  exact framed_iff (fun e he => by cases he) hinert hcast hx

/-- What is printed for a silent response is read as it stands. -/
theorem printedFields_silent (h : Silent lexicalCast q.statusLine (q.userFields websocket cookies) q.body)
    (hreadable : q.Readable websocket cookies) :
    ∀ e ∈ q.printedFields websocket cookies, IsPlainField e := by
  intro e he
  rw [printedFields_split, List.nil_append, List.mem_append, List.mem_append] at he
  rcases he with (he | he) | he
  · have hfield := hreadable.fields e he
    exact ⟨hfield, hreadable.closes e he, (h.field he hfield).1⟩
  · rw [mem_connectionField he]
    cases q.close <;> exact ⟨by decide, by decide, by decide⟩
  · rw [bodyField] at he
    split at he
    · cases he
    · rw [List.mem_singleton.mp he]
      exact bodyField_plain _

theorem received_silent (h : Silent lexicalCast q.statusLine (q.userFields websocket cookies) q.body)
    (hcast : lexicalCast (decimal q.body.length) = some (UInt64.ofNat q.body.length))
    (hlen : q.body.length < 2 ^ 63) {n : ℕ} {st : Stream} {data rest : List UInt8}
    (hreadable : q.Readable websocket cookies) (hmax : n ≤ intMax)
    (hread : Arrives n st (q.printedHead (q.printedFields websocket cookies) ++ data))
    (hpending : st.pending = q.dump websocket cookies ++ rest) (hdata : data.length ≤ q.body.length)
    (hmissing : q.body.length ≤ data.length + intMax) :
    ∃ rsp st', recvResponse lexicalCast n st = .ok (some rsp, st') ∧ rsp.body = q.body ∧
      st'.pending = rest := by
  have hconnection : ∀ e ∈ [] ++ q.connectionField websocket, e.1 = ascii "connection" := by
    intro e he
    rw [List.nil_append] at he
    rw [mem_connectionField he]
  have hlength := h.getAs hreadable.fields hconnection hcast hlen
  rw [← printedFields_split] at hlength
  have hpending' : st.pending = q.printedHead (q.printedFields websocket cookies) ++ (q.body ++ rest) := by
    rw [hpending, dump_split, List.append_assoc]
  have hcond : q.body.length ≤ data.length ∨ 0 < toInt (q.body.length - data.length : ℕ) := by
    rw [toInt_eq (by omega)]
    omega
  have hrecv := recvResponse_printed hreadable.reported (printedFields_silent h hreadable) hmax hread
    hpending' hlen hlength
  rw [if_pos hcond, max_eq_right hdata] at hrecv
  refine ⟨_, _, hrecv, ?_, ?_⟩
  · rw [withBody]
    split
    · rfl
    · rename_i hempty
      exact (not_not.mp hempty).symm
  · rw [Stream.skip_pending, hpending', ← List.drop_drop, List.drop_left]
    exact List.drop_left

end
end HttpResponse

/-- The text that `dump` prints frames the body exactly when the lines of the user's part are
silent. -/
theorem selfFramed_iff (lexicalCast : List UInt8 → Option UInt64) (websocket : Bool) :
    (∀ q : HttpRequest, q.body.length < 2 ^ 63 →
      lexicalCast (decimal q.body.length) = some (UInt64.ofNat q.body.length) →
      (q.SelfFramed lexicalCast websocket ↔
        Silent lexicalCast q.startLine (q.userFields websocket) q.body)) ∧
    ∀ (q : HttpResponse) (cookies : List (List UInt8)), q.body.length < 2 ^ 63 →
      lexicalCast (decimal q.body.length) = some (UInt64.ofNat q.body.length) →
      (q.SelfFramed lexicalCast websocket cookies ↔
        Silent lexicalCast q.statusLine (q.userFields websocket cookies) q.body) := by
  constructor
  · intro q hlen hcast
    rw [← HttpRequest.text_iff hcast]
    refine ⟨fun h => h.text, fun htext => ⟨htext, fun hreadable hdash hmax hread hpending hdata hmissing => ?_⟩⟩
    exact HttpRequest.received_silent ((HttpRequest.text_iff hcast websocket).mp htext) hcast hlen hreadable
      hdash hmax hread hpending hdata hmissing
  · intro q cookies hlen hcast
    rw [← HttpResponse.text_iff hcast]
    refine ⟨fun h => h.text, fun htext => ⟨htext, fun hreadable hmax hread hpending hdata hmissing => ?_⟩⟩
    exact HttpResponse.received_silent ((HttpResponse.text_iff hcast websocket cookies).mp htext) hcast hlen
      hreadable hmax hread hpending hdata hmissing

theorem form_framed :
    formRequest.SelfFramed castDigits false ∧ greeting.SelfFramed castDigits false [] :=
  ⟨((selfFramed_iff castDigits false).1 formRequest (by decide) (by decide)).mpr
      ⟨by decide, by decide, by decide, by decide⟩,
    ((selfFramed_iff castDigits false).2 greeting [] (by decide) (by decide)).mpr
      ⟨by decide, by decide, by decide, by decide⟩⟩

/-- A request without a body, with a length set by hand. -/
def borrowingRequest : HttpRequest :=
  { HttpRequest.new with headers := [(ascii "Content-Length", ascii "5")] }

/-- A response with the length of the message that its header was taken from. -/
def leftoverResponse : HttpResponse :=
  { HttpResponse.new with headers := [(ascii "content-length", ascii "3")], body := ascii "hello" }

/-- What follows the request on the stream. -/
def nextMessage : List UInt8 := ascii "GET / HTTP/1.1\r\n\r\n"

/-- The start of the next message is taken for the body of the request, and the response tells two
lengths. -/
theorem not_framed :
    (∃ req st', recvRequest castDigits false 0 4096
        (.connected (.whole (borrowingRequest.dump false ++ nextMessage))) = .ok (some req, st') ∧
      borrowingRequest.body = [] ∧ req.body = ascii "GET /") ∧
    ¬ leftoverResponse.SelfFramed castDigits false [] := by
  constructor
  · have htext : borrowingRequest.dump false ++ nextMessage =
        borrowingRequest.printedHead false ++ 13 :: 10 :: (ascii "GET /" ++ ascii " HTTP/1.1\r\n\r\n") := by
      decide
    have hreadable : borrowingRequest.Readable false := {
      method := by decide
      version := Or.inl rfl
      path := ⟨[], rfl, .nil, fun b hb => by cases hb⟩
      query := .nil
      fragment := .nil
      fields := by decide }
    have hread : Arrives 4096 (.connected (.whole (borrowingRequest.dump false ++ nextMessage)))
        (borrowingRequest.dump false ++ nextMessage) :=
      arrives_whole (by decide) (by decide) (by decide)
    rw [htext] at hread ⊢
    have hlength : (borrowingRequest.parsed false).contentLength castDigits = (ascii "GET /").length := by
      decide
    have hrecv := recvRequest_printed hreadable (by decide) false 0 (by decide) hread
      (Stream.connected_whole _) hlength
    rw [if_pos (Or.inl (by decide))] at hrecv
    refine ⟨_, _, hrecv, rfl, ?_⟩
    rw [HttpRequest.complete_eq]
  · intro h
    have hsilent := (HttpResponse.text_iff (by decide) false []).mp h.text
    have hlength := hsilent.length (ascii "content-length: 3") (by decide) (by decide)
    exact absurd hlength.1 (by decide)

end Flz.Http
