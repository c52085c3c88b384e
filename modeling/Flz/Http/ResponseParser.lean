import Flz.Http.HeadLoop
import Flz.Http.ResponseTable

/-! # The response parser

`httpclient_parser_execute` of `httpclient_parser.rl` and `HttpResponseParser` of
`http_parser.cc`. A response head is read by one parser in as many pieces as it comes; for the
head of a chunk the parser is set back before every piece.
-/
namespace Flz.Http
open Lib

/-- `httpclient_parser`, with the response and the error of `HttpResponseParser`. -/
structure HttpResponseParser where
  cs : ℕ
  bodyStart : ℕ
  contentLen : ℤ
  chunked : Bool
  chunksDone : Bool
  close : Bool
  mark : ℕ
  fieldStart : ℕ
  fieldLen : ℕ
  data : HttpResponse
  error : ℤ
  deriving DecidableEq, Repr

namespace HttpResponseParser

/-- `HttpResponseParser()`. -/
def new : HttpResponseParser where
  cs := 1
  bodyStart := 0
  contentLen := -1
  chunked := false
  chunksDone := false
  close := false
  mark := 0
  fieldStart := 0
  fieldLen := 0
  data := .new
  error := 0

/-- `httpclient_parser_init`. -/
def init (s : HttpResponseParser) : HttpResponseParser :=
  { HttpResponseParser.new with data := s.data, error := s.error }

def setError (s : HttpResponseParser) (v : ℤ) : HttpResponseParser := { s with error := v }

def onResponseReason (s : HttpResponseParser) (buffer : List UInt8) (start length : ℕ) :
    Except Fault HttpResponseParser := do
  let text ← stdString buffer start length
  return { s with data := { s.data with reason := text } }

def onResponseStatus (s : HttpResponseParser) (at_ : List UInt8) : HttpResponseParser :=
  { s with data := { s.data with status := atoi at_ } }

def onResponseVersion (s : HttpResponseParser) (at_ : List UInt8) (length : ℕ) : HttpResponseParser :=
  match versionOf at_ length with
  | some v => { s with data := { s.data with version := v } }
  | none => s.setError 1001

/-- The value of a field on the line below `Transfer-Encoding:` or `Content-Length:` comes with
the length of that name, and then the key may go on behind the valid bytes. What follows them
is left out of it here: it begins with the `NUL` that ends the key where keys are compared. -/
def onResponseHttpField (s : HttpResponseParser) (buffer : List UInt8)
    (field flen value vlen : ℕ) : Except Fault HttpResponseParser :=
  if flen = 0 then return s
  else do
    let key ← stdString buffer field flen
    let val ← stdString buffer value vlen
    return { s with data := s.data.setHeader key val }

/-- The action `chunk_size`; the callbacks `chunk_size` and `last_chunk` do nothing. -/
def onChunkSize (s : HttpResponseParser) (at_ : List UInt8) : HttpResponseParser :=
  { s with
    chunked := true, contentLen := toInt (strtol 16 at_)
    chunksDone := toInt (strtol 16 at_) ≤ 0 }

/-- The actions of `httpclient_parser.rl` at position `p`; `header_done` does nothing. -/
def act (buffer : List UInt8) (p : ℕ) (a : HttpClientParserAction) (s : HttpResponseParser) :
    Except Fault HttpResponseParser :=
  match a with
  | .mark => return { s with mark := p }
  | .startField => return { s with fieldStart := p }
  | .writeField => return { s with fieldLen := LEN s.fieldStart p }
  | .writeContentLen => return { s with contentLen := toInt (strtol 10 (buffer.drop s.mark)) }
  | .writeConnectionClose => return { s with close := true }
  | .writeValue =>
    s.onResponseHttpField buffer s.fieldStart s.fieldLen s.mark (LEN s.mark p)
  | .reasonPhrase => s.onResponseReason buffer s.mark (LEN s.mark p)
  | .statusCode => return s.onResponseStatus (buffer.drop s.mark)
  | .httpVersion => return s.onResponseVersion (buffer.drop s.mark) (LEN s.mark p)
  | .chunkSize => return s.onChunkSize (buffer.drop s.mark)
  | .transChunked => return { s with chunked := true }
  | .done => return { s with bodyStart := p + 1 }

/-- The reset at the start of `httpclient_parser_execute`. -/
def reset (s : HttpResponseParser) : HttpResponseParser :=
  { s with mark := 0, fieldLen := 0, fieldStart := 0 }

/-- The state of the automaton after the loop. -/
def stateAfter : Scanner.Ending → ℕ
  | .reading t => t
  | .left t => t
  | .stuck => 0

/-- The checks at the end of `httpclient_parser_execute`, which returns -1 when one fails. The
length of the buffer is an `int` where it is called. -/
def checked (s : HttpResponseParser) (len : ℕ) : Bool :=
  s.mark < len && s.fieldLen ≤ len && s.fieldStart < len

def httpclientParserExecute (s : HttpResponseParser) (buffer : List UInt8) :
    Except Fault (ℤ × HttpResponseParser) := do
  let (nread, ending, t) ← responseScanner.run (act buffer) 0 s.cs buffer s.reset
  let t := { t with cs := stateAfter ending }
  if t.bodyStart ≤ buffer.length then
    return (if t.checked buffer.length then nread else -1, t)
  else throw .assertion

/-- What is left in the buffer, and the parser after it. -/
def execute (s : HttpResponseParser) (data : List UInt8) (chunck : Bool) :
    Except Fault (List UInt8 × HttpResponseParser) := do
  let (offset, s) ← (if chunck then s.init else s).httpclientParserExecute data
  if 0 ≤ offset ∧ offset ≤ data.length then return (data.drop offset.toNat, s)
  else throw (.outside (data.length - offset) data.length)

def hasError (s : HttpResponseParser) : Bool := s.error != 0 || s.cs == 0

/-- `httpclient_parser_finish(&m_parser)`, which is -1 after an error. -/
def isFinished (s : HttpResponseParser) : ℤ :=
  if s.cs = 0 then -1 else if s.cs = 120 then 1 else 0

def getContentLength (s : HttpResponseParser) (lexicalCast : List UInt8 → Option UInt64) : UInt64 :=
  s.data.headers.getAs lexicalCast (ascii "content-length")

theorem hasError_false {s : HttpResponseParser} (he : s.error = 0) (hcs : s.cs ≠ 0) : s.hasError = false := by
  rw [hasError, he, beq_eq_false_iff_ne.mpr hcs]
  rfl

/-! ## Registers -/

/-- The registers that hold positions are not behind the position `p`. -/
structure Upto (p : ℕ) (s : HttpResponseParser) : Prop where
  mark : s.mark ≤ p
  fieldStart : s.fieldStart ≤ p
  fieldLen : s.fieldLen ≤ p

section
variable {s : HttpResponseParser} {p q : ℕ} {buffer : List UInt8}

theorem Upto.mono (h : s.Upto p) (hpq : p ≤ q) : s.Upto q :=
  ⟨h.mark.trans hpq, h.fieldStart.trans hpq, h.fieldLen.trans hpq⟩

theorem upto_reset (s : HttpResponseParser) : s.reset.Upto 0 :=
  ⟨Nat.le_refl 0, Nat.le_refl 0, Nat.le_refl 0⟩

theorem stdString_ok {start length : ℕ} (h : length < 2 ^ 63) :
    stdString buffer start length = .ok ((buffer.drop start).take length) := if_pos h

theorem LEN_le {start p : ℕ} (h : start ≤ p) : LEN start p = p - start := if_pos h

/-- What an action does to the registers from which the loops around the parser go on. -/
structure Acts (p : ℕ) (a : HttpClientParserAction) (s t : HttpResponseParser) : Prop where
  upto : t.Upto p
  bodyStart : t.bodyStart = if a = .done then p + 1 else s.bodyStart
  chunked : t.chunked = (s.chunked || a == .transChunked || a == .chunkSize)
  error : a ≠ .httpVersion → t.error = s.error

theorem Upto.act (h : s.Upto p) (hp : p ≤ intMax) (a : HttpClientParserAction) :
    ∃ t, act buffer p a s = .ok t ∧ Acts p a s t := by
  have hlen : LEN s.mark p < 2 ^ 63 := by
    rw [LEN_le h.mark]
    unfold intMax at hp
    omega
  have hfield : s.fieldLen < 2 ^ 63 := by
    have := h.fieldLen
    unfold intMax at hp
    omega
  have hplain : (s.chunked || false || false) = s.chunked := by rw [Bool.or_false, Bool.or_false]
  cases a with
  | mark => exact ⟨_, rfl, ⟨Nat.le_refl p, h.fieldStart, h.fieldLen⟩, rfl, hplain.symm, fun _ => rfl⟩
  | startField => exact ⟨_, rfl, ⟨h.mark, Nat.le_refl p, h.fieldLen⟩, rfl, hplain.symm, fun _ => rfl⟩
  | writeField =>
    refine ⟨_, rfl, ⟨h.mark, h.fieldStart, ?_⟩, rfl, hplain.symm, fun _ => rfl⟩
    rw [LEN_le h.fieldStart]
    exact Nat.sub_le p _
  | writeContentLen => exact ⟨_, rfl, ⟨h.mark, h.fieldStart, h.fieldLen⟩, rfl, hplain.symm, fun _ => rfl⟩
  | writeConnectionClose =>
    exact ⟨_, rfl, ⟨h.mark, h.fieldStart, h.fieldLen⟩, rfl, hplain.symm, fun _ => rfl⟩
  | writeValue =>
    by_cases hzero : s.fieldLen = 0
    · exact ⟨s, if_pos hzero, h, rfl, hplain.symm, fun _ => rfl⟩
    · have hact : HttpResponseParser.act buffer p .writeValue s = .ok { s with
          data := s.data.setHeader ((buffer.drop s.fieldStart).take s.fieldLen)
            ((buffer.drop s.mark).take (LEN s.mark p)) } := by
        rw [HttpResponseParser.act, onResponseHttpField, if_neg hzero, stdString_ok hfield,
          stdString_ok hlen]
        rfl
      exact ⟨_, hact, ⟨h.mark, h.fieldStart, h.fieldLen⟩, rfl, hplain.symm, fun _ => rfl⟩
  | reasonPhrase =>
    have hact : HttpResponseParser.act buffer p .reasonPhrase s = .ok { s with
        data := { s.data with reason := (buffer.drop s.mark).take (LEN s.mark p) } } := by
      rw [HttpResponseParser.act, onResponseReason, stdString_ok hlen]
      rfl
    exact ⟨_, hact, ⟨h.mark, h.fieldStart, h.fieldLen⟩, rfl, hplain.symm, fun _ => rfl⟩
  | statusCode => exact ⟨_, rfl, ⟨h.mark, h.fieldStart, h.fieldLen⟩, rfl, hplain.symm, fun _ => rfl⟩
  | httpVersion =>
    refine ⟨s.onResponseVersion (buffer.drop s.mark) (LEN s.mark p), rfl, ?_⟩
    unfold onResponseVersion
    split <;>
      exact ⟨⟨h.mark, h.fieldStart, h.fieldLen⟩, rfl, hplain.symm, fun hne => absurd rfl hne⟩
  | chunkSize =>
    exact ⟨_, rfl, ⟨h.mark, h.fieldStart, h.fieldLen⟩, rfl, (Bool.or_true _).symm, fun _ => rfl⟩
  | transChunked =>
    refine ⟨_, rfl, ⟨h.mark, h.fieldStart, h.fieldLen⟩, rfl, ?_, fun _ => rfl⟩
    exact ((Bool.or_false _).trans (Bool.or_true _)).symm
  | done => exact ⟨_, rfl, ⟨h.mark, h.fieldStart, h.fieldLen⟩, rfl, hplain.symm, fun _ => rfl⟩

/-- What a run over a text of `n` bytes does to them. -/
structure Performs (n : ℕ) (es : List (ℕ × HttpClientParserAction)) (s t : HttpResponseParser) : Prop where
  upto : t.Upto (n - 1)
  bodyStart : t.bodyStart = s.bodyStart ∨ t.bodyStart ≤ n
  chunked : t.chunked = (s.chunked || es.any (fun e => e.2 == .transChunked || e.2 == .chunkSize))
  error : (∀ e ∈ es, e.2 ≠ .httpVersion) → t.error = s.error

/-- By induction on the trace; the positions in the registers stay behind it. -/
theorem perform_spec {n : ℕ} (hn : n ≤ intMax) (h : s.Upto p) (hp : p < n)
    {es : List (ℕ × HttpClientParserAction)} (hsorted : es.Pairwise (fun e f => e.1 ≤ f.1))
    (hpos : ∀ e ∈ es, p ≤ e.1 ∧ e.1 < n) :
    ∃ t, Scanner.perform (act buffer) es s = .ok t ∧ Performs n es s t := by
  induction es generalizing s p with
  | nil => exact ⟨s, rfl, h.mono (by omega), Or.inl rfl, (Bool.or_false _).symm, fun _ => rfl⟩
  | cons e es ih =>
    obtain ⟨hpe, hen⟩ := hpos e List.mem_cons_self
    obtain ⟨hhead, htail⟩ := List.pairwise_cons.mp hsorted
    obtain ⟨u, hact, hacts⟩ := @Upto.act _ _ buffer (h.mono hpe) (by omega) e.2
    obtain ⟨t, hrun, ht⟩ := ih hacts.upto hen htail
      (fun f hf => ⟨hhead f hf, (hpos f (List.mem_cons_of_mem e hf)).2⟩)
    refine ⟨t, ?_, ht.upto, ?_, ?_, fun hver => ?_⟩
    · rw [Scanner.perform, List.foldlM_cons, hact]
      exact hrun
    · rcases ht.bodyStart with hbody | hbody
      · rw [hbody, hacts.bodyStart]
        split
        · exact Or.inr hen
        · exact Or.inl rfl
      · exact Or.inr hbody
    · rw [ht.chunked, hacts.chunked, List.any_cons, Bool.or_assoc, Bool.or_assoc, Bool.or_assoc]
    · obtain ⟨he, hes⟩ := List.forall_mem_cons.mp hver
      exact (ht.error hes).trans (hacts.error he)

theorem Upto.checked {n : ℕ} (h : s.Upto (n - 1)) (hn : 0 < n) : s.checked n = true := by
  have hmark := h.mark
  have hfield := h.fieldStart
  have hlen := h.fieldLen
  rw [HttpResponseParser.checked, decide_eq_true (by omega), decide_eq_true (by omega),
    decide_eq_true (by omega)]
  rfl

/-- A run whose registers pass the checks. -/
theorem execute_of_run {k : ℕ} {e : Scanner.Ending} {t : HttpResponseParser}
    (hrun : responseScanner.run (act buffer) 0 s.cs buffer s.reset = .ok (k, e, t))
    (hk : k ≤ buffer.length) (hbody : t.bodyStart ≤ buffer.length)
    (hchecked : t.checked buffer.length = true) :
    s.execute buffer false = .ok (buffer.drop k, { t with cs := stateAfter e }) := by
  have hcs : ({ t with cs := stateAfter e } : HttpResponseParser).checked buffer.length = true := hchecked
  have hin : 0 ≤ (k : ℤ) ∧ (k : ℤ) ≤ buffer.length := by omega
  rw [execute, httpclientParserExecute, if_neg Bool.false_ne_true, hrun]
  dsimp only [bind, Except.bind, pure, Except.pure]
  rw [if_pos hbody, if_pos hcs]
  dsimp only
  rw [if_pos hin, Int.toNat_natCast]

/-- The registers of every run pass them. -/
theorem execute_run {k : ℕ} {e : Scanner.Ending} {t : HttpResponseParser}
    (hrun : responseScanner.run (act buffer) 0 s.cs buffer s.reset = .ok (k, e, t)) (hne : buffer ≠ [])
    (hlen : buffer.length ≤ intMax) (hbody : s.bodyStart ≤ buffer.length) :
    s.execute buffer false = .ok (buffer.drop k, { t with cs := stateAfter e }) := by
  have hpos : 0 < buffer.length := List.length_pos_iff.mpr hne
  obtain ⟨u, hperform, hu⟩ := @perform_spec s.reset 0 buffer _ hlen (upto_reset s) hpos _
    (Scanner.trace_pairwise 0 s.cs buffer) (fun _ he => ⟨Nat.zero_le _, Scanner.position_lt he⟩)
  have hsame := hrun
  rw [Scanner.run_eq, hperform, Nat.zero_add] at hsame
  obtain ⟨rfl, -, rfl⟩ : (responseScanner.stop s.cs buffer).1 = k ∧
      (responseScanner.stop s.cs buffer).2 = e ∧ u = t := by simpa [Except.map] using hsame
  exact execute_of_run hrun (Scanner.stop_le s.cs buffer)
    (hu.bodyStart.elim (fun h => h.trans_le hbody) id) (hu.upto.checked hpos)

/-- What happens to a piece: the scanner tells how much of it is consumed. -/
theorem execute_spec (hne : buffer ≠ []) (hlen : buffer.length ≤ intMax) (s : HttpResponseParser) :
    ∃ t, Performs buffer.length (responseScanner.trace 0 s.cs buffer) s t ∧
      t.cs = stateAfter (responseScanner.stop s.cs buffer).2 ∧
      s.execute buffer false = if t.bodyStart ≤ buffer.length then
        .ok (buffer.drop (responseScanner.stop s.cs buffer).1, t) else .error .assertion := by
  have hpos : 0 < buffer.length := List.length_pos_iff.mpr hne
  obtain ⟨t, hrun, ht⟩ := @perform_spec s.reset 0 buffer _ hlen (upto_reset s) hpos _
    (Scanner.trace_pairwise 0 s.cs buffer) (fun _ he => ⟨Nat.zero_le _, Scanner.position_lt he⟩)
  have hk := Scanner.stop_le (m := responseScanner) s.cs buffer
  refine ⟨{ t with cs := stateAfter (responseScanner.stop s.cs buffer).2 },
    ⟨⟨ht.upto.mark, ht.upto.fieldStart, ht.upto.fieldLen⟩, ht.bodyStart, ht.chunked, ht.error⟩, rfl, ?_⟩
  by_cases hbody : t.bodyStart ≤ buffer.length
  · rw [if_pos hbody]
    refine execute_of_run ?_ hk hbody (ht.upto.checked hpos)
    rw [Scanner.run_eq, hrun, Nat.zero_add]
    rfl
  · rw [if_neg hbody, execute, httpclientParserExecute, if_neg Bool.false_ne_true, Scanner.run_eq, hrun]
    dsimp only [Except.map, bind, Except.bind, pure, Except.pure]
    rw [if_neg hbody]
    rfl

theorem httpclientParserExecute_ok {r : ℤ} {t : HttpResponseParser}
    (h : s.httpclientParserExecute buffer = .ok (r, t)) :
    t.cs = stateAfter (responseScanner.stop s.cs buffer).2 ∧
      (r = -1 ∨ buffer ≠ [] ∧ r = ((responseScanner.stop s.cs buffer).1 : ℤ)) := by
  rw [httpclientParserExecute, Scanner.run_eq] at h
  cases hrun : Scanner.perform (act buffer) (responseScanner.trace 0 s.cs buffer) s.reset with
  | error e =>
    rw [hrun] at h
    cases h
  | ok u =>
    rw [hrun] at h
    simp only [Except.map, bind, Except.bind, pure, Except.pure, Nat.zero_add] at h
    split at h
    · obtain ⟨rfl, rfl⟩ := Prod.mk.inj (Except.ok.inj h)
      refine ⟨rfl, ?_⟩
      split
      · rename_i hchecked
        refine Or.inr ⟨fun hnil => ?_, rfl⟩
        rw [hnil, checked, Bool.and_eq_true, Bool.and_eq_true, decide_eq_true_eq] at hchecked
        exact Nat.not_lt_zero _ hchecked.1.1
      · exact Or.inl rfl
    · cases h

/-- A piece that is no error is consumed in part or in full. -/
theorem execute_drop {data data' : List UInt8} {s s' : HttpResponseParser} {chunck : Bool}
    (h : s.execute data chunck = .ok (data', s')) :
    ∃ k ≤ data.length, data' = data.drop k ∧ (s'.hasError = false → 0 < k) := by
  rw [execute] at h
  generalize (if chunck = true then s.init else s) = u at h
  cases hexec : u.httpclientParserExecute data with
  | error e =>
    rw [hexec] at h
    cases h
  | ok out =>
    obtain ⟨r, t⟩ := out
    obtain ⟨hcs, hr⟩ := httpclientParserExecute_ok hexec
    rw [hexec] at h
    simp only [bind, Except.bind] at h
    by_cases hin : 0 ≤ r ∧ r ≤ data.length
    · rw [if_pos hin] at h
      obtain ⟨rfl, rfl⟩ := Prod.mk.inj (Except.ok.inj h)
      refine ⟨r.toNat, by omega, rfl, fun herr => ?_⟩
      obtain ⟨hne, hstop⟩ := hr.resolve_left (by omega)
      by_contra hzero
      obtain ⟨b, bs, rfl⟩ := List.exists_cons_of_ne_nil hne
      have hstuck : (responseScanner.stop u.cs (b :: bs)).2 = .stuck :=
        Scanner.stuck_of_stop_zero (by omega)
      rw [hasError, hcs, hstuck, stateAfter, Bool.or_eq_false_iff] at herr
      cases herr.2
    · rw [if_neg hin] at h
      cases h

/-- The head of a chunk is read by a parser that is set back. -/
theorem execute_chunk (s : HttpResponseParser) (data : List UInt8) :
    s.execute data true = s.init.execute data false := rfl

end
end HttpResponseParser
end Flz.Http
