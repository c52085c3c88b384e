import Mathlib.Data.List.Nodup
import Flz.Http.Printed
import Flz.Http.ResponseHead
import Flz.Http.SizeLine

/-! # The parts of a printed response

`HttpResponse::dump` of `http/http.cc`, and how the grammar of the client reads each part of what
it prints. A name that the grammar knows has states of its own, and its value as well; whichever
of them a field goes through, it is stored as any other one.
-/
namespace Flz.Http
open Lib

/-- `HTTP_STATUS_MAP`. -/
def httpStatusMap : List (ℕ × String) :=
  [(100, "Continue"), (101, "Switching Protocols"), (102, "Processing"), (200, "OK"),
   (201, "Created"), (202, "Accepted"), (203, "Non-Authoritative Information"),
   (204, "No Content"), (205, "Reset Content"), (206, "Partial Content"), (207, "Multi-Status"),
   (208, "Already Reported"), (226, "IM Used"), (300, "Multiple Choices"),
   (301, "Moved Permanently"), (302, "Found"), (303, "See Other"), (304, "Not Modified"),
   (305, "Use Proxy"), (307, "Temporary Redirect"), (308, "Permanent Redirect"),
   (400, "Bad Request"), (401, "Unauthorized"), (402, "Payment Required"), (403, "Forbidden"),
   (404, "Not Found"), (405, "Method Not Allowed"), (406, "Not Acceptable"),
   (407, "Proxy Authentication Required"), (408, "Request Timeout"), (409, "Conflict"),
   (410, "Gone"), (411, "Length Required"), (412, "Precondition Failed"),
   (413, "Payload Too Large"), (414, "URI Too Long"), (415, "Unsupported Media Type"),
   (416, "Range Not Satisfiable"), (417, "Expectation Failed"), (421, "Misdirected Request"),
   (422, "Unprocessable Entity"), (423, "Locked"), (424, "Failed Dependency"),
   (426, "Upgrade Required"), (428, "Precondition Required"), (429, "Too Many Requests"),
   (431, "Request Header Fields Too Large"), (451, "Unavailable For Legal Reasons"),
   (500, "Internal Server Error"), (501, "Not Implemented"), (502, "Bad Gateway"),
   (503, "Service Unavailable"), (504, "Gateway Timeout"), (505, "HTTP Version Not Supported"),
   (506, "Variant Also Negotiates"), (507, "Insufficient Storage"), (508, "Loop Detected"),
   (510, "Not Extended"), (511, "Network Authentication Required")]

/-- `HttpStatusToString`. -/
def HttpStatusToString (s : ℤ) : List UInt8 :=
  ascii (((httpStatusMap.find? (fun e => (e.1 : ℤ) == s)).map Prod.snd).getD "<unknown>")

namespace HttpResponse

/-- The reason that is printed. -/
def shownReason (r : HttpResponse) : List UInt8 :=
  if r.reason = [] then HttpStatusToString r.status else r.reason

def statusLine (r : HttpResponse) : List UInt8 :=
  ascii "HTTP/" ++ decimal (r.version.toNat / 16) ++ ascii "." ++ decimal (r.version.toNat % 16) ++
    ascii " " ++ decimal (r.status % 2 ^ 32).toNat ++ ascii " " ++ r.shownReason ++ ascii "\r\n"

/-- The fields that are printed; `websocket` is `m_websocket` and `cookies` are `m_cookies`. -/
def printedFields (r : HttpResponse) (websocket : Bool) (cookies : List (List UInt8)) :
    List (List UInt8 × List UInt8) :=
  r.headers.filter (fun e => websocket || strcasecmp e.1 (ascii "connection") != .eq) ++
    cookies.map (fun c => (ascii "Set-Cookie", c)) ++
    (if websocket then [] else [(ascii "connection", connectionValue r.close)]) ++
    if r.body = [] then [] else [(ascii "content-length", decimal r.body.length)]

def dump (r : HttpResponse) (websocket : Bool) (cookies : List (List UInt8)) : List UInt8 :=
  r.statusLine ++ (r.printedFields websocket cookies).flatMap fieldLine ++ ascii "\r\n" ++ r.body

end HttpResponse

/-! ## The states that are passed -/

/-- In a name, when no line was taken for a value before. -/
def headNames : List ℕ := 21 :: List.range' 25 10 ++ List.range' 44 17 ++ List.range' 101 11

/-- Behind the colon. -/
def blankStates : List ℕ := [22, 35, 61, 112]

/-- In a value. -/
def textStates : List ℕ := 23 :: List.range' 81 7 ++ List.range' 96 5 ++ [119]

/-- The characters with which a value begins. -/
def firstChar : ByteClass := [(33, 126), (128, 255)]

/-- The letters that were read of the value that announces chunks. -/
def valueLabel (t : ℕ) : Option (List UInt8) :=
  if t = 61 then some []
  else if 81 ≤ t ∧ t ≤ 87 then some ((ascii "chunked").take (t - 80))
  else none

def responseDoes (S : List ℕ) (c : ByteClass) (as : List HttpClientParserAction) (T : List ℕ) : Bool :=
  Scanner.does ResponseTable.rows S c as T

set_option maxRecDepth 20000 in
theorem nameDoes :
    responseDoes [20] tokenChar [.startField] headNames = true ∧
    responseDoes [43] tokenChar [.writeConnectionClose, .startField] headNames = true ∧
    responseDoes headNames tokenChar [] headNames = true ∧
    responseDoes headNames (ByteClass.byte 58) [.writeField] blankStates = true ∧
    responseDoes (headNames.filter (· != 60)) (ByteClass.byte 58) [.writeField] [22, 35, 112] = true ∧
    responseDoes (headNames.filter (!knownNames.contains ·)) (ByteClass.byte 58) [.writeField] [22] =
      true := by
  decide +kernel

set_option maxRecDepth 20000 in
theorem blankDoes :
    (∀ s ∈ blankStates, responseScanner.arc s 32 = some ([.mark], s)) ∧
    responseScanner.arc 22 13 = some ([.mark, .writeValue], 24) := by
  decide +kernel

set_option maxRecDepth 20000 in
theorem valueDoes :
    responseDoes blankStates firstChar [.mark] textStates = true ∧
    responseDoes textStates valueChar [] textStates = true ∧
    responseDoes (23 :: List.range' 81 6 ++ List.range' 96 4) (ByteClass.byte 13) [.writeValue] [24] =
      true ∧
    responseDoes [100] (ByteClass.byte 13) [.writeValue] [88] = true ∧
    responseDoes [119] (ByteClass.byte 13) [.writeContentLen, .writeValue] [24] = true ∧
    responseDoes [24] (ByteClass.byte 10) [] [20] = true ∧
    responseDoes [88] (ByteClass.byte 10) [] [43] = true := by
  decide +kernel

set_option maxRecDepth 20000 in
theorem valueLabels :
    Scanner.labels ResponseTable.rows tolower firstChar valueLabel blankStates = true ∧
    Scanner.labels ResponseTable.rows tolower valueChar valueLabel textStates = true ∧
    responseLeads textStates valueChar textStates = true := by
  decide +kernel

/-! ## What is read -/

/-- A parser that has made `d` of its response, and that is as before as far as chunks and errors
are concerned. -/
structure HttpResponseParser.Makes (d : HttpResponse) (s t : HttpResponseParser) : Prop where
  data : t.data = d
  chunked : t.chunked = s.chunked
  error : t.error = s.error

/-- A field that announces chunks. -/
def IsChunked (e : List UInt8 × List UInt8) : Prop :=
  e.1.map tolower = ascii "transfer-encoding" ∧ e.2.map tolower = ascii "chunked"

instance (e : List UInt8 × List UInt8) : Decidable (IsChunked e) := by
  unfold IsChunked
  infer_instance

/-- A field that the grammar of the client takes as it stands: it has a value, or a name that the
grammar does not know, and it does not announce chunks. -/
structure IsPlainField (e : List UInt8 × List UInt8) : Prop where
  isField : IsField e
  closes : e.2 ≠ [] ∨
    e.1.map tolower ∉ [ascii "connection", ascii "transfer-encoding", ascii "content-length"]
  plain : ¬ IsChunked e

section
variable {w name value xs rest : List UInt8} {p s t : ℕ} {σ σ' σ'' : HttpResponseParser}
  {d d' : HttpResponse} {e : List UInt8 × List UInt8}

/-- From the state `s` and the place `p` of the text `w`, reading `xs` leads to the state `t` and
makes `σ'` of the parser `σ`. -/
abbrev ResponseReads (w : List UInt8) (p s : ℕ) (σ : HttpResponseParser) (xs : List UInt8) (t : ℕ)
    (σ' : HttpResponseParser) : Prop := responseScanner.Reads (HttpResponseParser.act w) p s σ xs t σ'

namespace HttpResponseParser

theorem Makes.refl (s : HttpResponseParser) : Makes s.data s s := ⟨rfl, rfl, rfl⟩

theorem Makes.trans (h : Makes d σ σ') (h' : Makes d' σ' σ'') : Makes d' σ σ'' :=
  ⟨h'.data, h'.chunked.trans h.chunked, h'.error.trans h.error⟩

/-- Before the end of the line the registers show a name and a value. -/
structure Shows (w : List UInt8) (p : ℕ) (name value : List UInt8) (s : HttpResponseParser) : Prop where
  name_ne : s.fieldLen ≠ 0
  name : stdString w s.fieldStart s.fieldLen = .ok name
  value : stdString w s.mark (LEN s.mark p) = .ok value

theorem Shows.act (h : Shows w p name value σ) :
    HttpResponseParser.act w p .writeValue σ = .ok { σ with data := σ.data.setHeader name value } := by
  rw [HttpResponseParser.act, onResponseHttpField, if_neg h.name_ne, h.name, h.value]
  rfl

end HttpResponseParser

open HttpResponseParser

theorem stdString_of_drop (h : w.drop p = xs ++ rest) (hlen : w.length ≤ intMax) :
    stdString w p xs.length = .ok xs := by
  have hle := congrArg List.length h
  rw [List.length_drop, List.length_append] at hle
  unfold intMax at hlen
  rw [HttpResponseParser.stdString_ok (by omega), h, List.take_left]

/-! ## A field -/

theorem responseDoes_byte {S T : List ℕ} {b : UInt8} {as : List HttpClientParserAction}
    (h : responseDoes S (ByteClass.byte b) as T = true) (hstay : as.any (· == .done) = false) (hs : s ∈ S)
    (hact : as.foldlM (fun r a => HttpResponseParser.act w p a r) σ = .ok σ') :
    ∃ t ∈ T, ResponseReads w p s σ [b] t σ' :=
  Scanner.reads_step h hstay hs (byte_holds b) hact

theorem responseDoes_word {S T : List ℕ} {c c' : ByteClass} {b : UInt8}
    {as : List HttpClientParserAction} (hfirst : responseDoes S c as T = true)
    (hstay : as.any (· == .done) = false) (hloop : responseDoes T c' [] T = true) (hs : s ∈ S)
    (hb : c.holds b = true) (hxs : ∀ b ∈ xs, c'.holds b = true)
    (hact : as.foldlM (fun r a => HttpResponseParser.act w p a r) σ = .ok σ') :
    ∃ t ∈ T, ResponseReads w p s σ (b :: xs) t σ' :=
  Scanner.reads_word hfirst hstay hloop hs hb hxs hact

/-- The name of a field. -/
theorem name_reads (hs : s ∈ [20, 43]) (hne : name ≠ []) (hname : ∀ b ∈ name, tokenChar.holds b = true) :
    ∃ t ∈ headNames, ∃ σ', ResponseReads w p s σ name t σ' ∧ σ'.fieldStart = p ∧ Makes σ.data σ σ' := by
  obtain ⟨hstart, hclose, hloop, -⟩ := nameDoes
  obtain ⟨b, more, rfl⟩ := List.exists_cons_of_ne_nil hne
  obtain ⟨hb, hmore⟩ := List.forall_mem_cons.mp hname
  rcases List.mem_cons.mp hs with rfl | hs
  · obtain ⟨t, ht, hread⟩ := responseDoes_word (w := w) (p := p) (σ := σ) hstart rfl hloop
      List.mem_cons_self hb hmore rfl
    exact ⟨t, ht, _, hread, rfl, ⟨rfl, rfl, rfl⟩⟩
  · rw [List.mem_singleton.mp hs]
    obtain ⟨t, ht, hread⟩ := responseDoes_word (w := w) (p := p) (σ := σ) hclose rfl hloop
      List.mem_cons_self hb hmore rfl
    exact ⟨t, ht, _, hread, rfl, ⟨rfl, rfl, rfl⟩⟩

/-- The end of a value that does not announce chunks. -/
theorem value_ends (ht : t ∈ textStates) (hne : t ≠ 87) (h : Shows w p name value σ) :
    ∃ u ∈ [20, 43], ∃ σ', ResponseReads w p t σ (ascii "\r\n") u σ' ∧
      Makes (σ.data.setHeader name value) σ σ' := by
  obtain ⟨-, -, hplain, hclose, hlength, hline, hline'⟩ := valueDoes
  have hact := h.act
  by_cases h100 : t = 100
  · obtain ⟨u, hu, hread⟩ := responseDoes_byte hclose rfl (List.mem_singleton.mpr h100)
      (w := w) (p := p) (σ := σ) (by rw [List.foldlM_cons, hact]; rfl)
    obtain ⟨v, hv, hread'⟩ := responseDoes_byte (w := w) (p := p + 1) hline' rfl hu rfl
    exact ⟨v, List.mem_cons_of_mem 20 hv, _, hread.append hread', ⟨rfl, rfl, rfl⟩⟩
  · have hnext : ∃ u ∈ [24], ∃ σ', ResponseReads w p t σ [13] u σ' ∧
        Makes (σ.data.setHeader name value) σ σ' := by
      by_cases h119 : t = 119
      · have hlen : HttpResponseParser.act w p .writeContentLen σ =
            .ok { σ with contentLen := toInt (strtol 10 (w.drop σ.mark)) } := rfl
        have hstored : Shows w p name value
            { σ with contentLen := toInt (strtol 10 (w.drop σ.mark)) } := ⟨h.name_ne, h.name, h.value⟩
        obtain ⟨u, hu, hread⟩ := responseDoes_byte hlength rfl (List.mem_singleton.mpr h119)
          (w := w) (p := p) (σ := σ)
          (by rw [List.foldlM_cons, hlen]; exact (congrArg (· >>= _) hstored.act).trans rfl)
        exact ⟨u, hu, _, hread, ⟨rfl, rfl, rfl⟩⟩
      · have ht' : t ∈ 23 :: List.range' 81 6 ++ List.range' 96 4 := by
          simp only [textStates, List.mem_append, List.mem_cons, List.mem_range'_1, List.not_mem_nil,
            or_false, List.cons_append] at ht ⊢
          omega
        obtain ⟨u, hu, hread⟩ := responseDoes_byte hplain rfl ht'
          (w := w) (p := p) (σ := σ) (by rw [List.foldlM_cons, hact]; rfl)
        exact ⟨u, hu, _, hread, ⟨rfl, rfl, rfl⟩⟩
    obtain ⟨u, hu, σ', hread, hmakes⟩ := hnext
    obtain ⟨v, hv, hread'⟩ := responseDoes_byte (w := w) (p := p + 1) hline rfl hu rfl
    exact ⟨v, List.mem_cons.mpr (Or.inl (List.mem_singleton.mp hv)), σ', hread.append hread', hmakes⟩

/-- Behind a value that announces no chunks the automaton does not wait for the end of such a one. -/
theorem value_label {b : UInt8} {u : ℕ} {as : List HttpClientParserAction} (hs : s ∈ blankStates)
    (hchunk : s = 61 → (b :: xs).map tolower ≠ ascii "chunked") (hb : firstChar.holds b = true)
    (harc : responseScanner.arc s b = some (as, u)) (hu : u ∈ textStates)
    (hxs : ∀ b ∈ xs, valueChar.holds b = true) (hwalk : responseScanner.Walks u xs t) : t ≠ 87 := by
  obtain ⟨hfirst, hmore, hloop⟩ := valueLabels
  rintro rfl
  have hwhole : ∀ before, (∀ l, valueLabel u = some l → l = before) →
      ascii "chunked" = before ++ xs.map tolower := fun before hbefore =>
    Scanner.label_walk hmore hloop hu hxs hbefore hwalk rfl
  have hlabel : ∀ l, valueLabel u = some l → s = 61 ∧ l = [tolower b] := by
    intro l hl
    obtain ⟨l', hl', rfl⟩ := Scanner.label_arc hfirst hs hb harc hl
    simp only [blankStates, List.mem_cons, List.not_mem_nil, or_false] at hs
    rcases hs with rfl | rfl | rfl | rfl <;> cases hl'
    exact ⟨rfl, rfl⟩
  by_cases h61 : s = 61
  · exact hchunk h61 (hwhole [tolower b] fun l hl => (hlabel l hl).2).symm
  · have hlong := congrArg List.length (hwhole (List.replicate 8 0) fun l hl => absurd (hlabel l hl).1 h61)
    rw [List.length_append, List.length_replicate] at hlong
    have hshort : (ascii "chunked").length = 7 := rfl
    omega

/-- A value with the end of its line, after the blank behind the colon. -/
theorem value_reads (hs : s ∈ blankStates) (hchunk : s = 61 → value.map tolower ≠ ascii "chunked")
    (hne : value ≠ []) (hvalue : ∀ b ∈ value, valueChar.holds b = true)
    (hhead : ∀ b ∈ value.head?, b ≠ 32) (hw : w.drop p = value ++ rest) (hlen : w.length ≤ intMax)
    (hnamed : σ.fieldLen ≠ 0) (hname : stdString w σ.fieldStart σ.fieldLen = .ok name) :
    ∃ t ∈ [20, 43], ∃ σ', ResponseReads w p s σ (value ++ ascii "\r\n") t σ' ∧
      Makes (σ.data.setHeader name value) σ σ' := by
  obtain ⟨hfirst, hloop, -⟩ := valueDoes
  obtain ⟨b, more, rfl⟩ := List.exists_cons_of_ne_nil hne
  obtain ⟨hb, hmore⟩ := List.forall_mem_cons.mp hvalue
  have hb' : firstChar.holds b = true := valueChar_of_ne hb (hhead b rfl)
  obtain ⟨u, hu, harc⟩ : ∃ u ∈ textStates, responseScanner.arc s b = some ([.mark], u) :=
    Scanner.arc_of_does hfirst hs hb'
  obtain ⟨v, hv, hread⟩ : ∃ v ∈ textStates,
      ResponseReads w (p + 1) u { σ with mark := p } more v { σ with mark := p } :=
    Scanner.reads_loop hloop hu hmore
  have hnot := value_label hs hchunk hb' harc hu hmore hread.walks
  have hshows : Shows w (p + (b :: more).length) name (b :: more) { σ with mark := p } := by
    refine ⟨hnamed, hname, ?_⟩
    rw [LEN_le (Nat.le_add_right _ _), Nat.add_sub_cancel_left]
    exact stdString_of_drop hw hlen
  obtain ⟨t, ht, σ', hend, hmakes⟩ := value_ends hv hnot hshows
  have hall : ResponseReads w p s σ (b :: more) v { σ with mark := p } :=
    Scanner.Reads.cons harc rfl rfl hread
  exact ⟨t, ht, σ', hall.append hend, hmakes.data, hmakes.chunked, hmakes.error⟩

/-- A field without a value. -/
theorem empty_value_reads (hnamed : σ.fieldLen ≠ 0)
    (hname : stdString w σ.fieldStart σ.fieldLen = .ok name) :
    ∃ t ∈ [20, 43], ∃ σ', ResponseReads w p 22 σ (ascii "\r\n") t σ' ∧
      Makes (σ.data.setHeader name []) σ σ' := by
  obtain ⟨-, -, -, -, -, hline, -⟩ := valueDoes
  have hshows : Shows w p name [] { σ with mark := p } := by
    refine ⟨hnamed, hname, ?_⟩
    rw [LEN_le (Nat.le_refl _), Nat.sub_self]
    rfl
  have hmark : HttpResponseParser.act w p .mark σ = .ok { σ with mark := p } := rfl
  have hreturn : ResponseReads w p 22 σ [13] 24 { σ with mark := p, data := σ.data.setHeader name [] } := by
    refine Scanner.Reads.cons blankDoes.2 rfl ?_ Scanner.Reads.nil
    rw [List.foldlM_cons, hmark]
    exact (congrArg (· >>= _) hshows.act).trans rfl
  obtain ⟨v, hv, hread⟩ := responseDoes_byte (w := w) (p := p + 1) hline rfl List.mem_cons_self rfl
  exact ⟨v, List.mem_cons.mpr (Or.inl (List.mem_singleton.mp hv)), _, hreturn.append hread, rfl, rfl, rfl⟩

/-- The states that can be reached behind a name and the colon. -/
theorem colon_states {a : ℕ} (hs : s ∈ [20, 43]) (hname : ∀ b ∈ name, tokenChar.holds b = true)
    (ha : a ∈ headNames) (hwalk : responseScanner.Walks s name a)
    (hcloses : value ≠ [] ∨
      name.map tolower ∉ [ascii "connection", ascii "transfer-encoding", ascii "content-length"]) :
    ∃ T, responseDoes [a] (ByteClass.byte 58) [.writeField] T = true ∧ (∀ c ∈ T, c ∈ blankStates) ∧
      (61 ∈ T → name.map tolower = ascii "transfer-encoding") ∧ (value = [] → T = [22]) := by
  obtain ⟨-, -, -, hcolon, hother, hunknown⟩ := nameDoes
  have hfield : s ∈ fieldStarts := by
    simp only [List.mem_cons, List.not_mem_nil, or_false] at hs
    rcases hs with rfl | rfl <;> decide
  have hsub : ∀ {S T : List ℕ}, responseDoes S (ByteClass.byte 58) [.writeField] T = true → a ∈ S →
      responseDoes [a] (ByteClass.byte 58) [.writeField] T = true := by
    intro S T h haS
    have hrow := List.all_eq_true.mp h a haS
    exact List.all_eq_true.mpr fun x hx => by rwa [List.mem_singleton.mp hx]
  by_cases hval : value = []
  · refine ⟨[22], hsub hunknown (List.mem_filter.mpr ⟨ha, ?_⟩), by decide, fun h => ?_, fun _ => rfl⟩
    · rw [Bool.not_eq_true', Bool.eq_false_iff, ne_eq, List.contains_iff_mem]
      exact unknown_name hfield hname (hcloses.resolve_left (not_not_intro hval)) hwalk
    · exact absurd h (by decide)
  · by_cases h60 : a = 60
    · refine ⟨blankStates, hsub hcolon ha, fun c hc => hc, fun _ => ?_, fun h => absurd h hval⟩
      exact (name_label hfield hname (h60 ▸ hwalk) rfl).symm
    · exact ⟨[22, 35, 112], hsub hother (List.mem_filter.mpr ⟨ha, bne_iff_ne.mpr h60⟩), by decide,
        fun h => absurd h (by decide), fun h => absurd h hval⟩

/-- A line of the header. -/
theorem field_reads (he : IsPlainField e) (hs : s ∈ [20, 43]) (hw : w.drop p = fieldLine e ++ rest)
    (hlen : w.length ≤ intMax) :
    ∃ t ∈ [20, 43], ∃ σ', ResponseReads w p s σ (fieldLine e) t σ' ∧
      Makes (σ.data.setHeader e.1 e.2) σ σ' := by
  obtain ⟨name, value⟩ := e
  obtain ⟨⟨hne, hname, hvalue, hhead⟩, hcloses, hplain⟩ := he
  dsimp only at hne hname hvalue hhead hcloses
  have hsplit : fieldLine (name, value) = name ++ ([58] ++ ([32] ++ (value ++ ascii "\r\n"))) := by
    have hcolon : ascii ": " = [58] ++ [32] := by decide
    simp only [fieldLine, hcolon, List.append_assoc]
  rw [hsplit] at hw ⊢
  rw [List.append_assoc, List.append_assoc, List.append_assoc, List.append_assoc] at hw
  obtain ⟨a, ha, σ₁, hread₁, hstart, hmakes₁⟩ := name_reads (w := w) (p := p) (σ := σ) hs hne hname
  obtain ⟨T, hdoes, hblank, hchunk, hempty⟩ := colon_states hs hname ha hread₁.walks hcloses
  let σ₂ : HttpResponseParser := { σ₁ with fieldLen := LEN σ₁.fieldStart (p + name.length) }
  let σ₃ : HttpResponseParser := { σ₂ with mark := p + name.length + 1 }
  obtain ⟨c, hc, hread₂⟩ : ∃ c ∈ T, ResponseReads w (p + name.length) a σ₁ [58] c σ₂ :=
    responseDoes_byte hdoes rfl List.mem_cons_self rfl
  have hread₃ : ResponseReads w (p + name.length + 1) c σ₂ [32] c σ₃ :=
    Scanner.Reads.cons (blankDoes.1 c (hblank c hc)) rfl rfl Scanner.Reads.nil
  have hw₃ : w.drop (p + name.length + 1 + 1) = value ++ (ascii "\r\n" ++ rest) := by
    rw [← List.drop_drop, ← List.drop_drop, drop_add hw]
    rfl
  have hnameLen : LEN σ₁.fieldStart (p + name.length) = name.length := by
    rw [hstart, LEN_le (Nat.le_add_right _ _), Nat.add_sub_cancel_left]
  have hnamed : σ₃.fieldLen ≠ 0 := by
    change LEN σ₁.fieldStart (p + name.length) ≠ 0
    rw [hnameLen]
    exact fun h0 => hne (List.length_eq_zero_iff.mp h0)
  have hkey : stdString w σ₃.fieldStart σ₃.fieldLen = .ok name := by
    change stdString w σ₁.fieldStart (LEN σ₁.fieldStart (p + name.length)) = .ok name
    rw [hnameLen, hstart]
    exact stdString_of_drop hw hlen
  have hvalues : ∃ t ∈ [20, 43], ∃ σ', ResponseReads w (p + name.length + 1 + 1) c σ₃
      (value ++ ascii "\r\n") t σ' ∧ Makes (σ₃.data.setHeader name value) σ₃ σ' := by
    by_cases hval : value = []
    · obtain rfl : c = 22 := List.mem_singleton.mp (hempty hval ▸ hc)
      rw [hval]
      exact empty_value_reads hnamed hkey
    · exact value_reads (hblank c hc) (fun h61 heq => hplain ⟨hchunk (h61 ▸ hc), heq⟩) hval hvalue hhead
        hw₃ hlen hnamed hkey
  obtain ⟨t, ht, σ', hread₄, hmakes₄⟩ := hvalues
  refine ⟨t, ht, σ', hread₁.append (hread₂.append (hread₃.append hread₄)), ?_⟩
  have hdata : σ₃.data = σ.data := hmakes₁.data
  rw [hdata] at hmakes₄
  exact ⟨hmakes₄.data, hmakes₄.chunked.trans hmakes₁.chunked, hmakes₄.error.trans hmakes₁.error⟩

/-- All lines of the header. -/
theorem fields_read {fs : List (List UInt8 × List UInt8)} (hfs : ∀ e ∈ fs, IsPlainField e)
    (hs : s ∈ [20, 43]) (hw : w.drop p = fs.flatMap fieldLine ++ rest) (hlen : w.length ≤ intMax) :
    ∃ t ∈ [20, 43], ∃ σ', ResponseReads w p s σ (fs.flatMap fieldLine) t σ' ∧
      Makes { σ.data with headers := fs.foldl (fun m e => m.set e.1 e.2) σ.data.headers } σ σ' := by
  induction fs generalizing p s σ with
  | nil => exact ⟨s, hs, σ, Scanner.Reads.nil, Makes.refl σ⟩
  | cons e fs ih =>
    obtain ⟨he, hfs⟩ := List.forall_mem_cons.mp hfs
    rw [List.flatMap_cons, List.append_assoc] at hw
    obtain ⟨u, hu, σ₁, hread, hmakes⟩ := field_reads (σ := σ) he hs hw hlen
    obtain ⟨t, ht, σ', hrest, hmakes'⟩ := ih (σ := σ₁) hfs hu (drop_add hw)
    rw [hmakes.data] at hmakes'
    rw [List.flatMap_cons]
    exact ⟨t, ht, σ', hread.append hrest, hmakes.trans hmakes'⟩

/-! ## The status line -/

set_option maxRecDepth 20000 in
theorem statusDoes :
    responseDoes [16] ByteClass.digit [.mark] [17] = true ∧
    responseDoes [17] ByteClass.digit [] [17] = true ∧
    responseDoes [17] (ByteClass.byte 32) [.statusCode] [18] = true ∧
    responseDoes [18] textChar [.mark] [19] = true ∧ responseDoes [19] textChar [] [19] = true ∧
    responseDoes [19] (ByteClass.byte 13) [.reasonPhrase] [24] = true ∧
    responseDoes [24] (ByteClass.byte 10) [] [20] = true := by
  decide +kernel

/-- Every status is printed as digits that are read as the same number. -/
theorem httpStatusMap_read : ∀ e ∈ httpStatusMap, readDigits 10 0 (decimal e.1) = e.1 ∧ e.1 < 512 := by
  decide +kernel

/-- The text of a status can be read as a reason. -/
theorem httpStatusMap_text :
    ∀ e ∈ httpStatusMap, ascii e.2 ≠ [] ∧ (ascii e.2).all textChar.holds = true := by
  decide +kernel

theorem HttpStatusToString_eq {e : ℕ × String} (he : e ∈ httpStatusMap) :
    HttpStatusToString e.1 = ascii e.2 := by
  have hnodup : (httpStatusMap.map Prod.fst).Nodup := by decide +kernel
  rw [HttpStatusToString]
  cases hfind : httpStatusMap.find? (fun f => (f.1 : ℤ) == e.1) with
  | none => simpa using List.find?_eq_none.mp hfind e he
  | some f =>
    have hkey := List.find?_some hfind
    rw [beq_iff_eq, Nat.cast_inj] at hkey
    rw [List.inj_on_of_nodup_map hnodup (List.mem_of_find?_eq_some hfind) he hkey]
    rfl

theorem decimal_ne (n : ℕ) : decimal n ≠ [] := by
  rw [decimal, ne_eq, List.map_eq_nil_iff]
  exact Nat.toDigits_ne_nil

theorem decimal_digits (n : ℕ) : ∀ b ∈ decimal n, ByteClass.digit.holds b = true := by
  intro b hb
  obtain ⟨hlow, hhigh⟩ := decimal_digit hb
  rw [ByteClass.digit, ByteClass.holds, List.any_cons, decide_eq_true hlow, decide_eq_true hhigh]
  rfl

/-- `atoi` of digits up to a blank. -/
theorem atoi_digits {digits : List UInt8} (hne : digits ≠ [])
    (hdigits : ∀ b ∈ digits, ByteClass.digit.holds b = true) (hsmall : readDigits 10 0 digits ≤ intMax)
    (rest : List UInt8) : atoi (digits ++ 32 :: rest) = readDigits 10 0 digits := by
  have hclass : ∀ b : UInt8, ByteClass.digit.holds b = true →
      (digitValue 10 b).isSome = true ∧ isspace b = false ∧ b ≠ 45 ∧ b ≠ 43 := by
    intro b hb
    have h := forall_byte (p := fun b => !ByteClass.digit.holds b ||
      ((digitValue 10 b).isSome && (!isspace b && (b != 45 && b != 43)))) (by decide +kernel) b
    rw [hb] at h
    simpa using h
  have hvalue : readDigits 10 0 (digits ++ 32 :: rest) = readDigits 10 0 digits := by
    rw [readDigits_append (fun b hb => (hclass b (hdigits b hb)).1), readDigits_end (by decide)]
  have hskip : ∀ s, skipPrefix 10 s = s := by
    intro s
    unfold skipPrefix
    split
    · exact if_neg fun h => absurd h.1 (by decide)
    · rfl
  obtain ⟨d, ds, rfl⟩ := List.exists_cons_of_ne_nil hne
  obtain ⟨-, hspace, hminus, hplus⟩ := hclass d (hdigits d List.mem_cons_self)
  have hdrop : (d :: ds ++ 32 :: rest).dropWhile isspace = d :: (ds ++ 32 :: rest) := by
    rw [List.cons_append, List.dropWhile_cons_of_neg (by rw [hspace]; decide)]
  have hstrtol : strtol 10 (d :: ds ++ 32 :: rest) = readDigits 10 0 (d :: ds) := by
    rw [strtol, hdrop]
    split
    · rename_i heq
      cases heq
      exact absurd rfl hminus
    · rename_i heq
      cases heq
      exact absurd rfl hplus
    · rw [← List.cons_append, hskip, hvalue]
      unfold intMax at hsmall
      omega
  rw [atoi, hstrtol, toInt_eq hsmall]

/-- The version, up to the blank. -/
theorem version_reads {v : UInt8} (hv : v = 0x11 ∨ v = 0x10)
    (hw : w = ascii "HTTP/" ++ decimal (v.toNat / 16) ++ ascii "." ++ decimal (v.toNat % 16) ++
      (32 :: rest)) :
    ResponseReads w 0 1 σ (ascii "HTTP/" ++ decimal (v.toNat / 16) ++ ascii "." ++
      decimal (v.toNat % 16) ++ [32]) 16 { σ with mark := 0, data := { σ.data with version := v } } := by
  have hblank : responseScanner.arc 15 32 = some ([.httpVersion], 16) := by decide
  have hread : ∀ text, text = ascii "HTTP/1.1" ∨ text = ascii "HTTP/1.0" →
      ResponseReads w 0 1 σ text 15 { σ with mark := 0 } := by
    rintro text (rfl | rfl) <;> rfl
  have hend : ∀ text : List UInt8, versionOf w text.length = some v →
      ResponseReads w (0 + text.length) 15 { σ with mark := 0 } [32] 16
        { σ with mark := 0, data := { σ.data with version := v } } := by
    intro text hversion
    refine Scanner.Reads.cons hblank rfl ?_ Scanner.Reads.nil
    have hact : HttpResponseParser.act w (0 + text.length) .httpVersion { σ with mark := 0 } =
        .ok { σ with mark := 0, data := { σ.data with version := v } } := by
      have hlen : LEN 0 (0 + text.length) = text.length := by
        rw [LEN_le (Nat.zero_le _), Nat.zero_add, Nat.sub_zero]
      rw [HttpResponseParser.act, onResponseVersion, List.drop_zero, hlen, hversion]
      rfl
    rw [List.foldlM_cons, hact]
    rfl
  subst hw
  rcases hv with rfl | rfl
  · exact (hread (ascii "HTTP/1.1") (Or.inl rfl)).append (hend (ascii "HTTP/1.1") rfl)
  · exact (hread (ascii "HTTP/1.0") (Or.inr rfl)).append (hend (ascii "HTTP/1.0") rfl)

/-- The status, up to the blank. -/
theorem status_reads {n : ℕ} (hn : readDigits 10 0 (decimal n) = n) (hsmall : n ≤ intMax)
    (hw : w.drop p = decimal n ++ (32 :: rest)) :
    ∃ σ', ResponseReads w p 16 σ (decimal n ++ [32]) 18 σ' ∧ Makes { σ.data with status := n } σ σ' := by
  obtain ⟨hfirst, hloop, hblank, -⟩ := statusDoes
  obtain ⟨b, more, hdec⟩ := List.exists_cons_of_ne_nil (decimal_ne n)
  have hdigits := decimal_digits n
  have hatoi : atoi (w.drop p) = n := by
    rw [hw, atoi_digits (decimal_ne n) hdigits (hn.le.trans hsmall), hn]
  rw [hdec] at hdigits ⊢
  obtain ⟨hb, hmore⟩ := List.forall_mem_cons.mp hdigits
  obtain ⟨t, ht, hread⟩ : ∃ t ∈ [17], ResponseReads w p 16 σ (b :: more) t { σ with mark := p } :=
    responseDoes_word hfirst rfl hloop List.mem_cons_self hb hmore rfl
  obtain ⟨u, hu, hend⟩ := responseDoes_byte (w := w) (p := p + (b :: more).length)
    (σ := { σ with mark := p }) hblank rfl ht rfl
  rw [List.mem_singleton.mp hu] at hend
  refine ⟨_, hread.append hend, ?_, rfl, rfl⟩
  exact congrArg (fun z => { σ.data with status := z }) hatoi

/-- The reason, up to the end of the line. -/
theorem reason_reads {reason : List UInt8} (hne : reason ≠ [])
    (hreason : ∀ b ∈ reason, textChar.holds b = true) (hw : w.drop p = reason ++ rest)
    (hlen : w.length ≤ intMax) :
    ∃ σ', ResponseReads w p 18 σ (reason ++ ascii "\r\n") 20 σ' ∧
      Makes { σ.data with reason := reason } σ σ' := by
  obtain ⟨-, -, -, hfirst, hloop, hreturn, hline⟩ := statusDoes
  have hstring : stdString w p (LEN p (p + reason.length)) = .ok reason := by
    rw [LEN_le (Nat.le_add_right _ _), Nat.add_sub_cancel_left]
    exact stdString_of_drop hw hlen
  obtain ⟨b, more, rfl⟩ := List.exists_cons_of_ne_nil hne
  obtain ⟨hb, hmore⟩ := List.forall_mem_cons.mp hreason
  obtain ⟨t, ht, hread⟩ : ∃ t ∈ [19], ResponseReads w p 18 σ (b :: more) t { σ with mark := p } :=
    responseDoes_word hfirst rfl hloop List.mem_cons_self hb hmore rfl
  have hact : HttpResponseParser.act w (p + (b :: more).length) .reasonPhrase { σ with mark := p } =
      .ok { σ with mark := p, data := { σ.data with reason := b :: more } } := by
    rw [HttpResponseParser.act, onResponseReason, hstring]
    rfl
  obtain ⟨u, hu, hread'⟩ := responseDoes_byte (w := w) (p := p + (b :: more).length)
    (σ := { σ with mark := p }) hreturn rfl ht (by rw [List.foldlM_cons, hact]; rfl)
  obtain ⟨v, hv, hread''⟩ := responseDoes_byte (w := w) (p := p + (b :: more).length + 1) hline rfl hu rfl
  rw [List.mem_singleton.mp hv] at hread''
  exact ⟨_, hread.append (hread'.append hread''), rfl, rfl, rfl⟩

/-- A response whose status line is printed as it can be read: with the version 1.0 or 1.1, a
status of `HttpStatus` and a reason without line ends. -/
structure HttpResponse.Reported (r : HttpResponse) : Prop where
  version : r.version = 0x11 ∨ r.version = 0x10
  status : ∃ e ∈ httpStatusMap, r.status = e.1
  reason : ∀ b ∈ r.reason, textChar.holds b = true

/-- The status line. -/
theorem statusLine_reads {r : HttpResponse} (hr : r.Reported) (hw : w = r.statusLine ++ rest)
    (hlen : w.length ≤ intMax) :
    ∃ σ', ResponseReads w 0 1 σ r.statusLine 20 σ' ∧ Makes { σ.data with
      version := r.version, status := r.status, reason := r.shownReason } σ σ' := by
  obtain ⟨e, he, hstatus⟩ := hr.status
  obtain ⟨hread, hsmall⟩ := httpStatusMap_read e he
  obtain ⟨hne, htext⟩ := httpStatusMap_text e he
  have hcast : (r.status % 2 ^ 32).toNat = e.1 := by
    rw [hstatus]
    omega
  have hreason : r.shownReason ≠ [] ∧ ∀ b ∈ r.shownReason, textChar.holds b = true := by
    rw [HttpResponse.shownReason]
    split
    · rw [hstatus, HttpStatusToString_eq he]
      exact ⟨hne, List.all_eq_true.mp htext⟩
    · rename_i hnonempty
      exact ⟨hnonempty, hr.reason⟩
  have hblank : ascii " " = [32] := by decide
  have hline : r.statusLine = (ascii "HTTP/" ++ decimal (r.version.toNat / 16) ++ ascii "." ++
      decimal (r.version.toNat % 16) ++ [32]) ++ ((decimal e.1 ++ [32]) ++
        (r.shownReason ++ ascii "\r\n")) := by
    rw [HttpResponse.statusLine, hcast, hblank]
    simp only [List.append_assoc]
  rw [hline] at hw ⊢
  generalize hversion : ascii "HTTP/" ++ decimal (r.version.toNat / 16) ++ ascii "." ++
    decimal (r.version.toNat % 16) ++ [32] = version at hw ⊢
  have hw₀ : w.drop 0 = version ++ ((decimal e.1 ++ [32]) ++ (r.shownReason ++ (ascii "\r\n" ++ rest))) := by
    rw [List.drop_zero, hw]
    simp only [List.append_assoc]
  have hw₁ := drop_add hw₀
  have hw₂ := drop_add hw₁
  have hwhole : w = ascii "HTTP/" ++ decimal (r.version.toNat / 16) ++ ascii "." ++
      decimal (r.version.toNat % 16) ++ 32 ::
        ((decimal e.1 ++ [32]) ++ (r.shownReason ++ (ascii "\r\n" ++ rest))) := by
    rw [List.drop_zero] at hw₀
    rw [hw₀, ← hversion]
    simp only [List.append_assoc, List.singleton_append]
  have hread₁ := version_reads (σ := σ) hr.version hwhole
  rw [hversion] at hread₁
  rw [List.append_assoc] at hw₁
  obtain ⟨σ₂, hread₂, hmakes₂⟩ := status_reads (w := w) (p := 0 + version.length)
    (σ := { σ with mark := 0, data := { σ.data with version := r.version } }) hread
    (hsmall.le.trans (by decide)) hw₁
  obtain ⟨σ₃, hread₃, hmakes₃⟩ := reason_reads (σ := σ₂) hreason.1 hreason.2 hw₂ hlen
  refine ⟨σ₃, hread₁.append (hread₂.append hread₃), ?_⟩
  rw [hmakes₂.data] at hmakes₃
  rw [hstatus]
  exact ⟨hmakes₃.data, hmakes₃.chunked.trans hmakes₂.chunked, hmakes₃.error.trans hmakes₂.error⟩

/-- The head that is printed for a response with these fields, with the empty line. -/
def HttpResponse.printedHead (r : HttpResponse) (fs : List (List UInt8 × List UInt8)) : List UInt8 :=
  r.statusLine ++ (fs.flatMap fieldLine ++ [13, 10])

/-- The response as the parser builds it from its head. -/
def HttpResponse.parsed (r : HttpResponse) (fs : List (List UInt8 × List UInt8)) : HttpResponse :=
  { HttpResponse.new with
    version := r.version, status := r.status, reason := r.shownReason
    headers := OrderedMap.ofAssignments strcasecmp fs }

set_option maxRecDepth 20000 in
theorem endDoes :
    responseScanner.arc 20 13 = some ([], 3) ∧
    responseScanner.arc 43 13 = some ([.writeConnectionClose], 3) ∧
    responseScanner.arc 3 10 = some ([.done], 120) := by
  decide +kernel

/-- The empty line ends the head. -/
theorem head_ends (w : List UInt8) (p : ℕ) (rest : List UInt8) (σ : HttpResponseParser)
    (hs : s ∈ [20, 43]) :
    ∃ σ', responseScanner.run (HttpResponseParser.act w) p s (13 :: 10 :: rest) σ =
      .ok (p + 2, .left 120, σ') ∧ Makes σ.data σ σ' := by
  obtain ⟨hplain, hclose, hdone⟩ := endDoes
  have hlast : ∀ σ : HttpResponseParser, responseScanner.run (HttpResponseParser.act w) (p + 1) 3
      (10 :: rest) σ = .ok (p + 2, .left 120, { σ with bodyStart := p + 1 + 1 }) := by
    intro σ
    rw [Scanner.run, hdone]
    rfl
  rcases List.mem_cons.mp hs with rfl | hs
  · exact ⟨_, (Scanner.run_cons hplain rfl rfl _).trans (hlast σ), rfl, rfl, rfl⟩
  · rw [List.mem_singleton.mp hs]
    have hact : [HttpClientParserAction.writeConnectionClose].foldlM
        (fun r a => HttpResponseParser.act w p a r) σ = .ok { σ with close := true } := rfl
    exact ⟨_, (Scanner.run_cons hclose rfl hact _).trans (hlast _), rfl, rfl, rfl⟩

/-- A parser that has read the head of a response. -/
structure HttpResponseParser.Parsed (d : HttpResponse) (parser : HttpResponseParser) : Prop where
  data : parser.data = d
  chunked : parser.chunked = false
  hasError : parser.hasError = false
  isFinished : parser.isFinished ≠ 0

/-- The head of a printed response is read at once; what follows it is left in the buffer. -/
theorem head_executes {r : HttpResponse} (hr : r.Reported) {fs : List (List UInt8 × List UInt8)}
    (hfs : ∀ e ∈ fs, IsPlainField e) (hw : w = r.printedHead fs ++ rest) (hlen : w.length ≤ intMax) :
    ∃ parser, HttpResponseParser.new.execute w false = .ok (rest, parser) ∧
      parser.Parsed (r.parsed fs) := by
  have hw₀ : w = r.statusLine ++ (fs.flatMap fieldLine ++ (13 :: 10 :: rest)) := by
    rw [hw, HttpResponse.printedHead]
    simp only [List.append_assoc, List.cons_append, List.nil_append]
  obtain ⟨σ₁, hread₁, hmakes₁⟩ := statusLine_reads (σ := HttpResponseParser.new.reset) hr hw₀ hlen
  have hdrop : w.drop (0 + r.statusLine.length) = fs.flatMap fieldLine ++ (13 :: 10 :: rest) := by
    rw [hw₀, Nat.zero_add, List.drop_left]
  obtain ⟨t, ht, σ₂, hread₂, hmakes₂⟩ := fields_read (σ := σ₁) hfs (List.mem_cons_self (a := 20)) hdrop hlen
  obtain ⟨σ₃, hrun, hmakes₃⟩ := head_ends w (0 + (r.statusLine ++ fs.flatMap fieldLine).length) rest σ₂ ht
  have hall : responseScanner.run (HttpResponseParser.act w) 0 HttpResponseParser.new.cs w
      HttpResponseParser.new.reset = .ok ((r.printedHead fs).length, .left 120, σ₃) := by
    have hsplit : w = (r.statusLine ++ fs.flatMap fieldLine) ++ (13 :: 10 :: rest) := by
      rw [hw₀, List.append_assoc]
    have hjoin := (hread₁.append hread₂).run_append (13 :: 10 :: rest)
    rw [← hsplit, hrun] at hjoin
    refine hjoin.trans ?_
    have hcount : 0 + (r.statusLine ++ fs.flatMap fieldLine).length + 2 = (r.printedHead fs).length := by
      simp only [HttpResponse.printedHead, List.length_append, List.length_cons, List.length_nil]
      omega
    rw [hcount]
  have hne : w ≠ [] := by
    rw [hw₀]
    simp [HttpResponse.statusLine, ascii]
  refine ⟨{ σ₃ with cs := 120 },
    (HttpResponseParser.execute_run hall hne hlen (Nat.zero_le _)).trans ?_, ?_⟩
  · rw [hw, List.drop_left]
    rfl
  · rw [hmakes₁.data] at hmakes₂
    have hmakes := (hmakes₁.trans hmakes₂).trans hmakes₃
    rw [hmakes₂.data] at hmakes
    refine ⟨hmakes.data, hmakes.chunked, ?_, Int.one_ne_zero⟩
    rw [hasError, hmakes.error]
    rfl

end
end Flz.Http
