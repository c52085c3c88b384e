import Flz.Http.Message
import Flz.Http.RequestTable

/-! # The request parser

`http_parser_execute` of `http11_parser.rl` and `HttpRequestParser` of `http_parser.cc`. A
pointer into the buffer is the list of the bytes from there on, or a position.
-/
namespace Flz.Http
open Lib

/-- `http_parser`, with the request and the error of `HttpRequestParser`. -/
structure HttpRequestParser where
  cs : ℕ
  bodyStart : ℕ
  contentLen : ℤ
  mark : ℕ
  fieldStart : ℕ
  fieldLen : ℕ
  queryStart : ℕ
  xmlSent : Bool
  jsonSent : Bool
  uriRelaxed : Bool
  data : HttpRequest
  error : ℤ
  deriving DecidableEq, Repr

namespace HttpRequestParser

/-- `HttpRequestParser()`: `http_parser_init` leaves `uri_relaxed` and `query_start` as the
memory has them. -/
def new (uriRelaxed : Bool) (queryStart : ℕ) : HttpRequestParser where
  cs := 1
  bodyStart := 0
  contentLen := 0
  mark := 0
  fieldStart := 0
  fieldLen := 0
  queryStart := queryStart
  xmlSent := false
  jsonSent := false
  uriRelaxed := uriRelaxed
  data := .new
  error := 0

def setError (s : HttpRequestParser) (v : ℤ) : HttpRequestParser := { s with error := v }

def onRequestMethod (s : HttpRequestParser) (at_ : List UInt8) : HttpRequestParser :=
  if CharsToHttpMethod at_ = .INVALID_METHOD then s.setError 1000
  else { s with data := { s.data with method := CharsToHttpMethod at_ } }

def onRequestVersion (s : HttpRequestParser) (at_ : List UInt8) (length : ℕ) : HttpRequestParser :=
  match versionOf at_ length with
  | some v => { s with data := { s.data with version := v } }
  | none => s.setError 1001

def onRequestPath (s : HttpRequestParser) (buffer : List UInt8) (start length : ℕ) :
    Except Fault HttpRequestParser := do
  let text ← stdString buffer start length
  return { s with data := { s.data with path := text } }

def onRequestQuery (s : HttpRequestParser) (buffer : List UInt8) (start length : ℕ) :
    Except Fault HttpRequestParser := do
  let text ← stdString buffer start length
  return { s with data := { s.data with query := text } }

def onRequestFragment (s : HttpRequestParser) (buffer : List UInt8) (start length : ℕ) :
    Except Fault HttpRequestParser := do
  let text ← stdString buffer start length
  return { s with data := { s.data with fragment := text } }

def onRequestHttpField (s : HttpRequestParser) (buffer : List UInt8)
    (field flen value vlen : ℕ) : Except Fault HttpRequestParser :=
  if flen = 0 then return s
  else do
    let key ← stdString buffer field flen
    let val ← stdString buffer value vlen
    return { s with data := s.data.setHeader key val }

/-- The action `done`; `header_done` does nothing. -/
def onDone (s : HttpRequestParser) (p : ℕ) : HttpRequestParser :=
  if s.xmlSent || s.jsonSent then
    { s with bodyStart := s.mark, contentLen := toInt (p - s.mark + 1) }
  else { s with bodyStart := p + 1 }

/-- The actions of `http11_parser.rl` at position `p`; `request_uri` does nothing. -/
def act (buffer : List UInt8) (p : ℕ) (a : HttpParserAction) (s : HttpRequestParser) :
    Except Fault HttpRequestParser :=
  match a with
  | .mark => return { s with mark := p }
  | .startField => return { s with fieldStart := p }
  | .writeField => return { s with fieldLen := LEN s.fieldStart p }
  | .writeValue =>
    s.onRequestHttpField buffer s.fieldStart s.fieldLen s.mark (LEN s.mark p)
  | .requestMethod => return s.onRequestMethod (buffer.drop s.mark)
  | .requestUri => return s
  | .fragment => s.onRequestFragment buffer s.mark (LEN s.mark p)
  | .startQuery => return { s with queryStart := p }
  | .queryString => s.onRequestQuery buffer s.queryStart (LEN s.queryStart p)
  | .httpVersion => return s.onRequestVersion (buffer.drop s.mark) (LEN s.mark p)
  | .requestPath => s.onRequestPath buffer s.mark (LEN s.mark p)
  | .xml => return { s with xmlSent := true }
  | .json => return { s with jsonSent := true }
  | .done => return s.onDone p

/-- The state of the automaton after the loop. -/
def stateAfter : Scanner.Ending → ℕ
  | .reading t => t
  | .left t => t
  | .stuck => 0

/-- The reset at the start of `http_parser_execute`; `query_start` stays. -/
def reset (s : HttpRequestParser) : HttpRequestParser :=
  { s with mark := 0, fieldLen := 0, fieldStart := 0 }

/-- The assertions at the end of `http_parser_execute`. -/
def asserted (s : HttpRequestParser) (len : ℕ) : Bool :=
  s.bodyStart ≤ len && s.mark < len && s.fieldLen ≤ len && s.fieldStart < len

def httpParserExecute (s : HttpRequestParser) (buffer : List UInt8) :
    Except Fault (ℕ × HttpRequestParser) :=
  if buffer.length = 0 then return (0, s)
  else do
    let (nread, ending, t) ←
      (requestScanner s.uriRelaxed).run (act buffer) 0 s.cs buffer s.reset
    let t := if t.cs = 0 then t else { t with cs := stateAfter ending }
    if t.asserted buffer.length then return (nread, t) else throw .assertion

/-- What is left in the buffer, and the parser after it. -/
def execute (s : HttpRequestParser) (data : List UInt8) :
    Except Fault (List UInt8 × HttpRequestParser) := do
  let (offset, s) ← s.httpParserExecute data
  return (data.drop offset, s)

def hasError (s : HttpRequestParser) : Bool := s.error != 0 || s.cs == 0

/-- `http_parser_finish(&m_parser)`, which is -1 after an error. -/
def isFinished (s : HttpRequestParser) : ℤ :=
  if s.cs = 0 then -1 else if s.cs ≥ 348 then 1 else 0

def getContentLength (s : HttpRequestParser) (lexicalCast : List UInt8 → Option UInt64) : UInt64 :=
  s.data.headers.getAs lexicalCast (ascii "content-length")

end HttpRequestParser
end Flz.Http
