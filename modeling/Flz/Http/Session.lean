import Flz.Http.HeadLoop
import Flz.Http.RequestParser

/-! # Sessions

`HttpSession::recvRequest` of `http/http_session.cc`. There is memory for the buffer and the
body.
-/
namespace Flz.Http

def requestParsing : Parsing HttpRequestParser where
  execute := HttpRequestParser.execute
  hasError := HttpRequestParser.hasError
  isFinished := HttpRequestParser.isFinished

/-- A body of `length` bytes, of which `data` are in the buffer; none when it does not come. -/
def recvBody (data : List UInt8) (length : ℤ) (s : Stream) : Option (List UInt8) × Stream :=
  if length - data.length > 0 then
    let (r, more, s) := s.readFixSize (length - data.length).toNat
    if r ≤ 0 then (none, s.close) else (some (data ++ more), s)
  else (some (data.take length.toNat), s)

/-- `buffSize` is `GetHttpRequestBufferSize()`. -/
def recvRequest (lexicalCast : List UInt8 → Option UInt64) (uriRelaxed : Bool) (queryStart : ℕ)
    (buffSize : ℕ) (s : Stream) : Except Fault (Option HttpRequest × Stream) := do
  let (head, s) ← headLoop requestParsing buffSize [] (.new uriRelaxed queryStart) s
  match head with
  | none => return (none, s)
  | some (data, parser) =>
    let length := toInt64 (parser.getContentLength lexicalCast).toNat
    if length > 0 then
      match recvBody data length s with
      | (none, s) => return (none, s)
      | (some body, s) => return (some { parser.data with body := body }.init, s)
    else return (some parser.data.init, s)

end Flz.Http
