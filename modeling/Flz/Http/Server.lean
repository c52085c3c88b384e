import Flz.Http.DumpResponse
import Flz.Http.KeepAlive
import Flz.Http.Servlet
import Flz.Lib.Messages

/-! # Serving a connection

`HttpServer::handleClient` of `http/http_server.cc`: requests are received, dispatched and answered
until one of them ends the connection. The servlets may do anything to the world, the request and
the response; they leave the session to the server.
-/
namespace Flz.Http
open Lib

/-- What a servlet leaves: the world, the request, and the response with `m_websocket` and
`m_cookies`. -/
structure Answer (ω : Type) where
  world : ω
  request : HttpRequest
  response : HttpResponse
  websocket : Bool
  cookies : List (List UInt8)

/-- What `handle` of a servlet makes of a request and a new response. -/
abbrev Handler (ω : Type) := ω → HttpRequest → HttpResponse → Answer ω

/-- The page of `NotFoundServlet(name)`. -/
def notFoundContent (name : List UInt8) : List UInt8 :=
  ascii "<html><head><title>404 Not Found" ++
    ascii "</title></head><body><center><h1>404 Not Found</h1></center>" ++
    ascii "<hr><center>" ++ name ++ ascii "</center></body></html>"

def NotFoundServlet.handle {ω : Type} (name : List UInt8) : Handler ω := fun w request response =>
  { world := w
    request := request
    response :=
      { (({ response with status := 404 } : HttpResponse).setHeader (ascii "Server") (ascii "flz/1.0.0")).setHeader
          (ascii "Content-Type") (ascii "text/html") with body := notFoundContent name }
    websocket := false
    cookies := [] }

/-- What the caller's servlets, callbacks and creators do. -/
structure Servlets (σ β κ ω : Type) where
  given : σ → Handler ω
  callback : β → Handler ω
  created : κ → Handler ω

def Servlet.handle {σ β κ ω : Type} (of : Servlets σ β κ ω) : Servlet σ β κ → Handler ω
  | .given slt => of.given slt
  | .FunctionServlet cb => of.callback cb
  | .created creator => of.created creator
  | .NotFoundServlet name => NotFoundServlet.handle name

def ServletDispatch.handle {σ β κ ω : Type} (of : Servlets σ β κ ω) (fnmatch : List UInt8 → List UInt8 → ℤ)
    (d : ServletDispatch σ β κ) : Handler ω := fun w request response =>
  (d.getMatchedServlet fnmatch request.path).handle of w request response

structure HttpServer (ω : Type) where
  m_isKeepalive : Bool
  m_name : List UInt8
  /-- `m_dispatch->handle`. -/
  m_dispatch : Handler ω

def Answer.dump {ω : Type} (a : Answer ω) : List UInt8 := a.response.dump a.websocket a.cookies

def sendResponse {ω : Type} (a : Answer ω) (s : Stream) : ℤ × Stream := s.writeFixSize a.dump

namespace HttpServer
variable {ω : Type}

/-- The response before it is dispatched. -/
def response (server : HttpServer ω) (req : HttpRequest) : HttpResponse :=
  ({ HttpResponse.new with version := req.version, close := req.close || !server.m_isKeepalive } : HttpResponse).setHeader
    (ascii "Server") server.m_name

/-- What one turn of the loop makes of a request. -/
def answer (server : HttpServer ω) (w : ω) (req : HttpRequest) : Answer ω :=
  server.m_dispatch w req (server.response req)

/-- The connection ends with this request; a servlet may have changed it. -/
def ends (server : HttpServer ω) (a : Answer ω) : Bool := !server.m_isKeepalive || a.request.close

end HttpServer

/-- A head that is received is taken off the stream. -/
theorem headLoop_shrinks {ρ : Type} {P : Parsing ρ} {n : ℕ} {parser : ρ} {data : List UInt8} {s s' : Stream}
    {out : List UInt8 × ρ} (h : headLoop P n data parser s = .ok (some out, s')) :
    s'.pending.length < s.pending.length := by
  have hrule := @headLoop_rule _ P n (fun _ => True)
    (fun _ _ t => t.pending.length ≤ s.pending.length) (fun _ _ t => t.pending.length < s.pending.length)
    (fun d _ t hle bytes t' hread hne _ => by
      have hpending := congrArg List.length (Stream.read_pending (n - d.length) t)
      rw [hread, List.length_append] at hpending
      dsimp only at hpending
      have hpos := List.length_pos_iff.mpr hne
      exact ⟨fun _ _ => trivial, fun _ _ => trivial, fun _ _ _ _ => by omega⟩)
    (fun _ _ _ hlt => Nat.le_of_lt hlt) data parser s (Nat.le_refl _)
  rw [h] at hrule
  exact hrule.1

theorem recvBody_pending (data : List UInt8) (length : ℤ) (s : Stream) :
    (recvBody data length s).2.pending.length ≤ s.pending.length := by
  have hread := congrArg List.length (Stream.readFixSize_pending (length - data.length).toNat s)
  rw [List.length_append] at hread
  rw [recvBody]
  split
  · have hle : (s.readFixSize (length - data.length).toNat).2.2.pending.length ≤ s.pending.length := by omega
    dsimp only
    split
    · exact hle
    · exact hle
  · exact Nat.le_refl _

/-- A request that is received is taken off the stream. -/
theorem recvRequest_shrinks {lexicalCast : List UInt8 → Option UInt64} {uriRelaxed : Bool} {queryStart n : ℕ}
    {s s' : Stream} {req : HttpRequest}
    (h : recvRequest lexicalCast uriRelaxed queryStart n s = .ok (some req, s')) :
    s'.pending.length < s.pending.length := by
  rw [recvRequest] at h
  cases hloop : headLoop requestParsing n [] (.new uriRelaxed queryStart) s with
  | error e =>
    rw [hloop] at h
    cases h
  | ok out =>
    obtain ⟨head, s₁⟩ := out
    rw [hloop] at h
    cases head with
    | none => cases h
    | some head =>
      have hshrinks := headLoop_shrinks hloop
      obtain ⟨data, parser⟩ := head
      have hbody := recvBody_pending data (toInt64 (parser.getContentLength lexicalCast).toNat) s₁
      dsimp only [bind, Except.bind] at h
      split at h
      · split at h
        · cases h
        · rename_i hrecv
          rw [hrecv] at hbody
          cases h
          exact Nat.lt_of_le_of_lt hbody hshrinks
      · cases h
        exact hshrinks

theorem sendResponse_pending {ω : Type} (a : Answer ω) (s : Stream) : (sendResponse a s).2.pending = s.pending :=
  congrArg Pieces.flatten (Stream.writeFixSize_input a.dump s)

/-- The loop of `handleClient`; `memory` is what the memory of the parsers holds that receive the
requests. -/
def HttpServer.handleClient {ω : Type} (server : HttpServer ω) (lexicalCast : List UInt8 → Option UInt64)
    (buffSize : ℕ) (memory : ℕ → Bool × ℕ) (w : ω) (s : Stream) : Except Fault (ω × Stream) :=
  match _h : recvRequest lexicalCast (memory 0).1 (memory 0).2 buffSize s with
  | .error e => .error e
  | .ok (none, s') => .ok (w, s'.close)
  | .ok (some req, s') =>
    let a := server.answer w req
    if server.ends a then .ok (a.world, (sendResponse a s').2.close)
    else handleClient server lexicalCast buffSize (fun i => memory (i + 1)) a.world (sendResponse a s').2
termination_by s.pending.length
decreasing_by
  rw [sendResponse_pending]
  exact recvRequest_shrinks _h

end Flz.Http
