import Flz.Http.Server
import Flz.Lib.Digits

/-! # A client and a server

A client that waits for the response to a request before it sends the next one, as `doRequest` of
`http/http_connection.cc` does with the connection of a pool, and a server at the other end.
-/
namespace Flz.Http
open Lib

namespace HttpResult

/-- `HttpResult::Error`, in the order of its values. -/
inductive Error
  | OK | INVALID_URL | INVALID_HOST | CONNECT_FAIL | SEND_CLOSE_BY_PEER | SEND_SOCKET_ERROR | TIMEOUT
  | CREATE_SOCKET_ERROR | POOL_GET_CONNECTION | POOL_INVALID_CONNECTION
  deriving DecidableEq, Repr

end HttpResult

/-- `HttpResult` but for its description. -/
structure HttpResult where
  result : HttpResult.Error
  response : Option HttpResponse
  deriving DecidableEq, Repr

def sendRequest (q : HttpRequest) (websocket : Bool) (s : Stream) : ℤ × Stream :=
  s.writeFixSize (q.dump websocket)

/-- `doRequest` on a connection that is there. -/
def doRequest (lexicalCast : List UInt8 → Option UInt64) (buffSize : ℕ) (q : HttpRequest) (s : Stream) :
    Except Fault (HttpResult × Stream) :=
  let (rt, s) := sendRequest q false s
  if rt = 0 then .ok (⟨.SEND_CLOSE_BY_PEER, none⟩, s)
  else if rt < 0 then .ok (⟨.SEND_SOCKET_ERROR, none⟩, s)
  else
    match recvResponse lexicalCast buffSize s with
    | .error e => .error e
    | .ok (none, s) => .ok (⟨.TIMEOUT, none⟩, s)
    | .ok (some rsp, s) => .ok (⟨.OK, some rsp⟩, s)

/-- Calls of `doRequest` one after another, as long as the connection is open. -/
def doRequests (lexicalCast : List UInt8 → Option UInt64) (buffSize : ℕ) :
    List HttpRequest → Stream → Except Fault (List HttpResult × Stream)
  | [], s => .ok ([], s)
  | q :: qs, s => do
    let (r, s) ← doRequest lexicalCast buffSize q s
    if s.closed then return ([r], s)
    else
      let (rs, s) ← doRequests lexicalCast buffSize qs s
      return (r :: rs, s)

/-- What a server is for: every request is answered, up to the one that ends the connection. -/
def HttpServer.serve {ω : Type} (server : HttpServer ω) : ω → List HttpRequest → ω × List (Answer ω)
  | w, [] => (w, [])
  | w, req :: reqs =>
    let a := server.answer w req
    if server.ends a then (a.world, [a])
    else ((serve server a.world reqs).1, a :: (serve server a.world reqs).2)

/-! ## Messages that arrive -/

/-- A request as it is received. -/
def HttpRequest.received (q : HttpRequest) : HttpRequest := (q.parsed false).complete q.body

/-- A request that can be sent, and how it arrives: its head comes with one read. -/
structure Asked (n : ℕ) (q : HttpRequest) (ps : Pieces UInt8) : Prop where
  printable : ∀ uriRelaxed, Printable uriRelaxed q
  method : q.method ≠ .MSEARCH
  short : (q.dump false).length ≤ intMax
  text : ps.flatten = q.dump false
  head : ∃ data, Arrives n (.connected ps) (q.printedHead false ++ 13 :: 10 :: data)

/-- The same of an answer. -/
structure Replied {ω : Type} (n : ℕ) (a : Answer ω) (ps : Pieces UInt8) : Prop where
  printable : a.response.Printable
  plain : a.websocket = false ∧ a.cookies = []
  short : a.dump.length ≤ intMax
  text : ps.flatten = a.dump
  head : ∃ data, Arrives n (.connected ps)
    (a.response.printedHead (a.response.printedFields false []) ++ data)

theorem Arrives.before {n : ℕ} (hmax : n ≤ intMax) {ps qs : Pieces UInt8} {xs : List UInt8} {st : Stream}
    (h : Arrives n (.connected ps) xs) (hopen : st.closed = false) (hin : st.input = ps.append qs) :
    Arrives n st xs := by
  have hn : 0 < n := Nat.lt_of_lt_of_le (List.length_pos_iff.mpr h.ne_nil) h.length_le
  have happ : xs ++ ((Stream.connected ps).skip xs.length).pending = ps.flatten := h.append
  have hflat : ps.flatten ≠ [] := by
    rw [← happ]
    exact List.append_ne_nil_of_left_ne_nil h.ne_nil _
  have hpending : st.pending ≠ [] := by
    rw [Stream.pending, hin, Pieces.flatten_append]
    exact List.append_ne_nil_of_left_ne_nil hflat _
  obtain ⟨ys, hys⟩ := exists_arrives hn hmax hopen hpending
  have hsame : ys = xs := by
    rw [← hys.next_eq hmax, ← h.next_eq hmax, hin]
    exact Pieces.next_of_append n (fun hnil => hflat (Pieces.flatten_eq_nil.mpr hnil)) qs
  rwa [hsame] at hys

/-- What comes with the head is not more than there is behind it. -/
theorem Arrives.length_le_rest {n : ℕ} {ps : Pieces UInt8} {head data body : List UInt8}
    (h : Arrives n (.connected ps) (head ++ data)) (htext : ps.flatten = head ++ body) :
    data.length ≤ body.length := by
  have happ := congrArg List.length h.append
  change _ = ps.flatten.length at happ
  rw [htext, List.length_append, List.length_append, List.length_append] at happ
  omega

theorem HttpRequest.received_same {r : Bool} {q : HttpRequest} (h : Printable r q) : q.Same q.received := by
  have hclose := complete_close h false q.body
  have hcomplete := HttpRequest.complete_eq (q.parsed false) q.body
  rw [hclose] at hcomplete
  rw [received, hcomplete]
  exact {
    method := rfl
    version := rfl
    path := rfl
    query := rfl
    fragment := rfl
    headers := parsed_headers h false
    body := rfl
    close := rfl }

section
variable {ω : Type} {lexicalCast : List UInt8 → Option UInt64} {n : ℕ} {q : HttpRequest} {a : Answer ω}
  {ps rest : Pieces UInt8} {st : Stream}

/-- A request that arrives before other messages is received, and these stay as they are. -/
theorem recvRequest_asked (h : Asked n q ps)
    (hcast : ∀ k : ℕ, k < 2 ^ 64 → lexicalCast (decimal k) = some (UInt64.ofNat k)) (hmax : n ≤ intMax)
    (hopen : st.closed = false) (hin : st.input = ps.append rest) (uriRelaxed : Bool) (queryStart : ℕ) :
    recvRequest lexicalCast uriRelaxed queryStart n st = .ok (some q.received, st.withInput rest) := by
  obtain ⟨data, hhead⟩ := h.head
  have hdump := dump_eq q false
  have hlen := congrArg List.length hdump
  rw [List.length_append, List.length_cons, List.length_cons] at hlen
  have hbody : q.body.length ≤ intMax := by
    have := h.short
    omega
  have hpending : st.pending = q.printedHead false ++ 13 :: 10 :: (q.body ++ rest.flatten) := by
    rw [Stream.pending, hin, Pieces.flatten_append, h.text, hdump, List.append_assoc]
    rfl
  have hdata : (13 :: 10 :: data).length ≤ (13 :: 10 :: q.body).length :=
    hhead.length_le_rest (h.text.trans hdump)
  simp only [List.length_cons] at hdata
  have hcount : (q.printedHead false).length + 2 + max data.length q.body.length = ps.flatten.length := by
    rw [h.text]
    omega
  have hmissing : q.body.length ≤ data.length ∨ 0 < toInt (q.body.length - data.length : ℕ) := by
    rw [toInt_eq (by omega)]
    omega
  have hprintable := h.printable uriRelaxed
  have hlength := printed_contentLength hprintable false (hcast _ (by unfold intMax at hbody; omega)) hbody
  rw [recvRequest_printed hprintable.readable h.method false queryStart hmax (hhead.before hmax hopen hin)
    hpending hlength, if_pos hmissing, hcount, Stream.skip, hin, Pieces.skip_of_append]
  rfl

theorem Replied.dump_eq (h : Replied n a ps) :
    a.dump = a.response.printedHead (a.response.printedFields false []) ++ a.response.body := by
  rw [Answer.dump, h.plain.1, h.plain.2]
  exact HttpResponse.dump_eq a.response

/-- The same for a response. -/
theorem recvResponse_replied (h : Replied n a ps)
    (hcast : ∀ k : ℕ, k < 2 ^ 64 → lexicalCast (decimal k) = some (UInt64.ofNat k)) (hmax : n ≤ intMax)
    (hopen : st.closed = false) (hin : st.input = ps.append rest) :
    ∃ rsp, recvResponse lexicalCast n st = .ok (some rsp, st.withInput rest) ∧ a.response.Same rsp := by
  obtain ⟨data, hhead⟩ := h.head
  have hdump := h.dump_eq
  have hlen := congrArg List.length hdump
  rw [List.length_append] at hlen
  have hbody : a.response.body.length ≤ intMax := by
    have := h.short
    omega
  have hpending : st.pending = a.response.printedHead (a.response.printedFields false []) ++
      (a.response.body ++ rest.flatten) := by
    rw [Stream.pending, hin, Pieces.flatten_append, h.text, hdump, List.append_assoc]
  have hdata : data.length ≤ a.response.body.length := hhead.length_le_rest (h.text.trans hdump)
  have hcount : (a.response.printedHead (a.response.printedFields false [])).length +
      max data.length a.response.body.length = ps.flatten.length := by
    rw [h.text]
    omega
  have hmissing : a.response.body.length ≤ data.length ∨
      0 < toInt (a.response.body.length - data.length : ℕ) := by
    rw [toInt_eq (by omega)]
    omega
  have hlength := getAs_printed (HttpResponse.parsed_length h.printable)
    (hcast a.response.body.length (by unfold intMax at hbody; omega)) h.printable.body
  refine ⟨_, ?_, HttpResponse.parsed_same h.printable⟩
  rw [recvResponse_printed h.printable.reported (HttpResponse.printedFields_plain h.printable) hmax
    (hhead.before hmax hopen hin) hpending h.printable.body hlength, if_pos hmissing, hcount, Stream.skip, hin,
    Pieces.skip_of_append]

/-- Nothing is received when nothing is there. -/
theorem headLoop_ended {ρ : Type} (P : Parsing ρ) (parser : ρ) (hopen : st.closed = false)
    (hst : st.pending = []) : headLoop P n [] parser st = .ok (none, st.close) := by
  have hread := Stream.read_ended hopen hst (n - ([] : List UInt8).length)
  have hend : (st.read (n - ([] : List UInt8).length)).1 ≤ 0 := by
    rw [hread]
    exact st.ending_le
  rw [headLoop, dif_pos hend, hread]

theorem recvRequest_ended (hopen : st.closed = false) (hst : st.pending = []) (uriRelaxed : Bool)
    (queryStart : ℕ) : recvRequest lexicalCast uriRelaxed queryStart n st = .ok (none, st.close) := by
  rw [recvRequest, headLoop_ended _ _ hopen hst]
  rfl

theorem recvResponse_ended (hopen : st.closed = false) (hst : st.pending = []) :
    recvResponse lexicalCast n st = .ok (none, st.close) := by
  rw [recvResponse, headLoop_ended _ _ hopen hst]
  rfl

end

/-! ## The server -/

section
variable {ω : Type} {lexicalCast : List UInt8 → Option UInt64} {n : ℕ}

/-- By induction on the requests, whatever the memory of the parsers and the state of the world. -/
theorem handleClient_serves (server : HttpServer ω) (hmax : n ≤ intMax)
    (hcast : ∀ k : ℕ, k < 2 ^ 64 → lexicalCast (decimal k) = some (UInt64.ofNat k))
    {qs : List HttpRequest} {ds : List (Pieces UInt8)} (h : List.Forall₂ (Asked n) qs ds)
    (memory : ℕ → Bool × ℕ) (w : ω) {st : Stream} (hst : st.Accepts) (hin : st.input = Pieces.join ds) :
    ∃ st', server.handleClient lexicalCast n memory w st =
        .ok ((server.serve w (qs.map HttpRequest.received)).1, st') ∧ st'.closed = true ∧
      st'.sent = st.sent ++ ((server.serve w (qs.map HttpRequest.received)).2.map Answer.dump).flatten := by
  induction h generalizing memory w st with
  | nil =>
    have hpending : st.pending = [] := by
      rw [Stream.pending, hin]
      rfl
    rw [HttpServer.handleClient, recvRequest_ended hst.1 hpending]
    exact ⟨st.close.close, rfl, rfl, (List.append_nil _).symm⟩
  | @cons q ps qs ds hq _ ih =>
    have hrecv : recvRequest lexicalCast (memory 0).1 (memory 0).2 n st =
        .ok (some q.received, st.withInput (Pieces.join ds)) :=
      recvRequest_asked hq hcast hmax hst.1 hin (memory 0).1 (memory 0).2
    have haccepts : (st.withInput (Pieces.join ds)).Accepts := hst
    obtain ⟨takes, hwrite, haccepts⟩ := Stream.writeFixSize_spec haccepts (server.answer w q.received).dump
    rw [HttpServer.handleClient, hrecv, List.map_cons, HttpServer.serve]
    dsimp only
    rw [sendResponse, hwrite]
    by_cases hend : server.ends (server.answer w q.received) = true
    · rw [if_pos hend, if_pos hend]
      refine ⟨_, rfl, rfl, ?_⟩
      rw [List.map_singleton, List.flatten_singleton]
      rfl
    · rw [if_neg hend, if_neg hend]
      obtain ⟨st', hrun, hclosed, hsent⟩ := ih (fun i => memory (i + 1))
        (server.answer w q.received).world haccepts rfl
      refine ⟨st', hrun, hclosed, ?_⟩
      rw [hsent, List.map_cons, List.flatten_cons, ← List.append_assoc]
      rfl

/-- What comes behind the request that ends the connection does not matter. -/
theorem serve_take (server : HttpServer ω) (w : ω) (reqs : List HttpRequest) :
    server.serve w (reqs.take ((server.serve w reqs).2.length + 1)) = server.serve w reqs := by
  induction reqs generalizing w with
  | nil => rfl
  | cons req reqs ih =>
    rw [List.take_succ_cons, HttpServer.serve, HttpServer.serve]
    by_cases hend : server.ends (server.answer w req) = true
    · rw [if_pos hend, if_pos hend]
    · rw [if_neg hend, if_neg hend, List.length_cons, ih]

theorem serve_length_le (server : HttpServer ω) (w : ω) (reqs : List HttpRequest) :
    (server.serve w reqs).2.length ≤ reqs.length := by
  induction reqs generalizing w with
  | nil => exact Nat.le_refl 0
  | cons req reqs ih =>
    rw [HttpServer.serve]
    split
    · exact Nat.succ_le_succ (Nat.zero_le _)
    · exact Nat.succ_le_succ (ih _)

end

/-! ## The client -/

section
variable {ω : Type} {lexicalCast : List UInt8 → Option UInt64} {n : ℕ}

/-- The results of a client that gets some responses before the connection is closed. -/
def results (rsps : List HttpResponse) (asked : ℕ) : List HttpResult :=
  rsps.map (fun rsp => ⟨.OK, some rsp⟩) ++ if rsps.length < asked then [⟨.TIMEOUT, none⟩] else []

theorem doRequest_sent (lexicalCast : List UInt8 → Option UInt64) (n : ℕ) {q : HttpRequest} {st : Stream}
    (hst : st.Accepts) (hq : (q.dump false).length ≤ intMax) : ∃ takes,
      (st.withSent takes (q.dump false)).Accepts ∧ doRequest lexicalCast n q st =
        match recvResponse lexicalCast n (st.withSent takes (q.dump false)) with
        | .error e => .error e
        | .ok (none, s) => .ok (⟨.TIMEOUT, none⟩, s)
        | .ok (some rsp, s) => .ok (⟨.OK, some rsp⟩, s) := by
  obtain ⟨takes, hwrite, haccepts⟩ := Stream.writeFixSize_spec hst (q.dump false)
  have hpos : 0 < (q.dump false).length := by
    rw [dump_eq, List.length_append, List.length_cons]
    omega
  refine ⟨takes, haccepts, ?_⟩
  rw [doRequest, sendRequest, hwrite, toInt_eq hq]
  dsimp only
  rw [if_neg (by omega), if_neg (by omega)]

/-- By induction on the responses that arrive. -/
theorem doRequests_replied (hmax : n ≤ intMax)
    (hcast : ∀ k : ℕ, k < 2 ^ 64 → lexicalCast (decimal k) = some (UInt64.ofNat k))
    {as : List (Answer ω)} {es : List (Pieces UInt8)} (h : List.Forall₂ (Replied n) as es)
    {qs : List HttpRequest} (hqs : ∀ q ∈ qs, (q.dump false).length ≤ intMax) (hlen : as.length ≤ qs.length)
    {st : Stream} (hst : st.Accepts) (hin : st.input = Pieces.join es) :
    ∃ rsps st', doRequests lexicalCast n qs st = .ok (results rsps qs.length, st') ∧
      List.Forall₂ (fun a rsp => a.response.Same rsp) as rsps ∧
      st'.sent = st.sent ++ ((qs.take (as.length + 1)).map (HttpRequest.dump · false)).flatten := by
  induction h generalizing qs st with
  | nil =>
    cases qs with
    | nil => exact ⟨[], st, rfl, .nil, (List.append_nil _).symm⟩
    | cons q qs =>
      obtain ⟨takes, haccepts, hrun⟩ := doRequest_sent lexicalCast n hst (hqs q List.mem_cons_self)
      have hpending : (st.withSent takes (q.dump false)).pending = [] := by
        rw [Stream.pending, Stream.withSent, hin]
        rfl
      rw [recvResponse_ended haccepts.1 hpending] at hrun
      refine ⟨[], (st.withSent takes (q.dump false)).close, ?_, .nil, ?_⟩
      · rw [doRequests, hrun]
        rfl
      · rw [List.length_nil, List.take_succ_cons, List.take_zero, List.map_singleton, List.flatten_singleton]
        rfl
  | @cons a ps as es ha _ ih =>
    obtain ⟨q, qs, rfl⟩ := List.exists_cons_of_length_pos (Nat.lt_of_lt_of_le (Nat.succ_pos _) hlen)
    obtain ⟨takes, haccepts, hrun⟩ := doRequest_sent lexicalCast n hst (hqs q List.mem_cons_self)
    have hinput : (st.withSent takes (q.dump false)).input = ps.append (Pieces.join es) := hin
    obtain ⟨rsp, hrecv, hsame⟩ := recvResponse_replied ha hcast hmax haccepts.1 hinput
    have hnext : ((st.withSent takes (q.dump false)).withInput (Pieces.join es)).Accepts := haccepts
    obtain ⟨rsps, st', hrest, hall, hsent⟩ := ih (fun q hq => hqs q (List.mem_cons_of_mem _ hq))
      (Nat.le_of_succ_le_succ hlen) hnext rfl
    rw [hrecv] at hrun
    have hopen := hnext.1
    refine ⟨rsp :: rsps, st', ?_, .cons hsame hall, ?_⟩
    · rw [doRequests, hrun]
      dsimp only [bind, Except.bind]
      rw [hopen, hrest]
      simp only [results, List.length_cons, Nat.add_lt_add_iff_right, List.map_cons, List.cons_append]
      rfl
    · rw [hsent, List.length_cons, List.take_succ_cons, List.map_cons, List.flatten_cons, ← List.append_assoc]
      rfl

end

/-! ## Both together -/

theorem readDigits_eq {bs : List UInt8} (h : ∀ b ∈ bs, (digitValue 10 b).isSome = true) (k : ℕ) :
    readDigits 10 k bs = bs.foldl (fun v b => v * 10 + (digitValue 10 b).getD 0) k := by
  induction bs generalizing k with
  | nil => rfl
  | cons b bs ih =>
    obtain ⟨hb, hbs⟩ := List.forall_mem_cons.mp h
    obtain ⟨d, hd⟩ := Option.isSome_iff_exists.mp hb
    rw [readDigits, hd, List.foldl_cons, hd]
    exact ih hbs (k * 10 + d)

/-- Numbers are read as they are printed. -/
theorem castDigits_decimal {k : ℕ} (hk : k < 2 ^ 64) : castDigits (decimal k) = some (UInt64.ofNat k) := by
  have hdigits : ∀ b ∈ decimal k, (digitValue 10 b).isSome = true :=
    Lib.Digits.forall_mem_digits (p := fun b => (digitValue 10 b).isSome = true) (by decide) (by decide) k
  have hread : readDigits 10 0 (decimal k) = k :=
    (readDigits_eq hdigits 0).trans
      (Lib.Digits.foldl_digits (fun b => (digitValue 10 b).getD 0) (by decide) (by decide) k)
  have hcond : decimal k ≠ [] ∧ (decimal k).all (fun b => (digitValue 10 b).isSome) = true ∧
      readDigits 10 0 (decimal k) < 2 ^ 64 :=
    ⟨Lib.Digits.digits_ne_nil, List.all_eq_true.mpr hdigits, by rwa [hread]⟩
  rw [castDigits, if_pos hcond, hread]

/-- A server without servlets. -/
def emptyServer : HttpServer Unit where
  m_isKeepalive := true
  m_name := ascii "flz"
  m_dispatch := (ServletDispatch.new : ServletDispatch Unit Unit Unit).handle
    ⟨fun _ w req rsp => ⟨w, req, rsp, false, []⟩, fun _ w req rsp => ⟨w, req, rsp, false, []⟩,
      fun _ w req rsp => ⟨w, req, rsp, false, []⟩⟩ fun _ _ => 1

theorem asked_whole {q : HttpRequest} (hq : ∀ uriRelaxed, Printable uriRelaxed q) (hdash : q.method ≠ .MSEARCH)
    (hlen : (q.dump false).length ≤ 4096) : Asked 4096 q (.whole (q.dump false)) where
  printable := hq
  method := hdash
  short := Nat.le_trans hlen (by decide)
  text := Pieces.flatten_whole _
  head := by
    refine ⟨q.body, ?_⟩
    rw [← dump_eq]
    refine arrives_whole (by decide) ?_ hlen
    rw [dump_eq]
    simp

/-- What it answers. -/
def refusal (close : Bool) : HttpResponse := (emptyServer.answer () { HttpRequest.new with close := close }).response

set_option maxRecDepth 20000 in
theorem refusal_dump_le : ∀ close, ((refusal close).dump false []).length ≤ 4096 := by decide

set_option maxRecDepth 20000 in
theorem refusal_printable (close : Bool) : (refusal close).Printable where
  reported := ⟨Or.inl rfl, ⟨(404, "Not Found"), by decide, rfl⟩, fun b hb => by cases hb⟩
  sorted := by
    unfold OrderedMap.Sorted
    revert close
    decide
  fields := by
    revert close
    decide
  names := by
    revert close
    decide
  body := by
    revert close
    decide

theorem emptyServer_replied {req : HttpRequest} (hversion : req.version = 0x11) :
    Replied 4096 (emptyServer.answer () req) (.whole (emptyServer.answer () req).dump) := by
  have hresponse : (emptyServer.answer () req).response = refusal req.close := by
    obtain ⟨method, version, close, path, query, fragment, body, headers⟩ := req
    subst hversion
    rfl
  have hdump : (emptyServer.answer () req).dump = (refusal req.close).dump false [] :=
    congrArg (HttpResponse.dump · false []) hresponse
  have hlen := refusal_dump_le req.close
  rw [← hdump] at hlen
  refine ⟨hresponse ▸ refusal_printable req.close, ⟨rfl, rfl⟩, Nat.le_trans hlen (by decide),
    Pieces.flatten_whole _, (emptyServer.answer () req).response.body, ?_⟩
  rw [← HttpResponse.dump_eq]
  refine arrives_whole (by decide) ?_ hlen
  have hend : (emptyServer.answer () req).dump ≠ [] := by
    rw [Answer.dump, HttpResponse.dump]
    simp [ascii]
  exact hend

/-- A request without fields. -/
def plainRequest (close : Bool) : HttpRequest := { HttpRequest.new with close := close }

theorem plainRequest_asked (close : Bool) :
    Asked 4096 (plainRequest close) (.whole ((plainRequest close).dump false)) := by
  have hlen : ∀ close, ((plainRequest close).dump false).length ≤ 4096 := by decide
  exact asked_whole (fun uriRelaxed => {
    method := show HttpMethod.GET ≠ .INVALID_METHOD by decide
    version := Or.inl rfl
    path := ⟨[], rfl, .nil, fun b hb => by cases hb⟩
    query := .nil
    fragment := .nil
    sorted := List.Pairwise.nil
    fields := fun e he => by cases he
    names := fun e he => by cases he }) (show HttpMethod.GET ≠ .MSEARCH by decide) (hlen close)

end Flz.Http
