import Flz.Hash.Base64
import Flz.Http.Conversation
import Flz.Http.DoRequest

/-! # Opening a web socket

`WSConnection::Create` of `http/ws_connection.cc` and `WSSession::handleShake` of
`http/ws_session.cc`. The hash is a parameter, and `lexicalCast` and `castInt` are
`boost::lexical_cast` to `uint64_t` and to `int`.
-/
namespace Flz.Http
open Lib Hash

/-! ## The client -/

namespace WSConnection

/-- `has_host`, `has_conn` and `req` of the loop over the headers. -/
structure Building where
  has_host : Bool
  has_conn : Bool
  req : HttpRequest

def addHeader (b : Building) (i : List UInt8 × List UInt8) : Building :=
  let b :=
    if isConnection i.1 then { b with has_conn := true }
    else if !b.has_host && isHost i.1 then { b with has_host := i.2 != [] }
    else b
  { b with req := b.req.setHeader i.1 i.2 }

/-- The request of `Create`; `random` is what `random_string(16)` gives. -/
def request (path query fragment host random : List UInt8) (headers : List (List UInt8 × List UInt8)) :
    HttpRequest :=
  let req : HttpRequest :=
    { HttpRequest.new with path := path, query := query, fragment := fragment, method := .GET }
  let b := headers.foldl addHeader ⟨false, false, req⟩
  let req := if b.has_conn then b.req else b.req.setHeader (ascii "connection") (ascii "Upgrade")
  let req := req.setHeader (ascii "Upgrade") (ascii "websocket")
  let req := req.setHeader (ascii "Sec-webSocket-Version") (ascii "13")
  let req := req.setHeader (ascii "Sec-webSocket-Key") (base64encode random)
  if b.has_host then req else req.setHeader (ascii "Host") host

/-- How `Create` ends on a connection that is there. -/
inductive Result
  | failed (error : HttpResult.Error)
  | notWebsocketServer (rsp : HttpResponse)
  | connected (rsp : HttpResponse)
  deriving DecidableEq, Repr

def create (lexicalCast : List UInt8 → Option UInt64) (buffSize : ℕ) (req : HttpRequest) (s : Stream) :
    Except Fault (Result × Stream) :=
  let (rt, s) := sendRequest req true s
  if rt = 0 then .ok (.failed .SEND_CLOSE_BY_PEER, s)
  else if rt < 0 then .ok (.failed .SEND_SOCKET_ERROR, s)
  else
    match recvResponse lexicalCast buffSize s with
    | .error e => .error e
    | .ok (none, s) => .ok (.failed .TIMEOUT, s)
    | .ok (some rsp, s) =>
      if rsp.status ≠ 101 then .ok (.notWebsocketServer rsp, s) else .ok (.connected rsp, s)

end WSConnection

/-! ## The server -/

namespace WSSession

/-- `base64encode(sha1sum(v))` for the key and the text that belongs to the protocol. -/
def acceptKey (sha1sum : List UInt8 → List UInt8) (key : List UInt8) : List UInt8 :=
  base64encode (sha1sum (key ++ ascii "258EAFA5-E914-47DA-95CA-C5AB0DC85B11"))

def shakeResponse (sha1sum : List UInt8 → List UInt8) (req : HttpRequest) : HttpResponse :=
  let rsp : HttpResponse :=
    { HttpResponse.new with
      version := req.version, close := req.close, status := 101, reason := ascii "Web Socket Protocol Handshake" }
  let rsp := rsp.setHeader (ascii "Upgrade") (ascii "websocket")
  let rsp := rsp.setHeader (ascii "Connection") (ascii "Upgrade")
  rsp.setHeader (ascii "Sec-WebSocket-Accept") (acceptKey sha1sum (req.getHeader (ascii "Sec-WebSocket-Key")))

/-- `getHeaderAs<int>(key)`. -/
def getHeaderAs (castInt : List UInt8 → Option ℤ) (req : HttpRequest) (key : List UInt8) : ℤ :=
  ((req.headers.find key).bind castInt).getD 0

def handleShake (lexicalCast : List UInt8 → Option UInt64) (castInt : List UInt8 → Option ℤ)
    (sha1sum : List UInt8 → List UInt8) (buffSize : ℕ) (uriRelaxed : Bool) (queryStart : ℕ) (s : Stream) :
    Except Fault (Option HttpRequest × Stream) :=
  match recvRequest lexicalCast uriRelaxed queryStart buffSize s with
  | .error e => .error e
  | .ok (none, s) => .ok (none, s)
  | .ok (some req, s) =>
    if strcasecmp (req.getHeader (ascii "Upgrade")) (ascii "websocket") ≠ .eq then .ok (none, s)
    else if strcasecmp (req.getHeader (ascii "Connection")) (ascii "Upgrade") ≠ .eq then .ok (none, s)
    else if getHeaderAs castInt req (ascii "Sec-webSocket-Version") ≠ 13 then .ok (none, s)
    else if req.getHeader (ascii "Sec-WebSocket-Key") = [] then .ok (none, s)
    else .ok (some req, (s.writeFixSize ((shakeResponse sha1sum req).dump true [])).2)

end WSSession

/-! ## The text of a key -/

theorem base64_getD (k : ℕ) (h : k < 64) : base64.getD k 0 ∈ base64 := by
  have hlen : k < base64.length := h
  rw [List.getD_eq_getElem _ _ hlen]
  exact List.getElem_mem hlen

theorem encodeGroup_mem {i n : ℕ} (h3 : i ≤ 3) (hn : n < 256 ^ i) :
    ∀ c ∈ encodeGroup i n, c ∈ base64 ∨ c = 61 := by
  have hmask : ∀ m : ℕ, base64.getD (m &&& 0x3f) 0 ∈ base64 := fun m =>
    base64_getD _ (Nat.lt_of_le_of_lt Nat.and_le_right (by decide))
  have hfirst : base64.getD ((n <<< (8 * (3 - i))) >>> 18) 0 ∈ base64 := by
    refine base64_getD _ ?_
    have hshift : n * 2 ^ (8 * (3 - i)) < 2 ^ 24 := by
      have hpow : (256 : ℕ) ^ i * 2 ^ (8 * (3 - i)) = 2 ^ 24 := by
        rw [show (256 : ℕ) = 2 ^ 8 by decide, ← Nat.pow_mul, ← Nat.pow_add]
        congr 1
        omega
      rw [← hpow]
      exact Nat.mul_lt_mul_of_pos_right hn (Nat.two_pow_pos _)
    rw [Nat.shiftLeft_eq, Nat.shiftRight_eq_div_pow]
    omega
  intro c hc
  rw [encodeGroup] at hc
  generalize (if i = 2 then 1 else if i = 1 then 2 else 0) = padding at hc
  rcases List.mem_append.mp hc with hc | hc
  · refine Or.inl ?_
    have hfour : c ∈ [base64.getD ((n <<< (8 * (3 - i))) >>> 18) 0,
        base64.getD (((n <<< (8 * (3 - i))) >>> 12) &&& 0x3f) 0,
        base64.getD (((n <<< (8 * (3 - i))) >>> 6) &&& 0x3f) 0,
        base64.getD ((n <<< (8 * (3 - i))) &&& 0x3f) 0] := by
      simp only [List.mem_cons, List.not_mem_nil, or_false]
      by_cases hzero : padding = 0
      · rw [if_pos hzero, if_pos (by omega)] at hc
        simpa [or_assoc] using hc
      · rw [if_neg hzero] at hc
        by_cases htwo : padding = 2
        · rw [if_neg (not_not_intro htwo)] at hc
          simp only [List.mem_cons, List.not_mem_nil, or_false] at hc
          exact hc.imp_right Or.inl
        · rw [if_pos htwo] at hc
          simp only [List.cons_append, List.nil_append, List.mem_cons, List.not_mem_nil, or_false] at hc
          exact hc.imp_right (Or.imp_right Or.inl)
    simp only [List.mem_cons, List.not_mem_nil, or_false] at hfour
    rcases hfour with rfl | rfl | rfl | rfl
    · exact hfirst
    · exact hmask _
    · exact hmask _
    · exact hmask _
  · exact Or.inr (List.eq_of_mem_replicate hc)

/-- The characters of an encoded text. -/
theorem base64encode_mem (data : List UInt8) : ∀ c ∈ base64encode data, c ∈ base64 ∨ c = 61 := by
  induction data using chunk_induction with
  | nil =>
    rw [base64encode, encodeLoop]
    intro c hc
    cases hc
  | chunk bs rest h ih =>
    rw [base64encode_chunk h]
    intro c hc
    rcases List.mem_append.mp hc with hc | hc
    · exact encodeGroup_mem h.short (packedBytes_lt bs) c hc
    · exact ih c hc

theorem base64encode_ne_nil {data : List UInt8} (h : data ≠ []) : base64encode data ≠ [] := by
  intro hnil
  have hdecode := base64decode_encode data
  have hempty := base64decode_encode []
  have hstart : base64encode [] = [] := by rw [base64encode, encodeLoop]
  rw [hstart] at hempty
  rw [hnil, hempty] at hdecode
  exact h (Option.some.inj hdecode).symm

set_option maxRecDepth 20000 in
/-- An encoded text can be the value of a field. -/
theorem base64encode_isField {name : List UInt8} (hname : IsField (name, [])) (data : List UInt8) :
    IsField (name, base64encode data) := by
  have halphabet : ∀ c ∈ 61 :: base64, valueChar.holds c = true ∧ c ≠ 32 := by decide
  have hchars : ∀ c ∈ base64encode data, valueChar.holds c = true ∧ c ≠ 32 := by
    intro c hc
    refine halphabet c ?_
    rcases base64encode_mem data c hc with hc | rfl
    · exact List.mem_cons_of_mem _ hc
    · exact List.mem_cons_self
  exact {
    name_ne := hname.name_ne
    name := hname.name
    value := fun c hc => (hchars c hc).1
    value_head := fun c hc => (hchars c (List.mem_of_mem_head? hc)).2 }

/-! ## What is sent -/

/-- All that is assigned to the header of the request. -/
def WSConnection.assigned (host random : List UInt8) (headers : List (List UInt8 × List UInt8)) :
    List (List UInt8 × List UInt8) :=
  headers ++ (if headers.any (isConnection ·.1) then [] else [(ascii "connection", ascii "Upgrade")]) ++
    [(ascii "Upgrade", ascii "websocket")] ++ [(ascii "Sec-webSocket-Version", ascii "13")] ++
    [(ascii "Sec-webSocket-Key", base64encode random)] ++
    if namesHost headers then [] else [(ascii "Host", host)]

/-- The last word of the caller about the connection, if there is any, is that it is to be upgraded. -/
def upgrades (headers : List (List UInt8 × List UInt8)) : Bool :=
  match OrderedMap.lastVal strcasecmp (ascii "connection") headers with
  | none => true
  | some val => strcasecmp val (ascii "Upgrade") == .eq

section
variable {req : HttpRequest} {path query fragment host random : List UInt8}
  {headers : List (List UInt8 × List UInt8)}

/-- By induction from the last header on. -/
theorem WSConnection.foldl_addHeader (hreq : req.headers = []) (headers : List (List UInt8 × List UInt8)) :
    headers.foldl addHeader ⟨false, false, req⟩ = ⟨namesHost headers, headers.any (isConnection ·.1),
      { req with headers := OrderedMap.ofAssignments strcasecmp headers }⟩ := by
  induction headers using List.reverseRecOn with
  | nil =>
    obtain ⟨method, version, close, path, query, fragment, body, fields⟩ := req
    subst hreq
    rfl
  | append_singleton headers i ih =>
    rw [List.foldl_append, ih, List.foldl_cons, List.foldl_nil, addHeader, namesHost_append, List.any_append,
      OrderedMap.ofAssignments_append]
    cases hconnection : isConnection i.1 with
    | true =>
      have hhost := isHost_of_isConnection hconnection
      simp [HttpRequest.setHeader, MapType.set, hconnection, hhost]
    | false =>
      cases hhost : isHost i.1 <;> cases hnames : namesHost headers <;>
        simp [HttpRequest.setHeader, MapType.set, hconnection]

theorem WSConnection.request_eq (path query fragment host random : List UInt8)
    (headers : List (List UInt8 × List UInt8)) :
    request path query fragment host random headers = { HttpRequest.new with
      path := path, query := query, fragment := fragment
      headers := OrderedMap.ofAssignments strcasecmp (assigned host random headers) } := by
  have hset : ∀ (fs : List (List UInt8 × List UInt8)) (key val : List UInt8),
      MapType.set key val (OrderedMap.ofAssignments strcasecmp fs) =
        OrderedMap.ofAssignments strcasecmp (fs ++ [(key, val)]) := fun fs key val =>
    (OrderedMap.ofAssignments_append fs (key, val)).symm
  rw [request, foldl_addHeader rfl]
  by_cases hconn : headers.any (isConnection ·.1) = true <;> by_cases hhost : namesHost headers = true <;>
    simp only [assigned, hconn, hhost, HttpRequest.setHeader, hset, List.append_nil, if_true, if_false,
      Bool.false_eq_true] <;> rfl

/-- What is assigned last under a name but that of the host. -/
theorem WSConnection.lastVal_assigned (key host random : List UInt8) (hkey : isHost key = false)
    (headers : List (List UInt8 × List UInt8)) :
    OrderedMap.lastVal strcasecmp key (assigned host random headers) =
      if strcasecmp key (ascii "Sec-webSocket-Key") = .eq then some (base64encode random)
      else if strcasecmp key (ascii "Sec-webSocket-Version") = .eq then some (ascii "13")
      else if strcasecmp key (ascii "Upgrade") = .eq then some (ascii "websocket")
      else OrderedMap.lastVal strcasecmp key
        (headers ++ if headers.any (isConnection ·.1) then [] else [(ascii "connection", ascii "Upgrade")]) := by
  have hother : strcasecmp key (ascii "Host") ≠ .eq := by
    have hspelling : strcasecmp (ascii "Host") (ascii "host") = .eq := by decide
    rw [Std.TransCmp.congr_right hspelling]
    exact beq_eq_false_iff_ne.mp hkey
  have hhost : ∀ fs, OrderedMap.lastVal strcasecmp key
      (fs ++ if namesHost headers then [] else [(ascii "Host", host)]) = OrderedMap.lastVal strcasecmp key fs := by
    intro fs
    by_cases hnames : namesHost headers = true
    · rw [if_pos hnames, List.append_nil]
    · rw [if_neg hnames, lastVal_concat, if_neg hother]
  rw [assigned, hhost, lastVal_concat, lastVal_concat, lastVal_concat]

theorem lastVal_spelling {a b : List UInt8} (h : strcasecmp a b = .eq) (fs : List (List UInt8 × List UInt8)) :
    OrderedMap.lastVal strcasecmp a fs = OrderedMap.lastVal strcasecmp b fs := by
  have hsame : ∀ e : List UInt8 × List UInt8, strcasecmp a e.1 = strcasecmp b e.1 := fun e =>
    Std.TransCmp.congr_left h
  simp only [OrderedMap.lastVal, hsame]

/-- The connection is announced to be upgraded exactly when the caller says nothing else last. -/
theorem WSConnection.lastVal_connection (headers : List (List UInt8 × List UInt8)) :
    ∃ val, OrderedMap.lastVal strcasecmp (ascii "connection")
        (headers ++ if headers.any (isConnection ·.1) then [] else [(ascii "connection", ascii "Upgrade")]) =
          some val ∧ (strcasecmp val (ascii "Upgrade") == .eq) = upgrades headers := by
  have hmem : headers.any (isConnection ·.1) = (OrderedMap.lastVal strcasecmp (ascii "connection") headers).isSome := by
    rw [OrderedMap.lastVal, Option.isSome_map, Bool.eq_iff_iff, List.any_eq_true, List.find?_isSome]
    simp only [List.mem_reverse, isConnection, beq_iff_eq]
    refine exists_congr fun e => and_congr_right fun _ => ?_
    exact ⟨Std.OrientedCmp.eq_symm, Std.OrientedCmp.eq_symm⟩
  rw [hmem, upgrades]
  cases hlast : OrderedMap.lastVal strcasecmp (ascii "connection") headers with
  | none =>
    refine ⟨ascii "Upgrade", ?_, by decide⟩
    rw [if_neg (by decide), lastVal_concat, if_pos (by decide)]
  | some val =>
    refine ⟨val, ?_, rfl⟩
    rw [if_pos Option.isSome_some, List.append_nil, hlast]

/-! ## The server receives it -/

/-- What a client may ask with. -/
structure Opens (path query fragment host random : List UInt8) (headers : List (List UInt8 × List UInt8)) :
    Prop where
  path : ∀ uriRelaxed, AbsolutePath uriRelaxed path
  query : ∀ uriRelaxed, UriText (RequestTable.queryChar uriRelaxed) query
  fragment : ∀ uriRelaxed, UriText (RequestTable.queryChar uriRelaxed) fragment
  host : IsField (ascii "Host", host)
  random : random ≠ []
  fields : ∀ e ∈ headers, IsField e
  plain : ∀ e ∈ headers, strcasecmp e.1 (ascii "content-length") ≠ .eq

theorem mem_ofAssignments {fs : List (List UInt8 × List UInt8)} {e : List UInt8 × List UInt8}
    (he : e ∈ OrderedMap.ofAssignments strcasecmp fs) : (∃ f ∈ fs, f.1 = e.1) ∧ ∃ f ∈ fs, f.2 = e.2 := by
  have hentry := OrderedMap.entry_self (OrderedMap.sorted_ofAssignments fs) he
  rw [OrderedMap.entry_ofAssignments] at hentry
  obtain ⟨k, hkey, hval⟩ := Option.bind_eq_some_iff.mp hentry
  obtain ⟨v, hlast, rfl⟩ := Option.map_eq_some_iff.mp hval
  obtain ⟨f, hf, rfl⟩ := Option.map_eq_some_iff.mp hkey
  obtain ⟨g, hg, -, rfl⟩ := OrderedMap.lastVal_mem hlast
  exact ⟨⟨f, List.mem_of_find?_eq_some hf, rfl⟩, ⟨g, hg, rfl⟩⟩

theorem isField_ofAssignments {fs : List (List UInt8 × List UInt8)} (hfs : ∀ e ∈ fs, IsField e) :
    ∀ e ∈ OrderedMap.ofAssignments strcasecmp fs, IsField e := by
  intro e he
  obtain ⟨⟨f, hf, hname⟩, ⟨g, hg, hvalue⟩⟩ := mem_ofAssignments he
  exact ⟨hname ▸ (hfs f hf).name_ne, hname ▸ (hfs f hf).name, hvalue ▸ (hfs g hg).value,
    hvalue ▸ (hfs g hg).value_head⟩

namespace Opens
variable (h : Opens path query fragment host random headers)
include h

theorem assigned_isField : ∀ e ∈ WSConnection.assigned host random headers, IsField e := by
  have hkey : IsField (ascii "Sec-webSocket-Key", []) := by decide
  intro e he
  simp only [WSConnection.assigned, List.mem_append, List.mem_singleton] at he
  rcases he with ((((he | he) | rfl) | rfl) | rfl) | he
  · exact h.fields e he
  · split at he
    · cases he
    · rw [List.mem_singleton.mp he]
      decide
  · decide
  · decide
  · exact base64encode_isField hkey random
  · split at he
    · cases he
    · rw [List.mem_singleton.mp he]
      exact h.host

theorem readable (uriRelaxed : Bool) :
    (WSConnection.request path query fragment host random headers).Readable uriRelaxed := by
  rw [WSConnection.request_eq]
  exact {
    method := show HttpMethod.GET ≠ .INVALID_METHOD by decide
    version := Or.inl rfl
    path := h.path uriRelaxed
    query := h.query uriRelaxed
    fragment := h.fragment uriRelaxed
    fields := isField_ofAssignments h.assigned_isField }

theorem noLength : (WSConnection.request path query fragment host random headers).headers.find
    (ascii "content-length") = none := by
  have hnone : OrderedMap.lastVal strcasecmp (ascii "content-length")
      (headers ++ if headers.any (isConnection ·.1) then [] else [(ascii "connection", ascii "Upgrade")]) = none := by
    cases hlast : OrderedMap.lastVal strcasecmp (ascii "content-length") _ with
    | none => rfl
    | some val =>
      obtain ⟨e, he, hname, -⟩ := OrderedMap.lastVal_mem hlast
      rcases List.mem_append.mp he with he | he
      · exact absurd (Std.OrientedCmp.eq_symm hname) (h.plain e he)
      · split at he
        · cases he
        · rw [List.mem_singleton.mp he] at hname
          exact absurd hname (by decide)
  rw [WSConnection.request_eq, MapType.find, OrderedMap.val_ofAssignments,
    WSConnection.lastVal_assigned _ _ _ (by decide), if_neg (by decide), if_neg (by decide), if_neg (by decide),
    hnone]

end Opens

/-- A request that goes out with its own fields only comes back with the same ones. -/
theorem parsed_headers_websocket {q : HttpRequest} (hsorted : OrderedMap.Sorted strcasecmp q.headers)
    (hbody : q.body = []) : (q.parsed true).headers = q.headers := by
  have hfields : q.printedFields true = q.headers := by
    rw [HttpRequest.printedFields, if_pos rfl, if_pos hbody, List.nil_append, List.append_nil]
    exact List.filter_eq_self.mpr fun e _ => rfl
  have hdistinct : q.headers.Pairwise (fun e f => strcasecmp e.1 f.1 ≠ .eq) :=
    hsorted.imp fun hlt heq => by
      rw [hlt] at heq
      cases heq
  change OrderedMap.ofAssignments strcasecmp (q.printedFields true) = q.headers
  rw [hfields]
  exact OrderedMap.ext (OrderedMap.sorted_ofAssignments _) hsorted fun key =>
    OrderedMap.entry_ofAssignments_distinct hdistinct key

/-- The request as the server has it. -/
def WSConnection.shaken (q : HttpRequest) : HttpRequest := (q.parsed true).complete []

theorem WSConnection.shaken_eq {q : HttpRequest} (hsorted : OrderedMap.Sorted strcasecmp q.headers)
    (hbody : q.body = []) : ∃ close, shaken q = { HttpRequest.new with
      method := q.method, version := q.version, path := q.path, query := q.query, fragment := q.fragment
      close := close, headers := q.headers } := by
  have hheaders := parsed_headers_websocket hsorted hbody
  refine ⟨((q.parsed true).complete []).close, ?_⟩
  rw [shaken, HttpRequest.complete_eq, hheaders]
  rfl

section
variable {lexicalCast : List UInt8 → Option UInt64} {castInt : List UInt8 → Option ℤ}
  {sha1sum : List UInt8 → List UInt8} {n : ℕ} {ps rest : Pieces UInt8} {st : Stream}

/-- The request of a client as it arrives: with one read. -/
structure Shakes (n : ℕ) (q : HttpRequest) (ps : Pieces UInt8) : Prop where
  short : (q.dump true).length ≤ intMax
  text : ps.flatten = q.dump true
  head : Arrives n (.connected ps) (q.dump true)

theorem recvRequest_shakes (h : Opens path query fragment host random headers) (hmax : n ≤ intMax)
    (hps : Shakes n (WSConnection.request path query fragment host random headers) ps)
    (hopen : st.closed = false) (hin : st.input = ps.append rest) (uriRelaxed : Bool) (queryStart : ℕ) :
    recvRequest lexicalCast uriRelaxed queryStart n st =
      .ok (some (WSConnection.shaken (WSConnection.request path query fragment host random headers)),
        st.withInput rest) := by
  have hreadable := h.readable uriRelaxed
  have hnone := h.noLength
  have hmethod : (WSConnection.request path query fragment host random headers).method ≠ .MSEARCH := by
    rw [WSConnection.request_eq]
    exact show HttpMethod.GET ≠ .MSEARCH by decide
  have hbody : (WSConnection.request path query fragment host random headers).body = [] := by
    rw [WSConnection.request_eq]
    rfl
  have hsorted : OrderedMap.Sorted strcasecmp
      (WSConnection.request path query fragment host random headers).headers := by
    rw [WSConnection.request_eq]
    exact OrderedMap.sorted_ofAssignments _
  generalize WSConnection.request path query fragment host random headers = q at *
  have hdump := dump_eq q true
  rw [hbody] at hdump
  have hhead := hps.head.before hmax hopen hin
  rw [hdump] at hhead
  have hpending : st.pending = q.printedHead true ++ 13 :: 10 :: ([] ++ rest.flatten) := by
    rw [Stream.pending, hin, Pieces.flatten_append, hps.text, hdump, List.append_assoc]
    rfl
  have hlength : (q.parsed true).contentLength lexicalCast = ([] : List UInt8).length := by
    rw [HttpRequest.contentLength, MapType.getAs, parsed_headers_websocket hsorted hbody, hnone,
      Option.bind_none, Option.getD_none]
    decide
  have hcount : (q.printedHead true).length + 2 + max 0 0 = ps.flatten.length := by
    rw [hps.text, hdump, List.length_append]
    rfl
  have hrecv := recvRequest_printed hreadable hmethod true queryStart hmax hhead hpending hlength
  rw [List.length_nil, if_pos (Or.inl (Nat.zero_le 0)), hcount, Stream.skip, hin, Pieces.skip_of_append] at hrecv
  exact hrecv

/-- What the server finds in the request. -/
theorem shaken_find (key path query fragment host random : List UInt8)
    (headers : List (List UInt8 × List UInt8)) :
    (WSConnection.shaken (WSConnection.request path query fragment host random headers)).headers.find key =
      OrderedMap.lastVal strcasecmp key (WSConnection.assigned host random headers) := by
  obtain ⟨close, hshaken⟩ := @WSConnection.shaken_eq (WSConnection.request path query fragment host random headers)
    (by rw [WSConnection.request_eq]; exact OrderedMap.sorted_ofAssignments _)
    (by rw [WSConnection.request_eq]; rfl)
  rw [hshaken, WSConnection.request_eq]
  exact OrderedMap.val_ofAssignments key _

/-- The request is accepted exactly when the connection is to be upgraded. -/
theorem handleShake_shakes (h : Opens path query fragment host random headers) (hmax : n ≤ intMax)
    (hcast : castInt (ascii "13") = some 13)
    (hps : Shakes n (WSConnection.request path query fragment host random headers) ps)
    (hopen : st.closed = false) (hin : st.input = ps.append rest) (uriRelaxed : Bool) (queryStart : ℕ) :
    WSSession.handleShake lexicalCast castInt sha1sum n uriRelaxed queryStart st =
      .ok (if upgrades headers then
        (some (WSConnection.shaken (WSConnection.request path query fragment host random headers)),
          ((st.withInput rest).writeFixSize ((WSSession.shakeResponse sha1sum (WSConnection.shaken
            (WSConnection.request path query fragment host random headers))).dump true [])).2)
      else (none, st.withInput rest)) := by
  have hfind := fun key => shaken_find key path query fragment host random headers
  have hne := base64encode_ne_nil h.random
  obtain ⟨val, hval, hupgrades⟩ := WSConnection.lastVal_connection headers
  have hupgrade := (hfind (ascii "Upgrade")).trans (WSConnection.lastVal_assigned _ host random (by decide) headers)
  have hconnection := (hfind (ascii "Connection")).trans
    (WSConnection.lastVal_assigned _ host random (by decide) headers)
  have hversion := (hfind (ascii "Sec-webSocket-Version")).trans
    (WSConnection.lastVal_assigned _ host random (by decide) headers)
  have hkey := (hfind (ascii "Sec-WebSocket-Key")).trans
    (WSConnection.lastVal_assigned _ host random (by decide) headers)
  rw [if_neg (by decide), if_neg (by decide), if_pos (by decide)] at hupgrade
  rw [if_neg (by decide), if_neg (by decide), if_neg (by decide)] at hconnection
  rw [if_neg (by decide), if_pos (by decide)] at hversion
  rw [if_pos (by decide)] at hkey
  rw [lastVal_spelling (show strcasecmp (ascii "Connection") (ascii "connection") = .eq by decide), hval]
    at hconnection
  rw [WSSession.handleShake, recvRequest_shakes h hmax hps hopen hin]
  generalize WSConnection.shaken (WSConnection.request path query fragment host random headers) = req at *
  have hint : WSSession.getHeaderAs castInt req (ascii "Sec-webSocket-Version") = 13 := by
    rw [WSSession.getHeaderAs, hversion, Option.bind_some, hcast, Option.getD_some]
  dsimp only
  rw [HttpRequest.getHeader, HttpRequest.getHeader, HttpRequest.getHeader, hupgrade, hconnection, hkey, hint,
    Option.getD_some, Option.getD_some, Option.getD_some, if_neg (by decide)]
  rw [← hupgrades]
  by_cases hconn : strcasecmp val (ascii "Upgrade") = .eq
  · rw [if_neg (not_not_intro hconn), if_neg (by decide), if_neg hne, hconn]
    rfl
  · rw [if_pos hconn, beq_eq_false_iff_ne.mpr hconn]
    rfl

/-! ## The client receives the answer -/

theorem shakeResponse_eq (sha1sum : List UInt8 → List UInt8) (req : HttpRequest) :
    WSSession.shakeResponse sha1sum req = { HttpResponse.new with
      version := req.version, close := req.close, status := 101, reason := ascii "Web Socket Protocol Handshake"
      headers := [(ascii "Connection", ascii "Upgrade"), (ascii "Sec-WebSocket-Accept",
          WSSession.acceptKey sha1sum (req.getHeader (ascii "Sec-WebSocket-Key"))),
        (ascii "Upgrade", ascii "websocket")] } := by
  rw [WSSession.shakeResponse]
  generalize WSSession.acceptKey sha1sum _ = val
  rfl

/-- The answer as it arrives: with one read. -/
structure Answered (n : ℕ) (rsp : HttpResponse) (es : Pieces UInt8) : Prop where
  text : es.flatten = rsp.dump true []
  head : Arrives n (.connected es) (rsp.dump true [])

theorem recvResponse_shaken {req : HttpRequest} (hversion : req.version = 0x11) {es : Pieces UInt8}
    (hmax : n ≤ intMax) (hes : Answered n (WSSession.shakeResponse sha1sum req) es) (hopen : st.closed = false)
    (hin : st.input = es.append rest) : ∃ rsp,
      recvResponse lexicalCast n st = .ok (some rsp, st.withInput rest) ∧ rsp.status = 101 ∧
        rsp.headers.find (ascii "Sec-WebSocket-Accept") =
          some (WSSession.acceptKey sha1sum (req.getHeader (ascii "Sec-WebSocket-Key"))) := by
  obtain ⟨htext, hhead⟩ := hes
  have haccept : IsField (ascii "Sec-WebSocket-Accept",
      WSSession.acceptKey sha1sum (req.getHeader (ascii "Sec-WebSocket-Key"))) :=
    base64encode_isField (by decide) _
  rw [shakeResponse_eq, hversion] at htext hhead
  generalize WSSession.acceptKey sha1sum (req.getHeader (ascii "Sec-WebSocket-Key")) = val at *
  generalize hrsp : ({ HttpResponse.new with
      version := 0x11, close := req.close, status := 101, reason := ascii "Web Socket Protocol Handshake"
      headers := [(ascii "Connection", ascii "Upgrade"), (ascii "Sec-WebSocket-Accept", val),
        (ascii "Upgrade", ascii "websocket")] } : HttpResponse) = r at htext hhead
  have hbody : r.body = [] := by
    rw [← hrsp]
    rfl
  have hfields : r.printedFields true [] = [(ascii "Connection", ascii "Upgrade"),
      (ascii "Sec-WebSocket-Accept", val), (ascii "Upgrade", ascii "websocket")] := by
    rw [← hrsp]
    rfl
  have hdump : r.dump true [] = r.printedHead (r.printedFields true []) ++ [] := by
    have hend : ascii "\r\n" = [13, 10] := by decide
    rw [HttpResponse.dump, HttpResponse.printedHead, hbody, hend]
    simp only [List.append_assoc, List.append_nil]
  have hreported : r.Reported := by
    rw [← hrsp]
    have hreason : (ascii "Web Socket Protocol Handshake").all textChar.holds = true := by decide
    exact ⟨Or.inl rfl, ⟨(101, "Switching Protocols"), by decide, rfl⟩, List.all_eq_true.mp hreason⟩
  have hplain : ∀ e ∈ r.printedFields true [], IsPlainField e := by
    rw [hfields]
    intro e he
    simp only [List.mem_cons, List.not_mem_nil, or_false] at he
    rcases he with rfl | rfl | rfl
    · exact ⟨by decide, by decide, by decide⟩
    · have hname : (ascii "Sec-WebSocket-Accept").map tolower ∉
          [ascii "connection", ascii "transfer-encoding", ascii "content-length"] := by decide
      exact ⟨haccept, Or.inr hname, fun hchunked => hname (by simp [hchunked.1])⟩
    · exact ⟨by decide, by decide, by decide⟩
  have hpending : st.pending = r.printedHead (r.printedFields true []) ++ ([] ++ rest.flatten) := by
    rw [Stream.pending, hin, Pieces.flatten_append, htext, hdump, List.append_nil]
    rfl
  have hlength : toInt64 ((r.parsed (r.printedFields true [])).headers.getAs lexicalCast
      (ascii "content-length")).toNat = ([] : List UInt8).length := by
    have hnone : (r.parsed (r.printedFields true [])).headers.find (ascii "content-length") = none := by
      rw [hfields]
      rfl
    rw [MapType.getAs, hnone, Option.bind_none, Option.getD_none]
    decide
  rw [hdump] at hhead
  have hcount : (r.printedHead (r.printedFields true [])).length + max ([] : List UInt8).length 0 =
      es.flatten.length := by
    rw [htext, hdump, List.append_nil]
    rfl
  have hrecv := recvResponse_printed hreported hplain hmax (hhead.before hmax hopen hin) hpending
    (by decide) hlength
  rw [List.length_nil, if_pos (Or.inl (Nat.zero_le 0))] at hrecv
  rw [List.length_nil] at hcount
  rw [hcount, Stream.skip, hin, Pieces.skip_of_append] at hrecv
  refine ⟨_, hrecv, ?_, ?_⟩
  · rw [← hrsp]
    rfl
  · rw [hfields]
    rfl

end

end

theorem shaken_parts (path query fragment host random : List UInt8) (headers : List (List UInt8 × List UInt8)) :
    (WSConnection.shaken (WSConnection.request path query fragment host random headers)).version = 0x11 ∧
      (WSConnection.shaken (WSConnection.request path query fragment host random headers)).path = path ∧
      (WSConnection.shaken (WSConnection.request path query fragment host random headers)).getHeader
        (ascii "Sec-WebSocket-Key") = base64encode random := by
  refine ⟨?_, ?_, ?_⟩
  · rw [WSConnection.shaken, HttpRequest.complete_eq, WSConnection.request_eq]
    rfl
  · rw [WSConnection.shaken, HttpRequest.complete_eq, WSConnection.request_eq]
    rfl
  · rw [HttpRequest.getHeader, shaken_find, WSConnection.lastVal_assigned _ _ _ (by decide), if_pos (by decide)]
    rfl

theorem create_sent (lexicalCast : List UInt8 → Option UInt64) (n : ℕ) (es : Pieces UInt8) {q : HttpRequest}
    (hq : (q.dump true).length ≤ intMax) : ∃ takes,
      ((Stream.connected es).withSent takes (q.dump true)).Accepts ∧
      WSConnection.create lexicalCast n q (.connected es) =
        match recvResponse lexicalCast n ((Stream.connected es).withSent takes (q.dump true)) with
        | .error e => .error e
        | .ok (none, s) => .ok (.failed .TIMEOUT, s)
        | .ok (some rsp, s) =>
          if rsp.status ≠ 101 then .ok (.notWebsocketServer rsp, s) else .ok (.connected rsp, s) := by
  obtain ⟨takes, hwrite, haccepts⟩ := Stream.writeFixSize_spec (Stream.connected_accepts es) (q.dump true)
  have hpos : 0 < (q.dump true).length := by
    rw [dump_eq, List.length_append, List.length_cons]
    omega
  refine ⟨takes, haccepts, ?_⟩
  rw [WSConnection.create, sendRequest, hwrite, toInt_eq hq]
  dsimp only
  rw [if_neg (by omega), if_neg (by omega)]

/-! ## Both together -/

theorem base64encode_three (a b c : UInt8) (rest : List UInt8) :
    base64encode (a :: b :: c :: rest) = encodeGroup 3 (packedBytes [a, b, c]) ++ base64encode rest :=
  @base64encode_chunk [a, b, c] rest ⟨by simp, by simp, Or.inl rfl⟩

theorem base64encode_last {bs : List UInt8} (hne : bs ≠ []) (hlen : bs.length ≤ 3) :
    base64encode bs = encodeGroup bs.length (packedBytes bs) := by
  have hchunk := @base64encode_chunk bs [] ⟨hne, hlen, Or.inr rfl⟩
  have hend : base64encode [] = [] := by rw [base64encode, encodeLoop]
  rwa [List.append_nil, hend, List.append_nil] at hchunk

def sampleRandom : List UInt8 := ascii "0123456789abcdef"

/-- The hash of the key that belongs to it. -/
def sampleHash : List UInt8 :=
  [4, 0, 146, 112, 34, 79, 54, 172, 179, 249, 64, 104, 168, 193, 252, 245, 89, 148, 70, 128]

set_option maxRecDepth 20000 in
theorem sample_encoded : base64encode sampleRandom = ascii "MDEyMzQ1Njc4OWFiY2RlZg==" ∧
    base64encode sampleHash = ascii "BACScCJPNqyz+UBoqMH89VmURoA=" := by
  have hrandom : sampleRandom = [48, 49, 50, 51, 52, 53, 54, 55, 56, 57, 97, 98, 99, 100, 101, 102] := by decide
  constructor
  · rw [hrandom, base64encode_three, base64encode_three, base64encode_three, base64encode_three,
      base64encode_three, base64encode_last (by decide) (by decide)]
    decide
  · rw [sampleHash, base64encode_three, base64encode_three, base64encode_three, base64encode_three,
      base64encode_three, base64encode_three, base64encode_last (by decide) (by decide)]
    decide

def sampleRequest : HttpRequest := WSConnection.request (ascii "/chat") [] [] (ascii "a") sampleRandom []

set_option maxRecDepth 20000 in
theorem sample_opens : Opens (ascii "/chat") [] [] (ascii "a") sampleRandom [] where
  path uriRelaxed := by
    refine ⟨ascii "chat", by decide, uriText_of_all ?_, ?_⟩
    · cases uriRelaxed <;> decide
    · decide
  query _ := .nil
  fragment _ := .nil
  host := by decide
  random := by decide
  fields e he := by cases he
  plain e he := by cases he

set_option maxRecDepth 20000 in
theorem sampleRequest_short : (sampleRequest.dump true).length ≤ 4096 := by
  rw [sampleRequest, WSConnection.request, sample_encoded.1]
  decide

/-- The answer of a server that computes the hash. -/
def sampleResponse : HttpResponse :=
  WSSession.shakeResponse (fun _ => sampleHash) (WSConnection.shaken sampleRequest)

set_option maxRecDepth 20000 in
theorem sampleResponse_short : (sampleResponse.dump true []).length ≤ 4096 := by
  obtain ⟨hversion, -, -⟩ := shaken_parts (ascii "/chat") [] [] (ascii "a") sampleRandom []
  rw [sampleResponse, shakeResponse_eq, sampleRequest, hversion, WSSession.acceptKey, sample_encoded.2]
  generalize HttpRequest.close _ = close
  cases close <;> decide

theorem sample_shakes : Shakes 4096 sampleRequest (.whole (sampleRequest.dump true)) := by
  have hne : sampleRequest.dump true ≠ [] := by
    rw [dump_eq]
    simp
  exact ⟨Nat.le_trans sampleRequest_short (by decide), Pieces.flatten_whole _,
    arrives_whole (by decide) hne sampleRequest_short⟩

theorem sample_answered : Answered 4096 sampleResponse (.whole (sampleResponse.dump true [])) := by
  have hne : sampleResponse.dump true [] ≠ [] := by
    rw [HttpResponse.dump]
    simp [ascii]
  exact ⟨Pieces.flatten_whole _, arrives_whole (by decide) hne sampleResponse_short⟩

end Flz.Http
