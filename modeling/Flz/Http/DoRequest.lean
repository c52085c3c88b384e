import Flz.Http.Dump

/-! # The request of a client

How `DoRequest` and `doRequest` of `http/http_connection.cc` make a request of a caller's headers.
Neither sends a header for the connection; the one for the host comes from the caller, when it says
anything.
-/
namespace Flz.Http
open Lib

/-- `has_host` and `req` of the loop over the headers. -/
structure Building where
  has_host : Bool
  req : HttpRequest

def isConnection (name : List UInt8) : Bool := strcasecmp name (ascii "connection") == .eq

def isHost (name : List UInt8) : Bool := strcasecmp name (ascii "host") == .eq

def addHeader (b : Building) (i : List UInt8 × List UInt8) : Building :=
  if isConnection i.1 then
    if strcasecmp i.2 (ascii "keep-alive") = .eq then { b with req := { b.req with close := false } } else b
  else
    { has_host := if !b.has_host && isHost i.1 then i.2 != [] else b.has_host
      req := b.req.setHeader i.1 i.2 }

def buildRequest (req : HttpRequest) (host : List UInt8) (headers : List (List UInt8 × List UInt8))
    (body : List UInt8) : HttpRequest :=
  let b := headers.foldl addHeader ⟨false, req⟩
  let req := if b.has_host then b.req else b.req.setHeader (ascii "Host") host
  { req with body := body }

/-- `HttpConnection::DoRequest` with the parts of a `Uri`. -/
def HttpConnection.request (method : HttpMethod) (path query fragment host : List UInt8)
    (headers : List (List UInt8 × List UInt8)) (body : List UInt8) : HttpRequest :=
  buildRequest { HttpRequest.new with path := path, query := query, fragment := fragment, method := method }
    host headers body

/-- `HttpConnectionPool::doRequest` with a text for the path. -/
def HttpConnectionPool.request (m_host m_vhost : List UInt8) (method : HttpMethod) (url : List UInt8)
    (headers : List (List UInt8 × List UInt8)) (body : List UInt8) : HttpRequest :=
  buildRequest { HttpRequest.new with path := url, method := method, close := false }
    (if m_vhost = [] then m_host else m_vhost) headers body

/-- The overload with a `Uri`. -/
def HttpConnectionPool.requestUri (m_host m_vhost : List UInt8) (method : HttpMethod)
    (path query fragment : List UInt8) (headers : List (List UInt8 × List UInt8)) (body : List UInt8) :
    HttpRequest :=
  request m_host m_vhost method (path ++ ((if query = [] then [] else ascii "?") ++ query) ++
    ((if fragment = [] then [] else ascii "#") ++ fragment)) headers body

/-! ## What the loop leaves -/

/-- The caller asks for the connection to be kept. -/
def asksKeepAlive (headers : List (List UInt8 × List UInt8)) : Bool :=
  headers.any fun i => isConnection i.1 && strcasecmp i.2 (ascii "keep-alive") == .eq

/-- The caller names a host. -/
def namesHost (headers : List (List UInt8 × List UInt8)) : Bool := headers.any fun i => isHost i.1 && i.2 != []

theorem asksKeepAlive_append (headers : List (List UInt8 × List UInt8)) (i : List UInt8 × List UInt8) :
    asksKeepAlive (headers ++ [i]) =
      (asksKeepAlive headers || isConnection i.1 && strcasecmp i.2 (ascii "keep-alive") == .eq) := by
  rw [asksKeepAlive, List.any_append, List.any_cons, List.any_nil, Bool.or_false]
  rfl

theorem namesHost_append (headers : List (List UInt8 × List UInt8)) (i : List UInt8 × List UInt8) :
    namesHost (headers ++ [i]) = (namesHost headers || isHost i.1 && i.2 != []) := by
  rw [namesHost, List.any_append, List.any_cons, List.any_nil, Bool.or_false]
  rfl

theorem isHost_of_isConnection {name : List UInt8} (h : isConnection name = true) : isHost name = false := by
  have hne : strcasecmp (ascii "connection") (ascii "host") ≠ .eq := by decide
  rw [isConnection, beq_iff_eq] at h
  rw [isHost, Std.TransCmp.congr_left h]
  exact beq_eq_false_iff_ne.mpr hne

section
variable {req : HttpRequest} {headers : List (List UInt8 × List UInt8)} {key : List UInt8}

/-- By induction from the last header on. -/
theorem foldl_addHeader (hreq : req.headers = []) (headers : List (List UInt8 × List UInt8)) :
    headers.foldl addHeader ⟨false, req⟩ = ⟨namesHost headers, { req with
      close := req.close && !asksKeepAlive headers
      headers := OrderedMap.ofAssignments strcasecmp (headers.filter fun i => !isConnection i.1) }⟩ := by
  induction headers using List.reverseRecOn with
  | nil =>
    obtain ⟨method, version, close, path, query, fragment, body, fields⟩ := req
    subst hreq
    rw [List.foldl_nil, namesHost, asksKeepAlive, List.any_nil, List.any_nil, Bool.not_false, Bool.and_true]
    rfl
  | append_singleton headers i ih =>
    rw [List.foldl_append, ih, List.foldl_cons, List.foldl_nil, addHeader, namesHost_append,
      asksKeepAlive_append, List.filter_append]
    by_cases hconnection : isConnection i.1 = true
    · have hhost := isHost_of_isConnection hconnection
      by_cases hkeep : strcasecmp i.2 (ascii "keep-alive") = .eq
      · simp [hconnection, hhost, hkeep]
      · simp [hconnection, hhost, hkeep, beq_eq_false_iff_ne.mpr hkeep]
    · rw [Bool.not_eq_true] at hconnection
      have hfilter : [i].filter (fun i => !isConnection i.1) = [i] := by
        rw [List.filter_cons_of_pos (by rw [hconnection]; rfl), List.filter_nil]
      rw [if_neg (by rw [hconnection]; decide), hfilter, OrderedMap.ofAssignments_append]
      cases hhost : isHost i.1 <;> cases hnames : namesHost headers <;>
        simp [HttpRequest.setHeader, MapType.set, hconnection]

/-- Names that differ by case only. -/
theorem isConnection_congr {a b : List UInt8} (h : strcasecmp a b = .eq) : isConnection a = isConnection b := by
  rw [isConnection, isConnection, Std.TransCmp.congr_left h]

theorem lastVal_filter (key : List UInt8) (headers : List (List UInt8 × List UInt8)) :
    OrderedMap.lastVal strcasecmp key (headers.filter fun i => !isConnection i.1) =
      if isConnection key then none else OrderedMap.lastVal strcasecmp key headers := by
  have hsame : ∀ e : List UInt8 × List UInt8, strcasecmp key e.1 = .eq → isConnection e.1 = isConnection key :=
    fun e he => (isConnection_congr he).symm
  rw [OrderedMap.lastVal, OrderedMap.lastVal, ← List.filter_reverse, List.find?_filter]
  cases hkey : isConnection key with
  | true =>
    rw [if_pos rfl, Option.map_eq_none_iff, List.find?_eq_none]
    intro e _ he
    obtain ⟨hother, heq⟩ := of_decide_eq_true he
    rw [hsame e (beq_iff_eq.mp heq), hkey] at hother
    cases hother
  | false =>
    rw [if_neg (by decide)]
    refine congrArg (Option.map Prod.snd) (congrArg (List.find? · _) (funext fun e => ?_))
    by_cases he : strcasecmp key e.1 = .eq
    · rw [hsame e he, hkey, he]
      rfl
    · rw [beq_eq_false_iff_ne.mpr he]
      exact decide_eq_false fun h => by cases h.2

theorem lastVal_concat (key : List UInt8) (headers : List (List UInt8 × List UInt8))
    (i : List UInt8 × List UInt8) : OrderedMap.lastVal strcasecmp key (headers ++ [i]) =
      if strcasecmp key i.1 = .eq then some i.2 else OrderedMap.lastVal strcasecmp key headers := by
  by_cases hkey : strcasecmp key i.1 = .eq
  · rw [if_pos hkey, OrderedMap.lastVal_last hkey]
  · rw [if_neg hkey, OrderedMap.lastVal, List.reverse_append, List.reverse_singleton, List.singleton_append,
      List.find?_cons_of_neg (by rw [beq_eq_false_iff_ne.mpr hkey]; decide)]
    rfl

theorem buildRequest_eq (hreq : req.headers = []) (host : List UInt8)
    (headers : List (List UInt8 × List UInt8)) (body : List UInt8) :
    buildRequest req host headers body = { req with
      close := req.close && !asksKeepAlive headers
      body := body
      headers := OrderedMap.ofAssignments strcasecmp ((headers.filter fun i => !isConnection i.1) ++
        if namesHost headers then [] else [(ascii "Host", host)]) } := by
  rw [buildRequest, foldl_addHeader hreq]
  dsimp only
  by_cases hnames : namesHost headers = true
  · rw [if_pos hnames, if_pos hnames, List.append_nil]
  · rw [if_neg hnames, if_neg hnames, OrderedMap.ofAssignments_append]
    rfl

theorem buildRequest_header (hreq : req.headers = []) (host : List UInt8)
    (headers : List (List UInt8 × List UInt8)) (body : List UInt8) (key : List UInt8) :
    (buildRequest req host headers body).headers.find key =
      if isConnection key then none
      else if isHost key && !namesHost headers then some host
      else OrderedMap.lastVal strcasecmp key headers := by
  rw [buildRequest_eq hreq, MapType.find]
  dsimp only
  rw [OrderedMap.val_ofAssignments]
  by_cases hnames : namesHost headers = true
  · rw [if_pos hnames, hnames, Bool.not_true, Bool.and_false, List.append_nil, lastVal_filter]
    rfl
  · rw [if_neg hnames, lastVal_concat, lastVal_filter, Bool.eq_false_iff.mpr hnames, Bool.not_false, Bool.and_true]
    have hhost : (strcasecmp key (ascii "Host") = .eq) = (isHost key = true) := by
      have hspelling : strcasecmp (ascii "Host") (ascii "host") = .eq := by decide
      rw [isHost, beq_iff_eq, Std.TransCmp.congr_right hspelling]
    simp only [hhost]
    cases hconnection : isConnection key with
    | true =>
      rw [isHost_of_isConnection hconnection]
      rfl
    | false => rfl

/-- What is sent under a name: nothing for the connection, and for any other name what the caller said last;
but for the host it is that of the `Uri` or the pool, unless the caller names one somewhere. -/
theorem request_header (method : HttpMethod) (path query fragment host m_vhost : List UInt8)
    (headers : List (List UInt8 × List UInt8)) (body key : List UInt8) :
    (HttpConnection.request method path query fragment host headers body).headers.find key =
        (if isConnection key then none
        else if isHost key && !namesHost headers then some host
        else OrderedMap.lastVal strcasecmp key headers) ∧
      (HttpConnectionPool.request host m_vhost method path headers body).headers.find key =
        (if isConnection key then none
        else if isHost key && !namesHost headers then some (if m_vhost = [] then host else m_vhost)
        else OrderedMap.lastVal strcasecmp key headers) :=
  ⟨buildRequest_header rfl host headers body key, buildRequest_header rfl _ headers body key⟩

/-- A host that is named is not sent when another spelling of the header comes last and is empty. -/
example : ((HttpConnection.request .GET (ascii "/") [] [] (ascii "a")
    [(ascii "HOST", ascii "b"), (ascii "host", [])] []).headers.find (ascii "Host")) = some [] := by decide

/-! ## The pool and a single request -/

/-- The text says whether the connection is to be kept. -/
theorem dump_close_iff (q : HttpRequest) (a b : Bool) :
    ({ q with close := a } : HttpRequest).dump false = ({ q with close := b } : HttpRequest).dump false ↔
      a = b := by
  refine ⟨fun h => ?_, fun h => by rw [h]⟩
  have hlen := congrArg List.length h
  have hconnection : (connectionValue a).length = (connectionValue b).length := by
    simp only [HttpRequest.dump, HttpRequest.printedFields, Bool.false_eq_true, if_false, List.flatMap_append,
      List.flatMap_cons, List.flatMap_nil, fieldLine, List.length_append, List.length_nil] at hlen
    omega
  clear h hlen
  revert a b
  decide

/-- The pool prints the parts of a `Uri` as a path: the text is that of a single request that is to keep
the connection. -/
theorem requestUri_dump_eq (m_host m_vhost : List UInt8) (method : HttpMethod)
    (path query fragment : List UInt8) (headers : List (List UInt8 × List UInt8)) (body : List UInt8) :
    (HttpConnectionPool.requestUri m_host m_vhost method path query fragment headers body).dump false =
      ({ HttpConnection.request method path query fragment (if m_vhost = [] then m_host else m_vhost) headers
        body with close := false } : HttpRequest).dump false := by
  rw [HttpConnectionPool.requestUri, HttpConnectionPool.request, HttpConnection.request, buildRequest_eq rfl,
    buildRequest_eq rfl]
  simp only [HttpRequest.dump, HttpRequest.printedFields, Bool.false_and, HttpRequest.new, if_true, List.append_nil,
    List.append_assoc]

/-- A request through the pool is the text of a single one exactly when the caller asks for the connection to
be kept. -/
theorem requestUri_dump_iff (m_host m_vhost : List UInt8) (method : HttpMethod)
    (path query fragment : List UInt8) (headers : List (List UInt8 × List UInt8)) (body : List UInt8) :
    (HttpConnectionPool.requestUri m_host m_vhost method path query fragment headers body).dump false =
        (HttpConnection.request method path query fragment (if m_vhost = [] then m_host else m_vhost) headers
          body).dump false ↔ asksKeepAlive headers = true := by
  have hclose : (HttpConnection.request method path query fragment (if m_vhost = [] then m_host else m_vhost)
      headers body).close = !asksKeepAlive headers := by
    rw [HttpConnection.request, buildRequest_eq rfl]
    exact Bool.true_and _
  rw [requestUri_dump_eq]
  generalize HttpConnection.request method path query fragment (if m_vhost = [] then m_host else m_vhost)
    headers body = q at hclose ⊢
  have hiff := dump_close_iff q false q.close
  rw [hiff, hclose]
  cases asksKeepAlive headers <;> decide

end
end Flz.Http
