import Flz.Http.Printed

/-! # Printing a request

A request that is printed and received is the same again, but for the fields that `dump` adds.
The grammar has no method with a dash, and nothing is printed for the connection of a web socket.
-/
namespace Flz.Http
open Lib

/-! ## The text as a whole -/

/-- A request that is printed as it can be read; the keys of a map are in order. -/
structure Printable (r : Bool) (q : HttpRequest) : Prop where
  method : q.method ≠ .INVALID_METHOD
  version : q.version = 0x11 ∨ q.version = 0x10
  path : AbsolutePath r q.path
  query : UriText (RequestTable.queryChar r) q.query
  fragment : UriText (RequestTable.queryChar r) q.fragment
  sorted : OrderedMap.Sorted strcasecmp q.headers
  fields : ∀ e ∈ q.headers, IsField e
  names : ∀ e ∈ q.headers, strcasecmp e.1 (ascii "connection") ≠ .eq ∧
    strcasecmp e.1 (ascii "content-length") ≠ .eq

/-- A request whose parts can be read, whatever its header says of the connection and the length. -/
structure HttpRequest.Readable (r : Bool) (q : HttpRequest) : Prop where
  method : q.method ≠ .INVALID_METHOD
  version : q.version = 0x11 ∨ q.version = 0x10
  path : AbsolutePath r q.path
  query : UriText (RequestTable.queryChar r) q.query
  fragment : UriText (RequestTable.queryChar r) q.fragment
  fields : ∀ e ∈ q.headers, IsField e

section
variable {r websocket : Bool} {q : HttpRequest} {w rest : List UInt8}

theorem Printable.readable (h : Printable r q) : q.Readable r :=
  ⟨h.method, h.version, h.path, h.query, h.fragment, h.fields⟩

theorem printedFields_isField (h : q.Readable r) (websocket : Bool) :
    ∀ e ∈ q.printedFields websocket, IsField e := by
  intro e he
  rw [HttpRequest.printedFields, List.mem_append, List.mem_append] at he
  rcases he with (he | he) | he
  · cases websocket with
    | true => cases he
    | false =>
      rw [List.mem_singleton.mp he]
      cases q.close <;> decide
  · exact h.fields e (List.mem_filter.mp he).1
  · split at he
    · cases he
    · rw [List.mem_singleton.mp he]
      exact decimal_isField _

/-- The request as the parser builds it from its text. -/
def HttpRequest.parsed (q : HttpRequest) (websocket : Bool) : HttpRequest :=
  { HttpRequest.new with
    method := q.method, version := q.version, path := q.path, query := q.query, fragment := q.fragment
    headers := OrderedMap.ofAssignments strcasecmp (q.printedFields websocket) }

/-- The text up to the empty line, in the order in which it is read. -/
def HttpRequest.printedHead (q : HttpRequest) (websocket : Bool) : List UInt8 :=
  (HttpMethodToString q.method ++ [32]) ++
    ((q.path ++ optional 63 q.query ++ (optional 35 q.fragment ++ [32])) ++
      ((ascii "HTTP/" ++ decimal (q.version.toNat / 16) ++ ascii "." ++
          decimal (q.version.toNat % 16) ++ ascii "\r\n") ++
        (q.printedFields websocket).flatMap fieldLine))

theorem dump_eq (q : HttpRequest) (websocket : Bool) :
    q.dump websocket = q.printedHead websocket ++ 13 :: 10 :: q.body := by
  have hblank : ascii " " = [32] := by decide
  have hhttp : ascii " HTTP/" = [32] ++ ascii "HTTP/" := by decide
  have hoptional : ∀ (c : String) (b : UInt8), ascii c = [b] → ∀ text : List UInt8,
      (if text = [] then [] else ascii c) ++ text = optional b text := by
    intro c b hc text
    rw [optional, hc]
    split
    · rename_i hnil
      rw [hnil]
      rfl
    · rfl
  have hquery := hoptional "?" 63 (by decide) q.query
  have hfragment := hoptional "#" 35 (by decide) q.fragment
  have hend : ascii "\r\n" ++ q.body = 13 :: 10 :: q.body := rfl
  rw [HttpRequest.dump, HttpRequest.printedHead, hblank, hhttp, ← hquery, ← hfragment, ← hend]
  simp only [List.append_assoc]

/-- The head is read as the request that is printed. -/
theorem printedHead_parses (h : q.Readable r) (hdash : q.method ≠ .MSEARCH) (websocket : Bool)
    (hw : w = q.printedHead websocket ++ rest) :
    ∃ m, Parses r w 0 1 .start .new (q.printedHead websocket) 13 m (q.parsed websocket) := by
  rw [HttpRequest.printedHead] at hw ⊢
  generalize htarget : q.path ++ optional 63 q.query ++ (optional 35 q.fragment ++ [32]) = target at *
  generalize hline : ascii "HTTP/" ++ decimal (q.version.toNat / 16) ++ ascii "." ++
    decimal (q.version.toNat % 16) ++ ascii "\r\n" = line at *
  rw [List.append_assoc, List.append_assoc target, List.append_assoc line] at hw
  have hw₀ : w.drop 0 = (HttpMethodToString q.method ++ [32]) ++ (target ++ (line ++
    ((q.printedFields websocket).flatMap fieldLine ++ rest))) := hw
  have hw₁ := drop_add hw₀
  have hw₂ := drop_add hw₁
  have hw₃ := drop_add hw₂
  have hmethod := @Parses.method r w _ .new q.method h.method hdash (hw.trans (List.append_assoc ..))
  rw [← htarget] at hw₁
  obtain ⟨m₁, hread₁⟩ := @Parses.target r w _ _ .start { HttpRequest.new with method := q.method }
    q.path q.query q.fragment hw₁ h.path h.query h.fragment rfl rfl
  rw [htarget] at hread₁
  rw [← hline] at hw₂
  have hread₂ := @Parses.version r w _ _ m₁ { HttpRequest.new with
    method := q.method, path := q.path, query := q.query, fragment := q.fragment } q.version
    h.version hw₂
  rw [hline] at hread₂
  obtain ⟨m₃, hread₃⟩ := @Parses.fields r w _ _ { m₁ with mark := _ } { HttpRequest.new with
    method := q.method, path := q.path, query := q.query, fragment := q.fragment, version := q.version }
    _ (printedFields_isField h websocket) hw₃
  exact ⟨m₃, hmethod.append (hread₁.append (hread₂.append hread₃))⟩

/-- The empty line ends the head. -/
theorem printedHead_run (h : q.Readable r) (hdash : q.method ≠ .MSEARCH) (websocket : Bool)
    (hw : w = q.printedHead websocket ++ 13 :: 10 :: rest) :
    ∃ m, (requestScanner r).run (buildAct w) 0 1 w (.start, .new) =
      .ok ((q.printedHead websocket).length + 2, .left 348, (m, q.parsed websocket)) := by
  obtain ⟨m, hread⟩ := printedHead_parses h hdash websocket hw
  have hreturn : (requestScanner r).arc 13 13 = some ([.startField], 18) := by cases r <;> decide
  have hline : (requestScanner r).arc 18 10 = some ([.done], 348) := by cases r <;> decide
  have hjoin := hread.run_append (13 :: 10 :: rest)
  rw [← hw, Nat.zero_add, Scanner.run_cons hreturn rfl rfl, Scanner.run, hline] at hjoin
  exact ⟨{ m with fieldStart := (q.printedHead websocket).length }, hjoin⟩

/-- What the scanner makes of a printed head. -/
theorem printedHead_built (h : q.Readable r) (hdash : q.method ≠ .MSEARCH) (websocket : Bool)
    (hw : w = q.printedHead websocket ++ 13 :: 10 :: rest) :
    (requestScanner r).stop 1 w = ((q.printedHead websocket).length + 2, .left 348) ∧
      build w uncut (headTokens r w) .new = some (q.parsed websocket) := by
  obtain ⟨m, hrun⟩ := printedHead_run h hdash websocket hw
  rw [Scanner.run_eq] at hrun
  cases hperform : Scanner.perform (buildAct w) ((requestScanner r).trace 0 1 w) (.start, .new) with
  | error e =>
    rw [hperform] at hrun
    cases hrun
  | ok out =>
    rw [hperform] at hrun
    obtain ⟨hstop, hending, rfl⟩ : 0 + ((requestScanner r).stop 1 w).1 =
        (q.printedHead websocket).length + 2 ∧
        ((requestScanner r).stop 1 w).2 = .left 348 ∧ out = (m, q.parsed websocket) := by
      simpa [Except.map] using hrun
    exact ⟨Prod.ext ((Nat.zero_add _).symm.trans hstop) hending, perform_buildAct hperform⟩

/-! ## The fields that are added -/

/-- A field that `dump` adds itself. -/
def isAdded (name : List UInt8) : Bool :=
  strcasecmp name (ascii "connection") == .eq || strcasecmp name (ascii "content-length") == .eq

/-- The same request, but for the fields that `dump` adds. -/
structure HttpRequest.Same (q req : HttpRequest) : Prop where
  method : req.method = q.method
  version : req.version = q.version
  path : req.path = q.path
  query : req.query = q.query
  fragment : req.fragment = q.fragment
  headers : req.headers.filter (fun e => !isAdded e.1) = q.headers
  body : req.body = q.body
  close : req.close = q.close

theorem isAdded_congr {a b : List UInt8} (h : strcasecmp a b = .eq) : isAdded a = isAdded b := by
  rw [isAdded, isAdded, Std.TransCmp.congr_left h, Std.TransCmp.congr_left h]

theorem ne_of_isAdded {a b : List UInt8} (h : isAdded a ≠ isAdded b) : strcasecmp a b ≠ .eq :=
  fun heq => h (isAdded_congr heq)

/-- Fields of a map and added fields have different names. -/
theorem distinct_append {headers added : List (List UInt8 × List UInt8)}
    (hsorted : OrderedMap.Sorted strcasecmp headers) (hheaders : ∀ e ∈ headers, isAdded e.1 = false)
    (hadded : ∀ e ∈ added, isAdded e.1 = true)
    (hpair : added.Pairwise (fun e f => strcasecmp e.1 f.1 ≠ .eq)) :
    (headers ++ added).Pairwise (fun e f => strcasecmp e.1 f.1 ≠ .eq) := by
  refine List.pairwise_append.mpr ⟨hsorted.imp fun hlt heq => ?_, hpair, fun e he f hf => ?_⟩
  · rw [hlt] at heq
    cases heq
  · refine ne_of_isAdded ?_
    rw [hheaders e he, hadded f hf]
    decide

/-- The fields of a map are found again when fields of other names were added. -/
theorem filter_ofAssignments {fs headers : List (List UInt8 × List UInt8)}
    (hdistinct : fs.Pairwise (fun e f => strcasecmp e.1 f.1 ≠ .eq))
    (hsorted : OrderedMap.Sorted strcasecmp headers)
    (hfilter : fs.filter (fun e => !isAdded e.1) = headers) :
    (OrderedMap.ofAssignments strcasecmp fs).filter (fun e => !isAdded e.1) = headers := by
  have hcongr : ∀ a b, strcasecmp a b = .eq → (!isAdded a) = !isAdded b := fun a b hab =>
    congrArg (!·) (isAdded_congr hab)
  refine OrderedMap.ext ((OrderedMap.sorted_ofAssignments _).filter _) hsorted fun key => ?_
  rw [OrderedMap.entry_filter hcongr, OrderedMap.entry_ofAssignments_distinct hdistinct, ← hfilter,
    OrderedMap.entry_filter hcongr]

theorem isAdded_of_printable (h : Printable r q) : ∀ e ∈ q.headers, isAdded e.1 = false := by
  intro e he
  obtain ⟨hconnection, hlength⟩ := h.names e he
  rw [isAdded, beq_eq_false_iff_ne.mpr hconnection, beq_eq_false_iff_ne.mpr hlength]
  rfl

/-- The connection field, if it is printed. -/
def connectionField (q : HttpRequest) (websocket : Bool) : List (List UInt8 × List UInt8) :=
  if websocket then [] else [(ascii "connection", connectionValue q.close)]

/-- The length of the body, if there is one. -/
def lengthField (q : HttpRequest) : List (List UInt8 × List UInt8) :=
  if q.body = [] then [] else [(ascii "content-length", decimal q.body.length)]

theorem printedFields_eq (h : Printable r q) (websocket : Bool) :
    q.printedFields websocket = connectionField q websocket ++ q.headers ++ lengthField q := by
  have hfilter : q.headers.filter
      (fun e => websocket || strcasecmp e.1 (ascii "connection") != .eq) = q.headers := by
    refine List.filter_eq_self.mpr fun e he => ?_
    rw [bne_iff_ne.mpr (h.names e he).1, Bool.or_true]
  rw [HttpRequest.printedFields, hfilter]
  rfl

theorem mem_connectionField {e : List UInt8 × List UInt8} (he : e ∈ connectionField q websocket) :
    e.1 = ascii "connection" := by
  rw [connectionField] at he
  split at he
  · cases he
  · rw [List.mem_singleton.mp he]

theorem mem_lengthField {e : List UInt8 × List UInt8} (he : e ∈ lengthField q) :
    e.1 = ascii "content-length" := by
  rw [lengthField] at he
  split at he
  · cases he
  · rw [List.mem_singleton.mp he]

theorem isAdded_of_mem {e : List UInt8 × List UInt8}
    (he : e ∈ connectionField q websocket ++ lengthField q) : isAdded e.1 = true := by
  rcases List.mem_append.mp he with he | he
  · rw [mem_connectionField he]
    decide
  · rw [mem_lengthField he]
    decide

theorem printedFields_distinct (h : Printable r q) (websocket : Bool) :
    (q.printedFields websocket).Pairwise (fun e f => strcasecmp e.1 f.1 ≠ .eq) := by
  have hpair : (connectionField q websocket ++ lengthField q).Pairwise
      (fun e f => strcasecmp e.1 f.1 ≠ .eq) := by
    have hne : strcasecmp (ascii "connection") (ascii "content-length") ≠ .eq := by decide
    rw [connectionField, lengthField]
    cases websocket <;> by_cases hbody : q.body = [] <;> simp [hbody, hne]
  have hsymm : ∀ {e f : List UInt8 × List UInt8}, strcasecmp e.1 f.1 ≠ .eq → strcasecmp f.1 e.1 ≠ .eq :=
    fun hne heq => hne (Std.OrientedCmp.eq_symm heq)
  have hperm : (q.headers ++ (connectionField q websocket ++ lengthField q)).Perm
      (q.printedFields websocket) := by
    rw [printedFields_eq h, ← List.append_assoc]
    exact List.perm_append_comm.append_right _
  exact (hperm.pairwise_iff hsymm).mp (distinct_append h.sorted (isAdded_of_printable h)
    (fun e he => isAdded_of_mem he) hpair)

theorem entry_append_of_ne {key : List UInt8} {fs gs : List (List UInt8 × List UInt8)}
    (h : ∀ e ∈ fs, strcasecmp key e.1 ≠ .eq) :
    OrderedMap.entry strcasecmp key (fs ++ gs) = OrderedMap.entry strcasecmp key gs := by
  have hnone : fs.find? (fun e => strcasecmp key e.1 == .eq) = none :=
    List.find?_eq_none.mpr fun e he heq => h e he (beq_iff_eq.mp heq)
  rw [OrderedMap.entry, List.find?_append, hnone, Option.none_or]
  rfl

/-- What the parser finds under a name is what is printed under it. -/
theorem parsed_entry (h : Printable r q) (websocket : Bool) (key : List UInt8) :
    OrderedMap.entry strcasecmp key (q.parsed websocket).headers =
      OrderedMap.entry strcasecmp key (connectionField q websocket ++ q.headers ++ lengthField q) := by
  rw [← printedFields_eq h]
  exact OrderedMap.entry_ofAssignments_distinct (printedFields_distinct h websocket) key

theorem entry_headers_added (h : Printable r q) {key : List UInt8} (hkey : isAdded key = true) :
    ∀ e ∈ q.headers, strcasecmp key e.1 ≠ .eq := by
  intro e he
  refine ne_of_isAdded ?_
  rw [hkey, isAdded_of_printable h e he]
  decide

theorem parsed_headers (h : Printable r q) (websocket : Bool) :
    (q.parsed websocket).headers.filter (fun e => !isAdded e.1) = q.headers := by
  refine filter_ofAssignments (printedFields_distinct h websocket) h.sorted ?_
  have hadded : ∀ fs : List (List UInt8 × List UInt8), (∀ e ∈ fs, isAdded e.1 = true) →
      fs.filter (fun e => !isAdded e.1) = [] := fun fs hfs =>
    List.filter_eq_nil_iff.mpr fun e he => by rw [hfs e he]; decide
  rw [printedFields_eq h, List.filter_append, List.filter_append,
    hadded _ fun e he => isAdded_of_mem (List.mem_append_left _ he),
    hadded _ fun e he => isAdded_of_mem (List.mem_append_right (connectionField q websocket) he),
    List.nil_append, List.append_nil]
  exact List.filter_eq_self.mpr fun e he => by rw [isAdded_of_printable h e he]; rfl

theorem parsed_connection (h : Printable r q) (websocket : Bool) :
    (q.parsed websocket).getHeader (ascii "connection") =
      if websocket then [] else connectionValue q.close := by
  rw [HttpRequest.getHeader, MapType.find, parsed_entry h, List.append_assoc]
  cases websocket with
  | true =>
    rw [connectionField, if_pos rfl, List.nil_append, entry_append_of_ne (entry_headers_added h rfl),
      lengthField]
    split <;> rfl
  | false => rfl

theorem parsed_length (h : Printable r q) (websocket : Bool) :
    (q.parsed websocket).headers.find (ascii "content-length") =
      if q.body = [] then none else some (decimal q.body.length) := by
  have hconnection : ∀ e ∈ connectionField q websocket, strcasecmp (ascii "content-length") e.1 ≠ .eq := by
    intro e he
    rw [mem_connectionField he]
    decide
  rw [MapType.find, parsed_entry h, List.append_assoc, entry_append_of_ne hconnection,
    entry_append_of_ne (entry_headers_added h rfl), lengthField]
  split <;> rfl

/-- A web socket says nothing about the connection, which is then taken to be closed. -/
theorem complete_close (h : Printable r q) (websocket : Bool) (body : List UInt8) :
    ((q.parsed websocket).complete body).close = (websocket || q.close) := by
  have hinit : ∀ d : HttpRequest, d.init.close =
      if d.getHeader (ascii "connection") ≠ [] then
        strcasecmp (d.getHeader (ascii "connection")) (ascii "keep-alive") != .eq
      else d.close := by
    intro d
    rw [HttpRequest.init]
    split <;> rfl
  have hheader : { q.parsed websocket with body := body }.getHeader (ascii "connection") =
      if websocket then [] else connectionValue q.close := parsed_connection h websocket
  rw [HttpRequest.complete, hinit, hheader]
  cases websocket with
  | true => rfl
  | false => cases q.close <;> rfl

/-! ## Receiving what is printed -/

/-- The length of a body is read as it is printed. -/
theorem getAs_printed {m : MapType} {body : List UInt8} {lexicalCast : List UInt8 → Option UInt64}
    (hfind : m.find (ascii "content-length") = if body = [] then none else some (decimal body.length))
    (hcast : lexicalCast (decimal body.length) = some (UInt64.ofNat body.length))
    (hlen : body.length < 2 ^ 63) :
    toInt64 (m.getAs lexicalCast (ascii "content-length")).toNat = body.length := by
  rw [MapType.getAs, hfind]
  by_cases hbody : body = []
  · rw [if_pos hbody, hbody, Option.bind_none, Option.getD_none]
    decide
  · rw [if_neg hbody, Option.bind_some, hcast, Option.getD_some, UInt64.toNat_ofNat',
      Nat.mod_eq_of_lt (by omega)]
    exact toInt64_eq hlen

theorem printed_contentLength (h : Printable r q) (websocket : Bool)
    {lexicalCast : List UInt8 → Option UInt64}
    (hcast : lexicalCast (decimal q.body.length) = some (UInt64.ofNat q.body.length))
    (hlen : q.body.length ≤ intMax) :
    (q.parsed websocket).contentLength lexicalCast = q.body.length := by
  unfold intMax at hlen
  exact getAs_printed (parsed_length h websocket) hcast (by omega)

/-- When the head comes with one read, the request that is returned is the one it tells of, with
as many bytes behind it as its `Content-Length` says; `data` are the bytes that come with it. -/
theorem recvRequest_printed (h : q.Readable r) (hdash : q.method ≠ .MSEARCH) (websocket : Bool)
    (queryStart : ℕ) {lexicalCast : List UInt8 → Option UInt64} {n : ℕ} {st : Stream} {data body : List UInt8}
    (hmax : n ≤ intMax) (hread : Arrives n st (q.printedHead websocket ++ 13 :: 10 :: data))
    (hpending : st.pending = q.printedHead websocket ++ 13 :: 10 :: (body ++ rest))
    (hlength : (q.parsed websocket).contentLength lexicalCast = body.length) :
    recvRequest lexicalCast r queryStart n st =
      if body.length ≤ data.length ∨ 0 < toInt (body.length - data.length : ℕ) then
        .ok (some ((q.parsed websocket).complete body),
          st.skip ((q.printedHead websocket).length + 2 + max data.length body.length))
      else .ok (none, (st.skip ((q.printedHead websocket).length + 2 + body.length)).close) := by
  generalize hxs : q.printedHead websocket ++ 13 :: 10 :: data = xs at hread
  have hcount : xs.length = (q.printedHead websocket).length + 2 + data.length := by
    rw [← hxs, List.length_append, List.length_cons, List.length_cons]
    omega
  have hpos := List.length_pos_iff.mpr hread.ne_nil
  have hn : 0 < n := Nat.lt_of_lt_of_le hpos hread.length_le
  obtain ⟨hstop, hbuilt⟩ := printedHead_built h hdash websocket hpending
  have hbuild : build st.pending (Pieces.readStart n st.input.parts) (headTokens r st.pending) .new =
      some (q.parsed websocket) := by
    have hregular := headTokens_regular r st.pending
    refine build_of_harmless (cut_readStart n st.input.parts) hregular hbuilt
      (harmless_whole fun t ht => hread.start _ ?_)
    have hhead : st.pending = (q.printedHead websocket ++ [13, 10]) ++ (body ++ rest) := by
      rw [hpending]
      simp only [List.append_assoc, List.cons_append, List.nil_append]
    have hleft := (@printedHead_built _ _ _ [] h hdash websocket rfl).1
    rw [hhead, headTokens_append (fun t heq => by rw [hleft] at heq; cases heq)] at ht
    have hlt := (headTokens_ordered t ht).2.1
    rw [List.length_append, List.length_cons, List.length_singleton] at hlt
    omega
  have hbody : st.pending.drop ((q.printedHead websocket).length + 2) = body ++ rest := by
    rw [hpending, ← List.drop_drop, List.drop_left]
    rfl
  have hend : Pieces.readEnd n st.input.parts ((q.printedHead websocket).length + 2 - 1) = xs.length :=
    hread.readEnd hn (by omega)
  have hsum : (q.printedHead websocket).length + 2 + body.length - xs.length =
      body.length - data.length := by omega
  rw [recvRequest_eq hn hmax hread.closed hstop hbuild hbody hlength hend, hsum, hcount]
  have hmaxsum : max ((q.printedHead websocket).length + 2 + data.length)
      ((q.printedHead websocket).length + 2 + body.length) =
      (q.printedHead websocket).length + 2 + max data.length body.length := by omega
  have hle : ((q.printedHead websocket).length + 2 + body.length ≤
      (q.printedHead websocket).length + 2 + data.length) ↔ body.length ≤ data.length := by omega
  rw [hmaxsum]
  simp only [hle]

theorem execute_dash (r : Bool) (queryStart : ℕ) (rest : List UInt8) :
    (HttpRequestParser.new r queryStart).execute (77 :: 45 :: rest) =
      .ok (45 :: rest, { HttpRequestParser.new r queryStart with cs := 0 }) := by
  have hfirst : (requestScanner r).arc 1 77 = some ([.mark], 2) := by cases r <;> decide
  have hsecond : (requestScanner r).arc 2 45 = none := by cases r <;> decide
  have hstop : (requestScanner r).stop 1 (77 :: 45 :: rest) = (1, .stuck) := by
    simp only [Scanner.stop, hfirst, hsecond]
    rfl
  have htrace : (requestScanner r).trace 0 1 (77 :: 45 :: rest) = [(0, .mark)] := by
    simp only [Scanner.trace, hfirst, hsecond]
    rfl
  have hperform : Scanner.perform (HttpRequestParser.act (77 :: 45 :: rest)) [(0, .mark)]
      (HttpRequestParser.new r queryStart).reset = .ok (HttpRequestParser.new r queryStart) := rfl
  have hstopped : (requestScanner (HttpRequestParser.new r queryStart).uriRelaxed).stop
      (HttpRequestParser.new r queryStart).cs (77 :: 45 :: rest) = (1, .stuck) := hstop
  have htraced : (HttpRequestParser.new r queryStart).pieceTrace (77 :: 45 :: rest) = [(0, .mark)] :=
    htrace
  rw [execute_eq (List.cons_ne_nil _ _), hstopped, htraced, hperform]
  simp [bind, Except.bind, pure, Except.pure, HttpRequestParser.new, HttpRequestParser.asserted,
    HttpRequestParser.stateAfter]

/-- The method with a dash is not in the grammar. -/
theorem dash_not_received (hdash : q.method = .MSEARCH) (websocket : Bool)
    {lexicalCast : List UInt8 → Option UInt64} {queryStart n : ℕ}
    (hn : (q.dump websocket).length ≤ n) (hmax : n ≤ intMax) {req : HttpRequest} {st : Stream} :
    recvRequest lexicalCast r queryStart n (.connected (.whole (q.dump websocket))) ≠
      .ok (some req, st) := by
  intro hrecv
  have hmethod : HttpMethodToString HttpMethod.MSEARCH = 77 :: 45 :: ascii "SEARCH" := by decide
  obtain ⟨rest, hrest⟩ : ∃ rest, q.dump websocket = 77 :: 45 :: rest := by
    rw [dump_eq, HttpRequest.printedHead, hdash, hmethod]
    exact ⟨_, rfl⟩
  obtain ⟨data, parser, st₁, -, hloop, -⟩ := recvRequest_head hrecv
  have hne : q.dump websocket ≠ [] := by
    rw [hrest]
    exact List.cons_ne_nil _ _
  refine headLoop_refused hmax (arrives_whole hmax hne hn) ?_ (data, parser) st₁ hloop
  intro out hexec
  rw [hrest] at hexec
  cases (execute_dash r queryStart rest).symm.trans hexec
  rfl

/-- A request that is printed is received as the same one exactly when its method has no dash and
it is not that of a web socket that is kept open. -/
theorem dump_received_iff (h : Printable r q) {lexicalCast : List UInt8 → Option UInt64}
    (hcast : lexicalCast (decimal q.body.length) = some (UInt64.ofNat q.body.length))
    {queryStart n : ℕ} (hn : (q.dump websocket).length ≤ n) (hmax : n ≤ intMax) :
    (∃ req st, recvRequest lexicalCast r queryStart n (.connected (.whole (q.dump websocket))) =
        .ok (some req, st) ∧ q.Same req) ↔
      q.method ≠ .MSEARCH ∧ (websocket = true → q.close = true) := by
  by_cases hdash : q.method = .MSEARCH
  · refine iff_of_false ?_ fun hcond => hcond.1 hdash
    rintro ⟨req, st, hrecv, -⟩
    exact dash_not_received hdash websocket hn hmax hrecv
  · have hlen : q.body.length ≤ (q.dump websocket).length := by
      rw [dump_eq, List.length_append, List.length_cons, List.length_cons]
      omega
    have hne : q.dump websocket ≠ [] := by
      rw [dump_eq]
      simp
    have hread : Arrives n (.connected (.whole (q.dump websocket)))
        (q.printedHead websocket ++ 13 :: 10 :: q.body) := by
      rw [← dump_eq]
      exact arrives_whole hmax hne hn
    have hpending : (Stream.connected (.whole (q.dump websocket))).pending =
        q.printedHead websocket ++ 13 :: 10 :: (q.body ++ []) := by
      rw [List.append_nil, ← dump_eq, Stream.connected_whole]
    have hrecv := recvRequest_printed h.readable hdash websocket queryStart hmax hread hpending
      (printed_contentLength h websocket hcast (hlen.trans (hn.trans hmax)))
    rw [if_pos (Or.inl (Nat.le_refl _))] at hrecv
    generalize Stream.skip _ _ = st at hrecv
    have hclose := complete_close h websocket q.body
    have hcomplete := HttpRequest.complete_eq (q.parsed websocket) q.body
    rw [hclose] at hcomplete
    rw [hrecv]
    constructor
    · rintro ⟨req, st', hreq, hsame⟩
      cases hreq
      have hcl := hsame.close
      rw [hclose] at hcl
      refine ⟨hdash, fun hweb => ?_⟩
      rw [← hcl, hweb]
      rfl
    · rintro ⟨-, hopen⟩
      have hcl : (websocket || q.close) = q.close := by
        cases websocket with
        | true => exact (hopen rfl).symm
        | false => rfl
      refine ⟨_, _, rfl, ?_⟩
      rw [hcomplete, hcl]
      exact {
        method := rfl
        version := rfl
        path := rfl
        query := rfl
        fragment := rfl
        headers := parsed_headers h websocket
        body := rfl
        close := rfl }

end

/-- A search by multicast. -/
def searchRequest : HttpRequest := { HttpRequest.new with method := .MSEARCH }

/-- A request with all parts. -/
def formRequest : HttpRequest :=
  { HttpRequest.new with
    method := .POST, path := ascii "/a/b%20c", query := ascii "x=1", fragment := ascii "top"
    close := false, body := ascii "hello", headers := [(ascii "accept", ascii "*/*"), (ascii "host", ascii "a b")] }

theorem uriText_of_all {c : ByteClass} {text : List UInt8} (h : text.all c.holds = true) :
    UriText c text := by
  induction text with
  | nil => exact .nil
  | cons b text ih =>
    rw [List.all_cons, Bool.and_eq_true] at h
    obtain ⟨hb, htext⟩ := h
    exact .char hb (ih htext)

theorem searchRequest_printable : Printable false searchRequest where
  method := by decide
  version := Or.inl rfl
  path := ⟨[], rfl, .nil, fun b hb => by cases hb⟩
  query := .nil
  fragment := .nil
  sorted := List.Pairwise.nil
  fields := fun e he => by cases he
  names := by decide

/-- A search by multicast is printed, but not received. -/
theorem search_not_received : Printable false searchRequest ∧
    ¬ ∃ req st, recvRequest castDigits false 0 4096
        (.connected (.whole (searchRequest.dump false))) = .ok (some req, st) ∧ searchRequest.Same req := by
  refine ⟨searchRequest_printable, ?_⟩
  rintro ⟨req, st, hrecv, -⟩
  exact dash_not_received rfl false (by decide) (by decide) hrecv

theorem formRequest_printable : Printable false formRequest where
  method := by decide
  version := Or.inl rfl
  path := by
    refine ⟨ascii "a/b%20c", rfl, .char (by decide) (.char (by decide) (.char (by decide)
      (.escape (by decide) (by decide) (uriText_of_all (by decide))))), fun b hb => ?_⟩
    have hhead : (ascii "a/b%20c").head? = some 97 := by decide
    rw [← Option.some.inj (hhead.symm.trans hb)]
    decide
  query := uriText_of_all (by decide)
  fragment := uriText_of_all (by decide)
  sorted := by
    unfold OrderedMap.Sorted
    decide
  fields := by
    intro e he
    rcases List.mem_cons.mp he with rfl | he
    · decide
    · rw [List.mem_singleton.mp he]
      decide
  names := by decide

theorem form_received : ∃ req st, recvRequest castDigits false 0 4096
    (.connected (.whole (formRequest.dump false))) = .ok (some req, st) ∧ formRequest.Same req :=
  (dump_received_iff formRequest_printable (by decide) (by decide) (by decide)).mpr (by decide)

end Flz.Http
