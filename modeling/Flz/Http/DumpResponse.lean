import Flz.Http.Dump
import Flz.Http.PrintedResponse

/-! # Printing a response

A response that is printed is received with the same status, version, reason, header and body,
unless what is missing from the body after the first read is no positive `int`: `readFixSize`
returns its `size_t` as an `int`.
-/
namespace Flz.Http
open Lib

/-! ## Receiving a printed head -/

section
variable {lexicalCast : List UInt8 → Option UInt64} {n : ℕ} {st : Stream} {r : HttpResponse}
  {fs : List (List UInt8 × List UInt8)} {data body rest : List UInt8}

/-- A head that comes with one read is read at once; `data` are the bytes behind it. -/
theorem headLoop_printed (hr : r.Reported) (hfs : ∀ e ∈ fs, IsPlainField e) (hmax : n ≤ intMax)
    (hread : Arrives n st (r.printedHead fs ++ data)) :
    ∃ parser, headLoop responseParsing n [] .new st =
        .ok (some (data, parser), st.skip (r.printedHead fs ++ data).length) ∧
      parser.Parsed (r.parsed fs) := by
  obtain ⟨parser, hexec, hparsed⟩ := head_executes hr hfs rfl (hread.length_le.trans hmax)
  have hshort : data.length ≠ n := by
    have hle := hread.length_le
    simp only [HttpResponse.printedHead, List.length_append, List.length_cons] at hle
    omega
  refine ⟨parser, ?_, hparsed⟩
  have hexec' : responseParsing.execute .new (r.printedHead fs ++ data) = .ok (data, parser) := hexec
  have herr : responseParsing.hasError parser = false := hparsed.hasError
  have hfinished : responseParsing.isFinished parser ≠ 0 := hparsed.isFinished
  rw [headLoop_arrives hmax hread, hexec']
  simp only [herr, Bool.false_eq_true, if_false, hshort, hfinished, ne_eq, not_false_iff, if_true]

/-- Then the response with the body is returned, unless the bytes that are missing from the body
are no positive `int`. -/
theorem recvResponse_printed (hr : r.Reported) (hfs : ∀ e ∈ fs, IsPlainField e) (hmax : n ≤ intMax)
    (hread : Arrives n st (r.printedHead fs ++ data))
    (hpending : st.pending = r.printedHead fs ++ (body ++ rest)) (hbody : body.length < 2 ^ 63)
    (hlength : toInt64 ((r.parsed fs).headers.getAs lexicalCast (ascii "content-length")).toNat =
      body.length) :
    recvResponse lexicalCast n st = .ok
      (if body.length ≤ data.length ∨ 0 < toInt (body.length - data.length : ℕ) then
        (some ((r.parsed fs).withBody body),
          st.skip ((r.printedHead fs).length + max data.length body.length))
      else (none, (st.skip ((r.printedHead fs).length + max data.length body.length)).close)) := by
  obtain ⟨parser, hloop, hparsed⟩ := headLoop_printed hr hfs hmax hread
  have hafter : data ++ (st.skip (r.printedHead fs ++ data).length).pending = body ++ rest := by
    have happ := hread.append
    rw [hpending, List.append_assoc] at happ
    exact List.append_cancel_left happ
  have hskip : (r.printedHead fs ++ data).length + (body.length - data.length) =
      (r.printedHead fs).length + max data.length body.length := by
    rw [List.length_append]
    omega
  rw [recvResponse, hloop]
  simp only [bind, Except.bind, hparsed.chunked, Bool.false_eq_true, if_false,
    HttpResponseParser.getContentLength, hparsed.data, hlength]
  by_cases hempty : body = []
  · subst hempty
    have hskip₀ : (r.printedHead fs ++ data).length =
        (r.printedHead fs).length + max data.length 0 := by
      rw [List.length_append, Nat.max_zero]
    rw [List.length_nil, if_neg (by decide), if_pos (Or.inl (Nat.zero_le _)), hskip₀]
    rfl
  · have hpos := List.length_pos_iff.mpr hempty
    have hopen : (st.skip (r.printedHead fs ++ data).length).closed = false := hread.closed
    rw [if_pos (by omega), recvBody_eq hopen hafter hbody, Stream.skip_skip, hskip]
    split <;> rfl

end

/-! ## The fields that are added -/

/-- A response that is printed as it can be read; the keys of a map are in order, and a
`std::string` is shorter than `2 ^ 63`. -/
structure HttpResponse.Printable (q : HttpResponse) : Prop where
  reported : q.Reported
  sorted : OrderedMap.Sorted strcasecmp q.headers
  fields : ∀ e ∈ q.headers, IsField e
  names : ∀ e ∈ q.headers, strcasecmp e.1 (ascii "connection") ≠ .eq ∧
    strcasecmp e.1 (ascii "content-length") ≠ .eq ∧ strcasecmp e.1 (ascii "transfer-encoding") ≠ .eq
  body : q.body.length < 2 ^ 63

/-- The same response, with the reason that is printed; its header has the fields that `dump` adds
as well. -/
structure HttpResponse.Same (q rsp : HttpResponse) : Prop where
  status : rsp.status = q.status
  version : rsp.version = q.version
  reason : rsp.reason = q.shownReason
  headers : rsp.headers.filter (fun e => !isAdded e.1) = q.headers
  connection : rsp.headers.find (ascii "connection") = some (connectionValue q.close)
  length : rsp.headers.find (ascii "content-length") =
    if q.body = [] then none else some (decimal q.body.length)
  body : rsp.body = q.body

section
variable {q : HttpResponse}

/-- The fields that `dump` adds. -/
def HttpResponse.addedFields (q : HttpResponse) : List (List UInt8 × List UInt8) :=
  (ascii "connection", connectionValue q.close) ::
    if q.body = [] then [] else [(ascii "content-length", decimal q.body.length)]

theorem HttpResponse.printedFields_eq (h : q.Printable) :
    q.printedFields false [] = q.headers ++ q.addedFields := by
  have hfilter : q.headers.filter
      (fun e => false || strcasecmp e.1 (ascii "connection") != .eq) = q.headers := by
    refine List.filter_eq_self.mpr fun e he => ?_
    rw [Bool.false_or, bne_iff_ne]
    exact (h.names e he).1
  rw [printedFields, hfilter, addedFields, List.map_nil, List.append_nil, List.append_assoc]
  rfl

theorem HttpResponse.mem_addedFields {e : List UInt8 × List UInt8} (he : e ∈ q.addedFields) :
    e = (ascii "connection", connectionValue q.close) ∨
      q.body ≠ [] ∧ e = (ascii "content-length", decimal q.body.length) := by
  rw [addedFields, List.mem_cons] at he
  refine he.imp_right fun he => ?_
  split at he
  · cases he
  · rename_i hbody
    exact ⟨hbody, List.mem_singleton.mp he⟩

theorem bodyField_plain (n : ℕ) : IsPlainField (ascii "content-length", decimal n) := by
  have hname : (ascii "content-length").map tolower ≠ ascii "transfer-encoding" := by decide
  exact ⟨decimal_isField n, Or.inl (decimal_ne n), fun hchunked => hname hchunked.1⟩

/-- What is printed for a field is read as that field. -/
theorem HttpResponse.printedFields_plain (h : q.Printable) :
    ∀ e ∈ q.printedFields false [], IsPlainField e := by
  intro e he
  rw [printedFields_eq h, List.mem_append] at he
  rcases he with he | he
  · obtain ⟨hconnection, hlength, htransfer⟩ := h.names e he
    refine ⟨h.fields e he, Or.inr fun hname => ?_, fun hchunked => ?_⟩
    · simp only [List.mem_cons, List.not_mem_nil, or_false] at hname
      rcases hname with hname | hname | hname
      · exact hconnection (strcasecmp_of_lower (hname.trans (by decide)))
      · exact htransfer (strcasecmp_of_lower (hname.trans (by decide)))
      · exact hlength (strcasecmp_of_lower (hname.trans (by decide)))
    · exact htransfer (strcasecmp_of_lower (hchunked.1.trans (by decide)))
  · rcases mem_addedFields he with rfl | ⟨-, rfl⟩
    · cases q.close <;> exact ⟨by decide, by decide, by decide⟩
    · exact bodyField_plain _

theorem HttpResponse.isAdded_header (h : q.Printable) : ∀ e ∈ q.headers, isAdded e.1 = false := by
  intro e he
  obtain ⟨hconnection, hlength, -⟩ := h.names e he
  rw [isAdded, beq_eq_false_iff_ne.mpr hconnection, beq_eq_false_iff_ne.mpr hlength]
  rfl

theorem HttpResponse.isAdded_added : ∀ e ∈ q.addedFields, isAdded e.1 = true := by
  intro e he
  have hadded : isAdded (ascii "connection") = true ∧ isAdded (ascii "content-length") = true := by decide
  rcases mem_addedFields he with rfl | ⟨-, rfl⟩
  · exact hadded.1
  · exact hadded.2

theorem HttpResponse.printedFields_distinct (h : q.Printable) :
    (q.printedFields false []).Pairwise (fun e f => strcasecmp e.1 f.1 ≠ .eq) := by
  rw [printedFields_eq h]
  refine distinct_append h.sorted (isAdded_header h) isAdded_added ?_
  have hne : strcasecmp (ascii "connection") (ascii "content-length") ≠ .eq := by decide
  rw [addedFields]
  by_cases hbody : q.body = [] <;> simp [hbody, hne]

/-- What is read under a name is what is printed under it. -/
theorem HttpResponse.parsed_added (h : q.Printable) {key : List UInt8} (hkey : isAdded key = true) :
    (q.parsed (q.printedFields false [])).headers.find key =
      (OrderedMap.entry strcasecmp key q.addedFields).map Prod.snd := by
  have hheaders : ∀ e ∈ q.headers, strcasecmp key e.1 ≠ .eq := by
    intro e he
    refine ne_of_isAdded ?_
    rw [hkey, isAdded_header h e he]
    decide
  have hentry := OrderedMap.entry_ofAssignments_distinct (printedFields_distinct h) key
  rw [printedFields_eq h, entry_append_of_ne hheaders] at hentry
  rw [MapType.find, parsed, printedFields_eq h, hentry]

theorem HttpResponse.parsed_length (h : q.Printable) :
    (q.parsed (q.printedFields false [])).headers.find (ascii "content-length") =
      if q.body = [] then none else some (decimal q.body.length) := by
  refine (parsed_added h rfl).trans ?_
  rw [addedFields]
  split <;> rfl

theorem HttpResponse.parsed_same (h : q.Printable) :
    q.Same ((q.parsed (q.printedFields false [])).withBody q.body) := by
  have hrest : ∀ d : HttpResponse, d.body = [] → d.withBody q.body = { d with body := q.body } := by
    intro d hd
    rw [withBody]
    split
    · rfl
    · rename_i hempty
      rw [not_not.mp hempty, ← hd]
  rw [hrest _ rfl]
  refine ⟨rfl, rfl, rfl, ?_, (parsed_added h rfl).trans rfl, parsed_length h, rfl⟩
  refine filter_ofAssignments (printedFields_distinct h) h.sorted ?_
  have hadded : q.addedFields.filter (fun e => !isAdded e.1) = [] :=
    List.filter_eq_nil_iff.mpr fun e he => by rw [isAdded_added e he]; decide
  rw [printedFields_eq h, List.filter_append, hadded, List.append_nil]
  exact List.filter_eq_self.mpr fun e he => by rw [isAdded_header h e he]; rfl

/-! ## Receiving what is printed -/

variable {lexicalCast : List UInt8 → Option UInt64} {n : ℕ} {st : Stream} {data rest : List UInt8}

theorem HttpResponse.dump_eq (q : HttpResponse) :
    q.dump false [] = q.printedHead (q.printedFields false []) ++ q.body := by
  have hend : ascii "\r\n" = [13, 10] := by decide
  rw [dump, printedHead, hend]
  simp only [List.append_assoc]

/-- What `recvResponse` does with a printed response whose head comes with the first read. -/
theorem recvResponse_dump (h : q.Printable)
    (hcast : lexicalCast (decimal q.body.length) = some (UInt64.ofNat q.body.length)) (hmax : n ≤ intMax)
    (hread : Arrives n st (q.printedHead (q.printedFields false []) ++ data))
    (hpending : st.pending = q.dump false [] ++ rest) :
    ∃ k, recvResponse lexicalCast n st = .ok
      (if q.body.length ≤ data.length ∨ 0 < toInt (q.body.length - data.length : ℕ) then
        (some ((q.parsed (q.printedFields false [])).withBody q.body), st.skip k)
      else (none, (st.skip k).close)) := by
  rw [HttpResponse.dump_eq, List.append_assoc] at hpending
  exact ⟨_, recvResponse_printed h.reported (HttpResponse.printedFields_plain h) hmax hread hpending h.body
    (getAs_printed (HttpResponse.parsed_length h) hcast h.body)⟩

/-- A response that is printed is received as the same one exactly when the bytes of the body that
do not come with the head are none or a positive `int`. -/
theorem response_received_iff (h : q.Printable)
    (hcast : lexicalCast (decimal q.body.length) = some (UInt64.ofNat q.body.length)) (hmax : n ≤ intMax)
    (hread : Arrives n st (q.printedHead (q.printedFields false []) ++ data))
    (hpending : st.pending = q.dump false [] ++ rest) :
    (∃ rsp st', recvResponse lexicalCast n st = .ok (some rsp, st') ∧ q.Same rsp) ↔
      q.body.length ≤ data.length ∨ 0 < toInt (q.body.length - data.length : ℕ) := by
  obtain ⟨k, hrecv⟩ := recvResponse_dump h hcast hmax hread hpending
  rw [hrecv]
  constructor
  · rintro ⟨rsp, st', heq, -⟩
    by_contra hmissing
    rw [if_neg hmissing] at heq
    cases heq
  · intro hmissing
    rw [if_pos hmissing]
    exact ⟨_, _, rfl, HttpResponse.parsed_same h⟩

end

/-! ## A response that is too long -/

/-- A response in two pieces: its head, and its body. -/
def HttpResponse.delivered (q : HttpResponse) (hne : q.body ≠ []) : Pieces UInt8 where
  parts := [q.printedHead (q.printedFields false []), q.body]
  parts_ne := by
    have hhead : q.printedHead (q.printedFields false []) ≠ [] := by
      simp [HttpResponse.printedHead]
    simp [hhead, hne]

theorem HttpResponse.delivered_flatten (q : HttpResponse) (hne : q.body ≠ []) :
    (q.delivered hne).flatten = q.dump false [] := by
  rw [dump_eq, Pieces.flatten, delivered]
  simp

/-- A body of two gigabytes. -/
def hugeResponse : HttpResponse := { HttpResponse.new with body := List.replicate (2 ^ 31) 0 }

theorem hugeResponse_length : hugeResponse.body.length = 2 ^ 31 := List.length_replicate

theorem hugeResponse_ne : hugeResponse.body ≠ [] :=
  List.ne_nil_of_length_pos (hugeResponse_length ▸ by decide)

theorem hugeResponse_printable : hugeResponse.Printable where
  reported := ⟨Or.inl rfl, ⟨(200, "OK"), by decide, rfl⟩, fun b hb => by cases hb⟩
  sorted := List.Pairwise.nil
  fields := fun e he => by cases he
  names := fun e he => by cases he
  body := by
    rw [hugeResponse_length]
    decide

theorem hugeResponse_cast : castDigits (decimal hugeResponse.body.length) =
    some (UInt64.ofNat hugeResponse.body.length) := by
  rw [hugeResponse_length]
  decide

/-- Two gigabytes are not received. -/
theorem huge_not_received : hugeResponse.Printable ∧
    castDigits (decimal hugeResponse.body.length) = some (UInt64.ofNat hugeResponse.body.length) ∧
    Arrives 4096 (.connected (hugeResponse.delivered hugeResponse_ne))
      (hugeResponse.printedHead (hugeResponse.printedFields false []) ++ []) ∧
    ¬ ∃ rsp st', recvResponse castDigits 4096 (.connected (hugeResponse.delivered hugeResponse_ne)) =
      .ok (some rsp, st') ∧ hugeResponse.Same rsp := by
  have hlength := hugeResponse_length
  have hhead : (hugeResponse.printedHead (hugeResponse.printedFields false [])).length ≤ 4096 := by
    rw [HttpResponse.printedHead, HttpResponse.printedFields, if_neg hugeResponse_ne, hlength]
    decide
  have hread : Arrives 4096 (.connected (hugeResponse.delivered hugeResponse_ne))
      (hugeResponse.printedHead (hugeResponse.printedFields false []) ++ []) := by
    rw [List.append_nil]
    exact arrives_piece (by decide) rfl hhead
  refine ⟨hugeResponse_printable, hugeResponse_cast, hread, ?_⟩
  have hpending : (Stream.connected (hugeResponse.delivered hugeResponse_ne)).pending =
      hugeResponse.dump false [] ++ [] := by
    rw [List.append_nil]
    exact HttpResponse.delivered_flatten _ hugeResponse_ne
  obtain ⟨k, hrecv⟩ := recvResponse_dump hugeResponse_printable hugeResponse_cast (by decide) hread hpending
  rintro ⟨rsp, st', heq, -⟩
  rw [hrecv, hlength, if_neg (by decide)] at heq
  cases heq

/-- A response with a field and a body. -/
def greeting : HttpResponse :=
  { HttpResponse.new with
    status := 404, reason := ascii "Not here", headers := [(ascii "server", ascii "a b")], body := ascii "hello" }

theorem greeting_received : ∃ rsp st', recvResponse castDigits 4096
    (.connected (greeting.delivered (by decide))) = .ok (some rsp, st') ∧ greeting.Same rsp := by
  have hreason : (ascii "Not here").all textChar.holds = true := by decide
  have hprintable : greeting.Printable := {
    reported := ⟨Or.inl rfl, ⟨(404, "Not Found"), by decide, rfl⟩, List.all_eq_true.mp hreason⟩
    sorted := List.pairwise_singleton _ _
    fields := by decide
    names := by decide
    body := by decide }
  have hread : Arrives 4096 (.connected (greeting.delivered (by decide)))
      (greeting.printedHead (greeting.printedFields false []) ++ []) := by
    rw [List.append_nil]
    exact arrives_piece (by decide) rfl (by decide)
  have hpending : (Stream.connected (greeting.delivered (by decide))).pending = greeting.dump false [] ++ [] := by
    rw [List.append_nil]
    exact HttpResponse.delivered_flatten greeting (by decide)
  exact (response_received_iff hprintable (by decide) (by decide) hread hpending).mpr (by decide)

end Flz.Http
