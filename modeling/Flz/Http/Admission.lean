import Flz.Http.Receive

/-! # Which bodies are admitted

What `HttpSession::recvRequest` makes of the value of a `Content-Length`. The limit of
`http/http_parser.cc` is there, and is not asked for.
-/
namespace Flz.Http
open Lib

/-- `boost::lexical_cast<uint64_t>`: a sign may stand before the digits, and a negative value
wraps. -/
def lexicalCast : List UInt8 → Option UInt64
  | 45 :: digits => (castDigits digits).map fun v => -v
  | 43 :: digits => castDigits digits
  | digits => castDigits digits

def GetHttpRequestMaxBodySize : ℕ := 64 * 1024 * 1024

/-- The length of the body that is read for the value of a header. -/
def bodyLength (v : List UInt8) : ℤ := toInt64 ((lexicalCast v).getD 0).toNat

/-- `recvRequest` where no string is longer than `room`: `resize` throws for a longer body, which
nothing catches. -/
def recvRequestWithin (room : ℕ) (uriRelaxed : Bool) (queryStart buffSize : ℕ) (s : Stream) :
    Except Fault (Option (Option HttpRequest × Stream)) := do
  let (head, _) ← headLoop requestParsing buffSize [] (.new uriRelaxed queryStart) s
  if head.all fun (_, parser) => toInt64 (parser.getContentLength lexicalCast).toNat ≤ room then
    some <$> recvRequest lexicalCast uriRelaxed queryStart buffSize s
  else return none

/-- A decimal number up to the limit. -/
structure Admissible (v : List UInt8) : Prop where
  nonempty : v ≠ []
  digits : v.all (fun b => (digitValue 10 b).isSome) = true
  limit : readDigits 10 0 v ≤ GetHttpRequestMaxBodySize

/-- A request has the body that the value of its header says, or it is refused. -/
def Admitted (v : List UInt8) : Except Fault (Option (Option HttpRequest × Stream)) → Prop
  | .ok (some (some req, _)) => Admissible v ∧ req.body.length = readDigits 10 0 v
  | .ok (some (none, s)) => s.closed = true
  | _ => False

/-- A stream that begins with the head of a request, as it is read with a buffer of `n` bytes, whose
`Content-Length` is `v`. -/
structure Announces (uriRelaxed : Bool) (n : ℕ) (st : Stream) (h : ℕ) (d : HttpRequest)
    (v : List UInt8) : Prop where
  opened : st.closed = false
  head : (requestScanner uriRelaxed).stop 1 st.pending = (h, .left 348)
  built : build st.pending (Pieces.readStart n st.input.parts) (headTokens uriRelaxed st.pending) .new = some d
  value : d.headers.find (ascii "content-length") = some v

/-- So many bytes come behind a head, and what of them is not in the buffer with its end is more
than nothing as an `int`. -/
def BodyComes (n : ℕ) (st : Stream) (h length : ℕ) : Prop :=
  let e := Pieces.readEnd n st.input.parts (h - 1)
  length ≤ (st.pending.drop h).length ∧ (h + length ≤ e ∨ 0 < toInt (h + length - e : ℕ))

section
variable {uriRelaxed : Bool} {queryStart n h room : ℕ} {st : Stream} {d : HttpRequest} {v : List UInt8}

theorem bodyLength_admissible (hv : Admissible v) : bodyLength v = readDigits 10 0 v := by
  have hlimit : readDigits 10 0 v ≤ 67108864 := hv.limit
  have hdigits : castDigits v = some (UInt64.ofNat (readDigits 10 0 v)) :=
    if_pos ⟨hv.nonempty, hv.digits, by omega⟩
  have hsign : ∀ b, digitValue 10 b = none → ∀ digits, v ≠ b :: digits := by
    rintro b hb digits rfl
    have hall := List.all_eq_true.mp hv.digits b List.mem_cons_self
    rw [hb] at hall
    cases hall
  have hcast : lexicalCast v = castDigits v := by
    rw [lexicalCast]
    · exact hsign 45 (by decide)
    · exact hsign 43 (by decide)
  rw [bodyLength, hcast, hdigits, Option.getD_some, UInt64.toNat_ofNat', Nat.mod_eq_of_lt (by omega)]
  exact toInt64_eq (by omega)

theorem recvBody_short {data : List UInt8} {length : ℕ} (hopen : st.closed = false)
    (hlt : data.length + st.pending.length < length) (hmax : length < 2 ^ 63) :
    recvBody data length st = (none, (st.withInput Pieces.empty).close) := by
  have hcount : ((length : ℤ) - data.length).toNat = length - data.length := by omega
  rw [recvBody, if_pos (by omega), hcount,
    Stream.readFixSize_short hopen (by omega) (by omega)]
  simp only [if_pos st.ending_le]

theorem Announces.length (ha : Announces uriRelaxed n st h d v) :
    d.contentLength lexicalCast = bodyLength v := by
  rw [HttpRequest.contentLength, MapType.getAs, ha.value]
  rfl

/-- The read that ends the head does not end before. -/
theorem Announces.le_readEnd (ha : Announces uriRelaxed n st h d v) (hn : 0 < n) :
    h ≤ Pieces.readEnd n st.input.parts (h - 1) := by
  obtain ⟨hpos, hle⟩ := Scanner.stop_left_bounds ha.head
  change h ≤ st.input.parts.flatten.length at hle
  have hlt := (Pieces.lt_readEnd hn (show h - 1 < st.input.parts.flatten.length by omega)).1
  omega

/-- The head is read, with the rest of the read that ends it. -/
theorem Announces.headLoop (ha : Announces uriRelaxed n st h d v) (hn : 0 < n) (hmax : n ≤ intMax)
    (queryStart : ℕ) {e : ℕ} (he : Pieces.readEnd n st.input.parts (h - 1) = e) :
    ∃ s', headLoop requestParsing n [] (.new uriRelaxed queryStart) st =
        .ok (some ((st.pending.drop h).take (e - h), s'), st.skip e) ∧ s'.data = d ∧
      toInt64 (s'.getContentLength lexicalCast).toNat = bodyLength v := by
  have hhead := @headLoop_head _ queryStart _ _ _ hn hmax ha.opened ha.head
  rw [ha.built, he] at hhead
  obtain ⟨s', hloop, hd⟩ := hhead
  refine ⟨s', hloop, hd, ?_⟩
  rw [HttpRequestParser.getContentLength, hd]
  exact ha.length

/-- What is not too long is received. -/
theorem Announces.received (ha : Announces uriRelaxed n st h d v) (hn : 0 < n) (hmax : n ≤ intMax) :
    recvRequestWithin room uriRelaxed queryStart n st =
      if bodyLength v ≤ room then some <$> recvRequest lexicalCast uriRelaxed queryStart n st
      else .ok none := by
  obtain ⟨s', hloop, -, hcount⟩ := ha.headLoop hn hmax queryStart rfl
  rw [recvRequestWithin, hloop]
  simp only [bind, Except.bind, Option.all_some, hcount, decide_eq_true_eq]
  rfl

/-- What comes when the length of the body is not positive. -/
theorem Announces.received_empty (ha : Announces uriRelaxed n st h d v) (hn : 0 < n) (hmax : n ≤ intMax)
    (queryStart : ℕ) (hlength : bodyLength v ≤ 0) :
    ∃ s', recvRequest lexicalCast uriRelaxed queryStart n st = .ok (some d.init, s') := by
  obtain ⟨s', hloop, hd, hcount⟩ := ha.headLoop hn hmax queryStart rfl
  rw [recvRequest, hloop]
  simp only [bind, Except.bind, hcount, hd, if_neg (Int.not_lt.mpr hlength)]
  exact ⟨_, rfl⟩

/-- What comes when the bytes of the body do not. -/
theorem Announces.received_short (ha : Announces uriRelaxed n st h d v) (hn : 0 < n) (hmax : n ≤ intMax)
    (queryStart : ℕ) {length : ℕ} (hlength : bodyLength v = length)
    (hlt : (st.pending.drop h).length < length) :
    ∃ s', recvRequest lexicalCast uriRelaxed queryStart n st = .ok (none, s') ∧ s'.closed = true := by
  obtain ⟨s', hloop, hd, hcount⟩ := ha.headLoop hn hmax queryStart rfl
  have hend := ha.le_readEnd hn
  generalize Pieces.readEnd n st.input.parts (h - 1) = e at hloop hend
  have hopen : (st.skip e).closed = false := ha.opened
  have hfits : length < 2 ^ 63 := by
    have hbound := @contentLength_lt lexicalCast d
    rw [ha.length, hlength] at hbound
    omega
  have hfew : ((st.pending.drop h).take (e - h)).length + (st.skip e).pending.length < length := by
    rw [Stream.skip_pending, List.length_take, List.length_drop, List.length_drop]
    rw [List.length_drop] at hlt
    omega
  rw [recvRequest, hloop]
  have hpos : (length : ℤ) > 0 := by omega
  simp only [bind, Except.bind, hcount, hlength, if_pos hpos, recvBody_short hopen hfew hfits]
  exact ⟨_, rfl, rfl⟩

/-- What comes when the bytes of the body do. -/
theorem Announces.received_body (ha : Announces uriRelaxed n st h d v) (hn : 0 < n) (hmax : n ≤ intMax)
    (queryStart : ℕ) {length : ℕ} (hlength : bodyLength v = length)
    (hle : length ≤ (st.pending.drop h).length) :
    (BodyComes n st h length → ∃ s', recvRequest lexicalCast uriRelaxed queryStart n st =
        .ok (some (d.complete ((st.pending.drop h).take length)), s')) ∧
      (¬ BodyComes n st h length → ∃ s', recvRequest lexicalCast uriRelaxed queryStart n st =
        .ok (none, s') ∧ s'.closed = true) := by
  have hcount : ((st.pending.drop h).take length).length = length := by
    rw [List.length_take, min_eq_left hle]
  have hrecv := @recvRequest_eq lexicalCast _ queryStart _ _ _ _ hn hmax ha.opened ha.head ha.built _ _
    (List.take_append_drop length (st.pending.drop h)).symm
    (by rw [ha.length, hlength, hcount]) _ rfl
  rw [hcount] at hrecv
  rw [hrecv]
  constructor
  · intro hcomes
    rw [if_pos hcomes.2]
    exact ⟨_, rfl⟩
  · intro hmissing
    rw [if_neg fun hend => hmissing ⟨hle, hend⟩]
    exact ⟨_, rfl, rfl⟩

/-- What is received behind a head: nothing for a body that is too long, an empty body, the body, or
a refusal. -/
theorem Announces.outcome (ha : Announces uriRelaxed n st h d v) (hn : 0 < n) (hmax : n ≤ intMax)
    (room queryStart : ℕ) :
    room < bodyLength v ∧ recvRequestWithin room uriRelaxed queryStart n st = .ok none ∨
      bodyLength v ≤ 0 ∧ (∃ s', recvRequestWithin room uriRelaxed queryStart n st =
        .ok (some (some d.init, s'))) ∨
      ∃ length : ℕ, bodyLength v = length ∧ 0 < length ∧ length ≤ room ∧
        (BodyComes n st h length ∧ (∃ s', recvRequestWithin room uriRelaxed queryStart n st =
            .ok (some (some (d.complete ((st.pending.drop h).take length)), s'))) ∨
          ¬ BodyComes n st h length ∧ ∃ s', recvRequestWithin room uriRelaxed queryStart n st =
            .ok (some (none, s')) ∧ s'.closed = true) := by
  rw [ha.received hn hmax]
  by_cases hroom : bodyLength v ≤ room
  · rw [if_pos hroom]
    by_cases hnone : bodyLength v ≤ 0
    · obtain ⟨s', hrecv⟩ := ha.received_empty hn hmax queryStart hnone
      exact .inr (.inl ⟨hnone, s', by rw [hrecv]; rfl⟩)
    · obtain ⟨length, hlength⟩ := Int.eq_ofNat_of_zero_le (show 0 ≤ bodyLength v by omega)
      refine .inr (.inr ⟨length, hlength, by omega, by omega, ?_⟩)
      by_cases hle : length ≤ (st.pending.drop h).length
      · obtain ⟨hbody, hrefused⟩ := ha.received_body hn hmax queryStart hlength hle
        by_cases hcomes : BodyComes n st h length
        · obtain ⟨s', hrecv⟩ := hbody hcomes
          exact .inl ⟨hcomes, s', by rw [hrecv]; rfl⟩
        · obtain ⟨s', hrecv, hclosed⟩ := hrefused hcomes
          exact .inr ⟨hcomes, s', by rw [hrecv]; rfl, hclosed⟩
      · obtain ⟨s', hrecv, hclosed⟩ := ha.received_short hn hmax queryStart hlength (by omega)
        exact .inr ⟨fun hcomes => hle hcomes.1, s', by rw [hrecv]; rfl, hclosed⟩
  · rw [if_neg hroom]
    exact .inl ⟨by omega, rfl⟩

/-- A value is admitted as it should be exactly when it is a number up to the limit, or when the
body that is read for it is one that can be kept and does not come. -/
theorem admitted_iff (ha : Announces uriRelaxed n st h d v) (hn : 0 < n) (hmax : n ≤ intMax)
    (queryStart : ℕ) (hroom : GetHttpRequestMaxBodySize ≤ room) :
    Admitted v (recvRequestWithin room uriRelaxed queryStart n st) ↔
      Admissible v ∨ ∃ length : ℕ, bodyLength v = length ∧ 0 < length ∧ length ≤ room ∧
        ¬ BodyComes n st h length := by
  have hbody : d.body = [] := (build_rest ha.built).1
  obtain ⟨hlong, hrecv⟩ | ⟨hnone, s', hrecv⟩ | ⟨length, hlength, hpos, hle, hcase⟩ :=
    ha.outcome hn hmax room queryStart
  · rw [hrecv]
    refine iff_of_false id ?_
    rintro (hv | ⟨length, hlength, -, hle, -⟩)
    · have hlimit := hv.limit
      rw [bodyLength_admissible hv] at hlong
      omega
    · omega
  · rw [hrecv]
    have hinit : d.init.body = [] := by
      rw [HttpRequest.init]
      split <;> exact hbody
    constructor
    · exact fun h => .inl h.1
    · rintro (hv | ⟨length, hlength, hpos, -⟩)
      · refine ⟨hv, ?_⟩
        rw [bodyLength_admissible hv] at hnone
        rw [hinit, List.length_nil]
        omega
      · omega
  · obtain ⟨hcomes, s', hrecv⟩ | ⟨hmissing, s', hrecv, hclosed⟩ := hcase
    · rw [hrecv]
      constructor
      · exact fun h => .inl h.1
      · rintro (hv | ⟨length', hlength', -, -, hmissing⟩)
        · refine ⟨hv, ?_⟩
          rw [bodyLength_admissible hv] at hlength
          rw [HttpRequest.complete_eq, List.length_take, min_eq_left hcomes.1]
          omega
        · obtain rfl : length = length' := by omega
          exact absurd hcomes hmissing
    · rw [hrecv]
      exact iff_of_true hclosed (.inr ⟨length, hlength, hpos, hle, hmissing⟩)

end

/-- A request with the body `hi` and some text for its length. -/
def hiRequest (v : String) : Stream :=
  .connected (.whole (ascii "GET / HTTP/1.1\r\nContent-Length: " ++ ascii v ++ ascii "\r\n\r\nhi"))

def hiHead (v : String) : HttpRequest :=
  { HttpRequest.new with headers := [(ascii "Content-Length", ascii v)] }

set_option maxRecDepth 20000 in
theorem hiRequest_announces : Announces false 4096 (hiRequest "2") 37 (hiHead "2") (ascii "2") where
  opened := rfl
  head := by decide
  built := by decide
  value := by decide

set_option maxRecDepth 20000 in
theorem admitted_hi : Admitted (ascii "2") (recvRequestWithin GetHttpRequestMaxBodySize false 0 4096
    (hiRequest "2")) :=
  (admitted_iff hiRequest_announces (by decide) (by decide) 0 (Nat.le_refl _)).mpr
    (.inl ⟨by decide, by decide, by decide⟩)

set_option maxRecDepth 20000 in
/-- A length with text behind it yields a request with no body. -/
theorem trailing_text_empty : ¬ Admitted (ascii "2x") (recvRequestWithin GetHttpRequestMaxBodySize false
    0 4096 (hiRequest "2x")) := by
  intro h
  have hannounces : Announces false 4096 (hiRequest "2x") 38 (hiHead "2x") (ascii "2x") :=
    ⟨rfl, by decide, by decide, by decide⟩
  have hzero : bodyLength (ascii "2x") = 0 := by decide
  obtain ⟨hlong, -⟩ | ⟨-, s', hrecv⟩ | ⟨length, hlength, hpos, -⟩ :=
    hannounces.outcome (by decide) (by decide) GetHttpRequestMaxBodySize 0
  · omega
  · rw [hrecv] at h
    exact absurd h.1.digits (by decide)
  · omega

end Flz.Http
