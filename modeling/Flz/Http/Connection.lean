import Flz.Http.ResponseParser
import Flz.Http.Session

/-! # Connections

`HttpConnection::recvResponse` of `http/http_connection.cc`. There is memory for the buffer and
the body.
-/
namespace Flz.Http

def responseParsing : Parsing HttpResponseParser where
  execute s data := s.execute data false
  hasError := HttpResponseParser.hasError
  isFinished := HttpResponseParser.isFinished

/-- The parser as the loop over the chunks uses it. -/
def chunkParsing : Parsing HttpResponseParser where
  execute s data := s.execute data true
  hasError := HttpResponseParser.hasError
  isFinished := HttpResponseParser.isFinished

/-- The inner loop for the head of a chunk: what the buffer holds is parsed before anything is
read. -/
def chunkHead (buffSize : ℕ) (data : List UInt8) (parser : HttpResponseParser) (s : Stream) :
    Except Fault (Option (List UInt8 × HttpResponseParser) × Stream) :=
  if data.length = 0 then headLoop chunkParsing buffSize data parser s
  else
    match parser.execute data true with
    | .error e => .error e
    | .ok (data', parser') =>
      if parser'.hasError then .ok (none, s.close)
      else if (data'.length : ℤ) = toInt buffSize then .ok (none, s.close)
      else if parser'.isFinished ≠ 0 then .ok (some (data', parser'), s)
      else headLoop chunkParsing buffSize data' parser' s

/-- How many bytes a read for the rest of a chunk asks for, as a `size_t`. -/
def restCount (buffSize : ℕ) (left : ℤ) : ℕ :=
  ((if left > toInt buffSize then toInt buffSize else left) % 2 ^ 64).toNat

/-- The loop for the `left` bytes of a chunk that are not in the buffer; they are read over what
it holds. -/
def chunkRest (buffSize : ℕ) (body : List UInt8) (left : ℤ) (s : Stream) :
    Except Fault (Option (List UInt8) × Stream) :=
  if left > 0 then
    if restCount buffSize left > buffSize then .error (.outside (restCount buffSize left) buffSize)
    else if _h : (s.read (restCount buffSize left)).1 ≤ 0 then
      .ok (none, (s.read (restCount buffSize left)).2.2.close)
    else
      chunkRest buffSize (body ++ (s.read (restCount buffSize left)).2.1)
        (left - (s.read (restCount buffSize left)).1) (s.read (restCount buffSize left)).2.2
  else .ok (some body, s)
termination_by s.pending.length
decreasing_by exact read_shrinks _h

/-- The bytes of a chunk and its line end; the result is what is left in the buffer, and the
body. -/
def chunkBody (buffSize : ℕ) (data body : List UInt8) (contentLen : ℤ) (s : Stream) :
    Except Fault (Option (List UInt8 × List UInt8) × Stream) :=
  if contentLen + 2 > intMax then .error (.overflow (contentLen + 2))
  else if contentLen + 2 ≤ data.length then
    if contentLen < 0 then .error (.outside contentLen data.length)
    else
      .ok (some (data.drop (contentLen + 2).toNat, body ++ data.take contentLen.toNat), s)
  else do
    let (body, s) ← chunkRest buffSize (body ++ data) (contentLen - data.length + 2) s
    match body with
    | none => return (none, s)
    | some body =>
      if body.length < 2 then throw (.outside (body.length - 2) body.length)
      else return (some ([], body.take (body.length - 2)), s)

/-- One turn of the loop over the chunks. -/
def chunkTurn (buffSize : ℕ) (data : List UInt8) (parser : HttpResponseParser) (body : List UInt8)
    (s : Stream) :
    Except Fault (Option (List UInt8 × HttpResponseParser × List UInt8) × Stream) := do
  let (head, s) ← chunkHead buffSize data parser s
  match head with
  | none => return (none, s)
  | some (data, parser) =>
    let (out, s) ← chunkBody buffSize data body parser.contentLen s
    return (out.map (fun o => (o.1, parser, o.2)), s)

/-! ## Every turn consumes something -/

section
variable {n : ℕ} {data data' body body' : List UInt8} {parser parser' : HttpResponseParser}
  {s s' : Stream}

theorem execute_shrinks {chunck : Bool} (h : parser.execute data chunck = .ok (data', parser'))
    (herr : parser'.hasError = false) : data'.length < data.length := by
  obtain ⟨k, hk, rfl, hpos⟩ := HttpResponseParser.execute_drop h
  have := hpos herr
  rw [List.length_drop]
  omega

/-- The loop for the head of a chunk leads where its turns lead. -/
theorem chunkHead_rule {bad : Fault → Prop} {pre post : List UInt8 → HttpResponseParser → Stream → Prop}
    (hturn : ∀ data parser s, pre data parser s → ∀ bytes s', s.read (n - data.length) =
        ((bytes.length : ℤ), bytes, s') → bytes ≠ [] → bytes.length ≤ n - data.length →
      (data.length > n → ∀ e, bad e) ∧ (∀ e, parser.execute (data ++ bytes) true = .error e → bad e) ∧
        ∀ data' parser', parser.execute (data ++ bytes) true = .ok (data', parser') →
          parser'.hasError = false → post data' parser' s')
    (hback : ∀ data parser s, post data parser s → pre data parser s)
    (hempty : data = [] → pre data parser s)
    (hfirst : data ≠ [] → (∀ e, parser.execute data true = .error e → bad e) ∧
      ∀ data' parser', parser.execute data true = .ok (data', parser') →
        parser'.hasError = false → post data' parser' s) :
    Ends bad (fun data' parser' s' => post data' parser' s' ∧ parser'.isFinished ≠ 0)
      (chunkHead n data parser s) := by
  have hloop : ∀ data parser s, pre data parser s →
      Ends bad (fun data' parser' s' => post data' parser' s' ∧ parser'.isFinished ≠ 0)
        (headLoop chunkParsing n data parser s) :=
    fun _ _ _ h => headLoop_rule (P := chunkParsing) hturn hback h
  rw [chunkHead]
  split
  · rename_i hzero
    exact hloop _ _ _ (hempty (List.eq_nil_of_length_eq_zero hzero))
  · rename_i hpos
    obtain ⟨herror, hok⟩ := hfirst (fun hnil => hpos (congrArg List.length hnil))
    cases hexec : parser.execute data true with
    | error e => exact herror e hexec
    | ok out =>
      obtain ⟨data', parser'⟩ := out
      dsimp only
      split
      · exact trivial
      · rename_i herr
        have hpost := hok data' parser' hexec (Bool.eq_false_iff.mpr herr)
        split
        · exact trivial
        · split
          · rename_i hfinished
            exact ⟨hpost, hfinished⟩
          · exact hloop _ _ _ (hback _ _ _ hpost)

theorem chunkHead_shrinks (h : chunkHead n data parser s = .ok (some (data', parser'), s')) :
    data'.length + s'.pending.length < data.length + s.pending.length := by
  have hrule := @chunkHead_rule n data parser s (fun _ => True)
    (fun d _ t => d.length + t.pending.length ≤ data.length + s.pending.length)
    (fun d _ t => d.length + t.pending.length < data.length + s.pending.length)
    (fun d p t hle bytes t' hread _ _ => by
      refine ⟨fun _ _ => trivial, fun _ _ => trivial, fun d' p' hexec herr => ?_⟩
      have hpending := Stream.read_pending (n - d.length) t
      rw [hread] at hpending
      dsimp only at hpending
      have hless := execute_shrinks hexec herr
      have hsum := congrArg List.length hpending
      rw [List.length_append] at hsum hless
      omega)
    (fun _ _ _ hlt => Nat.le_of_lt hlt) (fun _ => Nat.le_refl _)
    (fun _ => ⟨fun _ _ => trivial, fun d' p' hexec herr =>
      Nat.add_lt_add_right (execute_shrinks hexec herr) _⟩)
  rw [h] at hrule
  exact hrule.1

theorem chunkRest_shrinks {left : ℤ} (h : chunkRest n body left s = .ok (some body', s')) :
    s'.pending.length ≤ s.pending.length := by
  induction hk : s.pending.length using Nat.strong_induction_on generalizing body left s with
  | _ k ih =>
    rw [chunkRest] at h
    by_cases hleft : left > 0
    · rw [if_pos hleft] at h
      generalize restCount n left = count at h
      by_cases hcount : count > n
      · rw [if_pos hcount] at h
        cases h
      · rw [if_neg hcount] at h
        by_cases hread : (s.read count).1 ≤ 0
        · rw [dif_pos hread] at h
          cases h
        · rw [dif_neg hread] at h
          have hless := read_shrinks hread
          have hrec := ih _ (hk ▸ hless) h rfl
          omega
    · rw [if_neg hleft] at h
      cases h
      exact Nat.le_of_eq hk

theorem chunkBody_shrinks {contentLen : ℤ}
    (h : chunkBody n data body contentLen s = .ok (some (data', body'), s')) :
    data'.length + s'.pending.length ≤ data.length + s.pending.length := by
  rw [chunkBody] at h
  split at h
  · cases h
  · split at h
    · split at h
      · cases h
      · cases h
        rw [List.length_drop]
        omega
    · cases hrest : chunkRest n (body ++ data) (contentLen - data.length + 2) s with
      | error e =>
        rw [hrest] at h
        cases h
      | ok out =>
        obtain ⟨out, t⟩ := out
        rw [hrest] at h
        cases out with
        | none => cases h
        | some all =>
          have hless := chunkRest_shrinks hrest
          simp only [bind, Except.bind] at h
          split at h
          · cases h
          · cases h
            rw [List.length_nil]
            omega

theorem chunkTurn_shrinks
    (h : chunkTurn n data parser body s = .ok (some (data', parser', body'), s')) :
    data'.length + s'.pending.length < data.length + s.pending.length := by
  rw [chunkTurn] at h
  cases hhead : chunkHead n data parser s with
  | error e =>
    rw [hhead] at h
    cases h
  | ok out =>
    obtain ⟨out, t⟩ := out
    rw [hhead] at h
    cases out with
    | none => cases h
    | some out =>
      obtain ⟨d, p⟩ := out
      have hless := chunkHead_shrinks hhead
      simp only [bind, Except.bind] at h
      cases hbody : chunkBody n d body p.contentLen t with
      | error e =>
        rw [hbody] at h
        cases h
      | ok out =>
        obtain ⟨out, u⟩ := out
        rw [hbody] at h
        cases out with
        | none => cases h
        | some out =>
          obtain ⟨d', b⟩ := out
          have hle := chunkBody_shrinks hbody
          cases h
          exact Nat.lt_of_le_of_lt hle hless

end

/-- The loop over the chunks: the parser and the body after the last one. -/
def chunkLoop (buffSize : ℕ) (data : List UInt8) (parser : HttpResponseParser) (body : List UInt8)
    (s : Stream) : Except Fault (Option (HttpResponseParser × List UInt8) × Stream) :=
  match _h : chunkTurn buffSize data parser body s with
  | .error e => .error e
  | .ok (none, s') => .ok (none, s')
  | .ok (some (data', parser', body'), s') =>
    if parser'.chunksDone then .ok (some (parser', body'), s')
    else chunkLoop buffSize data' parser' body' s'
termination_by data.length + s.pending.length
decreasing_by exact chunkTurn_shrinks _h

/-- `setBody` for a body that is not empty. -/
def HttpResponse.withBody (r : HttpResponse) (body : List UInt8) : HttpResponse :=
  if body ≠ [] then { r with body := body } else r

/-- `buffSize` is `GetHttpRequestBufferSize()`. -/
def recvResponse (lexicalCast : List UInt8 → Option UInt64) (buffSize : ℕ) (s : Stream) :
    Except Fault (Option HttpResponse × Stream) := do
  let (head, s) ← headLoop responseParsing buffSize [] .new s
  match head with
  | none => return (none, s)
  | some (data, parser) =>
    if parser.chunked then
      let (out, s) ← chunkLoop buffSize data parser [] s
      return (out.map (fun o => o.1.data.withBody o.2), s)
    else
      let length := toInt64 (parser.getContentLength lexicalCast).toNat
      if length > 0 then
        let (body, s) := recvBody data length s
        return (body.map parser.data.withBody, s)
      else return (some parser.data, s)

/-- One turn of the loop over the chunks. -/
theorem chunkLoop_eq (n : ℕ) (data : List UInt8) (parser : HttpResponseParser) (body : List UInt8)
    (s : Stream) :
    chunkLoop n data parser body s =
      match chunkTurn n data parser body s with
      | .error e => .error e
      | .ok (none, s') => .ok (none, s')
      | .ok (some (data', parser', body'), s') =>
        if parser'.chunksDone then .ok (some (parser', body'), s')
        else chunkLoop n data' parser' body' s' := by
  rw [chunkLoop]
  split <;> rename_i hturn <;> rw [hturn]

end Flz.Http
