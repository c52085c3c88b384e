import Flz.Http.Cuts
import Flz.Http.RequestHead

/-! # Receiving a request

`recvRequest` returns what the tokens of the head build and the body that follows. However the
bytes arrive, they are not lost; but a token that is cut is not what it was.
-/
namespace Flz.Http
open Lib

/-! ## The tokens of a head -/

set_option maxRecDepth 20000 in
theorem requestScanner_once (r : Bool) (a : HttpParserAction)
    (ha : a = .requestMethod ∨ a = .requestPath ∨ a = .queryString ∨ a = .fragment ∨ a = .httpVersion) :
    ∃ after, (requestScanner r).Once (· == a) after := by
  rcases ha with rfl | rfl | rfl | rfl | rfl
  · refine ⟨fun s => !(s ≤ 2 || (175 ≤ s && s ≤ 193)), Scanner.once_of_checkRows ?_⟩
    cases r <;> decide
  · refine ⟨fun s => (4 ≤ s && s ≤ 18) || (20 ≤ s && s ≤ 23) || (29 ≤ s && s ≤ 32) || s == 196 ||
      s == 197 || (199 ≤ s && s ≤ 201) || s == 348 || s == 349, Scanner.once_of_checkRows ?_⟩
    cases r <;> decide
  · refine ⟨fun s => (4 ≤ s && s ≤ 18) || (20 ≤ s && s ≤ 23) || s == 348,
      Scanner.once_of_checkRows ?_⟩
    cases r <;> decide
  · refine ⟨fun s => (4 ≤ s && s ≤ 18) || s == 348, Scanner.once_of_checkRows ?_⟩
    cases r <;> decide
  · refine ⟨fun s => (13 ≤ s && s ≤ 18) || s == 348, Scanner.once_of_checkRows ?_⟩
    cases r <;> decide

theorem token_action {m : Marks} {i : ℕ} {a : HttpParserAction} {t : Token}
    (h : m.token i a = some t) : t.action = a := by
  cases a <;> cases h <;> rfl

theorem tokens_filter (m : Marks) (es : List (ℕ × HttpParserAction)) (a : HttpParserAction) :
    ((m.tokens es).filter (fun t => t.action == a)).length ≤
      (es.filter (fun e => e.2 == a)).length := by
  induction es generalizing m with
  | nil => exact Nat.le_refl 0
  | cons e es ih =>
    have hrec := ih (m.note e.1 e.2)
    rw [Marks.tokens, List.filter_append, List.length_append, List.filter_cons]
    cases htoken : m.token e.1 e.2 with
    | none =>
      rw [Option.toList_none, List.filter_nil, List.length_nil, Nat.zero_add]
      split
      · exact hrec.trans (Nat.le_succ _)
      · exact hrec
    | some t =>
      rw [Option.toList_some, List.filter_cons, List.filter_nil, token_action htoken]
      split
      · rw [List.length_cons, List.length_cons, List.length_nil]
        omega
      · rw [List.length_nil, Nat.zero_add]
        exact hrec

/-- Marks up to a place. -/
def Marks.Upto (m : Marks) (p : ℕ) : Prop := m.mark ≤ p ∧ m.queryStart ≤ p ∧ m.name.2 ≤ p

theorem Marks.Upto.note {m : Marks} {p i : ℕ} (h : m.Upto p) (hpi : p ≤ i) (a : HttpParserAction) :
    (m.note i a).Upto i := by
  obtain ⟨hmark, hquery, hname⟩ := h
  have hmark' := hmark.trans hpi
  have hquery' := hquery.trans hpi
  have hname' := hname.trans hpi
  cases a <;> simp [Marks.Upto, Marks.note, hmark', hquery', hname']

theorem token_ordered {m : Marks} {p i : ℕ} (h : m.Upto p) (hpi : p ≤ i) {a : HttpParserAction}
    {t : Token} (ht : m.token i a = some t) : t.start ≤ t.stop ∧ t.stop = i ∧ t.nameStop ≤ t.stop := by
  obtain ⟨hmark, hquery, hname⟩ := h
  cases a <;> cases ht <;> refine ⟨?_, rfl, ?_⟩ <;>
    simp only [Token.start, Token.stop, Token.nameStop] <;> omega

theorem tokens_ordered {m : Marks} {p n : ℕ} (hm : m.Upto p) {es : List (ℕ × HttpParserAction)}
    (hsorted : es.Pairwise (fun e f => e.1 ≤ f.1)) (hpos : ∀ e ∈ es, p ≤ e.1 ∧ e.1 < n) :
    ∀ t ∈ m.tokens es, t.start ≤ t.stop ∧ t.stop < n ∧ t.nameStop ≤ t.stop := by
  induction es generalizing m p with
  | nil => exact fun t ht => by cases ht
  | cons e es ih =>
    obtain ⟨hpe, hen⟩ := hpos e List.mem_cons_self
    obtain ⟨hhead, htail⟩ := List.pairwise_cons.mp hsorted
    intro t ht
    rcases List.mem_append.mp ht with ht | ht
    · obtain ⟨hstart, hstop, hname⟩ := token_ordered hm hpe (Option.mem_toList.mp ht)
      exact ⟨hstart, by omega, hname⟩
    · exact ih (hm.note hpe e.2) htail
        (fun f hf => ⟨hhead f hf, (hpos f (List.mem_cons_of_mem e hf)).2⟩) t ht

/-- The tokens of the head at the front of a text. -/
def headTokens (uriRelaxed : Bool) (text : List UInt8) : List Token :=
  Marks.start.tokens ((requestScanner uriRelaxed).trace 0 1 text)

theorem headTokens_ordered {uriRelaxed : Bool} {text : List UInt8} :
    ∀ t ∈ headTokens uriRelaxed text, t.start ≤ t.stop ∧ t.stop < text.length ∧ t.nameStop ≤ t.stop :=
  tokens_ordered ⟨Nat.le_refl 0, Nat.le_refl 0, Nat.le_refl 0⟩ (Scanner.trace_pairwise 0 1 text)
    (fun _ he => ⟨Nat.zero_le _, Scanner.position_lt he⟩)

/-- What follows a head has no part in its tokens. -/
theorem headTokens_append {uriRelaxed : Bool} {xs : List UInt8}
    (h : ∀ t, ((requestScanner uriRelaxed).stop 1 xs).2 ≠ .reading t) (ys : List UInt8) :
    headTokens uriRelaxed (xs ++ ys) = headTokens uriRelaxed xs := by
  rw [headTokens, headTokens, (Scanner.stop_append h ys).2 0]

theorem headTokens_regular (uriRelaxed : Bool) (text : List UInt8) :
    Regular text (headTokens uriRelaxed text) where
  ordered := fun t ht => ⟨(headTokens_ordered t ht).1, (headTokens_ordered t ht).2.1⟩
  named := fun t ht => (headTokens_ordered t ht).2.2
  once := by
    intro a ha
    have hfilter := tokens_filter .start ((requestScanner uriRelaxed).trace 0 1 text) a
    by_cases hkind : a = .requestMethod ∨ a = .requestPath ∨ a = .queryString ∨ a = .fragment ∨
        a = .httpVersion
    · obtain ⟨after, honce⟩ := requestScanner_once uriRelaxed a hkind
      exact hfilter.trans (honce.trace_le_one 0 1 text)
    · have hnil : (headTokens uriRelaxed text).filter (fun t => t.action == a) = [] := by
        refine List.filter_eq_nil_iff.mpr fun t _ heq => hkind ?_
        rw [← beq_iff_eq.mp heq] at ha ⊢
        cases t <;> simp [Token.action] at ha ⊢
      rw [hnil]
      exact Nat.zero_le 1

/-! ## The body -/

/-- A body arrives in full, unless what is missing from it is no positive `int`; what the buffer
holds beyond it is lost. -/
theorem recvBody_eq {data body more : List UInt8} {st : Stream} (hopen : st.closed = false)
    (h : data ++ st.pending = body ++ more) (hlen : body.length < 2 ^ 63) :
    recvBody data body.length st =
      if body.length ≤ data.length ∨ 0 < toInt (body.length - data.length : ℕ) then
        (some body, st.skip (body.length - data.length))
      else (none, (st.skip (body.length - data.length)).close) := by
  rw [recvBody]
  by_cases hle : body.length ≤ data.length
  · have htake : data.take body.length = body := by
      have htake := congrArg (List.take body.length) h
      rwa [List.take_left, List.take_append_of_le_length hle] at htake
    rw [if_neg (by omega), if_pos (Or.inl hle), Int.toNat_natCast, htake,
      Nat.sub_eq_zero_of_le hle, Stream.skip_zero]
  · have hlt : data.length ≤ body.length := by omega
    have hpending : st.pending = body.drop data.length ++ more := by
      have hdrop := congrArg (List.drop data.length) h
      rwa [List.drop_left, List.drop_append_of_le_length hlt] at hdrop
    have hdata : body.take data.length = data := by
      have htake := congrArg (List.take data.length) h
      rwa [List.take_left, List.take_append_of_le_length hlt, eq_comm] at htake
    have hjoin : data ++ body.drop data.length = body := by
      conv_rhs => rw [← List.take_append_drop data.length body, hdata]
    have hcount : (body.drop data.length).length = body.length - data.length := List.length_drop ..
    obtain ⟨input, hread, -⟩ := Stream.readFixSize_enough hopen hpending (by omega)
    have hskip := Stream.readFixSize_skip (body.drop data.length).length st
    rw [hread] at hskip
    have hnat : ((body.length : ℤ) - data.length).toNat = (body.drop data.length).length := by omega
    have hskip' : st.withInput input = st.skip (body.length - data.length) := by
      rw [← hcount]
      exact hskip
    rw [if_pos (by omega), hnat, hread]
    simp only [hcount, hjoin, hskip']
    by_cases hpos : 0 < toInt (body.length - data.length : ℕ)
    · rw [if_neg (Int.not_le.mpr hpos), if_pos (Or.inr hpos)]
    · rw [if_pos (Int.not_lt.mp hpos), if_neg (by tauto)]

/-! ## The request -/

/-- The value of `Content-Length` as `recvRequest` uses it. -/
def HttpRequest.contentLength (lexicalCast : List UInt8 → Option UInt64) (r : HttpRequest) : ℤ :=
  toInt64 (r.headers.getAs lexicalCast (ascii "content-length")).toNat

/-- The request with its body. -/
def HttpRequest.complete (r : HttpRequest) (body : List UInt8) : HttpRequest :=
  { r with body := body }.init

section
variable {lexicalCast : List UInt8 → Option UInt64} {uriRelaxed : Bool} {queryStart n h : ℕ}
  {st : Stream} {d : HttpRequest}

/-- The read that takes the last byte of the head. -/
theorem head_readEnd (hn : 0 < n) (hstop : (requestScanner uriRelaxed).stop 1 st.pending = (h, .left 348)) :
    h - 1 < Pieces.readEnd n st.input.parts (h - 1) ∧ Pieces.readEnd n st.input.parts (h - 1) ≤ st.pending.length := by
  obtain ⟨hpos, hle⟩ := Scanner.stop_left_bounds hstop
  have hlast : h - 1 < st.input.parts.flatten.length := by
    change h - 1 < st.pending.length
    omega
  exact Pieces.lt_readEnd hn hlast

/-- The head is built from its tokens, and the buffer then holds the rest of the read that ends
it. -/
theorem headLoop_head (hn : 0 < n) (hmax : n ≤ intMax) (hopen : st.closed = false)
    (hstop : (requestScanner uriRelaxed).stop 1 st.pending = (h, .left 348)) :
    match build st.pending (Pieces.readStart n st.input.parts) (headTokens uriRelaxed st.pending) .new with
    | some d => ∃ s', headLoop requestParsing n [] (.new uriRelaxed queryStart) st =
          .ok (some ((st.pending.drop h).take (Pieces.readEnd n st.input.parts (h - 1) - h), s'),
            st.skip (Pieces.readEnd n st.input.parts (h - 1))) ∧ s'.data = d
    | none => ∀ out st', headLoop requestParsing n [] (.new uriRelaxed queryStart) st ≠
        .ok (some out, st') := by
  have hbetween := between_new st.pending (Pieces.readStart n st.input.parts) uriRelaxed queryStart
  have hloop := headLoop_builds hn hmax hopen rfl
    (fun i _ => by rw [Nat.zero_add, Nat.zero_add]) hbetween hstop
  have hshift : ∀ es, shift 0 es = es := by
    intro es
    rw [shift]
    simp only [Nat.zero_add, Prod.mk.eta, List.map_id']
  simp only [hshift, Nat.zero_add] at hloop
  change match build st.pending (Pieces.readStart n st.input.parts)
    (headTokens uriRelaxed st.pending) .new with | some _ => _ | none => _ at hloop
  cases hb : build st.pending (Pieces.readStart n st.input.parts)
      (headTokens uriRelaxed st.pending) .new with
  | none =>
    rw [hb] at hloop
    exact hloop
  | some d =>
    rw [hb] at hloop
    obtain ⟨s', j, hj, hjlen, hrun, hd, hbuffer⟩ := hloop
    obtain ⟨hpos, hle⟩ := Scanner.stop_left_bounds hstop
    obtain ⟨hlt, hend⟩ := head_readEnd hn hstop
    have heq : j = Pieces.readEnd n st.input.parts (h - 1) := by
      by_contra hne
      rcases Nat.lt_or_gt_of_ne hne with hlt' | hgt
      · have hiff := Pieces.lt_readEnd_iff hn (by omega : h - 1 ≤ j)
          (by change j < st.pending.length; omega)
        have := hbuffer j hj (by omega)
        omega
      · have hiff := Pieces.lt_readEnd_iff hn (by omega : h - 1 ≤ Pieces.readEnd n st.input.parts (h - 1))
          (by change _ < st.pending.length; omega)
        have := hbuffer (Pieces.readEnd n st.input.parts (h - 1)) (by omega) (by omega)
        omega
    subst heq
    exact ⟨s', hrun, hd⟩

theorem HttpRequest.complete_eq (r : HttpRequest) (body : List UInt8) :
    r.complete body = { r with body := body, close := (r.complete body).close } := by
  unfold HttpRequest.complete HttpRequest.init
  dsimp only
  split <;> rfl

/-- A request with its body tells from which one it was made. -/
theorem HttpRequest.complete_inj {r r' : HttpRequest} {body body' : List UInt8}
    (h : r.complete body = r'.complete body') (hbody : r.body = r'.body) (hclose : r.close = r'.close) :
    r = r' := by
  rw [complete_eq r, complete_eq r'] at h
  cases r
  cases r'
  simp only [HttpRequest.mk.injEq] at h hbody hclose ⊢
  exact ⟨h.1, h.2.1, hclose, h.2.2.2.1, h.2.2.2.2.1, h.2.2.2.2.2.1, hbody, h.2.2.2.2.2.2.2⟩

/-- A request that is returned is the one that the parser has built, with some body. -/
theorem recvRequest_head {req : HttpRequest} {st' : Stream}
    (hrecv : recvRequest lexicalCast uriRelaxed queryStart n st = .ok (some req, st')) :
    ∃ data parser st₁ body, headLoop requestParsing n [] (.new uriRelaxed queryStart) st =
      .ok (some (data, parser), st₁) ∧ req = parser.data.complete body := by
  rw [recvRequest] at hrecv
  cases hloop : headLoop requestParsing n [] (.new uriRelaxed queryStart) st with
  | error e =>
    rw [hloop] at hrecv
    cases hrecv
  | ok out =>
    obtain ⟨head, st₁⟩ := out
    rw [hloop] at hrecv
    cases head with
    | none => cases hrecv
    | some head =>
      obtain ⟨data, parser⟩ := head
      dsimp only [bind, Except.bind] at hrecv
      split at hrecv
      · split at hrecv
        · cases hrecv
        · rename_i body _ _
          cases hrecv
          exact ⟨data, parser, st₁, body, rfl, rfl⟩
      · cases hrecv
        exact ⟨data, parser, _, parser.data.body, rfl, rfl⟩

/-- No request is returned when the tokens as they are cut build none, and else that one. -/
theorem recvRequest_build (hn : 0 < n) (hmax : n ≤ intMax) (hopen : st.closed = false)
    (hstop : (requestScanner uriRelaxed).stop 1 st.pending = (h, .left 348)) {req : HttpRequest}
    {st' : Stream} (hrecv : recvRequest lexicalCast uriRelaxed queryStart n st = .ok (some req, st')) :
    ∃ d body, build st.pending (Pieces.readStart n st.input.parts)
      (headTokens uriRelaxed st.pending) .new = some d ∧ req = d.complete body := by
  obtain ⟨data, parser, st₁, body, hloop, hreq⟩ := recvRequest_head hrecv
  have hhead := @headLoop_head _ queryStart _ _ _ hn hmax hopen hstop
  cases hb : build st.pending (Pieces.readStart n st.input.parts)
      (headTokens uriRelaxed st.pending) .new with
  | none =>
    rw [hb] at hhead
    exact absurd hloop (hhead _ _)
  | some d =>
    rw [hb] at hhead
    obtain ⟨s', hloop', hd⟩ := hhead
    rw [hloop] at hloop'
    cases hloop'
    exact ⟨d, body, rfl, by rw [hreq, hd]⟩

theorem contentLength_lt (r : HttpRequest) : r.contentLength lexicalCast < 2 ^ 63 := by
  rw [HttpRequest.contentLength, toInt64]
  have := (BitVec.ofInt 64 ((r.headers.getAs lexicalCast (ascii "content-length")).toNat : ℤ)).toInt_lt
  omega

/-- What is returned for a head that is followed by as many bytes as it announces, and where
the connection is then: behind the body, or behind all that the buffer holds. -/
theorem recvRequest_eq (hn : 0 < n) (hmax : n ≤ intMax) (hopen : st.closed = false)
    (hstop : (requestScanner uriRelaxed).stop 1 st.pending = (h, .left 348))
    (hbuild : build st.pending (Pieces.readStart n st.input.parts)
      (headTokens uriRelaxed st.pending) .new = some d)
    {body more : List UInt8} (hbody : st.pending.drop h = body ++ more)
    (hlen : d.contentLength lexicalCast = body.length) {e : ℕ}
    (he : Pieces.readEnd n st.input.parts (h - 1) = e) :
    recvRequest lexicalCast uriRelaxed queryStart n st =
      if h + body.length ≤ e ∨ 0 < toInt (h + body.length - e : ℕ) then
        .ok (some (d.complete body), st.skip (max e (h + body.length)))
      else .ok (none, (st.skip (h + body.length)).close) := by
  have hhead := @headLoop_head _ queryStart _ _ _ hn hmax hopen hstop
  rw [hbuild, he] at hhead
  obtain ⟨s', hloop, hd⟩ := hhead
  obtain ⟨hpos, hle⟩ := Scanner.stop_left_bounds hstop
  obtain ⟨hlt, hend⟩ := head_readEnd hn hstop
  rw [he] at hlt hend
  have hcount : toInt64 (s'.getContentLength lexicalCast).toNat = body.length := by
    rw [HttpRequestParser.getContentLength, hd]
    exact hlen
  rw [recvRequest, hloop]
  dsimp only [bind, Except.bind]
  rw [hcount, hd]
  cases body with
  | nil =>
    have hempty : d.body = [] := (build_rest hbuild).1
    have hnone : d.complete [] = d.init := by
      rw [HttpRequest.complete, ← hempty]
    rw [if_pos (Or.inl (by rw [List.length_nil]; omega)), hnone, List.length_nil, Nat.add_zero,
      max_eq_left (by omega)]
    rfl
  | cons b body =>
    have hpos : ((b :: body).length : ℤ) > 0 := by
      rw [List.length_cons]
      omega
    have hsplit : (st.pending.drop h).take (e - h) ++ (st.skip e).pending = (b :: body) ++ more := by
      have hback : e = h + (e - h) := by omega
      rw [Stream.skip_pending, ← hbody]
      conv_lhs => rw [hback, ← List.drop_drop, Nat.add_sub_cancel_left]
      exact List.take_append_drop _ _
    have hdata : ((st.pending.drop h).take (e - h)).length = e - h := by
      rw [List.length_take, List.length_drop]
      omega
    have hopen' : (st.skip e).closed = false := hopen
    have hlt63 : (b :: body).length < 2 ^ 63 := by
      have := @contentLength_lt lexicalCast d
      omega
    have hmissing : (b :: body).length - (e - h) = h + (b :: body).length - e := by omega
    rw [if_pos hpos, recvBody_eq hopen' hsplit hlt63, hdata, hmissing, Stream.skip_skip]
    by_cases hok : h + (b :: body).length ≤ e ∨ 0 < toInt (h + (b :: body).length - e : ℕ)
    · have hskip : e + (h + (b :: body).length - e) = max e (h + (b :: body).length) := by omega
      rw [if_pos hok, if_pos (hok.imp (fun h => by omega) id), hskip]
      rfl
    · have hskip : e + (h + (b :: body).length - e) = h + (b :: body).length := by omega
      rw [if_neg hok, if_neg (fun h => hok (h.imp (fun h => by omega) id)), hskip]
      rfl

end

/-! ## Requests in pieces -/

/-- One complete well-formed request: a head that the grammar accepts, with a method and a
version that the code knows, and as many bytes behind it as its `Content-Length` says. -/
structure IsRequest (lexicalCast : List UInt8 → Option UInt64) (uriRelaxed : Bool)
    (msg : List UInt8) (h : ℕ) (d : HttpRequest) : Prop where
  head : (requestScanner uriRelaxed).stop 1 msg = (h, .left 348)
  built : build msg uncut (headTokens uriRelaxed msg) .new = some d
  length : d.contentLength lexicalCast = (msg.drop h).length

section
variable {lexicalCast : List UInt8 → Option UInt64} {uriRelaxed : Bool} {queryStart n h : ℕ}
  {msg : List UInt8} {d : HttpRequest}

/-- A cut leaves the request alone exactly when it is harmless. -/
theorem build_eq_iff {base : ℕ → ℕ} (hbase : Cut base) (hmsg : IsRequest lexicalCast uriRelaxed msg h d) :
    build msg base (headTokens uriRelaxed msg) .new = some d ↔
      Harmless msg base (headTokens uriRelaxed msg) :=
  ⟨harmless_of_build hbase (headTokens_regular uriRelaxed msg) hmsg.built,
    build_of_harmless hbase (headTokens_regular uriRelaxed msg) hmsg.built⟩

/-- The request is returned as it was sent exactly when the cut is harmless. -/
theorem recvRequest_iff (hmsg : IsRequest lexicalCast uriRelaxed msg h d) (hint : msg.length ≤ intMax)
    (hn : 0 < n) (hmax : n ≤ intMax) {ps : Pieces UInt8} (hps : ps.flatten = msg) :
    (∃ st, recvRequest lexicalCast uriRelaxed queryStart n (.connected ps) =
        .ok (some (d.complete (msg.drop h)), st)) ↔
      Harmless msg (Pieces.readStart n ps.parts) (headTokens uriRelaxed msg) := by
  have hpending : (Stream.connected ps).pending = msg := hps
  have hbody : (Stream.connected ps).pending.drop h = msg.drop h ++ [] := by
    rw [hpending, List.append_nil]
  have hlen : (msg.drop h).length ≤ intMax := by
    rw [List.length_drop]
    omega
  have hstop := hmsg.head
  rw [← hpending] at hstop
  rw [← build_eq_iff (cut_readStart n ps.parts) hmsg]
  constructor
  · rintro ⟨st, hrecv⟩
    obtain ⟨d', body, hbuild, hreq⟩ := recvRequest_build hn hmax rfl hstop hrecv
    obtain ⟨hb, hc, -⟩ := build_rest hbuild
    obtain ⟨hb', hc', -⟩ := build_rest hmsg.built
    have heq := HttpRequest.complete_inj hreq (hb'.trans hb.symm) (hc'.trans hc.symm)
    rw [heq, ← hpending]
    exact hbuild
  · intro hbuild
    rw [← hpending] at hbuild
    have hrecv := @recvRequest_eq _ _ queryStart _ _ _ _ hn hmax rfl hstop hbuild _ _ hbody
      hmsg.length _ rfl
    have hfits : h + (msg.drop h).length - Pieces.readEnd n ps.parts (h - 1) ≤ intMax := by
      rw [List.length_drop]
      have hle := (Scanner.stop_left_bounds hmsg.head).2
      omega
    rw [if_pos] at hrecv
    · exact ⟨_, hrecv⟩
    · have hcast := toInt_eq hfits
      change _ ∨ 0 < toInt (h + (msg.drop h).length - Pieces.readEnd n ps.parts (h - 1) : ℕ)
      rw [hcast]
      change h + (msg.drop h).length ≤ Pieces.readEnd n ps.parts (h - 1) ∨ _
      omega

/-- The pieces in which a request comes change nothing exactly when the cut is harmless. -/
theorem recvRequest_pieces_iff (hmsg : IsRequest lexicalCast uriRelaxed msg h d) (hn : 0 < n)
    (hmax : n ≤ intMax) {ps : Pieces UInt8} (hps : ps.flatten = msg) {m : ℕ} (hm : msg.length ≤ m)
    (hmmax : m ≤ intMax) :
    (∃ req st st', recvRequest lexicalCast uriRelaxed queryStart n (.connected ps) = .ok (some req, st) ∧
      recvRequest lexicalCast uriRelaxed queryStart m (.connected (.whole msg)) = .ok (some req, st')) ↔
      Harmless msg (Pieces.readStart n ps.parts) (headTokens uriRelaxed msg) := by
  have hint : msg.length ≤ intMax := hm.trans hmmax
  have hpos : 0 < m := by
    have hne : msg ≠ [] := by
      intro hnil
      have hhead := hmsg.head
      rw [hnil] at hhead
      cases hhead
    exact Nat.lt_of_lt_of_le (List.length_pos_iff.mpr hne) hm
  have hwhole : Harmless msg (Pieces.readStart m (Pieces.whole msg).parts) (headTokens uriRelaxed msg) := by
    refine harmless_whole fun t ht => Pieces.readStart_whole hm ?_
    exact ((headTokens_regular uriRelaxed msg).ordered t ht).2
  obtain ⟨st', hone⟩ := (@recvRequest_iff _ _ queryStart _ _ _ _ hmsg hint hpos hmmax _
    (Pieces.flatten_whole msg)).mpr hwhole
  rw [← @recvRequest_iff _ _ queryStart _ _ _ _ hmsg hint hn hmax _ hps]
  constructor
  · rintro ⟨req, st, st'', hrecv, hone'⟩
    rw [hone] at hone'
    cases hone'
    exact ⟨st, hrecv⟩
  · rintro ⟨st, hrecv⟩
    exact ⟨_, st, st', hrecv, hone⟩

end
/-! ## A request that is cut -/

/-- `boost::lexical_cast<uint64_t>` of a text of decimal digits. -/
def castDigits (s : List UInt8) : Option UInt64 :=
  if s ≠ [] ∧ s.all (fun b => (digitValue 10 b).isSome) ∧ readDigits 10 0 s < 2 ^ 64 then
    some (UInt64.ofNat (readDigits 10 0 s))
  else none

def shortRequest : List UInt8 := ascii "GET / HTTP/1.1\r\n\r\n"

set_option maxRecDepth 20000 in
theorem shortRequest_isRequest : IsRequest castDigits false shortRequest 18 .new where
  head := by decide
  built := by decide
  length := by decide

/-- The short request in two pieces. -/
def cutRequest (k : ℕ) (h : 0 < k ∧ k < shortRequest.length) : Pieces UInt8 where
  parts := [shortRequest.take k, shortRequest.drop k]
  parts_ne := by
    have hne : shortRequest.take k ≠ [] ∧ shortRequest.drop k ≠ [] := by
      constructor <;> refine List.ne_nil_of_length_pos ?_
      · rw [List.length_take]
        omega
      · rw [List.length_drop]
        omega
    simpa using hne

theorem cutRequest_flatten (k : ℕ) (h : 0 < k ∧ k < shortRequest.length) :
    (cutRequest k h).flatten = shortRequest := by
  change [shortRequest.take k, shortRequest.drop k].flatten = shortRequest
  rw [List.flatten_cons, List.flatten_singleton, List.take_append_drop]

set_option maxRecDepth 20000 in
/-- A method in two pieces is not known. -/
theorem cut_method_not_received : IsRequest castDigits false shortRequest 18 .new ∧
    (cutRequest 2 (by decide)).flatten = shortRequest ∧
    ¬ ∃ req st st', recvRequest castDigits false 0 4096 (.connected (cutRequest 2 (by decide))) =
        .ok (some req, st) ∧
      recvRequest castDigits false 0 4096 (.connected (.whole shortRequest)) = .ok (some req, st') := by
  refine ⟨shortRequest_isRequest, cutRequest_flatten 2 _, ?_⟩
  rintro ⟨req, st, -, hrecv, -⟩
  have hpending : (Stream.connected (cutRequest 2 (by decide))).pending = shortRequest :=
    cutRequest_flatten 2 (by decide)
  have hstop := shortRequest_isRequest.head
  rw [← hpending] at hstop
  obtain ⟨d, -, hbuild, -⟩ := recvRequest_build (by decide) (by decide) rfl hstop hrecv
  have hnone : build shortRequest (Pieces.readStart 4096 (cutRequest 2 (by decide)).parts)
      (headTokens false shortRequest) .new = none := by decide
  rw [hpending] at hbuild
  cases hnone.symm.trans hbuild

set_option maxRecDepth 20000 in
theorem cut_path_received :
    ∃ req st st', recvRequest castDigits false 0 4096 (.connected (cutRequest 4 (by decide))) =
        .ok (some req, st) ∧
      recvRequest castDigits false 0 4096 (.connected (.whole shortRequest)) = .ok (some req, st') := by
  refine (recvRequest_pieces_iff shortRequest_isRequest (by decide) (by decide)
    (cutRequest_flatten 4 _) (by decide) (by decide)).mpr ?_
  have hcut : fieldParts shortRequest (Pieces.readStart 4096 (cutRequest 4 (by decide)).parts)
      (headTokens false shortRequest) = [] := by decide
  have huncut : fieldParts shortRequest uncut (headTokens false shortRequest) = [] := by decide
  have htokens : headTokens false shortRequest = [.method 0 3, .path 4 5, .version 6 14] := by decide
  refine ⟨?_, fun key => by rw [hcut, huncut], fun key => by rw [hcut, huncut]⟩
  rw [htokens]
  decide

end Flz.Http
