import Flz.Http.Receive

/-! # Requests on one connection

`HttpServer::handleClient` receives one request after the other. A call of `recvRequest` keeps
the bytes behind a request only as long as they are not in its buffer.
-/
namespace Flz.Http
open Lib

/-! ## A request before other bytes -/

section
variable {w rest : List UInt8} {base : ℕ → ℕ} {t : Token} {ts : List Token} {i j : ℕ}

theorem slice_append (hj : j ≤ w.length) (rest : List UInt8) : slice (w ++ rest) i j = slice w i j := by
  by_cases hi : i ≤ w.length
  · rw [slice, slice, List.drop_append_of_le_length hi, List.take_append_of_le_length]
    rw [List.length_drop]
    omega
  · have hzero : j - i = 0 := by omega
    rw [slice, slice, hzero, List.take_zero, List.take_zero]

theorem apply_append (hstop : t.stop < w.length) (hname : t.nameStop ≤ t.stop) (r : HttpRequest) :
    t.apply (w ++ rest) base r = t.apply w base r := by
  cases t with
  | method i j | path i j | query i j | fragment i j | version i j =>
    have hj : j ≤ w.length := Nat.le_of_lt hstop
    simp only [Token.apply, slice_append hj]
  | field name i j =>
    have hj : j ≤ w.length := Nat.le_of_lt hstop
    have hn : name.2 ≤ w.length := Nat.le_trans hname hj
    simp only [Token.apply, slice_append hj, slice_append hn]

theorem build_append_text (hts : Regular w ts) (r : HttpRequest) :
    build (w ++ rest) base ts r = build w base ts r := by
  have hinside : ∀ t ∈ ts, t.stop < w.length ∧ t.nameStop ≤ t.stop :=
    fun t ht => ⟨(hts.ordered t ht).2, hts.named t ht⟩
  clear hts
  induction ts generalizing r with
  | nil => rfl
  | cons t ts ih =>
    obtain ⟨⟨ht, hn⟩, hinside⟩ := List.forall_mem_cons.mp hinside
    rw [build_cons, build_cons, apply_append ht hn]
    exact congrArg _ (funext fun r => ih r hinside)

end

section
variable {lexicalCast : List UInt8 → Option UInt64} {uriRelaxed : Bool} {queryStart n h : ℕ}
  {msg rest : List UInt8} {d : HttpRequest} {st : Stream}

theorem IsRequest.head_append (hmsg : IsRequest lexicalCast uriRelaxed msg h d) (rest : List UInt8) :
    (requestScanner uriRelaxed).stop 1 (msg ++ rest) = (h, .left 348) ∧
      headTokens uriRelaxed (msg ++ rest) = headTokens uriRelaxed msg := by
  have hleft : ∀ t, ((requestScanner uriRelaxed).stop 1 msg).2 ≠ .reading t := by
    intro t
    rw [hmsg.head]
    exact fun heq => by cases heq
  obtain ⟨hstop, htrace⟩ := Scanner.stop_append hleft rest
  exact ⟨hstop.trans hmsg.head, congrArg Marks.start.tokens (htrace 0)⟩

theorem IsRequest.head_le (hmsg : IsRequest lexicalCast uriRelaxed msg h d) : 0 < h ∧ h ≤ msg.length :=
  Scanner.stop_left_bounds hmsg.head

/-- When a request is received as it was sent and what follows it is kept: its head is cut
harmlessly, the read that ends the head takes nothing behind the body, and what this read leaves
of the body is none of it or a positive `int`. -/
structure Whole (n : ℕ) (uriRelaxed : Bool) (msg : List UInt8) (h : ℕ) (parts : List (List UInt8)) :
    Prop where
  harmless : Harmless msg (Pieces.readStart n parts) (headTokens uriRelaxed msg)
  behind : Pieces.readEnd n parts (h - 1) ≤ msg.length
  missing : Pieces.readEnd n parts (h - 1) = msg.length ∨
    0 < toInt (msg.length - Pieces.readEnd n parts (h - 1) : ℕ)

theorem IsRequest.front (hmsg : IsRequest lexicalCast uriRelaxed msg h d)
    (hst : st.pending = msg ++ rest) :
    (requestScanner uriRelaxed).stop 1 st.pending = (h, .left 348) ∧
      build st.pending (Pieces.readStart n st.input.parts) (headTokens uriRelaxed st.pending) .new =
        build msg (Pieces.readStart n st.input.parts) (headTokens uriRelaxed msg) .new ∧
      st.pending.drop h = msg.drop h ++ rest ∧ h + (msg.drop h).length = msg.length := by
  obtain ⟨hstop, htokens⟩ := hmsg.head_append rest
  have hle := hmsg.head_le.2
  rw [hst]
  refine ⟨hstop, ?_, List.drop_append_of_le_length hle, ?_⟩
  · rw [htokens]
    exact build_append_text (headTokens_regular uriRelaxed msg) .new
  · rw [List.length_drop]
    omega

theorem recvRequest_of_whole (hmsg : IsRequest lexicalCast uriRelaxed msg h d) (hn : 0 < n)
    (hmax : n ≤ intMax) (hopen : st.closed = false) (hst : st.pending = msg ++ rest)
    (hwhole : Whole n uriRelaxed msg h st.input.parts) :
    recvRequest lexicalCast uriRelaxed queryStart n st =
      .ok (some (d.complete (msg.drop h)), st.skip msg.length) := by
  obtain ⟨hstop, hbuild, hbody, hlen⟩ := @IsRequest.front _ _ n _ _ _ _ _ hmsg hst
  have hb := (build_eq_iff (cut_readStart n st.input.parts) hmsg).mpr hwhole.harmless
  have hend := hwhole.behind
  have hrun := @recvRequest_eq _ _ queryStart _ _ _ _ hn hmax hopen hstop (hbuild.trans hb) _ _ hbody
    hmsg.length _ rfl
  rwa [hlen, if_pos (hwhole.missing.imp (fun h => by omega) id), max_eq_right hend] at hrun

theorem whole_of_recvRequest (hmsg : IsRequest lexicalCast uriRelaxed msg h d) (hn : 0 < n)
    (hmax : n ≤ intMax) (hopen : st.closed = false) (hst : st.pending = msg ++ rest) {st' : Stream}
    (hrecv : recvRequest lexicalCast uriRelaxed queryStart n st =
      .ok (some (d.complete (msg.drop h)), st')) (hrest : st'.pending = rest) :
    Whole n uriRelaxed msg h st.input.parts ∧ st' = st.skip msg.length := by
  obtain ⟨hstop, hbuild, hbody, hlen⟩ := @IsRequest.front _ _ n _ _ _ _ _ hmsg hst
  obtain ⟨hpos, hle⟩ := hmsg.head_le
  obtain ⟨e, he⟩ : ∃ e, Pieces.readEnd n st.input.parts (h - 1) = e := ⟨_, rfl⟩
  obtain ⟨d', body, hb, hreq⟩ := recvRequest_build hn hmax hopen hstop hrecv
  have hb' := hbuild.symm.trans hb
  obtain ⟨hd1, hd2, -⟩ := build_rest hb'
  obtain ⟨hd1', hd2', -⟩ := build_rest hmsg.built
  have heq := HttpRequest.complete_inj hreq (hd1'.trans hd1.symm) (hd2'.trans hd2.symm)
  subst heq
  have hrun := @recvRequest_eq _ _ queryStart _ _ _ _ hn hmax hopen hstop hb _ _ hbody hmsg.length _ he
  rw [hlen] at hrun
  rw [hrun] at hrecv
  split at hrecv
  · rename_i hok
    cases hrecv
    have hcount := congrArg List.length hrest
    rw [Stream.skip_pending, hst, List.length_drop, List.length_append] at hcount
    have hfits : e ≤ msg.length + rest.length := by
      have hlast : h - 1 < st.input.parts.flatten.length := by
        change h - 1 < st.pending.length
        rw [hst, List.length_append]
        omega
      have hend := (Pieces.lt_readEnd hn hlast).2
      change _ ≤ st.pending.length at hend
      rwa [he, hst, List.length_append] at hend
    have hbehind : e ≤ msg.length := by omega
    refine ⟨⟨(build_eq_iff (cut_readStart n st.input.parts) hmsg).mp hb', ?_, ?_⟩, ?_⟩
    · rwa [he]
    · rw [he]
      exact hok.imp (fun h => by omega) id
    · rw [max_eq_right hbehind]
  · cases hrecv

end

/-! ## Several requests -/

/-- A well-formed request, and what the memory of the parser that receives it holds. -/
structure SentRequest (lexicalCast : List UInt8 → Option UInt64) where
  text : List UInt8
  head : ℕ
  data : HttpRequest
  uriRelaxed : Bool
  queryStart : ℕ
  isRequest : IsRequest lexicalCast uriRelaxed text head data

namespace SentRequest
variable {lexicalCast : List UInt8 → Option UInt64}

def request (r : SentRequest lexicalCast) : HttpRequest := r.data.complete (r.text.drop r.head)

def memory (r : SentRequest lexicalCast) : Bool × ℕ := (r.uriRelaxed, r.queryStart)

/-- The bytes of some requests. -/
def texts (rs : List (SentRequest lexicalCast)) : List UInt8 := (rs.map text).flatten

/-- What the calls should give: the requests in order, each with the bytes that are then left. -/
def inOrder : List (SentRequest lexicalCast) → List (Option HttpRequest × List UInt8)
  | [] => []
  | r :: rs => (some r.request, texts rs) :: inOrder rs

/-- Every request is whole when the connection is at its first byte. -/
def AllWhole (n : ℕ) : List (SentRequest lexicalCast) → Pieces UInt8 → Prop
  | [], _ => True
  | r :: rs, ps =>
    Whole n r.uriRelaxed r.text r.head ps.parts ∧ AllWhole n rs (ps.skip r.text.length)

end SentRequest

/-- Successive calls of `recvRequest` on a connection, with the bytes that each leaves there. -/
def recvRequests (lexicalCast : List UInt8 → Option UInt64) (n : ℕ) :
    List (Bool × ℕ) → Stream → Except Fault (List (Option HttpRequest × List UInt8))
  | [], _ => .ok []
  | (uriRelaxed, queryStart) :: memories, st => do
    let (req, st) ← recvRequest lexicalCast uriRelaxed queryStart n st
    let rest ← recvRequests lexicalCast n memories st
    return (req, st.pending) :: rest

section
variable {lexicalCast : List UInt8 → Option UInt64} {n : ℕ}

theorem recvRequests_from (hn : 0 < n) (hmax : n ≤ intMax) {rs : List (SentRequest lexicalCast)}
    {st : Stream} (hopen : st.closed = false) (hst : st.pending = SentRequest.texts rs) :
    recvRequests lexicalCast n (rs.map SentRequest.memory) st = .ok (SentRequest.inOrder rs) ↔
      SentRequest.AllWhole n rs st.input := by
  induction rs generalizing st with
  | nil => exact ⟨fun _ => trivial, fun _ => rfl⟩
  | cons r rs ih =>
    have hfront : st.pending = r.text ++ SentRequest.texts rs := hst
    have hnext : (st.skip r.text.length).pending = SentRequest.texts rs := by
      rw [Stream.skip_pending, hfront, List.drop_left]
    have hopen' : (st.skip r.text.length).closed = false := hopen
    have hrec := ih hopen' hnext
    rw [List.map_cons, SentRequest.memory, recvRequests, SentRequest.inOrder, SentRequest.AllWhole]
    constructor
    · intro hrun
      cases hrecv : recvRequest lexicalCast r.uriRelaxed r.queryStart n st with
      | error e =>
        rw [hrecv] at hrun
        cases hrun
      | ok out =>
        obtain ⟨req, st'⟩ := out
        rw [hrecv] at hrun
        dsimp only [bind, Except.bind] at hrun
        cases hrest : recvRequests lexicalCast n (rs.map SentRequest.memory) st' with
        | error e =>
          rw [hrest] at hrun
          cases hrun
        | ok rest =>
          rw [hrest] at hrun
          injection hrun with hrun
          injection hrun with hhead htail
          injection hhead with hreq hpending
          subst hreq
          obtain ⟨hwhole, rfl⟩ := whole_of_recvRequest r.isRequest hn hmax hopen hfront hrecv hpending
          rw [htail] at hrest
          exact ⟨hwhole, hrec.mp hrest⟩
    · rintro ⟨hwhole, hrest⟩
      have hrecv := @recvRequest_of_whole _ _ r.queryStart _ _ _ _ _ _ r.isRequest hn hmax hopen
        hfront hwhole
      rw [hrecv]
      dsimp only [bind, Except.bind]
      rw [hrec.mpr hrest, hnext]
      rfl

/-- Successive calls give the requests in order and lose no byte behind one exactly when every
request is whole. -/
theorem recvRequests_iff (hn : 0 < n) (hmax : n ≤ intMax) (rs : List (SentRequest lexicalCast))
    {ps : Pieces UInt8} (hps : ps.flatten = SentRequest.texts rs) :
    recvRequests lexicalCast n (rs.map SentRequest.memory) (.connected ps) =
      .ok (SentRequest.inOrder rs) ↔ SentRequest.AllWhole n rs ps :=
  recvRequests_from hn hmax rfl hps

end

/-! ## Two requests -/

def shortSent : SentRequest castDigits where
  text := shortRequest
  head := 18
  data := .new
  uriRelaxed := false
  queryStart := 0
  isRequest := shortRequest_isRequest

set_option maxRecDepth 20000 in
/-- The second of two requests that arrive together is lost. -/
theorem requests_together_lost :
    (Pieces.whole (SentRequest.texts [shortSent, shortSent])).flatten =
        SentRequest.texts [shortSent, shortSent] ∧
      recvRequests castDigits 4096 ([shortSent, shortSent].map SentRequest.memory)
        (.connected (.whole (SentRequest.texts [shortSent, shortSent]))) ≠
          .ok (SentRequest.inOrder [shortSent, shortSent]) := by
  have hps := Pieces.flatten_whole (SentRequest.texts [shortSent, shortSent])
  refine ⟨hps, fun hrun => ?_⟩
  have hst : (Stream.connected (.whole (SentRequest.texts [shortSent, shortSent]))).pending =
      SentRequest.texts [shortSent, shortSent] := hps
  have hwhole := (recvRequests_from (by decide) (by decide) rfl hst).mp hrun
  exact absurd hwhole.1.behind (by decide)

/-- Two requests in a piece each. -/
def apart : Pieces UInt8 := ⟨[shortRequest, shortRequest], by decide⟩

set_option maxRecDepth 20000 in
theorem requests_apart_received :
    recvRequests castDigits 4096 ([shortSent, shortSent].map SentRequest.memory) (.connected apart) =
      .ok (SentRequest.inOrder [shortSent, shortSent]) := by
  refine (recvRequests_iff (by decide) (by decide) [shortSent, shortSent] (by decide)).mpr ?_
  have hwhole : ∀ ps : Pieces UInt8, (∃ rest, ps.parts = shortRequest :: rest) →
      Whole 4096 false shortRequest 18 ps.parts := by
    rintro ps ⟨rest, hparts⟩
    rw [hparts]
    have hstart : ∀ t ∈ headTokens false shortRequest,
        Pieces.readStart 4096 (shortRequest :: rest) t.stop = 0 := by
      intro t ht
      have hlt := ((headTokens_regular false shortRequest).ordered t ht).2
      have hlen : shortRequest.length = 18 := by decide
      rw [Pieces.readStart, if_pos hlt, Nat.div_eq_of_lt (by omega), Nat.zero_mul]
    have hend : Pieces.readEnd 4096 (shortRequest :: rest) (18 - 1) = 18 := by
      rw [Pieces.readEnd, if_pos (by decide)]
      decide
    exact ⟨harmless_whole hstart, by rw [hend]; decide, Or.inl (by rw [hend]; decide)⟩
  exact ⟨hwhole apart ⟨[shortRequest], rfl⟩, hwhole (apart.skip _) ⟨[], by decide⟩, trivial⟩

end Flz.Http
