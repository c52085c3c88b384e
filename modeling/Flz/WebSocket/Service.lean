import Flz.WebSocket.Handshake
import Flz.WebSocket.RoundTrip

/-! # Serving a web socket

`WSServer::handleClient` of `http/ws_server.cc`: a handshake, `onConnect`, the messages one after the
other, and `onClose`.
-/
namespace Flz.Http
open Lib

/-- What a servlet can do to its session: it writes to it and may close it, but reads nothing. -/
structure Outgoing where
  takes : List ℤ
  sent : List UInt8
  closed : Bool

def Outgoing.on (o : Outgoing) (s : Stream) : Stream := { s with takes := o.takes, sent := o.sent, closed := o.closed }

def outgoing (s : Stream) : Outgoing := ⟨s.takes, s.sent, s.closed⟩

def Outgoing.close (o : Outgoing) : Outgoing := { o with closed := true }

/-- A `WSServlet` over a world of its own. -/
structure WSServlet (ω : Type) where
  onConnect : HttpRequest → ω × Outgoing → ℤ × ω × Outgoing
  handle : HttpRequest → WSFrameMessage → ω × Outgoing → ℤ × ω × Outgoing
  onClose : HttpRequest → ω × Outgoing → ℤ × ω × Outgoing

/-- A `FunctionWSServlet`, some of whose callbacks may be missing. -/
def FunctionWSServlet {ω : Type} (m_callback : Option (HttpRequest → WSFrameMessage → ω × Outgoing → ℤ × ω × Outgoing))
    (m_onConnect m_onClose : Option (HttpRequest → ω × Outgoing → ℤ × ω × Outgoing)) : WSServlet ω where
  onConnect header p :=
    match m_onConnect with
    | some cb => cb header p
    | none => (0, p)
  handle header msg p :=
    match m_callback with
    | some cb => cb header msg p
    | none => (0, p)
  onClose header p :=
    match m_onClose with
    | some cb => cb header p
    | none => (0, p)

theorem recvLoop_shrinks {maxSize : UInt32} {client : Bool} {r : Received} {s s' : Stream} {msg : WSFrameMessage}
    (h : recvLoop maxSize client r s = .ok (some msg, s')) : s'.pending.length < s.pending.length := by
  induction hk : s.pending.length using Nat.strong_induction_on generalizing r s with
  | _ k ih =>
    cases hframe : recvFrame maxSize client r s with
    | error e t =>
      cases e with
      | stop =>
        rw [recvLoop_stop hframe] at h
        cases h
      | trap w =>
        rw [recvLoop_trap hframe] at h
        cases h
    | ok turn t =>
      have hlt := recvFrame_lt hframe
      cases turn with
      | message r' =>
        rw [recvLoop_message hframe] at h
        cases h
        omega
      | again r' =>
        rw [recvLoop_again hframe] at h
        have hrest := ih t.pending.length (by omega) h rfl
        omega

/-- The loop over the messages. -/
def messageLoop {ω : Type} (maxSize : UInt32) (servlet : WSServlet ω) (header : HttpRequest) (w : ω) (s : Stream) :
    Except WildAccess (ω × Stream) :=
  match _h : WSRecvMessage maxSize false s with
  | .error e => .error e
  | .ok (none, s') => .ok (w, s')
  | .ok (some msg, s') =>
    let out := servlet.handle header msg (w, outgoing s')
    if out.1 ≠ 0 then .ok (out.2.1, out.2.2.on s')
    else messageLoop maxSize servlet header out.2.1 (out.2.2.on s')
termination_by s.pending.length
decreasing_by
  change s'.pending.length < s.pending.length
  exact recvLoop_shrinks _h

/-- What keeps a call from returning. -/
inductive ServiceFault
  | request (e : Fault)
  | message (w : WildAccess)
  deriving DecidableEq, Repr

structure WSServer (ω : Type) where
  /-- `m_dispatch->getWSServlet`. -/
  getWSServlet : List UInt8 → Option (WSServlet ω)
  /-- `websocket.message.max_size`. -/
  maxSize : UInt32

def WSServer.handleClient {ω : Type} (server : WSServer ω) (lexicalCast : List UInt8 → Option UInt64)
    (castInt : List UInt8 → Option ℤ) (sha1sum : List UInt8 → List UInt8) (buffSize : ℕ) (uriRelaxed : Bool)
    (queryStart : ℕ) (w : ω) (s : Stream) : Except ServiceFault (ω × Stream) :=
  match WSSession.handleShake lexicalCast castInt sha1sum buffSize uriRelaxed queryStart s with
  | .error e => .error (.request e)
  | .ok (none, s) => .ok (w, s.close)
  | .ok (some header, s) =>
    match server.getWSServlet header.path with
    | none => .ok (w, s.close)
    | some servlet =>
      let out := servlet.onConnect header (w, outgoing s)
      if out.1 ≠ 0 then .ok (out.2.1, (out.2.2.on s).close)
      else
        match messageLoop server.maxSize servlet header out.2.1 (out.2.2.on s) with
        | .error e => .error (.message e)
        | .ok (w, s) =>
          let out := servlet.onClose header (w, outgoing s)
          .ok (out.2.1, (out.2.2.on s).close)

/-! ## What a service is -/

namespace WSServlet
variable {ω : Type}

/-- The messages are handled in their order, until a servlet is done with the session or closes it; when they
are all handled the session is closed. -/
def converse (servlet : WSServlet ω) (header : HttpRequest) : ω × Outgoing → List WSFrameMessage → ω × Outgoing
  | p, [] => (p.1, p.2.close)
  | p, msg :: msgs =>
    if p.2.closed then p
    else
      let out := servlet.handle header msg p
      if out.1 ≠ 0 then out.2 else converse servlet header out.2 msgs

/-- Between `onConnect`, when it agrees, and `onClose`. -/
def serve (servlet : WSServlet ω) (header : HttpRequest) (p : ω × Outgoing) (msgs : List WSFrameMessage) :
    ω × Outgoing :=
  let out := servlet.onConnect header p
  if out.1 ≠ 0 then out.2 else (servlet.onClose header (servlet.converse header out.2 msgs)).2

end WSServlet

/-! ## Messages that are sent -/

/-- A message as a client sends it, in fragments with a mask each. -/
structure Message where
  opcode : OPCODE
  fragments : List (Mask × List UInt8)

namespace Message

def data (m : Message) : List UInt8 := (m.fragments.map Prod.snd).flatten

def received (m : Message) : WSFrameMessage := ⟨m.opcode.value.toNat, m.data⟩

/-- A message that can be received: no fragment is empty, and the whole is below the limit. -/
structure Fits (maxSize : UInt32) (m : Message) : Prop where
  opcode : m.opcode = .TEXT_FRAME ∨ m.opcode = .BIN_FRAME
  fragments : m.fragments ≠ []
  payloads : ∀ fr ∈ m.fragments, fr.2 ≠ []
  size : m.data.length ≤ intMax
  below : m.data.length < maxSize.toNat

/-- The bytes of a message. -/
def bytes (m : Message) : List UInt8 := (wireFrames true m.opcode m.fragments).flatMap Frame.bytes

end Message

/-- A client sends messages. -/
def sendMessages (ms : List Message) (s : Stream) : Stream :=
  ms.foldl (fun s m => sendFragments true m.opcode m.fragments s) s

section
variable {maxSize : UInt32} {opcode : OPCODE} {frs : List (Mask × List UInt8)} {s t : Stream}

theorem sendable_fragment {frs : List (Mask × List UInt8)} (hne : ∀ fr ∈ frs, fr.2 ≠ [])
    (hsize : (frs.map Prod.snd).flatten.length ≤ intMax) : ∀ fr ∈ frs, Sendable fr.2.length := by
  intro fr hfr
  have hle := (List.sublist_flatten_of_mem (List.mem_map_of_mem (f := Prod.snd) hfr)).length_le
  exact sendable_of_le (List.length_pos_iff.mpr (hne fr hfr)) (by omega)

/-- By induction on the fragments. -/
theorem sendFragments_accepts (client : Bool) (opcode : OPCODE) (hfrs : ∀ fr ∈ frs, Sendable fr.2.length ∧
    fr.2.length < 2 ^ 63) (hs : s.Accepts) : ∃ takes,
      sendFragments client opcode frs s = s.withSent takes ((wireFrames client opcode frs).flatMap Frame.bytes) ∧
        (s.withSent takes ((wireFrames client opcode frs).flatMap Frame.bytes)).Accepts := by
  induction frs generalizing opcode s with
  | nil =>
    have hnil : s.withSent s.takes [] = s := by rw [Stream.withSent, List.append_nil]
    exact ⟨s.takes, hnil.symm, hnil ▸ hs⟩
  | cons fr frs ih =>
    obtain ⟨mask, payload⟩ := fr
    obtain ⟨⟨hsend, hlt⟩, hrest⟩ := List.forall_mem_cons.mp hfrs
    obtain ⟨takes, hacc, hsent⟩ := WSSendMessage_spec client frs.isEmpty mask opcode payload hs hlt
    obtain ⟨takes', hmore, hacc'⟩ := ih .CONTINUE hrest hacc
    rw [sendFragments, hsent, if_pos hsend, hmore, wireFrames, if_pos hsend, List.flatMap_cons]
    rw [withSent_withSent] at hacc' ⊢
    exact ⟨takes', rfl, hacc'⟩

theorem sendMessages_sent {ms : List Message} (hms : ∀ m ∈ ms, m.Fits maxSize) (hs : s.Accepts) :
    (sendMessages ms s).sent = s.sent ++ ms.flatMap Message.bytes := by
  induction ms generalizing s with
  | nil => exact (List.append_nil _).symm
  | cons m ms ih =>
    obtain ⟨hm, hrest⟩ := List.forall_mem_cons.mp hms
    have hsize := hm.size
    have hsend := sendable_fragment hm.payloads hm.size
    have hfrs : ∀ fr ∈ m.fragments, Sendable fr.2.length ∧ fr.2.length < 2 ^ 63 := by
      intro fr hfr
      have hle := (List.sublist_flatten_of_mem (List.mem_map_of_mem (f := Prod.snd) hfr)).length_le
      rw [Message.data] at hsize
      unfold intMax at hsize
      exact ⟨hsend fr hfr, by omega⟩
    obtain ⟨takes, hsent, hacc⟩ := sendFragments_accepts true m.opcode hfrs hs
    rw [sendMessages, List.foldl_cons, hsent, ← sendMessages, ih hrest hacc, List.flatMap_cons, ← List.append_assoc]
    rfl

/-! ## Messages that are received -/

/-- By induction on the fragments: the loop has the data of those before. -/
theorem recvLoop_fragments {client : Bool} (hop : opcode.IsData) (hne : frs ≠ [])
    (hpayloads : ∀ fr ∈ frs, fr.2 ≠ []) {r : Received} (hr : r.Aligned)
    (hsize : r.data.length + (frs.map Prod.snd).flatten.length ≤ intMax)
    (hmax : r.data.length + (frs.map Prod.snd).flatten.length < maxSize.toNat) (hc : t.closed = false)
    {rest : List UInt8} (hp : t.pending = (wireFrames client opcode frs).flatMap Frame.bytes ++ rest) :
    ∃ input, recvLoop maxSize (!client) r t = .ok (some ⟨r.nextOpcode opcode,
      r.data ++ (frs.map Prod.snd).flatten⟩, t.withInput input) ∧ input.flatten = rest := by
  induction frs generalizing opcode r t with
  | nil => exact absurd rfl hne
  | cons fr frs ih =>
    obtain ⟨mask, p⟩ := fr
    obtain ⟨hpne, hpayloads⟩ := List.forall_mem_cons.mp hpayloads
    rw [List.map_cons, List.flatten_cons, List.length_append] at hsize hmax
    dsimp only at hpne hsize hmax
    have hsend : Sendable p.length := sendable_of_le (List.length_pos_iff.mpr hpne) (by omega)
    have hframe : (fragmentFrame client frs.isEmpty mask opcode p).opcode.IsData := hop
    have hacc : Accepted maxSize (!client) r.data.length (fragmentFrame client frs.isEmpty mask opcode p) := by
      refine (accepted_fragment frs.isEmpty mask opcode).mpr ⟨by omega, hpne, by omega, fun _ => ?_⟩
      unfold intMax at hsize
      omega
    rw [wireFrames, if_pos hsend, List.flatMap_cons, List.append_assoc] at hp
    obtain ⟨input, hrun, hrest⟩ := takes_recvFrame hr hframe hacc t _ hc hp
    cases frs with
    | nil =>
      refine ⟨input, ?_, hrest⟩
      rw [recvLoop_message hrun, fragment_opcode, List.map_cons, List.map_nil, List.flatten_cons,
        List.flatten_nil, List.append_nil]
      rfl
    | cons fr' frs' =>
      have hdata : (r.fragment (fragmentFrame client false mask opcode p)).data = r.data ++ p := rfl
      have haligned : (r.fragment (fragmentFrame client false mask opcode p)).Aligned := by
        rcases fragment_state hr hacc with ⟨-, hr'⟩ | ⟨hge, -⟩
        · exact hr'
        · have hge' : 2 ^ 31 ≤ r.data.length + p.length := hge
          unfold intMax at hsize
          omega
      have hopen : (t.withInput input).closed = false := hc
      obtain ⟨input', hloop, hrest'⟩ := ih (Or.inl rfl) (List.cons_ne_nil _ _) hpayloads haligned
        (by rw [hdata, List.length_append]; omega) (by rw [hdata, List.length_append]; omega) hopen hrest
      refine ⟨input', ?_, hrest'⟩
      rw [recvLoop_again hrun]
      rw [nextOpcode_continue, fragment_opcode, hdata, List.append_assoc] at hloop
      exact hloop

theorem WSRecvMessage_message {m : Message} (hm : m.Fits maxSize) (hc : t.closed = false) {rest : List UInt8}
    (hp : t.pending = m.bytes ++ rest) :
    ∃ input, WSRecvMessage maxSize false t = .ok (some m.received, t.withInput input) ∧ input.flatten = rest := by
  have hdata : m.opcode.IsData := hm.opcode.elim (fun h => Or.inr (Or.inl h)) (fun h => Or.inr (Or.inr h))
  have hnext : Received.start.nextOpcode m.opcode = m.opcode.value.toNat := by
    rcases hm.opcode with h | h <;> rw [h] <;> rfl
  obtain ⟨input, hrun, hrest⟩ := recvLoop_fragments hdata hm.fragments hm.payloads start_aligned
    (by simpa [Received.start, Message.data] using hm.size)
    (by simpa [Received.start, Message.data] using hm.below) hc hp
  rw [hnext] at hrun
  exact ⟨input, hrun, hrest⟩

@[simp] theorem outgoing_skip (k : ℕ) (s : Stream) : outgoing (s.skip k) = outgoing s := rfl
@[simp] theorem outgoing_withInput (s : Stream) (input : Pieces UInt8) : outgoing (s.withInput input) = outgoing s :=
  rfl
@[simp] theorem outgoing_on (o : Outgoing) (s : Stream) : outgoing (o.on s) = o := rfl
@[simp] theorem outgoing_close (s : Stream) : outgoing s.close = (outgoing s).close := rfl

theorem readFixSize_closed (h : s.closed = true) : (s.readFixSize 2).1 ≤ 0 := by
  have hread : s.read 2 = (-1, [], s) := Stream.read_closed h 2
  have hloop : Stream.readLoop 2 2 s = (some (-1), [], s) := by
    have htwo : (2 : ℤ).toNat = 2 := rfl
    rw [Stream.readLoop, if_pos (by decide), htwo, hread]
    rfl
  have hlen : (toInt64 (2 : ℕ)).toNat = 2 ∧ toInt64 (2 : ℕ) = 2 := by decide
  rw [Stream.readFixSize_eq, hlen.1, hlen.2, hloop, Option.getD_some]
  exact (by decide : (-1 : ℤ) ≤ 0)

/-- Nothing is received from a session that is closed or at its end; then it is closed. -/
theorem WSRecvMessage_stops (h : s.closed = true ∨ s.pending = []) :
    ∃ t, WSRecvMessage maxSize false s = .ok (none, t.close) ∧ outgoing t = outgoing s := by
  have hresult : (s.readFixSize 2).1 ≤ 0 := by
    cases hclosed : s.closed with
    | true => exact readFixSize_closed hclosed
    | false =>
      have hpending := h.resolve_left (by rw [hclosed]; decide)
      have hshort : s.pending.length < 2 := by
        rw [hpending]
        decide
      rw [Stream.readFixSize_short hclosed hshort (by decide)]
      exact s.ending_le
  have hread : readOrBreak 2 s = .error .stop (s.readFixSize 2).2.2 := by
    rw [readOrBreak]
    exact if_pos hresult
  refine ⟨(s.readFixSize 2).2.2, ?_, ?_⟩
  · rw [WSRecvMessage, recvLoop_stop]
    rw [recvFrame]
    exact recv_bind_error hread
  · rw [Stream.readFixSize_skip, outgoing_skip]

end

/-! ## The server -/

section
variable {ω : Type} {servlet : WSServlet ω} {header : HttpRequest} {maxSize : UInt32}

theorem messageLoop_stop {w : ω} {s s' : Stream} (h : WSRecvMessage maxSize false s = .ok (none, s')) :
    messageLoop maxSize servlet header w s = .ok (w, s') := by
  rw [messageLoop]
  split <;> simp_all

theorem messageLoop_message {w : ω} {s s' : Stream} {msg : WSFrameMessage}
    (h : WSRecvMessage maxSize false s = .ok (some msg, s')) :
    messageLoop maxSize servlet header w s =
      let out := servlet.handle header msg (w, outgoing s')
      if out.1 ≠ 0 then .ok (out.2.1, out.2.2.on s')
      else messageLoop maxSize servlet header out.2.1 (out.2.2.on s') := by
  rw [messageLoop]
  split <;> simp_all

/-- The loop over the bytes of some messages is the one over the messages. -/
theorem messageLoop_messages {ms : List Message} (hms : ∀ m ∈ ms, m.Fits maxSize) (w : ω) {s : Stream}
    (hs : s.pending = ms.flatMap Message.bytes) : ∃ st,
      messageLoop maxSize servlet header w s =
        .ok ((servlet.converse header (w, outgoing s) (ms.map Message.received)).1, st) ∧
      outgoing st = (servlet.converse header (w, outgoing s) (ms.map Message.received)).2 := by
  induction ms generalizing w s with
  | nil =>
    obtain ⟨t, hrecv, hout⟩ := @WSRecvMessage_stops maxSize _ (Or.inr hs)
    refine ⟨t.close, messageLoop_stop hrecv, ?_⟩
    rw [outgoing_close, hout]
    rfl
  | cons m ms ih =>
    obtain ⟨hm, hrest⟩ := List.forall_mem_cons.mp hms
    rw [List.map_cons, WSServlet.converse]
    cases hclosed : s.closed with
    | true =>
      obtain ⟨t, hrecv, hout⟩ := @WSRecvMessage_stops maxSize _ (Or.inl hclosed)
      have hsame : (outgoing s).close = outgoing s := by rw [Outgoing.close, outgoing, hclosed]
      have hstop : (outgoing s).closed = true := hclosed
      rw [if_pos hstop]
      exact ⟨t.close, messageLoop_stop hrecv, by rw [outgoing_close, hout, hsame]⟩
    | false =>
      obtain ⟨input, hrecv, hinput⟩ := WSRecvMessage_message hm hclosed hs
      have hopen : ¬ (outgoing s).closed = true := by
        change ¬ s.closed = true
        rw [hclosed]
        decide
      rw [if_neg hopen, messageLoop_message hrecv, outgoing_withInput]
      dsimp only
      by_cases hdone : (servlet.handle header m.received (w, outgoing s)).1 ≠ 0
      · rw [if_pos hdone, if_pos hdone]
        exact ⟨_, rfl, rfl⟩
      · rw [if_neg hdone, if_neg hdone]
        exact ih hrest (servlet.handle header m.received (w, outgoing s)).2.1 hinput

/-- What the server makes of the bytes of some messages that follow a handshake. -/
theorem handleClient_messages {lexicalCast : List UInt8 → Option UInt64} {castInt : List UInt8 → Option ℤ}
    {sha1sum : List UInt8 → List UInt8} {path query fragment host random : List UInt8}
    {headers : List (List UInt8 × List UInt8)} {n : ℕ} {ps rest : Pieces UInt8} (server : WSServer ω)
    (h : Opens path query fragment host random headers) (hmax : n ≤ intMax)
    (hcast : castInt (ascii "13") = some 13)
    (hps : Shakes n (WSConnection.request path query fragment host random headers) ps)
    (hup : upgrades headers = true) (hservlet : server.getWSServlet path = some servlet) {ms : List Message}
    (hms : ∀ m ∈ ms, m.Fits server.maxSize) (hrest : rest.flatten = ms.flatMap Message.bytes)
    (uriRelaxed : Bool) (queryStart : ℕ) (w : ω) {st : Stream} (hst : st.Accepts) (hin : st.input = ps.append rest)
    (hheader : WSConnection.shaken (WSConnection.request path query fragment host random headers) = header) :
    ∃ takes service, server.handleClient lexicalCast castInt sha1sum n uriRelaxed queryStart w st =
        .ok ((servlet.serve header (w, ⟨takes, st.sent ++ (WSSession.shakeResponse sha1sum header).dump true [], false⟩)
          (ms.map Message.received)).1, service) ∧ service.closed = true ∧
      service.sent = (servlet.serve header
        (w, ⟨takes, st.sent ++ (WSSession.shakeResponse sha1sum header).dump true [], false⟩)
          (ms.map Message.received)).2.sent := by
  have hpath := (shaken_parts path query fragment host random headers).2.1
  have hshake : WSSession.handleShake lexicalCast castInt sha1sum n uriRelaxed queryStart st = _ :=
    handleShake_shakes h hmax hcast hps hst.1 hin uriRelaxed queryStart
  rw [hheader] at hpath hshake
  have haccepts : (st.withInput rest).Accepts := hst
  obtain ⟨takes, hwrite, hopen, -⟩ := Stream.writeFixSize_spec haccepts
    ((WSSession.shakeResponse sha1sum header).dump true [])
  rw [hup, if_pos rfl, hwrite] at hshake
  generalize hdump : (WSSession.shakeResponse sha1sum header).dump true [] = dump at *
  have hout : outgoing ((st.withInput rest).withSent takes dump) = ⟨takes, st.sent ++ dump, false⟩ := by
    change (⟨takes, st.sent ++ dump, st.closed⟩ : Outgoing) = _
    rw [hst.1]
  refine ⟨takes, ?_⟩
  rw [WSServer.handleClient, hshake, WSServlet.serve]
  dsimp only
  rw [hpath, hservlet]
  dsimp only
  rw [hout]
  generalize servlet.onConnect header (w, ⟨takes, st.sent ++ dump, false⟩) = out
  by_cases hdone : out.1 ≠ 0
  · rw [if_pos hdone, if_pos hdone]
    exact ⟨_, rfl, rfl, rfl⟩
  · obtain ⟨s', hloop, hend⟩ := messageLoop_messages hms out.2.1
      (s := out.2.2.on ((st.withInput rest).withSent takes dump)) hrest
    rw [outgoing_on] at hloop hend
    rw [if_neg hdone, if_neg hdone, hloop]
    dsimp only
    rw [hend]
    exact ⟨_, rfl, rfl, rfl⟩

/-- A client that is answered can go on. -/
theorem create_answered {lexicalCast : List UInt8 → Option UInt64} {sha1sum : List UInt8 → List UInt8} {n : ℕ}
    {q req : HttpRequest} {es more : Pieces UInt8} (hmax : n ≤ intMax) (hq : (q.dump true).length ≤ intMax)
    (hversion : req.version = 0x11) (hes : Answered n (WSSession.shakeResponse sha1sum req) es) : ∃ rsp client,
      WSConnection.create lexicalCast n q (.connected (es.append more)) = .ok (.connected rsp, client) ∧
        client.input = more ∧ client.Accepts ∧ client.sent = q.dump true := by
  obtain ⟨takes, haccepts, hcreate⟩ := create_sent lexicalCast n (es.append more) hq
  generalize q.dump true = text at *
  obtain ⟨rsp, hrecv, hstatus, -⟩ := @recvResponse_shaken lexicalCast sha1sum n more
    ((Stream.connected (es.append more)).withSent takes text) _ hversion _ hmax hes haccepts.1 rfl
  rw [hrecv] at hcreate
  dsimp only at hcreate
  rw [if_neg (not_not_intro hstatus)] at hcreate
  exact ⟨rsp, _, hcreate, rfl, haccepts, List.nil_append text⟩

end

/-! ## The calls of a servlet -/

inductive WSCall
  | onConnect
  | handle (msg : WSFrameMessage)
  | onClose
  deriving DecidableEq, Repr

/-- A servlet that notes its calls. -/
def WSServlet.noting {ω : Type} (servlet : WSServlet ω) : WSServlet (ω × List WSCall) where
  onConnect header p :=
    let out := servlet.onConnect header (p.1.1, p.2)
    (out.1, (out.2.1, p.1.2 ++ [.onConnect]), out.2.2)
  handle header msg p :=
    let out := servlet.handle header msg (p.1.1, p.2)
    (out.1, (out.2.1, p.1.2 ++ [.handle msg]), out.2.2)
  onClose header p :=
    let out := servlet.onClose header (p.1.1, p.2)
    (out.1, (out.2.1, p.1.2 ++ [.onClose]), out.2.2)

def WSServer.noting {ω : Type} (server : WSServer ω) : WSServer (ω × List WSCall) where
  getWSServlet uri := (server.getWSServlet uri).map WSServlet.noting
  maxSize := server.maxSize

section
variable {ω : Type} {server : WSServer ω}

/-- By induction on what is still to be read. -/
theorem messageLoop_calls {maxSize : UInt32} {servlet : WSServlet ω} {header : HttpRequest} {p p' : ω × List WSCall}
    {s s' : Stream} (h : messageLoop maxSize servlet.noting header p s = .ok (p', s')) :
    ∃ msgs : List WSFrameMessage, p'.2 = p.2 ++ msgs.map .handle := by
  induction hk : s.pending.length using Nat.strong_induction_on generalizing p s with
  | _ k ih =>
    cases hrecv : WSRecvMessage maxSize false s with
    | error e =>
      rw [messageLoop] at h
      split at h <;> simp_all
    | ok out =>
      obtain ⟨msg, t⟩ := out
      cases msg with
      | none =>
        rw [messageLoop_stop hrecv] at h
        cases h
        exact ⟨[], (List.append_nil _).symm⟩
      | some msg =>
        have hlt : t.pending.length < s.pending.length := recvLoop_shrinks hrecv
        rw [messageLoop_message hrecv] at h
        dsimp only at h
        split at h
        · cases h
          exact ⟨[msg], rfl⟩
        · obtain ⟨msgs, hmsgs⟩ := ih _ (hk ▸ hlt) h rfl
          refine ⟨msg :: msgs, ?_⟩
          rw [hmsgs, List.map_cons]
          exact List.append_assoc _ _ _

end

/-! ## An example -/

/-- A servlet that counts its messages and gives up at the second one. -/
def countingServlet : WSServlet ℕ :=
  FunctionWSServlet (some fun _ _ p => (if p.1 = 1 then 1 else 0, p.1 + 1, p.2)) none none

def countingServer : WSServer ℕ where
  getWSServlet uri := if uri = ascii "/chat" then some countingServlet else none
  maxSize := 100

/-- Three short messages. -/
def sampleMessages : List Message :=
  [⟨.TEXT_FRAME, [(⟨[1, 2, 3, 4], rfl⟩, [10, 20]), (⟨[5, 6, 7, 8], rfl⟩, [30])]⟩,
    ⟨.BIN_FRAME, [(⟨[0, 0, 0, 0], rfl⟩, [1])]⟩, ⟨.TEXT_FRAME, [(⟨[9, 9, 9, 9], rfl⟩, [7])]⟩]

theorem sampleMessages_fit : ∀ m ∈ sampleMessages, m.Fits 100 := by
  intro m hm
  simp only [sampleMessages, List.mem_cons, List.not_mem_nil, or_false] at hm
  rcases hm with rfl | rfl | rfl
  · exact ⟨Or.inl rfl, by simp, by simp, by decide, by decide⟩
  · exact ⟨Or.inr rfl, by simp, by simp, by decide, by decide⟩
  · exact ⟨Or.inl rfl, by simp, by simp, by decide, by decide⟩

end Flz.Http
