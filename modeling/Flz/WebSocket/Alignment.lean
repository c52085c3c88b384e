import Flz.WebSocket.RoundTrip

/-! # Frame alignment of the receive loop

Control frames may stand between the fragments of a message. `loopHeads` is what is pending
each time the loop reads a header; alignment means that these are the starts of the frames.
-/
namespace Flz.Http
open Lib

/-- Well-formed frames up to the one that ends the receive: the fragments of one message with
control frames in between, or such a beginning and a `CLOSE` frame. -/
def Conversation (started : Bool) : List Frame → Prop
  | [] => False
  | f :: fs =>
    match f.opcode with
    | .CLOSE => f.fin = true ∧ f.payload.length ≤ 125 ∧ fs = []
    | .PING | .PONG => f.fin = true ∧ f.payload.length ≤ 125 ∧ Conversation started fs
    | .CONTINUE =>
      started = true ∧ f.payload.length < 2 ^ 63 ∧ if f.fin then fs = [] else Conversation true fs
    | .TEXT_FRAME | .BIN_FRAME =>
      started = false ∧ f.payload.length < 2 ^ 63 ∧ if f.fin then fs = [] else Conversation true fs

/-- What is pending at the start of each frame. -/
def frameStarts (rest : List UInt8) : List Frame → List (List UInt8)
  | [] => []
  | f :: fs => ((f :: fs).flatMap Frame.bytes ++ rest) :: frameStarts rest fs

/-- The opcode of the first data frame. -/
def firstOpcode (fs : List Frame) : ℤ :=
  match fs.find? (fun f => f.opcode.IsData) with
  | some f => f.opcode.value.toNat
  | none => 0

/-- The payloads of the data frames, joined. -/
def dataPayload (fs : List Frame) : List UInt8 :=
  (fs.filter (fun f => f.opcode.IsData)).flatMap Frame.payload

/-- What the receive is to return: a `CLOSE` frame ends it with no message. -/
def delivered (fs : List Frame) : Option WSFrameMessage :=
  if ∃ f ∈ fs, f.opcode = .CLOSE then none else some ⟨firstOpcode fs, dataPayload fs⟩

/-- The frames that the loop takes whole when `size` bytes of payload are there already. -/
def Handled (maxSize : UInt32) (client : Bool) (size : ℕ) : List Frame → Prop
  | [] => True
  | f :: fs =>
    match f.opcode with
    | .CLOSE => False
    | .PING | .PONG => f.mask = none ∧ f.payload = [] ∧ Handled maxSize client size fs
    | .CONTINUE | .TEXT_FRAME | .BIN_FRAME =>
      Accepted maxSize client size f ∧ (fs ≠ [] → size + f.payload.length < 2 ^ 31) ∧
        Handled maxSize client (size + f.payload.length) fs

/-- Every turn from here on takes one whole frame, and the receive returns `msg`. -/
def KeepsAlignment (maxSize : UInt32) (client : Bool) (r : Received) (fs : List Frame) (s : Stream)
    (rest : List UInt8) (msg : Option WSFrameMessage) : Prop :=
  loopHeads maxSize client r s = frameStarts rest fs ∧
    ∃ s', recvLoop maxSize client r s = .ok (msg, s') ∧ s'.pending = rest

/-- What is to be returned when `r` was received before. -/
def deliveredFrom (r : Received) (fs : List Frame) : Option WSFrameMessage :=
  if ∃ f ∈ fs, f.opcode = .CLOSE then none
  else some ⟨if r.opcode = 0 then firstOpcode fs else r.opcode, r.data ++ dataPayload fs⟩

section
variable {maxSize : UInt32} {client started : Bool} {r : Received} {f : Frame} {fs : List Frame}
  {s : Stream} {rest : List UInt8} {msg : Option WSFrameMessage}

theorem Conversation.ne_nil (h : Conversation started fs) : fs ≠ [] := by
  rintro rfl
  exact h

theorem frameStarts_head (h : fs ≠ []) :
    ∃ hs, frameStarts rest fs = (fs.flatMap Frame.bytes ++ rest) :: hs := by
  obtain ⟨f, gs, rfl⟩ := List.exists_cons_of_ne_nil h
  exact ⟨_, rfl⟩

/-! ## Control frames -/

theorem lengthExtension_small {size : ℕ} (h : size ≤ 125) : lengthExtension size = [] := by
  rw [lengthExtension, if_pos (by omega)]

theorem sendControl_spec (hs : s.Accepts) (opcode : OPCODE) :
    ∃ takes bytes, sendControl opcode s = (2, s.withSent takes bytes) ∧
      (s.withSent takes bytes).Accepts := by
  obtain ⟨takes, hwrite, hacc⟩ := Stream.writeFixSize_spec hs (controlHead opcode).bytes
  refine ⟨takes, _, ?_, hacc⟩
  unfold sendControl
  rw [hwrite]
  rfl

/-- A control frame costs the loop its header only. -/
theorem recvFrame_control (hs : s.Accepts)
    (hf : f.opcode = .PING ∨ f.opcode = .PONG ∨ f.opcode = .CLOSE) (hlen : f.payload.length ≤ 125)
    (hp : s.pending = f.bytes ++ rest) :
    ∃ s', recvFrame maxSize client r s = .ok (.again r) s' ∧ s'.Accepts ∧
      s'.pending = f.maskBytes ++ f.masked ++ rest := by
  have hop : f.head.opcode = f.opcode.value := rfl
  rw [Frame.bytes, lengthExtension_small hlen, List.nil_append, List.append_assoc] at hp
  obtain ⟨input, hread, hrest⟩ := takes_header f s _ hs.1 hp
  have hacc : (s.withInput input).Accepts := hs
  have hrun : recvFrame maxSize client r s = dispatch maxSize client r f.head (s.withInput input) := by
    rw [recvFrame, recv_bind_eq hread, WSFrameHead.ofBytes_bytes]
  rcases hf with hf | hf | hf
  · obtain ⟨takes, bytes, hpong, hacc'⟩ := sendControl_spec hacc .PONG
    refine ⟨_, ?_, hacc', hrest⟩
    have hwrite : pongOrBreak (s.withInput input) = .ok () ((s.withInput input).withSent takes bytes) := by
      unfold pongOrBreak WSPong
      rw [hpong]
      rfl
    rw [hrun, dispatch, hop, hf, if_pos rfl, recv_bind_eq hwrite]
    rfl
  · refine ⟨_, ?_, hacc, hrest⟩
    rw [hrun, dispatch, hop, hf]
    rfl
  · refine ⟨_, ?_, hacc, hrest⟩
    rw [hrun, dispatch, hop, hf]
    rfl

/-- The loop goes on after a `CLOSE` frame. -/
theorem not_keeps_close (hs : s.Accepts) (hf : f.opcode = .CLOSE) (hlen : f.payload.length ≤ 125)
    (hp : s.pending = f.bytes ++ rest) : ¬ KeepsAlignment maxSize client r [f] s rest msg := by
  rintro ⟨hheads, -⟩
  obtain ⟨s', hrun, -, -⟩ := recvFrame_control (r := r) hs
    (Or.inr (Or.inr hf)) hlen hp
  obtain ⟨hs', hmore⟩ := loopHeads_head (r := r) (s := s')
  rw [loopHeads_again hrun, hmore] at hheads
  have hlen := congrArg List.length hheads
  simp [frameStarts] at hlen

theorem masked_eq_nil : f.maskBytes ++ f.masked = [] ↔ f.mask = none ∧ f.payload = [] := by
  unfold Frame.maskBytes Frame.masked
  cases f.mask with
  | none => simp
  | some m =>
    have hne : m.val ≠ [] := by
      rw [← List.length_pos_iff, m.property]
      decide
    simp [hne]

/-- After a `PING` or `PONG` frame the loop is aligned when the frame ends with its header. -/
theorem keeps_control_iff (hs : s.Accepts) (hf : f.opcode = .PING ∨ f.opcode = .PONG)
    (hlen : f.payload.length ≤ 125) (hfs : fs ≠ [])
    (hp : s.pending = (f :: fs).flatMap Frame.bytes ++ rest) :
    ∃ s', s'.Accepts ∧ s'.pending = f.maskBytes ++ f.masked ++ (fs.flatMap Frame.bytes ++ rest) ∧
      (KeepsAlignment maxSize client r (f :: fs) s rest msg ↔
        (f.mask = none ∧ f.payload = []) ∧ KeepsAlignment maxSize client r fs s' rest msg) := by
  have hp' := hp
  rw [List.flatMap_cons, List.append_assoc] at hp'
  have hctl : f.opcode = .PING ∨ f.opcode = .PONG ∨ f.opcode = .CLOSE :=
    hf.elim Or.inl (fun h => Or.inr (Or.inl h))
  obtain ⟨s', hrun, hacc, hpend⟩ := recvFrame_control (r := r)
    hs hctl hlen hp'
  refine ⟨s', hacc, hpend, ?_⟩
  unfold KeepsAlignment
  rw [loopHeads_again hrun, recvLoop_again hrun, frameStarts, hp, List.cons.injEq]
  constructor
  · rintro ⟨⟨-, hheads⟩, hres⟩
    obtain ⟨hs1, h1⟩ := loopHeads_head (r := r) (s := s')
    obtain ⟨hs2, h2⟩ := frameStarts_head hfs
    have hheads' := hheads
    rw [h1, h2, List.cons.injEq, hpend] at hheads'
    have hnil := List.append_left_eq_self.mp hheads'.1
    exact ⟨masked_eq_nil.mp hnil, hheads, hres⟩
  · rintro ⟨-, hheads, hres⟩
    exact ⟨⟨rfl, hheads⟩, hres⟩

/-! ## What is to be returned -/

theorem deliveredFrom_control (hf : f.opcode = .PING ∨ f.opcode = .PONG) :
    deliveredFrom r (f :: fs) = deliveredFrom r fs := by
  have hdata : ¬ f.opcode.IsData := by
    rcases hf with h | h <;> rw [h] <;> decide
  have hclose : f.opcode ≠ .CLOSE := by
    rcases hf with h | h <;> rw [h] <;> decide
  simp only [deliveredFrom, List.mem_cons, exists_eq_or_imp, hclose, false_or, firstOpcode, dataPayload,
    List.find?_cons, List.filter_cons, hdata, decide_false, Bool.false_eq_true, ↓reduceIte]

/-- The opcode of the message is set by its first fragment. -/
theorem deliveredFrom_data (hf : f.opcode.IsData) (hop : r.opcode = 0 → f.opcode ≠ .CONTINUE) :
    deliveredFrom r (f :: fs) = deliveredFrom (r.fragment f) fs := by
  have hclose : f.opcode ≠ .CLOSE := by
    rcases hf with h | h | h <;> rw [h] <;> decide
  have hval : f.opcode ≠ .CONTINUE → f.opcode.value.toNat ≠ 0 := by
    intro h
    rcases hf with hf | hf | hf
    · exact absurd hf h
    · rw [hf]
      decide
    · rw [hf]
      decide
  have hdata : (r.fragment f).data = r.data ++ f.payload := rfl
  simp only [deliveredFrom, List.mem_cons, exists_eq_or_imp, hclose, false_or, firstOpcode, dataPayload,
    List.find?_cons, List.filter_cons, hf, decide_true, ↓reduceIte, List.flatMap_cons,
    fragment_opcode, hdata, List.append_assoc, Received.nextOpcode]
  by_cases h0 : r.opcode = 0
  · simp [h0, hop h0, hval (hop h0)]
  · simp [h0]

theorem deliveredFrom_last (hf : f.opcode.IsData) (hop : r.opcode = 0 → f.opcode ≠ .CONTINUE) :
    deliveredFrom r [f] = some ⟨(r.fragment f).opcode, (r.fragment f).data⟩ := by
  rw [deliveredFrom_data hf hop]
  have hnil : dataPayload [] = [] := rfl
  simp only [deliveredFrom, List.not_mem_nil, false_and, exists_false, ↓reduceIte, hnil,
    List.append_nil, firstOpcode, List.find?_nil]
  split
  · rename_i h0
    rw [h0]
  · rfl

/-! ## Data frames -/

theorem recvLoop_fails_heads (h : Fails (recvFrame maxSize client r) f.bytes) (hs : s.Accepts)
    (hp : s.pending = f.bytes ++ rest) :
    loopHeads maxSize client r s = [s.pending] ∧
      ∀ m s', recvLoop maxSize client r s ≠ .ok (some m, s') := by
  obtain ⟨e, u, hrun⟩ := h s _ hs.1 hp
  exact ⟨loopHeads_error hrun, recvLoop_fails h hs.1 hp⟩

/-- A data frame that ends the loop breaks the alignment, whether it is the last or not. -/
theorem not_keeps_fails (h : Fails (recvFrame maxSize client r) f.bytes) (hs : s.Accepts)
    (hp : s.pending = (f :: fs).flatMap Frame.bytes ++ rest) (hmsg : fs = [] → msg ≠ none) :
    ¬ KeepsAlignment maxSize client r (f :: fs) s rest msg := by
  rw [List.flatMap_cons, List.append_assoc] at hp
  obtain ⟨hheads, hno⟩ := recvLoop_fails_heads h hs hp
  rintro ⟨hstarts, s', hrun, -⟩
  by_cases hnil : fs = []
  · obtain ⟨m, hm⟩ := Option.ne_none_iff_exists'.mp (hmsg hnil)
    rw [hm] at hrun
    exact hno m s' hrun
  · obtain ⟨hs', hmore⟩ := frameStarts_head hnil
    rw [hheads, frameStarts, hmore] at hstarts
    have hlen := congrArg List.length hstarts
    simp at hlen

/-- The parts of a conversation that starts with a data frame. -/
theorem Conversation.data (h : Conversation started (f :: fs)) (hf : f.opcode.IsData) :
    (started = true ↔ f.opcode = .CONTINUE) ∧ f.payload.length < 2 ^ 63 ∧
      if f.fin then fs = [] else Conversation true fs := by
  unfold Conversation at h
  rcases hf with hf | hf | hf <;> rw [hf] at h ⊢ <;> obtain ⟨hst, hlen, hrest⟩ := h <;>
    exact ⟨by rw [hst]; decide, hlen, hrest⟩

theorem Conversation.control (h : Conversation started (f :: fs))
    (hf : f.opcode = .PING ∨ f.opcode = .PONG) :
    f.payload.length ≤ 125 ∧ Conversation started fs := by
  unfold Conversation at h
  rcases hf with hf | hf <;> rw [hf] at h <;> exact h.2

theorem Conversation.close (h : Conversation started (f :: fs)) (hf : f.opcode = .CLOSE) :
    f.payload.length ≤ 125 ∧ fs = [] := by
  unfold Conversation at h
  rw [hf] at h
  exact h.2

theorem opcode_cases (o : OPCODE) : (o = .PING ∨ o = .PONG) ∨ o = .CLOSE ∨ o.IsData := by
  cases o <;> decide

/-- Once `cur_len` is negative no conversation is received in whole frames. -/
theorem not_keeps_overflowed (hover : r.Overflowed) (hconv : Conversation started fs) (hs : s.Accepts)
    (hp : s.pending = fs.flatMap Frame.bytes ++ rest)
    (hmsg : (∀ f ∈ fs, f.opcode ≠ .CLOSE) → msg ≠ none) :
    ¬ KeepsAlignment maxSize client r fs s rest msg := by
  induction fs generalizing started s with
  | nil => exact absurd rfl hconv.ne_nil
  | cons f fs ih =>
    rcases opcode_cases f.opcode with hf | hf | hf
    · obtain ⟨hlen, hconv'⟩ := hconv.control hf
      obtain ⟨s', hacc, hpend, hiff⟩ := keeps_control_iff
        (r := r) hs hf hlen hconv'.ne_nil hp
      rw [hiff]
      rintro ⟨hempty, hkeeps⟩
      rw [masked_eq_nil.mpr hempty, List.nil_append] at hpend
      have hclose : f.opcode ≠ .CLOSE := by
        rcases hf with h | h <;> rw [h] <;> decide
      exact ih hconv' hacc hpend
        (fun hno => hmsg (List.forall_mem_cons.mpr ⟨hclose, hno⟩)) hkeeps
    · obtain ⟨hlen, rfl⟩ := hconv.close hf
      exact not_keeps_close hs hf hlen (by simpa using hp)
    · obtain ⟨-, hlen, -⟩ := hconv.data hf
      have hclose : f.opcode ≠ .CLOSE := by
        rcases hf with h | h | h <;> rw [h] <;> decide
      refine not_keeps_fails (fails_recvFrame_overflowed hover hf hlen) hs hp ?_
      rintro rfl
      exact hmsg (by simpa using hclose)

/-- The condition at a data frame. -/
theorem handled_data (hf : f.opcode.IsData) {size : ℕ} :
    Handled maxSize client size (f :: fs) ↔
      Accepted maxSize client size f ∧ (fs ≠ [] → size + f.payload.length < 2 ^ 31) ∧
        Handled maxSize client (size + f.payload.length) fs := by
  rw [Handled]
  rcases hf with hf | hf | hf <;> rw [hf]

theorem handled_control (hf : f.opcode = .PING ∨ f.opcode = .PONG) {size : ℕ} :
    Handled maxSize client size (f :: fs) ↔
      f.mask = none ∧ f.payload = [] ∧ Handled maxSize client size fs := by
  rw [Handled]
  rcases hf with hf | hf <;> rw [hf]

/-- Behind a data frame the kind of the message is known. -/
theorem fragment_opcode_ne_zero (hf : f.opcode.IsData) (hne : r.opcode = 0 → f.opcode ≠ .CONTINUE) :
    (r.fragment f).opcode ≠ 0 := by
  rw [fragment_opcode, Received.nextOpcode]
  by_cases h0 : r.opcode = 0
  · rw [if_pos ⟨h0, hne h0⟩]
    rcases hf with h | h | h
    · exact absurd h (hne h0)
    · rw [h]
      decide
    · rw [h]
      decide
  · rwa [if_neg (fun h => h0 h.1)]

/-- From any point of a conversation on, the loop is aligned exactly when the frames to come are
handled. -/
theorem keeps_iff (hr : r.Aligned) (hop : started = true ↔ r.opcode ≠ 0)
    (hconv : Conversation started fs) (hs : s.Accepts)
    (hp : s.pending = fs.flatMap Frame.bytes ++ rest) :
    KeepsAlignment maxSize client r fs s rest (deliveredFrom r fs) ↔
      Handled maxSize client r.data.length fs := by
  induction fs generalizing started r s with
  | nil => exact absurd rfl hconv.ne_nil
  | cons f fs ih =>
    rcases opcode_cases f.opcode with hf | hf | hf
    · obtain ⟨hlen, hconv'⟩ := hconv.control hf
      obtain ⟨s', hacc, hpend, hiff⟩ := keeps_control_iff
        (r := r) hs hf hlen hconv'.ne_nil hp
      rw [hiff, handled_control hf, deliveredFrom_control hf, and_assoc]
      refine and_congr_right fun hmask => and_congr_right fun hpay => ?_
      rw [masked_eq_nil.mpr ⟨hmask, hpay⟩, List.nil_append] at hpend
      exact ih hr hop hconv' hacc hpend
    · obtain ⟨hlen, rfl⟩ := hconv.close hf
      refine iff_of_false (not_keeps_close hs hf hlen (by simpa using hp)) ?_
      rw [Handled, hf]
      exact not_false
    · obtain ⟨hcont, hlen, hrest⟩ := hconv.data hf
      have hne : r.opcode = 0 → f.opcode ≠ .CONTINUE := fun h0 hc => hop.mp (hcont.mpr hc) h0
      have hdel : deliveredFrom r (f :: fs) = deliveredFrom (r.fragment f) fs :=
        deliveredFrom_data hf hne
      rw [handled_data hf]
      by_cases ha : Accepted maxSize client r.data.length f
      · have hp' := hp
        rw [List.flatMap_cons, List.append_assoc] at hp'
        obtain ⟨input, hrun, hinput⟩ := takes_recvFrame hr hf ha s _ hs.1 hp'
        have hacc : (s.withInput input).Accepts := hs
        cases hfin : f.fin with
        | true =>
          rw [hfin, if_pos rfl] at hrest hrun
          subst hrest
          refine iff_of_true ⟨?_, s.withInput input, ?_, hinput⟩ ⟨ha, fun h => absurd rfl h, trivial⟩
          · rw [loopHeads_message hrun, hp]
            rfl
          · rw [recvLoop_message hrun, deliveredFrom_last hf hne]
        | false =>
          rw [hfin, if_neg Bool.false_ne_true] at hrest hrun
          have hcons : KeepsAlignment maxSize client r (f :: fs) s rest (deliveredFrom r (f :: fs)) ↔
              KeepsAlignment maxSize client (r.fragment f) fs (s.withInput input) rest
                (deliveredFrom (r.fragment f) fs) := by
            unfold KeepsAlignment
            rw [loopHeads_again hrun, recvLoop_again hrun, frameStarts, hp, List.cons.injEq, hdel]
            exact and_congr_left fun _ => and_iff_right rfl
          rw [hcons]
          rcases fragment_state hr ha with ⟨hlt, hr'⟩ | ⟨hge, hover⟩
          · have hop' : true = true ↔ (r.fragment f).opcode ≠ 0 :=
              iff_of_true rfl (fragment_opcode_ne_zero hf hne)
            have hlen' : (r.fragment f).data.length = r.data.length + f.payload.length :=
              List.length_append
            rw [ih hr' hop' hrest hacc hinput, hlen']
            exact ⟨fun h => ⟨ha, fun _ => hlt, h⟩, fun h => h.2.2⟩
          · refine iff_of_false (not_keeps_overflowed hover hrest hacc hinput ?_) ?_
            · intro hno
              have hfalse : ¬ ∃ g ∈ fs, g.opcode = .CLOSE := fun ⟨g, hg, hgc⟩ => hno g hg hgc
              rw [deliveredFrom, if_neg hfalse]
              exact Option.some_ne_none _
            · rintro ⟨-, hsum, -⟩
              have := hsum hrest.ne_nil
              omega
      · refine iff_of_false (not_keeps_fails (fails_recvFrame hr hf hlen ha) hs hp ?_)
          (fun h => ha h.1)
        rintro rfl
        rw [deliveredFrom_last hf hne]
        exact Option.some_ne_none _

end

/-- On a stream that accepts the answers to `PING`, every turn of the receive loop takes one whole
frame and the receive returns the message, exactly when no control frame has a mask or a payload,
none closes, and every data frame is accepted. -/
theorem recvMessage_keepsAlignment_iff {maxSize : UInt32} {client : Bool} {fs : List Frame}
    (hconv : Conversation false fs) {s : Stream} (hs : s.Accepts) {rest : List UInt8}
    (hp : s.pending = fs.flatMap Frame.bytes ++ rest) :
    (loopHeads maxSize client .start s = frameStarts rest fs ∧
        ∃ s', WSRecvMessage maxSize client s = .ok (delivered fs, s') ∧ s'.pending = rest) ↔
      Handled maxSize client 0 fs :=
  keeps_iff start_aligned (by decide) hconv hs hp

/-- Two fragments from the server with an empty `PING` between them. -/
theorem recvMessage_keepsAlignment_iff_ping :
    loopHeads 100 true .start (.connected (.singly ([
          ⟨false, false, false, false, .TEXT_FRAME, none, [10]⟩,
          ⟨true, false, false, false, .PING, none, []⟩,
          ⟨true, false, false, false, .CONTINUE, none, [20, 30]⟩].flatMap Frame.bytes ++ [7]))) =
        frameStarts [7] [⟨false, false, false, false, .TEXT_FRAME, none, [10]⟩,
          ⟨true, false, false, false, .PING, none, []⟩,
          ⟨true, false, false, false, .CONTINUE, none, [20, 30]⟩] ∧
      ∃ s', WSRecvMessage 100 true (.connected (.singly ([
          ⟨false, false, false, false, .TEXT_FRAME, none, [10]⟩,
          ⟨true, false, false, false, .PING, none, []⟩,
          ⟨true, false, false, false, .CONTINUE, none, [20, 30]⟩].flatMap Frame.bytes ++ [7]))) =
        .ok (some ⟨1, [10, 20, 30]⟩, s') ∧ s'.pending = [7] :=
  (recvMessage_keepsAlignment_iff
    (by simp [Conversation]) (Stream.connected_accepts _) (Pieces.flatten_singly _)).mpr
    ⟨⟨Or.inl rfl, by decide, by simp, by decide, by simp⟩, by simp, rfl, rfl,
      ⟨Or.inl rfl, by decide, by simp, by decide, by simp⟩, by simp, trivial⟩

/-- The server sends a `PING` frame with one byte of payload in front of a message. -/
theorem ping_payload_loses_alignment :
    ¬ (loopHeads 100 true .start (.connected (.singly ([
          ⟨true, false, false, false, .PING, none, [1]⟩,
          ⟨true, false, false, false, .TEXT_FRAME, none, [20]⟩].flatMap Frame.bytes ++ []))) =
        frameStarts [] [⟨true, false, false, false, .PING, none, [1]⟩,
          ⟨true, false, false, false, .TEXT_FRAME, none, [20]⟩] ∧
      ∃ s', WSRecvMessage 100 true (.connected (.singly ([
          ⟨true, false, false, false, .PING, none, [1]⟩,
          ⟨true, false, false, false, .TEXT_FRAME, none, [20]⟩].flatMap Frame.bytes ++ []))) =
        .ok (delivered [⟨true, false, false, false, .PING, none, [1]⟩,
          ⟨true, false, false, false, .TEXT_FRAME, none, [20]⟩], s') ∧ s'.pending = []) := by
  intro hkeeps
  obtain ⟨-, hpay, -⟩ := (@keeps_iff 100 true false .start
    [⟨true, false, false, false, .PING, none, [1]⟩,
      ⟨true, false, false, false, .TEXT_FRAME, none, [20]⟩] _ [] start_aligned (by decide)
    (by simp [Conversation]) (Stream.connected_accepts _) (Pieces.flatten_singly _)).mp hkeeps
  cases hpay

end Flz.Http
