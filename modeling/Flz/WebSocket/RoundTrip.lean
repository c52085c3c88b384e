import Flz.WebSocket.Frames

/-! # A message sent in fragments

What `WSSendMessage` puts on the wire is one frame, and `WSRecvMessage` on the other side
joins the frames of a message again, for the sizes that an `int` can count.
-/
namespace Flz.Http
open Lib

/-! ## The sender -/

section
variable {α β : Type}

theorem send_bind_ok {m : Sending α} {f : α → Sending β} {p q : Stream × WSFrameMessage} {a : α}
    (h : m p = .ok a q) : (m >>= f) p = f a q := by simp only [bind, EStateM.bind, h]

theorem send_bind_error {m : Sending α} {f : α → Sending β} {p q : Stream × WSFrameMessage}
    (h : m p = .error () q) : (m >>= f) p = .error () q := by simp only [bind, EStateM.bind, h]

end

/-- The sizes for which `writeFixSize` and `readFixSize` report success. -/
def Sendable (size : ℕ) : Prop := 0 < toInt size

instance (size : ℕ) : Decidable (Sendable size) := by unfold Sendable; infer_instance

theorem sendable_of_le {size : ℕ} (hpos : 0 < size) (hle : size ≤ intMax) : Sendable size := by
  rw [Sendable, toInt_eq hle]
  omega

/-- A program that sends `bytes` on a stream that accepts them. -/
def Puts (m : Sending Unit) (bytes : List UInt8) (next : WSFrameMessage → WSFrameMessage) : Prop :=
  ∀ s msg, s.Accepts → ∃ takes, m (s, msg) = .ok () (s.withSent takes bytes, next msg) ∧
    (s.withSent takes bytes).Accepts

theorem withSent_withSent (s : Stream) (t u : List ℤ) (xs ys : List UInt8) :
    (s.withSent t xs).withSent u ys = s.withSent u (xs ++ ys) := by
  simp only [Stream.withSent, List.append_assoc]

theorem puts_writeOrBreak {bytes : List UInt8} (h : Sendable bytes.length) :
    Puts (writeOrBreak bytes) bytes id := by
  intro s msg hs
  obtain ⟨takes, hwrite, hacc⟩ := Stream.writeFixSize_spec hs bytes
  refine ⟨takes, ?_, hacc⟩
  unfold writeOrBreak
  rw [hwrite]
  dsimp only
  rw [if_neg (Int.not_le.mpr h)]
  rfl

theorem puts_writeLength (size : ℕ) (hlt : size < 2 ^ 64) :
    Puts (writeLength (payloadField size) size) (lengthExtension size) id := by
  unfold writeLength lengthExtension
  by_cases h126 : size < 126
  · obtain ⟨hne, hne'⟩ := payloadField_ne h126
    rw [if_neg hne, if_neg hne', if_pos h126]
    intro s msg hs
    have hnil : s.withSent s.takes [] = s := by simp [Stream.withSent]
    exact ⟨s.takes, by rw [hnil]; rfl, by rwa [hnil]⟩
  · by_cases h16 : size < 65536
    · have hfield : payloadField size = 126 := by rw [payloadField, if_neg h126, if_pos h16]
      have hval : (BitVec.ofNat 16 size).toNat = size := Nat.mod_eq_of_lt h16
      have hmem : memory .little (byteswapOnLittleEndian (BitVec.ofNat 16 size)) =
          (leBytes 2 size).reverse := by
        rw [memory_byteswapOnLittleEndian rfl, hval]
      rw [if_pos hfield, if_neg h126, if_pos h16, hmem]
      apply puts_writeOrBreak
      rw [List.length_reverse, leBytes_length]
      decide
    · have hfield : payloadField size = 127 := by rw [payloadField, if_neg h126, if_neg h16]
      have hval : (BitVec.ofNat 64 size).toNat = size := Nat.mod_eq_of_lt hlt
      have hmem : memory .little (byteswapOnLittleEndian (BitVec.ofNat 64 size)) =
          (leBytes 8 size).reverse := by
        rw [memory_byteswapOnLittleEndian rfl, hval]
      rw [hfield, if_neg (by decide), if_pos rfl, if_neg h126, if_neg h16, hmem]
      apply puts_writeOrBreak
      rw [List.length_reverse, leBytes_length]
      decide

/-- The frame for one fragment. -/
def fragmentFrame (client fin : Bool) (mask : Mask) (opcode : OPCODE) (payload : List UInt8) :
    Frame where
  fin := fin
  rsv1 := false
  rsv2 := false
  rsv3 := false
  opcode := opcode
  mask := if client then some mask else none
  payload := payload

/-- The message after its data were masked in place. -/
def WSFrameMessage.afterMask (client : Bool) (mask : Mask) (msg : WSFrameMessage) : WSFrameMessage :=
  if client then { msg with data := xorMask mask.val msg.data } else msg

theorem puts_writeMask (client : Bool) (mask : Mask) :
    Puts (writeMask client mask) (if client then mask.val else []) (.afterMask client mask) := by
  cases client with
  | false =>
    intro s msg hs
    have hnil : s.withSent s.takes [] = s := by simp [Stream.withSent]
    refine ⟨s.takes, ?_, ?_⟩
    · rw [if_neg Bool.false_ne_true, hnil]
      rfl
    · rwa [if_neg Bool.false_ne_true, hnil]
  | true =>
    have hsend : Sendable mask.val.length := by
      rw [mask.property]
      decide
    have h := puts_writeOrBreak hsend
    intro s msg hs
    obtain ⟨takes, hrun, hacc⟩ := h s (msg.afterMask true mask) hs
    exact ⟨takes, hrun, hacc⟩

theorem Puts.bind {m m' : Sending Unit} {xs ys : List UInt8} {f g : WSFrameMessage → WSFrameMessage}
    (h : Puts m xs f) (h' : Puts m' ys g) : Puts (m >>= fun _ => m') (xs ++ ys) (g ∘ f) := by
  intro s msg hs
  obtain ⟨t, hrun, hacc⟩ := h s msg hs
  obtain ⟨t', hrun', hacc'⟩ := h' _ (f msg) hacc
  rw [withSent_withSent] at hrun' hacc'
  exact ⟨t', (send_bind_ok hrun).trans hrun', hacc'⟩

/-- The bytes of one message: its head, the extended length, the mask and the payload. -/
def sentBytes (client fin : Bool) (mask : Mask) (msg : WSFrameMessage) : List UInt8 :=
  (sendHead client fin msg).bytes ++ (lengthExtension msg.data.length ++
    if client then mask.val else []) ++ (msg.afterMask client mask).data

section
variable (client fin : Bool) (mask : Mask) (msg : WSFrameMessage)

@[simp] theorem afterMask_length : (msg.afterMask client mask).data.length = msg.data.length := by
  cases client <;> simp [WSFrameMessage.afterMask]

theorem puts_sendHeader (hlt : msg.data.length < 2 ^ 63) :
    Puts (sendHeader client fin mask msg)
      ((sendHead client fin msg).bytes ++
        (lengthExtension msg.data.length ++ if client then mask.val else []))
      (.afterMask client mask) := by
  have hsend : Sendable (sendHead client fin msg).bytes.length := show Sendable 2 by decide
  have hhead := puts_writeOrBreak hsend
  exact hhead.bind ((puts_writeLength msg.data.length (by omega)).bind (puts_writeMask client mask))

/-- What `WSSendMessage` puts on the wire is the frame, whatever it returns; it closes the
stream after a size that it takes for a failure. -/
theorem WSSendMessage_sends {s : Stream} (hs : s.Accepts) (hlt : msg.data.length < 2 ^ 63) :
    ∃ takes, (s.withSent takes (sentBytes client fin mask msg)).Accepts ∧
      (WSSendMessage client fin mask msg s).2 =
        (if Sendable msg.data.length then s.withSent takes (sentBytes client fin mask msg)
          else (s.withSent takes (sentBytes client fin mask msg)).close, msg.afterMask client mask) := by
  obtain ⟨t, hhead, hacc⟩ := puts_sendHeader client fin mask msg hlt s msg hs
  obtain ⟨t', hwrite, hacc'⟩ := Stream.writeFixSize_spec hacc (msg.afterMask client mask).data
  rw [withSent_withSent, afterMask_length] at hwrite
  rw [withSent_withSent] at hacc'
  refine ⟨t', hacc', ?_⟩
  have hbody : sendBody client fin mask msg (s, msg) =
      if Sendable msg.data.length then
        .ok (toInt (msg.data.length + 2))
          (s.withSent t' (sentBytes client fin mask msg), msg.afterMask client mask)
      else .error () (s.withSent t' (sentBytes client fin mask msg), msg.afterMask client mask) := by
    unfold sendBody
    rw [send_bind_ok hhead]
    by_cases hsend : Sendable msg.data.length
    · rw [if_pos hsend]
      apply send_bind_ok (f := fun _ => (return toInt (msg.data.length + 2) : Sending ℤ)) (a := ())
      unfold writeOrBreak
      rw [hwrite]
      exact if_neg (Int.not_le.mpr hsend)
    · rw [if_neg hsend]
      apply send_bind_error (f := fun _ => (return toInt (msg.data.length + 2) : Sending ℤ))
      unfold writeOrBreak
      rw [hwrite]
      exact if_pos (Int.not_lt.mp hsend)
  unfold WSSendMessage
  rw [hbody]
  by_cases hsend : Sendable msg.data.length
  · simp only [if_pos hsend]
  · simp only [if_neg hsend]

end

theorem opcode_ofInt (o : OPCODE) : BitVec.ofInt 4 (o.value.toNat : ℤ) = o.value := by
  cases o <;> rfl

section
variable (client fin : Bool) (mask : Mask) (opcode : OPCODE) (payload : List UInt8)

theorem sendHead_eq : sendHead client fin ⟨opcode.value.toNat, payload⟩ =
    (fragmentFrame client fin mask opcode payload).head := by
  unfold sendHead
  dsimp only
  rw [opcode_ofInt]
  cases client <;> rfl

theorem sentBytes_eq : sentBytes client fin mask ⟨opcode.value.toNat, payload⟩ =
    (fragmentFrame client fin mask opcode payload).bytes := by
  unfold sentBytes Frame.bytes
  rw [sendHead_eq client fin mask, List.append_assoc, List.append_assoc]
  cases client <;> rfl

theorem WSSendMessage_spec {s : Stream} (hs : s.Accepts) (hlt : payload.length < 2 ^ 63) :
    ∃ takes, (s.withSent takes (fragmentFrame client fin mask opcode payload).bytes).Accepts ∧
      (WSSendMessage client fin mask ⟨opcode.value.toNat, payload⟩ s).2.1 =
        if Sendable payload.length then
          s.withSent takes (fragmentFrame client fin mask opcode payload).bytes
        else (s.withSent takes (fragmentFrame client fin mask opcode payload).bytes).close := by
  obtain ⟨takes, hacc, hsend⟩ :=
    WSSendMessage_sends client fin mask ⟨opcode.value.toNat, payload⟩ hs hlt
  rw [sentBytes_eq] at hacc hsend
  exact ⟨takes, hacc, congrArg Prod.fst hsend⟩

theorem WSSendMessage_closed {s : Stream} (h : s.closed = true) (msg : WSFrameMessage) :
    (WSSendMessage client fin mask msg s).2.1 = s := by
  have hclose : s.close = s := by
    obtain ⟨input, ending, hle, takes, sent, closed⟩ := s
    dsimp only at h
    subst h
    rfl
  have hwrite : writeOrBreak (sendHead client fin msg).bytes (s, msg) = .error () (s, msg) := by
    have hne : (sendHead client fin msg).bytes ≠ [] := List.cons_ne_nil _ _
    unfold writeOrBreak
    rw [Stream.writeFixSize_closed h hne]
    rfl
  have hbody : sendBody client fin mask msg (s, msg) = .error () (s, msg) := by
    unfold sendBody sendHeader
    exact send_bind_error (send_bind_error hwrite)
  unfold WSSendMessage
  rw [hbody]
  exact hclose

end

/-- The fragments of a message, each with its mask, sent in order: the first with the opcode of
the message, the others with `CONTINUE`, `fin` only on the last. -/
def sendFragments (client : Bool) (opcode : OPCODE) : List (Mask × List UInt8) → Stream → Stream
  | [], s => s
  | (mask, payload) :: rest, s =>
    sendFragments client .CONTINUE rest
      (WSSendMessage client rest.isEmpty mask ⟨opcode.value.toNat, payload⟩ s).2.1

/-- The frames that reach the wire: the sender closes the stream after a size that it takes for
a failure. -/
def wireFrames (client : Bool) (opcode : OPCODE) : List (Mask × List UInt8) → List Frame
  | [] => []
  | (mask, payload) :: rest =>
    fragmentFrame client rest.isEmpty mask opcode payload ::
      if Sendable payload.length then wireFrames client .CONTINUE rest else []

theorem sendFragments_closed (client : Bool) (opcode : OPCODE) (frs : List (Mask × List UInt8))
    {s : Stream} (h : s.closed = true) : sendFragments client opcode frs s = s := by
  induction frs generalizing opcode with
  | nil => rfl
  | cons fr rest ih =>
    rw [sendFragments, WSSendMessage_closed _ _ _ h, ih]

theorem sendFragments_sent (client : Bool) (opcode : OPCODE) {frs : List (Mask × List UInt8)}
    (hlt : ∀ fr ∈ frs, fr.2.length < 2 ^ 63) {s : Stream} (hs : s.Accepts) :
    (sendFragments client opcode frs s).sent =
      s.sent ++ (wireFrames client opcode frs).flatMap Frame.bytes := by
  induction frs generalizing opcode s with
  | nil => exact (List.append_nil _).symm
  | cons fr rest ih =>
    obtain ⟨mask, payload⟩ := fr
    obtain ⟨hp, hrest⟩ := List.forall_mem_cons.mp hlt
    obtain ⟨takes, hacc, hsend⟩ := WSSendMessage_spec client rest.isEmpty mask opcode payload hs hp
    rw [sendFragments, hsend, wireFrames]
    by_cases h : Sendable payload.length
    · rw [if_pos h, if_pos h, ih .CONTINUE hrest hacc, List.flatMap_cons, ← List.append_assoc]
      rfl
    · rw [if_neg h, if_neg h, sendFragments_closed client .CONTINUE rest (by rfl)]
      simp [Stream.close, Stream.withSent]

/-! ## The receiver -/

section
variable {maxSize : UInt32} {client : Bool} {r : Received} {f : Frame} {t : Stream}
  {bytes rest : List UInt8}

theorem recvLoop_fails (h : Fails (recvFrame maxSize client r) bytes) (hc : t.closed = false)
    (hp : t.pending = bytes ++ rest) (msg : WSFrameMessage) (t' : Stream) :
    recvLoop maxSize client r t ≠ .ok (some msg, t') := by
  obtain ⟨e, u, hrun⟩ := h t rest hc hp
  cases e with
  | stop =>
    rw [recvLoop_stop hrun]
    intro heq
    cases heq
  | trap w =>
    rw [recvLoop_trap hrun]
    intro heq
    cases heq

/-- The opcode of a message after its next fragment. -/
def Received.nextOpcode (r : Received) (opcode : OPCODE) : ℤ :=
  if r.opcode = 0 ∧ opcode ≠ .CONTINUE then opcode.value.toNat else r.opcode

theorem value_eq_iff (o p : OPCODE) : o.value = p.value ↔ o = p := by
  cases o <;> cases p <;> decide

theorem fragment_opcode (r : Received) (f : Frame) :
    (r.fragment f).opcode = r.nextOpcode f.opcode := by
  change (if r.opcode = 0 ∧ f.opcode.value ≠ OPCODE.CONTINUE.value then _ else _) = _
  simp only [Received.nextOpcode, ne_eq, value_eq_iff]
  rfl

theorem nextOpcode_continue (r : Received) : r.nextOpcode .CONTINUE = r.opcode := by
  rw [Received.nextOpcode, if_neg (by simp)]

end

/-- The payloads that arrive on top of `size` bytes: every fragment has a size that counts as
success, every index is an `int`, and so is the count before each fragment. -/
structure Deliverable (client : Bool) (size : ℕ) (payloads : List (List UInt8)) : Prop where
  nonempty : ∀ p ∈ payloads, p ≠ []
  fits : ∀ p ∈ payloads, p.length ≤ intMax
  count : size + payloads.dropLast.flatten.length ≤ intMax
  index : client = true → size + payloads.flatten.length ≤ 2 ^ 31

section
variable {maxSize : UInt32} {client : Bool} {size : ℕ} {p q : List UInt8} {ps : List (List UInt8)}

theorem accepted_fragment (fin : Bool) (mask : Mask) (opcode : OPCODE) :
    Accepted maxSize (!client) size (fragmentFrame client fin mask opcode p) ↔
      size + p.length < maxSize.toNat ∧ p ≠ [] ∧ p.length ≤ intMax ∧
        (client = true → size + p.length ≤ 2 ^ 31) := by
  have hmask : (fragmentFrame client fin mask opcode p).mask.isSome = client := by
    cases client <;> rfl
  constructor
  · rintro ⟨-, hmax, hne, hle, hidx⟩
    rw [hmask] at hidx
    exact ⟨hmax, hne, hle, hidx⟩
  · rintro ⟨hmax, hne, hle, hidx⟩
    refine ⟨?_, hmax, hne, hle, by rwa [hmask]⟩
    rw [hmask]
    cases client with
    | true => exact Or.inr rfl
    | false => exact Or.inl rfl

theorem deliverable_singleton (hsize : size ≤ intMax) :
    Deliverable client size [p] ↔
      p ≠ [] ∧ p.length ≤ intMax ∧ (client = true → size + p.length ≤ 2 ^ 31) := by
  constructor
  · rintro ⟨hne, hle, -, hidx⟩
    simp only [List.flatten_cons, List.flatten_nil, List.append_nil] at hidx
    exact ⟨hne p (List.mem_singleton_self p), hle p (List.mem_singleton_self p), hidx⟩
  · rintro ⟨hne, hle, hidx⟩
    refine ⟨by simpa using hne, by simpa using hle, by simpa using hsize, ?_⟩
    simpa only [List.flatten_cons, List.flatten_nil, List.append_nil] using hidx

theorem deliverable_cons :
    Deliverable client size (p :: q :: ps) ↔
      (p ≠ [] ∧ p.length ≤ intMax ∧ size + p.length ≤ intMax) ∧
        Deliverable client (size + p.length) (q :: ps) := by
  have hflat : (p :: q :: ps).flatten.length = p.length + (q :: ps).flatten.length := by
    rw [List.flatten_cons, List.length_append]
  have hdrop : (p :: q :: ps).dropLast.flatten.length = p.length + (q :: ps).dropLast.flatten.length := by
    rw [List.dropLast_cons_of_ne_nil (List.cons_ne_nil q ps), List.flatten_cons, List.length_append]
  constructor
  · rintro ⟨hne, hle, hcount, hidx⟩
    obtain ⟨hp, hps⟩ := List.forall_mem_cons.mp hne
    obtain ⟨hpl, hpsl⟩ := List.forall_mem_cons.mp hle
    rw [hdrop] at hcount
    rw [hflat] at hidx
    exact ⟨⟨hp, hpl, by omega⟩, hps, hpsl, by omega, fun hc => by have := hidx hc; omega⟩
  · rintro ⟨⟨hp, hpl, hsum⟩, hne, hle, hcount, hidx⟩
    refine ⟨List.forall_mem_cons.mpr ⟨hp, hne⟩, List.forall_mem_cons.mpr ⟨hpl, hle⟩, ?_, ?_⟩
    · rw [hdrop]
      omega
    · intro hc
      have := hidx hc
      rw [hflat]
      omega

end

/-- The receive loop joins the fragments exactly when they are deliverable. -/
theorem recv_fragments_iff {maxSize : UInt32} {client : Bool} {opcode : OPCODE}
    (hop : opcode.IsData) {frs : List (Mask × List UInt8)} (hne : frs ≠ []) {r : Received}
    (hr : r.Aligned) (hmax : r.data.length + (frs.map Prod.snd).flatten.length < maxSize.toNat)
    {t : Stream} (hc : t.closed = false) {rest : List UInt8}
    (hp : t.pending = (wireFrames client opcode frs).flatMap Frame.bytes ++ rest) :
    (∃ t', recvLoop maxSize (!client) r t =
        .ok (some ⟨r.nextOpcode opcode, r.data ++ (frs.map Prod.snd).flatten⟩, t') ∧
        t'.pending = rest) ↔
      Deliverable client r.data.length (frs.map Prod.snd) := by
  induction frs generalizing opcode r t with
  | nil => exact absurd rfl hne
  | cons fr frs ih =>
    obtain ⟨mask, p⟩ := fr
    have hmaxlt := maxSize.toNat_lt
    have hmax : r.data.length + (p.length + (frs.map Prod.snd).flatten.length) < maxSize.toNat := by
      rwa [List.map_cons, List.flatten_cons, List.length_append] at hmax
    have hpl : p.length < 2 ^ 63 := by omega
    rw [wireFrames, List.flatMap_cons, List.append_assoc] at hp
    have hframe : (fragmentFrame client frs.isEmpty mask opcode p).opcode.IsData := hop
    have hacc : Accepted maxSize (!client) r.data.length
        (fragmentFrame client frs.isEmpty mask opcode p) ↔ _ :=
      accepted_fragment frs.isEmpty mask opcode
    have hno : ¬ Accepted maxSize (!client) r.data.length
          (fragmentFrame client frs.isEmpty mask opcode p) →
        ¬ ∃ t', recvLoop maxSize (!client) r t =
            .ok (some ⟨r.nextOpcode opcode, r.data ++ ((mask, p) :: frs |>.map Prod.snd).flatten⟩, t') ∧
          t'.pending = rest := by
      rintro ha ⟨t', hrun, -⟩
      exact recvLoop_fails (fails_recvFrame hr hframe hpl ha) hc hp _ _ hrun
    cases frs with
    | nil =>
      have hsmall : r.data.length + p.length < maxSize.toNat := by omega
      rw [List.map_cons, List.map_nil, deliverable_singleton hr.2]
      by_cases ha : Accepted maxSize (!client) r.data.length
          (fragmentFrame client true mask opcode p)
      · refine iff_of_true ?_ (hacc.mp ha).2
        obtain ⟨input, hrun, hrest⟩ := takes_recvFrame hr hframe ha t _ hc hp
        refine ⟨t.withInput input, ?_, hrest.trans ?_⟩
        · rw [recvLoop_message hrun, fragment_opcode, List.flatten_cons, List.flatten_nil,
            List.append_nil]
          rfl
        · split <;> rfl
      · exact iff_of_false (hno ha) (fun hd => ha (hacc.mpr ⟨hsmall, hd⟩))
    | cons fr' frs' =>
      obtain ⟨mask', q⟩ := fr'
      have hsmall : r.data.length + p.length < maxSize.toNat := by omega
      rw [List.map_cons, List.map_cons, deliverable_cons]
      by_cases ha : Accepted maxSize (!client) r.data.length
          (fragmentFrame client false mask opcode p)
      · obtain ⟨-, hpne, hple, -⟩ := hacc.mp ha
        have hsend : Sendable p.length := sendable_of_le (List.length_pos_iff.mpr hpne) hple
        rw [if_pos hsend] at hp
        obtain ⟨input, hrun, hrest⟩ := takes_recvFrame hr hframe ha t _ hc hp
        have hdata : (r.fragment (fragmentFrame client false mask opcode p)).data = r.data ++ p := rfl
        have hagain := recvLoop_again hrun
        rw [hagain]
        rcases fragment_state hr ha with ⟨hlt, hr'⟩ | ⟨hge, hover⟩
        · have hsum : r.data.length + p.length ≤ intMax := by
            unfold intMax
            exact Nat.le_sub_one_of_lt hlt
          have hcont : OPCODE.CONTINUE.IsData := Or.inl rfl
          have hih := ih hcont (List.cons_ne_nil _ _) hr'
            (by rw [hdata, List.length_append]; omega) (t := t.withInput input) hc hrest
          rw [nextOpcode_continue, fragment_opcode, hdata, List.length_append, List.append_assoc] at hih
          exact hih.trans ⟨fun hd => ⟨⟨hpne, hple, hsum⟩, hd⟩, fun hd => hd.2⟩
        · have hge' : 2 ^ 31 ≤ r.data.length + p.length := hge
          refine iff_of_false ?_ ?_
          · rintro ⟨t', hrun', -⟩
            rw [wireFrames, List.flatMap_cons, List.append_assoc] at hrest
            have hql : q.length ≤ (((mask', q) :: frs').map Prod.snd).flatten.length := by
              rw [List.map_cons, List.flatten_cons, List.length_append]
              exact Nat.le_add_right _ _
            exact recvLoop_fails (fails_recvFrame_overflowed hover (Or.inl rfl) (Nat.lt_of_le_of_lt hql (by omega)))
              (t := t.withInput input) hc hrest _ _ hrun'
          · rintro ⟨⟨-, -, hsum : r.data.length + p.length ≤ intMax⟩, -⟩
            unfold intMax at hsum
            omega
      · refine iff_of_false (hno ha) ?_
        rintro ⟨⟨hpne, hple, hsum : r.data.length + p.length ≤ intMax⟩, -⟩
        refine ha (hacc.mpr ⟨hsmall, hpne, hple, fun _ => ?_⟩)
        unfold intMax at hsum
        omega

/-- A message sent in any fragments arrives as it was sent, and nothing else is consumed, exactly
when no fragment is empty and the sizes stay within `int`. -/
theorem recvMessage_sendFragments_iff {maxSize : UInt32} (client : Bool) {opcode : OPCODE}
    (hop : opcode = .TEXT_FRAME ∨ opcode = .BIN_FRAME) {frs : List (Mask × List UInt8)}
    (hne : frs ≠ []) (hmax : (frs.map Prod.snd).flatten.length < maxSize.toNat) {s t : Stream}
    (hs : s.Accepts) (hsent : s.sent = []) (hc : t.closed = false) {rest : List UInt8}
    (hp : t.pending = (sendFragments client opcode frs s).sent ++ rest) :
    (∃ t', WSRecvMessage maxSize (!client) t =
        .ok (some ⟨opcode.value.toNat, (frs.map Prod.snd).flatten⟩, t') ∧ t'.pending = rest) ↔
      Deliverable client 0 (frs.map Prod.snd) := by
  have hmaxlt := maxSize.toNat_lt
  have hlt : ∀ fr ∈ frs, fr.2.length < 2 ^ 63 := by
    intro fr hfr
    have hle := (List.sublist_flatten_of_mem (List.mem_map_of_mem (f := Prod.snd) hfr)).length_le
    omega
  have hdata : opcode.IsData := hop.elim (fun h => Or.inr (Or.inl h)) (fun h => Or.inr (Or.inr h))
  have hnext : Received.start.nextOpcode opcode = opcode.value.toNat := by
    rcases hop with rfl | rfl <;> rfl
  rw [sendFragments_sent client opcode hlt hs, hsent, List.nil_append] at hp
  have hiff := recv_fragments_iff hdata hne start_aligned (by simpa [Received.start] using hmax) hc hp
  rw [hnext] at hiff
  exact hiff

/-- A client sends three bytes in two fragments, and the server reads them byte by byte. -/
theorem recvMessage_sendFragments_iff_two :
    ∃ t', WSRecvMessage 100 false (.connected (.singly (sendFragments true .TEXT_FRAME
        [(⟨[1, 2, 3, 4], rfl⟩, [10, 20]), (⟨[5, 6, 7, 8], rfl⟩, [30])] (.connected .empty)).sent)) =
        .ok (some ⟨1, [10, 20, 30]⟩, t') ∧ t'.pending = [] :=
  (@recvMessage_sendFragments_iff 100 true .TEXT_FRAME (Or.inl rfl)
    [(⟨[1, 2, 3, 4], rfl⟩, [10, 20]), (⟨[5, 6, 7, 8], rfl⟩, [30])] (by simp) (by decide)
    _ (.connected (.singly _)) (Stream.connected_accepts .empty) rfl rfl []
    ((Pieces.flatten_singly _).trans (List.append_nil _).symm)).mpr
    ⟨by simp, by simp [intMax], by decide, fun _ => by decide⟩

/-- A client sends an empty text message: the server gives up. -/
theorem empty_message_not_received :
    ¬ ∃ t', WSRecvMessage 100 false (.connected (.singly (sendFragments true .TEXT_FRAME
        [(⟨[1, 2, 3, 4], rfl⟩, [])] (.connected .empty)).sent)) =
        .ok (some ⟨1, []⟩, t') ∧ t'.pending = [] := by
  have hp : (Stream.connected (.singly (sendFragments true .TEXT_FRAME
      [(⟨[1, 2, 3, 4], rfl⟩, [])] (.connected .empty)).sent)).pending =
        (wireFrames true .TEXT_FRAME [(⟨[1, 2, 3, 4], rfl⟩, [])]).flatMap Frame.bytes ++ [] := by
    rw [List.append_nil]
    refine (Pieces.flatten_singly _).trans ?_
    rw [sendFragments_sent true .TEXT_FRAME (by simp) (Stream.connected_accepts .empty)]
    exact List.nil_append _
  intro hex
  have hdel : Deliverable true 0 [[]] :=
    Iff.mp (recv_fragments_iff (Or.inr (Or.inl rfl)) (List.cons_ne_nil _ _) start_aligned (by decide)
      rfl hp) hex
  exact hdel.nonempty [] (List.mem_singleton_self _) rfl

end Flz.Http
