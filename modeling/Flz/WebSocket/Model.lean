import Flz.ByteArray.Integers
import Flz.Stream

/-! # WebSocket messages

`http/ws_session.h` and `http/ws_session.cc` on a little-endian machine: `WSSendMessage`,
`WSRecvMessage`, `WSPing` and `WSPong`. A `break` leaves a loop and closes the stream.
-/
namespace Flz.Http
open Lib

/-- `WSFrameHead::OPCODE`. -/
inductive OPCODE
  | CONTINUE | TEXT_FRAME | BIN_FRAME | CLOSE | PING | PONG
  deriving DecidableEq, Repr

def OPCODE.value : OPCODE → BitVec 4
  | .CONTINUE => 0
  | .TEXT_FRAME => 1
  | .BIN_FRAME => 2
  | .CLOSE => 8
  | .PING => 9
  | .PONG => 0xA

structure WSFrameHead where
  opcode : BitVec 4
  rsv3 : Bool
  rsv2 : Bool
  rsv1 : Bool
  fin : Bool
  payload : BitVec 7
  mask : Bool
  deriving DecidableEq, Repr

namespace WSFrameHead

/-- The first byte of the packed structure; the fields fill it from the lowest bit on. -/
def byte0 (fin rsv1 rsv2 rsv3 : Bool) (opcode : BitVec 4) : BitVec 8 :=
  BitVec.ofBool fin ++ BitVec.ofBool rsv1 ++ BitVec.ofBool rsv2 ++ BitVec.ofBool rsv3 ++ opcode

def byte1 (mask : Bool) (payload : BitVec 7) : BitVec 8 := BitVec.ofBool mask ++ payload

/-- The structure in memory. -/
def bytes (h : WSFrameHead) : List UInt8 :=
  [UInt8.ofBitVec (byte0 h.fin h.rsv1 h.rsv2 h.rsv3 h.opcode),
    UInt8.ofBitVec (byte1 h.mask h.payload)]

def ofBytes (bs : List UInt8) : WSFrameHead where
  opcode := (bs.getD 0 0).toBitVec.extractLsb' 0 4
  rsv3 := (bs.getD 0 0).toBitVec.getLsbD 4
  rsv2 := (bs.getD 0 0).toBitVec.getLsbD 5
  rsv1 := (bs.getD 0 0).toBitVec.getLsbD 6
  fin := (bs.getD 0 0).toBitVec.getLsbD 7
  payload := (bs.getD 1 0).toBitVec.extractLsb' 0 7
  mask := (bs.getD 1 0).toBitVec.getLsbD 7

theorem byte0_fields (fin rsv1 rsv2 rsv3 : Bool) (opcode : BitVec 4) :
    (byte0 fin rsv1 rsv2 rsv3 opcode).extractLsb' 0 4 = opcode ∧
      (byte0 fin rsv1 rsv2 rsv3 opcode).getLsbD 4 = rsv3 ∧
      (byte0 fin rsv1 rsv2 rsv3 opcode).getLsbD 5 = rsv2 ∧
      (byte0 fin rsv1 rsv2 rsv3 opcode).getLsbD 6 = rsv1 ∧
      (byte0 fin rsv1 rsv2 rsv3 opcode).getLsbD 7 = fin := by
  revert fin rsv1 rsv2 rsv3 opcode
  decide

theorem byte1_fields (mask : Bool) (payload : BitVec 7) :
    (byte1 mask payload).extractLsb' 0 7 = payload ∧ (byte1 mask payload).getLsbD 7 = mask := by
  revert mask payload
  decide

theorem ofBytes_bytes (h : WSFrameHead) : ofBytes h.bytes = h := by
  obtain ⟨opcode, rsv3, rsv2, rsv1, fin, payload, mask⟩ := h
  obtain ⟨h0, h4, h5, h6, h7⟩ := byte0_fields fin rsv1 rsv2 rsv3 opcode
  obtain ⟨h1, hm⟩ := byte1_fields mask payload
  rw [mk.injEq]
  exact ⟨h0, h4, h5, h6, h7, h1, hm⟩

end WSFrameHead

structure WSFrameMessage where
  opcode : ℤ
  data : List UInt8
  deriving DecidableEq, Repr

/-- `char mask[4]`. -/
abbrev Mask := { m : List UInt8 // m.length = 4 }

/-- `data[i] ^= mask[i % 4]` for every `i`. -/
def xorMask (mask data : List UInt8) : List UInt8 :=
  data.mapIdx (fun i b => b ^^^ mask.getD (i % 4) 0)

/-- `byteswapOnLittleEndian` on a little-endian machine. -/
def byteswapOnLittleEndian {w : ℕ} (v : BitVec w) : BitVec w := byteswap v

/-! ## Sending -/

/-- The body of `WSSendMessage`: a `break` is the error. -/
abbrev Sending (α : Type) := EStateM Unit (Stream × WSFrameMessage) α

/-- `if(stream->writeFixSize(...) <= 0) break;` -/
def writeOrBreak (buffer : List UInt8) : Sending Unit := fun p =>
  let out := p.1.writeFixSize buffer
  if out.1 ≤ 0 then .error () (out.2, p.2) else .ok () (out.2, p.2)

/-- The field `payload` for a size. -/
def payloadField (size : ℕ) : BitVec 7 :=
  if size < 126 then BitVec.ofNat 7 size else if size < 65536 then 126 else 127

def writeLength (payload : BitVec 7) (size : ℕ) : Sending Unit :=
  if payload = 126 then
    writeOrBreak (memory .little (byteswapOnLittleEndian (BitVec.ofNat 16 size)))
  else if payload = 127 then
    writeOrBreak (memory .little (byteswapOnLittleEndian (BitVec.ofNat 64 size)))
  else return ()

/-- The message is masked in place. -/
def maskMessage (mask : Mask) : Sending Unit := fun p =>
  .ok () (p.1, { p.2 with data := xorMask mask.val p.2.data })

def writeMask (client : Bool) (mask : Mask) : Sending Unit :=
  if client then do
    maskMessage mask
    writeOrBreak mask.val
  else return ()

def sendHead (client fin : Bool) (msg : WSFrameMessage) : WSFrameHead where
  opcode := BitVec.ofInt 4 msg.opcode
  rsv3 := false
  rsv2 := false
  rsv1 := false
  fin := fin
  payload := payloadField msg.data.length
  mask := client

/-- Everything in front of the payload. -/
def sendHeader (client fin : Bool) (mask : Mask) (msg : WSFrameMessage) : Sending Unit := do
  writeOrBreak (sendHead client fin msg).bytes
  writeLength (sendHead client fin msg).payload msg.data.length
  writeMask client mask

def sendBody (client fin : Bool) (mask : Mask) (msg : WSFrameMessage) : Sending ℤ := do
  sendHeader client fin mask msg
  let (_, masked) ← get
  writeOrBreak masked.data
  return toInt (msg.data.length + 2)

/-- `mask` is what `rand()` gives. -/
def WSSendMessage (client fin : Bool) (mask : Mask) (msg : WSFrameMessage) (s : Stream) :
    ℤ × Stream × WSFrameMessage :=
  match sendBody client fin mask msg (s, msg) with
  | .ok r p => (r, p)
  | .error () p => (-1, p.1.close, p.2)

/-- The header of a frame without payload. -/
def controlHead (opcode : OPCODE) : WSFrameHead where
  opcode := opcode.value
  rsv3 := false
  rsv2 := false
  rsv1 := false
  fin := true
  payload := 0
  mask := false

/-- `WSPing` and `WSPong`. -/
def sendControl (opcode : OPCODE) (s : Stream) : ℤ × Stream :=
  let out := s.writeFixSize (controlHead opcode).bytes
  if out.1 ≤ 0 then (out.1, out.2.close) else out

def WSPing (s : Stream) : ℤ × Stream := sendControl .PING s
def WSPong (s : Stream) : ℤ × Stream := sendControl .PONG s

/-! ## Receiving -/

/-- An access to `data` that C++ gives no meaning to. -/
inductive WildAccess
  | outsideData (offset count : ℤ) (size : ℕ)
  | indexOverflow (offset count : ℤ)
  deriving DecidableEq, Repr

inductive Exit
  | stop
  | trap (w : WildAccess)
  deriving DecidableEq, Repr

/-- A part of the loop body of `WSRecvMessage`: a `break` is the error `stop`. -/
abbrev Receiving (α : Type) := EStateM Exit Stream α

/-- The variables of `WSRecvMessage`. -/
structure Received where
  opcode : ℤ
  data : List UInt8
  curLen : ℤ
  deriving DecidableEq, Repr

def Received.start : Received := ⟨0, [], 0⟩

/-- How a turn of the loop ends that does not leave it by `break`. -/
inductive Turn
  | again (r : Received)
  | message (r : Received)
  deriving DecidableEq, Repr

/-- `if(stream->readFixSize(buffer, length) <= 0) break;` -/
def readOrBreak (length : ℕ) : Receiving (List UInt8) := fun s =>
  let out := s.readFixSize length
  if out.1 ≤ 0 then .error .stop out.2.2 else .ok out.2.1 out.2.2

def readLengthField (ws_head : WSFrameHead) : Receiving ℕ :=
  if ws_head.payload = 126 then do
    let bytes ← readOrBreak 2
    return (byteswapOnLittleEndian (ofMemory .little 16 bytes)).toNat
  else if ws_head.payload = 127 then do
    let bytes ← readOrBreak 8
    return (byteswapOnLittleEndian (ofMemory .little 64 bytes)).toNat
  else return ws_head.payload.toNat

def readMask (ws_head : WSFrameHead) : Receiving (List UInt8) :=
  if ws_head.mask then readOrBreak 4 else return [0, 0, 0, 0]

/-- `cur_len + length`, an addition of `uint64_t`. -/
def sizeSum (curLen : ℤ) (length : ℕ) : ℕ := ((curLen + length) % 2 ^ 64).toNat

/-- `data.resize(size)`. -/
def resize (data : List UInt8) (size : ℕ) : List UInt8 :=
  data.take size ++ List.replicate (size - data.length) 0

/-- The bytes from `offset` on that a write of `bytes` there leaves. -/
def store (data : List UInt8) (offset : ℤ) (bytes : List UInt8) : Except Exit (List UInt8) :=
  if bytes = [] then .ok data
  else if 0 ≤ offset ∧ offset + bytes.length ≤ data.length then
    .ok (overwrite data offset.toNat bytes)
  else .error (.trap (.outsideData offset bytes.length data.length))

/-- `if(stream->readFixSize(&data[cur_len], length) <= 0) break;` -/
def readPayload (data : List UInt8) (curLen : ℤ) (length : ℕ) : Receiving (List UInt8) := fun s =>
  let out := s.readFixSize length
  match store data curLen out.2.1 with
  | .error e => .error e out.2.2
  | .ok data => if out.1 ≤ 0 then .error .stop out.2.2 else .ok data out.2.2

/-- `for(int i = 0; i < count; ++i) data[cur_len + i] ^= mask[i % 4];` -/
def unmask (mask data : List UInt8) (curLen count : ℤ) : Except Exit (List UInt8) :=
  if count ≤ 0 then .ok data
  else if curLen + count > 2 ^ 31 then .error (.trap (.indexOverflow curLen count))
  else store data curLen (xorMask mask ((data.drop curLen.toNat).take count.toNat))

def liftExcept {α : Type} (x : Except Exit α) : Receiving α := fun s =>
  match x with
  | .error e => .error e s
  | .ok a => .ok a s

/-- The loop variables after a fragment. -/
def Received.add (r : Received) (ws_head : WSFrameHead) (data : List UInt8) (length : ℕ) :
    Received where
  opcode :=
    if r.opcode = 0 ∧ ws_head.opcode ≠ OPCODE.CONTINUE.value then ws_head.opcode.toNat
    else r.opcode
  data := data
  curLen := toInt (r.curLen + length)

/-- The branch for `CONTINUE`, `TEXT_FRAME` and `BIN_FRAME`. -/
def recvData (maxSize : UInt32) (client : Bool) (ws_head : WSFrameHead) (r : Received) :
    Receiving Turn :=
  if !client && !ws_head.mask then throw .stop
  else do
    let length ← readLengthField ws_head
    if sizeSum r.curLen length ≥ maxSize.toNat then throw .stop
    else do
      let mask ← readMask ws_head
      let data ← readPayload (resize r.data (sizeSum r.curLen length)) r.curLen length
      let data ← liftExcept
        (if ws_head.mask then unmask mask data r.curLen (toInt length) else .ok data)
      let r' := r.add ws_head data length
      return if ws_head.fin then .message r' else .again r'

/-- `if(WSPong(stream) <= 0) break;` -/
def pongOrBreak : Receiving Unit := fun s =>
  let out := WSPong s
  if out.1 ≤ 0 then .error .stop out.2 else .ok () out.2

/-- What a turn of the loop does after the header is read. -/
def dispatch (maxSize : UInt32) (client : Bool) (r : Received) (ws_head : WSFrameHead) :
    Receiving Turn :=
  if ws_head.opcode = OPCODE.PING.value then do
    pongOrBreak
    return .again r
  else if ws_head.opcode = OPCODE.PONG.value then return .again r
  else if ws_head.opcode = OPCODE.CONTINUE.value ∨ ws_head.opcode = OPCODE.TEXT_FRAME.value ∨
      ws_head.opcode = OPCODE.BIN_FRAME.value then
    recvData maxSize client ws_head r
  else return .again r

/-- One turn of the loop. -/
def recvFrame (maxSize : UInt32) (client : Bool) (r : Received) : Receiving Turn := do
  let bytes ← readOrBreak 2
  dispatch maxSize client r (WSFrameHead.ofBytes bytes)

/-! ## The loop ends -/

/-- `m` never puts bytes back. -/
def Shrinks {α : Type} (m : Receiving α) : Prop :=
  ∀ s a s', m s = .ok a s' → s'.pending.length ≤ s.pending.length

section
variable {α β : Type}

theorem recv_bind_ok {m : Receiving α} {f : α → Receiving β} {s s' : Stream} {b : β}
    (h : (m >>= f) s = .ok b s') : ∃ a t, m s = .ok a t ∧ f a t = .ok b s' := by
  simp only [bind, EStateM.bind] at h
  cases hm : m s with
  | ok a t =>
    rw [hm] at h
    exact ⟨a, t, rfl, h⟩
  | error e t =>
    rw [hm] at h
    cases h

theorem recv_bind_eq {m : Receiving α} {f : α → Receiving β} {s s' : Stream} {a : α}
    (h : m s = .ok a s') : (m >>= f) s = f a s' := by simp only [bind, EStateM.bind, h]

theorem recv_bind_error {m : Receiving α} {f : α → Receiving β} {s s' : Stream} {e : Exit}
    (h : m s = .error e s') : (m >>= f) s = .error e s' := by simp only [bind, EStateM.bind, h]

theorem Shrinks.bind {m : Receiving α} {f : α → Receiving β} (h : Shrinks m)
    (hf : ∀ a, Shrinks (f a)) : Shrinks (m >>= f) := by
  intro s b s' hrun
  obtain ⟨a, t, hm, hfa⟩ := recv_bind_ok hrun
  exact (hf a t b s' hfa).trans (h s a t hm)

theorem Shrinks.pure (a : α) : Shrinks (pure a) := by
  rintro s b s' ⟨⟩
  exact Nat.le_refl _

theorem Shrinks.throw (e : Exit) : Shrinks (throw e : Receiving α) := by
  rintro s b s' ⟨⟩

theorem Shrinks.ite {p : Prop} [Decidable p] {m m' : Receiving α} (h : Shrinks m)
    (h' : Shrinks m') : Shrinks (if p then m else m') := by
  split
  · exact h
  · exact h'

end

theorem readFixSize_le (length : ℕ) (s : Stream) :
    (s.readFixSize length).2.2.pending.length ≤ s.pending.length := by
  rw [← Stream.readFixSize_pending length s, List.length_append]
  exact Nat.le_add_left _ _

theorem readOrBreak_ok {length : ℕ} {s s' : Stream} {bytes : List UInt8} (hlt : length < 2 ^ 63)
    (h : readOrBreak length s = .ok bytes s') :
    bytes ++ s'.pending = s.pending ∧ bytes.length = length := by
  have hpend := Stream.readFixSize_pending length s
  have hlen := Stream.readFixSize_length (s := s) hlt
  unfold readOrBreak at h
  generalize s.readFixSize length = out at h hpend hlen
  obtain ⟨rt, got, t⟩ := out
  dsimp only at h hpend hlen
  by_cases hle : rt ≤ 0
  · rw [if_pos hle] at h
    cases h
  · rw [if_neg hle] at h
    cases h
    exact ⟨hpend, hlen (by omega)⟩

theorem shrinks_readOrBreak {length : ℕ} (hlt : length < 2 ^ 63) : Shrinks (readOrBreak length) := by
  intro s bytes s' h
  rw [← (readOrBreak_ok hlt h).1, List.length_append]
  exact Nat.le_add_left _ _

theorem shrinks_readLengthField (ws_head : WSFrameHead) : Shrinks (readLengthField ws_head) :=
  .ite ((shrinks_readOrBreak (by decide)).bind fun _ => .pure _)
    (.ite ((shrinks_readOrBreak (by decide)).bind fun _ => .pure _) (.pure _))

theorem shrinks_readMask (ws_head : WSFrameHead) : Shrinks (readMask ws_head) :=
  .ite (shrinks_readOrBreak (by decide)) (.pure _)

theorem shrinks_readPayload (data : List UInt8) (curLen : ℤ) (length : ℕ) :
    Shrinks (readPayload data curLen length) := by
  intro s a s' h
  have hle := readFixSize_le length s
  unfold readPayload at h
  generalize s.readFixSize length = out at h hle
  dsimp only at h
  split at h
  · cases h
  · split at h
    · cases h
    · cases h
      exact hle

theorem shrinks_liftExcept {α : Type} (x : Except Exit α) : Shrinks (liftExcept x) := by
  intro s a s' h
  cases x with
  | error e => cases h
  | ok b =>
    cases h
    exact Nat.le_refl _

theorem shrinks_recvData (maxSize : UInt32) (client : Bool) (ws_head : WSFrameHead) (r : Received) :
    Shrinks (recvData maxSize client ws_head r) :=
  .ite (.throw _) <| (shrinks_readLengthField ws_head).bind fun _ =>
    .ite (.throw _) <| (shrinks_readMask ws_head).bind fun _ =>
      (shrinks_readPayload _ _ _).bind fun _ => (shrinks_liftExcept _).bind fun _ => .pure _

theorem sendControl_input (opcode : OPCODE) (s : Stream) : (sendControl opcode s).2.input = s.input := by
  unfold sendControl
  dsimp only
  split
  · exact Stream.writeFixSize_input _ s
  · exact Stream.writeFixSize_input _ s

theorem shrinks_pongOrBreak : Shrinks pongOrBreak := by
  intro s a s' h
  unfold pongOrBreak at h
  dsimp only at h
  split at h
  · cases h
  · cases h
    rw [Stream.pending, WSPong, sendControl_input]
    exact Nat.le_refl _

theorem shrinks_dispatch (maxSize : UInt32) (client : Bool) (r : Received) (ws_head : WSFrameHead) :
    Shrinks (dispatch maxSize client r ws_head) :=
  .ite (shrinks_pongOrBreak.bind fun _ => .pure _) <| .ite (.pure _) <|
    .ite (shrinks_recvData maxSize client ws_head r) (.pure _)

/-- A turn that does not leave the loop by `break` takes a header at least. -/
theorem recvFrame_lt {maxSize : UInt32} {client : Bool} {r : Received} {s s' : Stream} {turn : Turn}
    (h : recvFrame maxSize client r s = .ok turn s') : s'.pending.length < s.pending.length := by
  obtain ⟨bytes, t, hread, hrest⟩ := recv_bind_ok h
  obtain ⟨hpend, hlen⟩ := readOrBreak_ok (by decide) hread
  have hle := shrinks_dispatch maxSize client r _ t turn s' hrest
  rw [← hpend, List.length_append]
  omega

/-- The loop of `WSRecvMessage` and what follows it. -/
def recvLoop (maxSize : UInt32) (client : Bool) (r : Received) (s : Stream) :
    Except WildAccess (Option WSFrameMessage × Stream) :=
  match _h : recvFrame maxSize client r s with
  | .error .stop s' => .ok (none, s'.close)
  | .error (.trap w) _ => .error w
  | .ok (.message r') s' => .ok (some ⟨r'.opcode, r'.data⟩, s')
  | .ok (.again r') s' => recvLoop maxSize client r' s'
termination_by s.pending.length
decreasing_by exact recvFrame_lt (by assumption)

def WSRecvMessage (maxSize : UInt32) (client : Bool) (s : Stream) :
    Except WildAccess (Option WSFrameMessage × Stream) :=
  recvLoop maxSize client .start s

/-- What is pending each time the loop comes to read a header. -/
def loopHeads (maxSize : UInt32) (client : Bool) (r : Received) (s : Stream) : List (List UInt8) :=
  s.pending ::
    match _h : recvFrame maxSize client r s with
    | .ok (.again r') s' => loopHeads maxSize client r' s'
    | _ => []
termination_by s.pending.length
decreasing_by exact recvFrame_lt (by assumption)

section
variable {maxSize : UInt32} {client : Bool} {r r' : Received} {s s' : Stream}

theorem recvLoop_stop (h : recvFrame maxSize client r s = .error .stop s') :
    recvLoop maxSize client r s = .ok (none, s'.close) := by
  rw [recvLoop]
  split <;> simp_all

theorem recvLoop_trap {w : WildAccess} (h : recvFrame maxSize client r s = .error (.trap w) s') :
    recvLoop maxSize client r s = .error w := by
  rw [recvLoop]
  split <;> simp_all

theorem recvLoop_message (h : recvFrame maxSize client r s = .ok (.message r') s') :
    recvLoop maxSize client r s = .ok (some ⟨r'.opcode, r'.data⟩, s') := by
  rw [recvLoop]
  split <;> simp_all

theorem recvLoop_again (h : recvFrame maxSize client r s = .ok (.again r') s') :
    recvLoop maxSize client r s = recvLoop maxSize client r' s' := by
  rw [recvLoop]
  split <;> simp_all

theorem loopHeads_again (h : recvFrame maxSize client r s = .ok (.again r') s') :
    loopHeads maxSize client r s = s.pending :: loopHeads maxSize client r' s' := by
  rw [loopHeads]
  split <;> simp_all

theorem loopHeads_message (h : recvFrame maxSize client r s = .ok (.message r') s') :
    loopHeads maxSize client r s = [s.pending] := by
  rw [loopHeads]
  split <;> simp_all

theorem loopHeads_error {e : Exit} (h : recvFrame maxSize client r s = .error e s') :
    loopHeads maxSize client r s = [s.pending] := by
  rw [loopHeads]
  split <;> simp_all

/-- The first turn reads what is pending at the start. -/
theorem loopHeads_head : ∃ hs, loopHeads maxSize client r s = s.pending :: hs := by
  rw [loopHeads]
  exact ⟨_, rfl⟩

end

end Flz.Http
