import Flz.WebSocket.RoundTrip
import Mathlib.Logic.Function.Basic

/-! # One message, sent again

`WSSession::sendMessage` and `WSConnection::sendMessage` with a message that the caller keeps, in any
order and on any connections. A client masks the message itself before it is written.
-/
namespace Flz.Http
open Lib

/-- A call of `sendMessage` on connection `conn`: that of a `WSConnection` when `client`, and that of a
`WSSession` otherwise. -/
structure Send where
  conn : ℕ
  client : Bool
  fin : Bool
  mask : Mask

/-- The connections, and the message that the pointer is to. -/
abbrev Shared := (ℕ → Stream) × WSFrameMessage

def sendMessage (p : Shared) (x : Send) : Shared :=
  let out := WSSendMessage x.client x.fin x.mask p.2 (p.1 x.conn)
  (Function.update p.1 x.conn out.2.1, out.2.2)

def sendAll (p : Shared) (xs : List Send) : Shared := xs.foldl sendMessage p

/-- The head and the extended length are written. -/
def writeHead (client fin : Bool) (msg : WSFrameMessage) : Sending Unit := do
  writeOrBreak (sendHead client fin msg).bytes
  writeLength (sendHead client fin msg).payload msg.data.length

/-- The stream takes what comes before the mask. -/
def HeadTaken (client fin : Bool) (msg : WSFrameMessage) (s : Stream) : Prop :=
  ∃ q, writeHead client fin msg (s, msg) = .ok () q

/-- No byte of the mask that meets a byte of the data changes it. -/
def Idle (mask : Mask) (data : List UInt8) : Prop := ∀ i < data.length, mask.val.getD (i % 4) 0 = 0

/-- A client that gets to the mask gets one that changes nothing. -/
def Send.Harmless (x : Send) (p : Shared) : Prop :=
  x.client = true → HeadTaken x.client x.fin p.2 (p.1 x.conn) → Idle x.mask p.2.data

/-- The message is what it was, however many of the sends are done. -/
def Unaltered (p : Shared) (xs : List Send) : Prop := ∀ ys zs, xs = ys ++ zs → (sendAll p ys).2 = p.2

/-- The bytes of the sends on one connection, each of the message `msg`. -/
def sentOn (c : ℕ) (msg : WSFrameMessage) (xs : List Send) : List UInt8 :=
  (xs.filter fun x => x.conn = c).flatMap fun x => sentBytes x.client x.fin x.mask msg

/-- Each connection gets the message as often as it is sent there. -/
def DeliversAll (p : Shared) (xs : List Send) : Prop :=
  ∀ c, ((sendAll p xs).1 c).sent = (p.1 c).sent ++ sentOn c p.2 xs

/-! ## What one send does to the message -/

/-- Nothing but the mask gets at the message. -/
def KeepsMessage {α : Type} (m : Sending α) : Prop :=
  ∀ p, (∃ a q, m p = .ok a q ∧ q.2 = p.2) ∨ ∃ q, m p = .error () q ∧ q.2 = p.2

theorem keeps_writeOrBreak (buffer : List UInt8) : KeepsMessage (writeOrBreak buffer) := by
  intro p
  by_cases hle : (p.1.writeFixSize buffer).1 ≤ 0
  · exact Or.inr ⟨_, if_pos hle, rfl⟩
  · exact Or.inl ⟨(), _, if_neg hle, rfl⟩

theorem KeepsMessage.bind {α β : Type} {m : Sending α} {f : α → Sending β} (h : KeepsMessage m)
    (hf : ∀ a, KeepsMessage (f a)) : KeepsMessage (m >>= f) := by
  intro p
  rcases h p with ⟨a, q, hrun, hq⟩ | ⟨q, hrun, hq⟩
  · rw [send_bind_ok hrun, ← hq]
    exact hf a q
  · exact Or.inr ⟨q, send_bind_error hrun, hq⟩

theorem keeps_pure {α : Type} (a : α) : KeepsMessage (pure a) := fun p => Or.inl ⟨a, p, rfl, rfl⟩

theorem keeps_writeLength (payload : BitVec 7) (size : ℕ) : KeepsMessage (writeLength payload size) := by
  unfold writeLength
  split
  · exact keeps_writeOrBreak _
  · split
    · exact keeps_writeOrBreak _
    · exact keeps_pure ()

/-- The end of `WSSendMessage`: the payload as it is by then. -/
def writePayload (size : ℕ) : Sending ℤ := do
  let (_, masked) ← get
  writeOrBreak masked.data
  return toInt (size + 2)

theorem keeps_writePayload (size : ℕ) : KeepsMessage (writePayload size) := by
  intro p
  exact ((keeps_writeOrBreak p.2.data).bind fun _ => keeps_pure (toInt (size + 2))) p

section
variable {client fin : Bool} {mask : Mask} {msg : WSFrameMessage} {s : Stream}

theorem keeps_writeHead : KeepsMessage (writeHead client fin msg) :=
  (keeps_writeOrBreak _).bind fun _ => keeps_writeLength _ _

theorem sendBody_eq (client fin : Bool) (mask : Mask) (msg : WSFrameMessage) :
    sendBody client fin mask msg =
      (do writeHead client fin msg; writeMask client mask; writePayload msg.data.length) := by
  simp only [sendBody, sendHeader, writeHead, writePayload, bind_assoc]

/-- The message at the end is the one at any point after the mask. -/
theorem WSSendMessage_keeps {m : Sending ℤ} {q : Stream × WSFrameMessage} (hm : KeepsMessage m)
    (h : sendBody client fin mask msg (s, msg) = m q) :
    (WSSendMessage client fin mask msg s).2.2 = q.2 := by
  unfold WSSendMessage
  rw [h]
  rcases hm q with ⟨a, r, hrun, hr⟩ | ⟨r, hrun, hr⟩
  · simp [hrun, hr]
  · simp [hrun, hr]

theorem WSSendMessage_masks (h : HeadTaken client fin msg s) :
    (WSSendMessage client fin mask msg s).2.2 = msg.afterMask client mask := by
  obtain ⟨q, hrun⟩ := h
  have hq : q.2 = msg := by
    rcases keeps_writeHead (s, msg) with ⟨a, r, hr, heq⟩ | ⟨r, hr, -⟩
    · rw [hrun] at hr
      cases hr
      exact heq
    · rw [hrun] at hr
      cases hr
  have hbody := sendBody_eq client fin mask msg
  cases client with
  | false =>
    apply (WSSendMessage_keeps (keeps_writePayload msg.data.length) ?_).trans hq
    rw [hbody, send_bind_ok hrun]
    rfl
  | true =>
    have hrest : KeepsMessage (writeOrBreak mask.val >>= fun _ => writePayload msg.data.length) :=
      (keeps_writeOrBreak _).bind fun _ => keeps_writePayload _
    apply (WSSendMessage_keeps (q := (q.1, q.2.afterMask true mask)) hrest ?_).trans
    · rw [hq]
    · rw [hbody, send_bind_ok hrun]
      simp only [writeMask, bind_assoc, if_true]
      exact send_bind_ok rfl

theorem WSSendMessage_untouched (h : ¬ HeadTaken client fin msg s) :
    (WSSendMessage client fin mask msg s).2.2 = msg := by
  rcases keeps_writeHead (s, msg) with ⟨a, q, hrun, -⟩ | ⟨q, hrun, hq⟩
  · exact absurd ⟨q, hrun⟩ h
  · have hbody := sendBody_eq client fin mask msg
    unfold WSSendMessage
    rw [hbody, send_bind_error hrun]
    exact hq

theorem xor_eq_self_iff (a b : UInt8) : a ^^^ b = a ↔ b = 0 := by
  constructor
  · intro h
    exact (UInt8.xor_right_inj a).mp (h.trans UInt8.xor_zero.symm)
  · rintro rfl
    exact UInt8.xor_zero

theorem xorMask_eq_self_iff {data : List UInt8} : xorMask mask.val data = data ↔ Idle mask data := by
  constructor
  · intro h i hi
    have hbyte := List.getElem_of_eq h (by simpa using hi)
    simp only [xorMask, List.getElem_mapIdx] at hbyte
    exact (xor_eq_self_iff _ _).mp hbyte
  · intro h
    apply List.ext_getElem
    · simp
    · intro i _ hi
      simp only [xorMask, List.getElem_mapIdx]
      exact (xor_eq_self_iff _ _).mpr (h i hi)

theorem afterMask_eq_self_iff :
    msg.afterMask client mask = msg ↔ (client = true → Idle mask msg.data) := by
  cases client with
  | false => simp [WSFrameMessage.afterMask]
  | true =>
    obtain ⟨opcode, data⟩ := msg
    simp [WSFrameMessage.afterMask, xorMask_eq_self_iff]

end

section
variable {p : Shared} {x : Send} {xs : List Send}

theorem sendMessage_unaltered_iff : (sendMessage p x).2 = p.2 ↔ x.Harmless p := by
  by_cases h : HeadTaken x.client x.fin p.2 (p.1 x.conn)
  · rw [sendMessage, WSSendMessage_masks h, afterMask_eq_self_iff]
    simp [Send.Harmless, h]
  · rw [sendMessage, WSSendMessage_untouched h]
    simp [Send.Harmless, h]

/-! ## Any number of sends -/

theorem unaltered_cons :
    Unaltered p (x :: xs) ↔ (sendMessage p x).2 = p.2 ∧ Unaltered (sendMessage p x) xs := by
  constructor
  · intro h
    have hone : (sendMessage p x).2 = p.2 := h [x] xs rfl
    refine ⟨hone, fun ys zs hxs => ?_⟩
    rw [hone, ← h (x :: ys) zs (by simp [hxs])]
    rfl
  · rintro ⟨hone, hrest⟩ ys zs hxs
    cases ys with
    | nil => rfl
    | cons y ys =>
      obtain ⟨rfl, rfl⟩ := List.cons.inj hxs
      rw [← hone, ← hrest ys zs rfl]
      rfl

theorem unaltered_iff : Unaltered p xs ↔
    ∀ ys x zs, xs = ys ++ x :: zs → x.Harmless ((sendAll p ys).1, p.2) := by
  constructor
  · intro h ys x zs hxs
    have hys : (sendAll p ys).2 = p.2 := h ys (x :: zs) hxs
    have hyx : (sendAll p (ys ++ [x])).2 = p.2 := h (ys ++ [x]) zs (by simp [hxs])
    have hstep : sendAll p (ys ++ [x]) = sendMessage (sendAll p ys) x := by simp [sendAll]
    rw [hstep, ← hys] at hyx
    rw [← hys]
    exact sendMessage_unaltered_iff.mp hyx
  · intro h ys zs hxs
    induction ys using List.reverseRecOn generalizing zs with
    | nil => rfl
    | append_singleton ys x ih =>
      have hsplit : xs = ys ++ x :: zs := by simp [hxs]
      have hys : (sendAll p ys).2 = p.2 := ih (x :: zs) hsplit
      have hharmless := h ys x zs hsplit
      rw [← hys] at hharmless
      have hstep : sendAll p (ys ++ [x]) = sendMessage (sendAll p ys) x := by simp [sendAll]
      rw [hstep, sendMessage_unaltered_iff.mpr hharmless, hys]

/-! ## Connections that take everything -/

theorem sentBytes_ne_nil (client fin : Bool) (mask : Mask) (msg : WSFrameMessage) :
    sentBytes client fin mask msg ≠ [] := by
  have hne : (sendHead client fin msg).bytes ≠ [] := List.cons_ne_nil _ _
  simp [sentBytes, hne]

theorem sentOn_cons (c : ℕ) (msg : WSFrameMessage) : sentOn c msg (x :: xs) =
    (if x.conn = c then sentBytes x.client x.fin x.mask msg else []) ++ sentOn c msg xs := by
  by_cases h : x.conn = c <;> simp [sentOn, h]

theorem sentOn_eq_nil_iff {c : ℕ} {msg : WSFrameMessage} :
    sentOn c msg xs = [] ↔ ∀ x ∈ xs, x.conn ≠ c := by
  simp [sentOn, List.flatMap_eq_nil_iff, sentBytes_ne_nil]

/-- A connection that was closed gets nothing any more. -/
theorem sendAll_closed {c : ℕ} (h : (p.1 c).closed = true) : (sendAll p xs).1 c = p.1 c := by
  induction xs generalizing p with
  | nil => rfl
  | cons x xs ih =>
    have hstep : (sendMessage p x).1 c = p.1 c := by
      by_cases hc : c = x.conn
      · subst hc
        simp [sendMessage, WSSendMessage_closed _ _ _ h]
      · simp [sendMessage, hc]
    exact (ih (by rw [hstep]; exact h)).trans hstep

theorem sendMessage_spec (hs : (p.1 x.conn).Accepts) (hlt : p.2.data.length < 2 ^ 63) :
    (sendMessage p x).2 = p.2.afterMask x.client x.mask ∧
      (∀ c, ((sendMessage p x).1 c).sent = (p.1 c).sent ++ sentOn c p.2 [x]) ∧
      (∀ c, c ≠ x.conn → (sendMessage p x).1 c = p.1 c) ∧
      (Sendable p.2.data.length → ((sendMessage p x).1 x.conn).Accepts) ∧
      (¬ Sendable p.2.data.length → ((sendMessage p x).1 x.conn).closed = true) := by
  obtain ⟨takes, hacc, hsend⟩ := WSSendMessage_sends x.client x.fin x.mask p.2 hs hlt
  simp only [sendMessage, hsend]
  refine ⟨trivial, fun c => ?_, fun c hc => by simp [hc], fun h => ?_, fun h => ?_⟩
  · by_cases hc : c = x.conn
    · subst hc
      split <;> simp [sentOn, Stream.withSent, Stream.close]
    · simp [sentOn, hc, Ne.symm hc]
  · simpa [h] using hacc
  · simp [h, Stream.close]

/-- The message is sent to the end, as often as it is sent. -/
theorem repeats_cons (hs : (p.1 x.conn).Accepts) (hlt : p.2.data.length < 2 ^ 63) :
    Unaltered p (x :: xs) ∧ DeliversAll p (x :: xs) ↔ (x.client = true → Idle x.mask p.2.data) ∧
      Unaltered (sendMessage p x) xs ∧ DeliversAll (sendMessage p x) xs := by
  obtain ⟨hmsg, hsent, -⟩ := sendMessage_spec hs hlt
  rw [unaltered_cons, and_assoc, hmsg, afterMask_eq_self_iff]
  apply and_congr_right
  intro hidle
  have hkeep : (sendMessage p x).2 = p.2 := hmsg.trans (afterMask_eq_self_iff.mpr hidle)
  apply and_congr_right
  intro _
  unfold DeliversAll
  apply forall_congr'
  intro c
  rw [hkeep, hsent c, sentOn_cons, sentOn_cons, List.append_assoc, List.append_assoc]
  rfl

/-- A size that is taken for a failure closes the connection behind the first message. -/
theorem not_delivers_closed {c : ℕ} (hc : (p.1 c).closed = true) (h : DeliversAll p xs) :
    ∀ x ∈ xs, x.conn ≠ c := by
  have hsent := h c
  rw [sendAll_closed hc] at hsent
  exact sentOn_eq_nil_iff.mp (List.self_eq_append_right.mp hsent)

theorem repeats_iff (hs : ∀ x ∈ xs, (p.1 x.conn).Accepts) (hlt : p.2.data.length < 2 ^ 63) :
    Unaltered p xs ∧ DeliversAll p xs ↔ (∀ x ∈ xs, x.client = true → Idle x.mask p.2.data) ∧
      (Sendable p.2.data.length ∨ (xs.map Send.conn).Nodup) := by
  induction xs generalizing p with
  | nil =>
    have hnil : Unaltered p [] := by
      intro ys zs hxs
      obtain ⟨rfl, -⟩ := List.append_eq_nil_iff.mp hxs.symm
      rfl
    simp [hnil, DeliversAll, sendAll, sentOn]
  | cons x xs ih =>
    obtain ⟨hx, hxs⟩ := List.forall_mem_cons.mp hs
    rw [repeats_cons hx hlt, List.forall_mem_cons, and_assoc]
    apply and_congr_right
    intro hidle
    obtain ⟨hmsg, -, hother, hopen, hshut⟩ := sendMessage_spec (x := x) hx hlt
    have hkeep : (sendMessage p x).2 = p.2 := hmsg.trans (afterMask_eq_self_iff.mpr hidle)
    have hrest : (Sendable p.2.data.length ∨ ∀ y ∈ xs, y.conn ≠ x.conn) →
        ∀ y ∈ xs, ((sendMessage p x).1 y.conn).Accepts := by
      intro hne y hy
      by_cases hc : y.conn = x.conn
      · rw [hc]
        exact hopen (hne.resolve_right fun h => h y hy hc)
      · rw [hother _ hc]
        exact hxs y hy
    have hnodup : ((x :: xs).map Send.conn).Nodup ↔
        (∀ y ∈ xs, y.conn ≠ x.conn) ∧ (xs.map Send.conn).Nodup := by
      simp
    rw [hnodup]
    constructor
    · rintro ⟨hun, hdel⟩
      have hne : Sendable p.2.data.length ∨ ∀ y ∈ xs, y.conn ≠ x.conn := by
        by_cases h : Sendable p.2.data.length
        · exact Or.inl h
        · exact Or.inr (not_delivers_closed (hshut h) hdel)
      have hih := (ih (hrest hne) (by rw [hkeep]; exact hlt)).mp ⟨hun, hdel⟩
      rw [hkeep] at hih
      tauto
    · rintro ⟨hidles, hsize⟩
      have hne : Sendable p.2.data.length ∨ ∀ y ∈ xs, y.conn ≠ x.conn := hsize.imp_right And.left
      apply (ih (hrest hne) (by rw [hkeep]; exact hlt)).mpr
      rw [hkeep]
      exact ⟨hidles, hsize.imp_right And.right⟩

/-- A message that is sent more than once, and what arrives. Over any connections it stays what it was
exactly when no client masks it. -/
theorem sendAll_repeats_iff (p : Shared) (xs : List Send) :
    (Unaltered p xs ↔ ∀ ys x zs, xs = ys ++ x :: zs → x.Harmless ((sendAll p ys).1, p.2)) ∧
      ((∀ x ∈ xs, (p.1 x.conn).Accepts) → p.2.data.length < 2 ^ 63 →
        (Unaltered p xs ∧ DeliversAll p xs ↔
          (∀ x ∈ xs, x.client = true → Idle x.mask p.2.data) ∧
            (Sendable p.2.data.length ∨ (xs.map Send.conn).Nodup))) :=
  ⟨unaltered_iff, repeats_iff⟩

end

/-- A message from a server to two clients. -/
theorem sendAll_repeats_iff_server :
    let p : Shared := (fun _ => .connected (.whole []), ⟨1, [104, 105]⟩)
    let xs : List Send := [⟨0, false, true, ⟨[1, 2, 3, 4], rfl⟩⟩, ⟨1, false, true, ⟨[5, 6, 7, 8], rfl⟩⟩]
    Unaltered p xs ∧ DeliversAll p xs := by
  refine ((sendAll_repeats_iff _ _).2 (fun x _ => Stream.connected_accepts _) (by decide)).mpr ⟨?_, ?_⟩
  · simp
  · exact Or.inl (by decide)

/-- A client that sends a message twice sends another payload the second time. -/
theorem client_alters_message :
    let p : Shared := (fun _ => .connected (.whole []), ⟨1, [104, 105]⟩)
    let x : Send := ⟨0, true, true, ⟨[1, 2, 3, 4], rfl⟩⟩
    ((sendAll p [x, x]).1 0).sent =
        (fragmentFrame true true x.mask .TEXT_FRAME [104, 105]).bytes ++
          (fragmentFrame true true x.mask .TEXT_FRAME [105, 107]).bytes ∧
      ¬ Unaltered p [x, x] ∧ ¬ DeliversAll p [x, x] := by
  intro p x
  have haltered : (sendAll p [x]).2 ≠ p.2 := by decide
  have hsent : ((sendAll p [x, x]).1 0).sent =
      (fragmentFrame true true x.mask .TEXT_FRAME [104, 105]).bytes ++
        (fragmentFrame true true x.mask .TEXT_FRAME [105, 107]).bytes := by decide
  refine ⟨hsent, fun h => haltered (h [x] [x] rfl), fun h => ?_⟩
  have h0 := (h 0).symm.trans hsent
  revert h0
  decide

end Flz.Http
