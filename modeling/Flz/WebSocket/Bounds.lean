import Flz.WebSocket.Frames

/-! # The receive buffer

Where `WSRecvMessage` writes into `data`, for any bytes a peer may send. `store` and `unmask`
trap when a write leaves `[0, data.size())`; what remains is that `cur_len` counts the bytes of
`data` and that these stay below the limit.
-/
namespace Flz.Http
open Lib

/-- The states in which the receive loop comes to read a header. -/
inductive Reaches (maxSize : UInt32) (client : Bool) (s₀ : Stream) : Received → Stream → Prop
  | start : Reaches maxSize client s₀ .start s₀
  | turn {r r' : Received} {s s' : Stream} (h : Reaches maxSize client s₀ r s)
      (hrun : recvFrame maxSize client r s = .ok (.again r') s') : Reaches maxSize client s₀ r' s'

def Turn.state : Turn → Received
  | .again r => r
  | .message r => r

/-- No wild access, and a value with the property. -/
def SecureResult {α : Type} (post : α → Prop) : EStateM.Result Exit Stream α → Prop
  | .ok a _ => post a
  | .error .stop _ => True
  | .error (.trap _) _ => False

/-- The turn writes inside `data` only, and after it `cur_len` counts the payload accumulated, which
is below the limit if there is any. -/
def SafeTurn (maxSize : UInt32) (client : Bool) (r : Received) (s : Stream) : Prop :=
  SecureResult (fun turn : Turn => turn.state.curLen = turn.state.data.length ∧
    (turn.state.data = [] ∨ turn.state.data.length < maxSize.toNat)) (recvFrame maxSize client r s)

/-- `m` is secure on every stream. -/
def Secure {α : Type} (m : Receiving α) (post : α → Prop) : Prop := ∀ s, SecureResult post (m s)

section
variable {α β : Type} {m : Receiving α} {f : α → Receiving β} {p : α → Prop} {q : β → Prop}

theorem Secure.bind (h : Secure m p) (hf : ∀ a, p a → Secure (f a) q) : Secure (m >>= f) q := by
  intro s
  have hs := h s
  cases hm : m s with
  | ok a t =>
    rw [hm] at hs
    rw [recv_bind_eq hm]
    exact hf a hs t
  | error e t =>
    rw [hm] at hs
    rw [recv_bind_error hm]
    cases e with
    | stop => trivial
    | trap w => exact hs

theorem Secure.pure {a : α} (h : p a) : Secure (pure a) p := fun _ => h

theorem Secure.stop : Secure (throw .stop : Receiving α) p := fun _ => trivial

theorem Secure.ite {c : Prop} [Decidable c] {m' : Receiving α} (h : c → Secure m p)
    (h' : ¬ c → Secure m' p) : Secure (if c then m else m') p := by
  split
  · exact h ‹_›
  · exact h' ‹_›

end

theorem secure_readOrBreak (length : ℕ) : Secure (readOrBreak length) (fun _ => True) := by
  intro s
  unfold readOrBreak
  dsimp only
  split <;> trivial

theorem secure_readLengthField (ws_head : WSFrameHead) :
    Secure (readLengthField ws_head) (fun length => length < 2 ^ 64) := by
  have h7 := ws_head.payload.isLt
  refine .ite (fun _ => (secure_readOrBreak 2).bind fun bytes _ => .pure ?_)
    (fun _ => .ite (fun _ => (secure_readOrBreak 8).bind fun bytes _ => .pure ?_)
      (fun _ => .pure ?_))
  · exact Nat.lt_of_lt_of_le (BitVec.isLt _) (by decide)
  · exact BitVec.isLt _
  · omega

theorem secure_readMask (ws_head : WSFrameHead) : Secure (readMask ws_head) (fun _ => True) :=
  .ite (fun _ => secure_readOrBreak 4) (fun _ => .pure trivial)

/-! ## The payload -/

section
variable {maxSize : UInt32} {client : Bool} {r : Received}

/-- The bytes of a fragment, or a part of them, fit behind the data. -/
theorem store_within (h : r.Aligned) {length : ℕ} {bytes : List UInt8} (hle : bytes.length ≤ length) :
    ∃ data, store (resize r.data (r.data.length + length)) r.curLen bytes = .ok data ∧
      data.length = r.data.length + length := by
  have hlen : (resize r.data (r.data.length + length)).length = r.data.length + length := by
    rw [resize_add, List.length_append, List.length_replicate]
  unfold store
  split
  · exact ⟨_, rfl, hlen⟩
  · have hfit : r.data.length + bytes.length ≤ (resize r.data (r.data.length + length)).length := by
      omega
    rw [if_pos (by rw [h.1]; omega), show r.curLen.toNat = r.data.length by rw [h.1]; rfl]
    exact ⟨_, rfl, (overwrite_length hfit).trans hlen⟩

theorem secure_readPayload (h : r.Aligned) {length : ℕ} (hlt : length < 2 ^ 64)
    (hmax : sizeSum r.curLen length < 2 ^ 31) :
    Secure (readPayload (resize r.data (sizeSum r.curLen length)) r.curLen length)
      (fun data => data.length = r.data.length + length ∧ r.data.length + length < 2 ^ 31) := by
  have hsize := h.2
  have hcur := h.1
  unfold intMax at hsize
  have hsum : sizeSum r.curLen length = (r.data.length + length) % 2 ^ 64 := by
    rw [sizeSum, hcur]
    omega
  intro s
  by_cases hwrap : r.data.length + length < 2 ^ 64
  · rw [Nat.mod_eq_of_lt hwrap] at hsum
    rw [hsum] at hmax ⊢
    obtain ⟨data, hstore, hlen⟩ := store_within h (Stream.readFixSize_bound length s)
    unfold readPayload
    dsimp only
    rw [hstore]
    dsimp only
    split
    · trivial
    · exact ⟨hlen, hmax⟩
  · have hread := Stream.readFixSize_huge s (n := length) (by omega) hlt
    have hneg : toInt length ≤ 0 := by
      rw [toInt, BitVec.toInt_ofInt, Int.bmod_def]
      omega
    unfold readPayload
    rw [hread]
    dsimp only
    rw [store, if_pos rfl]
    dsimp only
    rw [if_pos hneg]
    trivial

theorem secure_unmask (h : r.Aligned) {length : ℕ} (hlt : r.data.length + length < 2 ^ 31)
    {mask data : List UInt8} (hlen : data.length = r.data.length + length) (masked : Bool) :
    Secure (liftExcept (if masked then unmask mask data r.curLen (toInt length) else .ok data))
      (fun data' => data'.length = r.data.length + length) := by
  have hcur := h.1
  have hint : toInt length = length := toInt_eq (by unfold intMax; omega)
  have hres : ∃ data', (if masked then unmask mask data r.curLen (toInt length) else .ok data) =
      .ok data' ∧ data'.length = r.data.length + length := by
    cases masked with
    | false => exact ⟨data, rfl, hlen⟩
    | true =>
      rw [if_pos rfl, unmask, hint]
      split
      · exact ⟨data, rfl, hlen⟩
      · rw [if_neg (by rw [hcur]; omega)]
        have hbytes : (xorMask mask ((data.drop r.curLen.toNat).take (length : ℤ).toNat)).length =
            length := by
          rw [xorMask_length, List.length_take, List.length_drop, hcur]
          omega
        unfold store
        split
        · exact ⟨data, rfl, hlen⟩
        · have hfit : r.data.length +
              (xorMask mask ((data.drop r.curLen.toNat).take (length : ℤ).toNat)).length ≤
                data.length := by omega
          have htoNat : r.curLen.toNat = r.data.length := by
            rw [hcur]
            rfl
          rw [if_pos (by omega), htoNat]
          rw [htoNat] at hfit
          exact ⟨_, rfl, (overwrite_length hfit).trans hlen⟩
  obtain ⟨data', heq, hlen'⟩ := hres
  rw [heq]
  intro s
  exact hlen'

/-- What every turn keeps while the limit is at most `2 ^ 31`. -/
def Received.Bounded (maxSize : UInt32) (r : Received) : Prop :=
  r.Aligned ∧ (r.data = [] ∨ r.data.length < maxSize.toNat)

theorem secure_recvData (hmax : maxSize.toNat ≤ 2 ^ 31) (h : r.Bounded maxSize)
    (ws_head : WSFrameHead) :
    Secure (recvData maxSize client ws_head r) (fun turn => turn.state.Bounded maxSize) := by
  obtain ⟨hr, -⟩ := h
  refine .ite (fun _ => .stop) fun _ => (secure_readLengthField ws_head).bind fun length hlt => ?_
  refine .ite (fun _ => .stop) fun hsum => ?_
  have hsum' : sizeSum r.curLen length < maxSize.toNat := Nat.lt_of_not_le hsum
  have hcount : r.data.length + length < 2 ^ 31 →
      sizeSum r.curLen length = r.data.length + length := by
    intro hlt'
    exact sizeSum_aligned hr (by omega)
  refine (secure_readMask ws_head).bind fun mask _ =>
    (secure_readPayload hr hlt (by omega)).bind fun data hdata => ?_
  obtain ⟨hlen, hfit⟩ := hdata
  refine (secure_unmask hr hfit hlen ws_head.mask).bind fun data' hlen' => .pure ?_
  have hstate : (if ws_head.fin then Turn.message (r.add ws_head data' length)
      else .again (r.add ws_head data' length)).state = r.add ws_head data' length := by
    cases ws_head.fin <;> rfl
  have hle : r.data.length + length ≤ intMax := by
    unfold intMax
    omega
  have hcur : r.curLen + (length : ℤ) = ((r.data.length + length : ℕ) : ℤ) := by
    rw [hr.1]
    omega
  rw [hstate]
  refine ⟨⟨?_, ?_⟩, Or.inr ?_⟩
  · change toInt (r.curLen + length) = (data'.length : ℤ)
    rw [hcur, toInt_eq hle, hlen']
  · change data'.length ≤ intMax
    omega
  · change data'.length < maxSize.toNat
    have := hcount hfit
    omega

theorem secure_pongOrBreak : Secure pongOrBreak (fun _ => True) := by
  intro s
  unfold pongOrBreak
  dsimp only
  split <;> trivial

theorem secure_recvFrame (client : Bool) (hmax : maxSize.toNat ≤ 2 ^ 31) (h : r.Bounded maxSize) :
    Secure (recvFrame maxSize client r) (fun turn => turn.state.Bounded maxSize) :=
  (secure_readOrBreak 2).bind fun bytes _ =>
    .ite (fun _ => secure_pongOrBreak.bind fun _ _ => .pure h) fun _ =>
      .ite (fun _ => .pure h) fun _ =>
        .ite (fun _ => secure_recvData hmax h (WSFrameHead.ofBytes bytes)) fun _ => .pure h

theorem Reaches.bounded (hmax : maxSize.toNat ≤ 2 ^ 31) {s₀ s : Stream}
    (h : Reaches maxSize client s₀ r s) : r.Bounded maxSize := by
  induction h with
  | start => exact ⟨start_aligned, Or.inl rfl⟩
  | @turn r r' s s' _ hrun ih =>
    have hsec := secure_recvFrame client hmax ih s
    rw [hrun] at hsec
    exact hsec

/-- The largest payload that leaves `cur_len` an `int`, and one byte more. -/
def overflowFrames : Frame × Frame :=
  (⟨false, false, false, false, .TEXT_FRAME, none, List.replicate intMax 0⟩,
    ⟨true, false, false, false, .CONTINUE, none, [0]⟩)

/-- The peer that sends these two frames. -/
def overflowStream : Stream :=
  .connected (.whole (overflowFrames.1.bytes ++ (overflowFrames.2.bytes ++ [])))

theorem not_safe_overflow (hmax : 2 ^ 31 < maxSize.toNat) :
    ¬ ∀ r s, Reaches maxSize true overflowStream r s → SafeTurn maxSize true r s := by
  intro hsafe
  have hpend : overflowStream.pending = overflowFrames.1.bytes ++ (overflowFrames.2.bytes ++ []) :=
    Pieces.flatten_whole _
  have hlen : overflowFrames.1.payload.length = intMax := List.length_replicate
  have hmaxint : intMax + 1 = 2 ^ 31 := rfl
  have ha : Accepted maxSize true Received.start.data.length overflowFrames.1 := by
    have hstart : Received.start.data.length = 0 := rfl
    refine ⟨Or.inl rfl, by omega, ?_, by omega, fun h => by cases h⟩
    rw [← List.length_pos_iff, hlen]
    decide
  obtain ⟨input, hrun, hrest⟩ := takes_recvFrame start_aligned (Or.inr (Or.inl rfl)) ha
    overflowStream _ rfl hpend
  have hdata : (Received.start.fragment overflowFrames.1).data.length = intMax := by
    change ([] ++ overflowFrames.1.payload).length = intMax
    rw [List.nil_append, hlen]
  have hone : overflowFrames.2.payload.length = 1 := rfl
  rcases fragment_state start_aligned ha with ⟨-, hr⟩ | ⟨hge, -⟩
  · have ha' : Accepted maxSize true (Received.start.fragment overflowFrames.1).data.length
        overflowFrames.2 :=
      ⟨Or.inl rfl, by omega, List.cons_ne_nil _ _, by rw [hone]; decide, fun h => by cases h⟩
    obtain ⟨input', hrun', -⟩ := takes_recvFrame hr (Or.inl rfl) ha' (overflowStream.withInput input)
      _ rfl hrest
    have hturn := hsafe _ _ (.turn .start hrun)
    rw [SafeTurn, hrun'] at hturn
    obtain ⟨hcur, -⟩ := hturn
    rcases fragment_state hr ha' with ⟨hlt, -⟩ | ⟨-, hover⟩
    · omega
    · have hneg := hover.2
      rw [show (((Received.start.fragment overflowFrames.1).fragment overflowFrames.2).curLen : ℤ) = _
        from hcur] at hneg
      omega
  · have hstart : Received.start.data.length = 0 := rfl
    omega

end

/-- Whatever a peer sends, every write stays inside `data`, `cur_len` does not overflow and the
payload stays below the limit, exactly for limits up to `2 ^ 31`. -/
theorem recvMessage_safe_iff (maxSize : UInt32) :
    (∀ client s₀ r s, Reaches maxSize client s₀ r s → SafeTurn maxSize client r s) ↔
      maxSize.toNat ≤ 2 ^ 31 := by
  constructor
  · intro hsafe
    by_contra hgt
    exact not_safe_overflow (Nat.lt_of_not_le hgt) (hsafe true overflowStream)
  · intro hmax client s₀ r s hreach
    have hsec := secure_recvFrame client hmax (hreach.bounded hmax) s
    unfold SafeTurn
    cases hrun : recvFrame maxSize client r s with
    | ok turn s' =>
      rw [hrun] at hsec
      obtain ⟨⟨hcur, -⟩, hbound⟩ := hsec
      exact ⟨hcur, hbound⟩
    | error e s' =>
      rw [hrun] at hsec
      cases e with
      | stop => trivial
      | trap w => exact hsec

/-- The limit `2 ^ 31 + 1`. -/
theorem limit_above_int_not_safe :
    ¬ ∀ client s₀ r s, Reaches 2147483649 client s₀ r s → SafeTurn 2147483649 client r s :=
  fun hsafe => not_safe_overflow (by decide) (hsafe true overflowStream)

end Flz.Http
