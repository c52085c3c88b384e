import Flz.WebSocket.Model

/-! # What one turn of the receive loop does to one frame

`Takes m bytes a` says that `m`, wherever `bytes` come next, takes exactly these and returns
`a`; `Fails m bytes` says that it never returns there.
-/
namespace Flz.Http
open Lib

/-- A frame; `payload` is meant before masking. -/
structure Frame where
  fin : Bool
  rsv1 : Bool
  rsv2 : Bool
  rsv3 : Bool
  opcode : OPCODE
  mask : Option Mask
  payload : List UInt8

namespace Frame

def head (f : Frame) : WSFrameHead where
  opcode := f.opcode.value
  rsv3 := f.rsv3
  rsv2 := f.rsv2
  rsv1 := f.rsv1
  fin := f.fin
  payload := payloadField f.payload.length
  mask := f.mask.isSome

def maskBytes (f : Frame) : List UInt8 := f.mask.elim [] Subtype.val

/-- The payload as it is sent. -/
def masked (f : Frame) : List UInt8 := f.mask.elim f.payload (fun m => xorMask m.val f.payload)

end Frame

/-- The extended length in its shortest form, highest byte first. -/
def lengthExtension (size : ℕ) : List UInt8 :=
  if size < 126 then [] else if size < 65536 then (leBytes 2 size).reverse
  else (leBytes 8 size).reverse

/-- The frame on the wire. -/
def Frame.bytes (f : Frame) : List UInt8 :=
  f.head.bytes ++ (lengthExtension f.payload.length ++ (f.maskBytes ++ f.masked))

/-! ## Masks and lengths -/

@[simp] theorem xorMask_length (mask data : List UInt8) : (xorMask mask data).length = data.length :=
  List.length_mapIdx

@[simp] theorem xorMask_xorMask (mask data : List UInt8) : xorMask mask (xorMask mask data) = data := by
  apply List.ext_getElem
  · simp
  · intro i _ _
    simp [xorMask, UInt8.xor_assoc]

@[simp] theorem Frame.masked_length (f : Frame) : f.masked.length = f.payload.length := by
  unfold Frame.masked
  cases f.mask with
  | none => rfl
  | some m => exact xorMask_length _ _

theorem payloadField_small {size : ℕ} (h : size < 126) : (payloadField size).toNat = size := by
  rw [payloadField, if_pos h, BitVec.toNat_ofNat]
  exact Nat.mod_eq_of_lt (by omega)

theorem payloadField_ne {size : ℕ} (h : size < 126) :
    payloadField size ≠ 126 ∧ payloadField size ≠ 127 := by
  have hval := payloadField_small h
  constructor
  · intro heq
    rw [heq] at hval
    have : (126 : BitVec 7).toNat = 126 := rfl
    omega
  · intro heq
    rw [heq] at hval
    have : (127 : BitVec 7).toNat = 127 := rfl
    omega

/-- Swapped, a little-endian number stands with its highest byte first. -/
theorem memory_byteswapOnLittleEndian {w : ℕ} (hw : 8 * (w / 8) = w) (v : BitVec w) :
    memory .little (byteswapOnLittleEndian v) = (leBytes (w / 8) v.toNat).reverse :=
  ByteArray.leBytes_byteswap hw v

theorem byteswapOnLittleEndian_ofMemory {w : ℕ} (hw : 8 * (w / 8) = w) (v : BitVec w) :
    byteswapOnLittleEndian (ofMemory .little w (leBytes (w / 8) v.toNat).reverse) = v := by
  rw [← memory_byteswapOnLittleEndian hw, ByteArray.ofMemory_memory .little hw]
  exact ByteArray.byteswap_byteswap hw v

/-! ## Readers on known input -/

/-- Where `bytes` come next, `m` takes them and returns `a`. -/
def Takes {α : Type} (m : Receiving α) (bytes : List UInt8) (a : α) : Prop :=
  ∀ s rest, s.closed = false → s.pending = bytes ++ rest →
    ∃ input, m s = .ok a (s.withInput input) ∧ input.flatten = rest

/-- Where `bytes` come next, `m` leaves the loop. -/
def Fails {α : Type} (m : Receiving α) (bytes : List UInt8) : Prop :=
  ∀ s rest, s.closed = false → s.pending = bytes ++ rest → ∃ e t, m s = .error e t

section
variable {α β : Type} {m : Receiving α} {f : α → Receiving β} {xs ys : List UInt8} {a : α} {b : β}

theorem Takes.pure (a : α) : Takes (pure a) [] a := fun s _ _ hp => ⟨s.input, rfl, hp⟩

theorem Takes.bind (h : Takes m xs a) (hf : Takes (f a) ys b) : Takes (m >>= f) (xs ++ ys) b := by
  intro s rest hc hp
  rw [List.append_assoc] at hp
  obtain ⟨i, hm, hi⟩ := h s _ hc hp
  obtain ⟨j, hfa, hj⟩ := hf (s.withInput i) rest hc hi
  exact ⟨j, (recv_bind_eq hm).trans hfa, hj⟩

/-- A reader that continues with a pure function of what it read. -/
theorem Takes.map (h : Takes m xs a) (hf : Takes (f a) [] b) : Takes (m >>= f) xs b := by
  have hb := h.bind hf
  rwa [List.append_nil] at hb

theorem Takes.bind_fails (h : Takes m xs a) (hf : Fails (f a) ys) : Fails (m >>= f) (xs ++ ys) := by
  intro s rest hc hp
  rw [List.append_assoc] at hp
  obtain ⟨i, hm, hi⟩ := h s _ hc hp
  obtain ⟨e, t, hfa⟩ := hf (s.withInput i) rest hc hi
  exact ⟨e, t, (recv_bind_eq hm).trans hfa⟩

theorem Fails.bind (h : Fails m xs) : Fails (m >>= f) xs := by
  intro s rest hc hp
  obtain ⟨e, t, hm⟩ := h s rest hc hp
  exact ⟨e, t, recv_bind_error hm⟩

/-- A reader that fails within the input fails on the whole of it. -/
theorem Fails.append (h : Fails m xs) (ys : List UInt8) : Fails m (xs ++ ys) := by
  intro s rest hc hp
  rw [List.append_assoc] at hp
  exact h s _ hc hp

theorem fails_throw (e : Exit) (xs : List UInt8) : Fails (throw e : Receiving α) xs :=
  fun s _ _ _ => ⟨e, s, rfl⟩

end

theorem takes_readOrBreak {xs : List UInt8} (hne : xs ≠ []) (hle : xs.length ≤ intMax) :
    Takes (readOrBreak xs.length) xs xs := by
  intro s rest hc hp
  have hpos := List.length_pos_iff.mpr hne
  have hlt : xs.length < 2 ^ 63 := by
    unfold intMax at hle
    omega
  obtain ⟨input, hread, hrest⟩ := Stream.readFixSize_enough hc hp hlt
  refine ⟨input, ?_, hrest⟩
  unfold readOrBreak
  rw [hread]
  dsimp only
  rw [toInt_eq hle, if_neg (by omega)]

/-- Bytes with the highest of a number first. -/
theorem takes_bigEndian {k : ℕ} (hk : 0 < k) (hle : k ≤ intMax) (n : ℕ) :
    Takes (readOrBreak k) (leBytes k n).reverse (leBytes k n).reverse := by
  have hlen : (leBytes k n).reverse.length = k := by rw [List.length_reverse, leBytes_length]
  have hne : (leBytes k n).reverse ≠ [] := List.ne_nil_of_length_pos (by omega)
  have h := takes_readOrBreak hne (by omega)
  rwa [hlen] at h

theorem takes_readLengthField {f : Frame} (hlt : f.payload.length < 2 ^ 64) :
    Takes (readLengthField f.head) (lengthExtension f.payload.length) f.payload.length := by
  have hhead : f.head.payload = payloadField f.payload.length := rfl
  generalize f.payload.length = size at hlt hhead
  unfold readLengthField lengthExtension
  rw [hhead]
  by_cases h126 : size < 126
  · obtain ⟨hne, hne'⟩ := payloadField_ne h126
    rw [if_neg hne, if_neg hne', if_pos h126, payloadField_small h126]
    exact Takes.pure size
  · by_cases h16 : size < 65536
    · have hfield : payloadField size = 126 := by rw [payloadField, if_neg h126, if_pos h16]
      have hval : (BitVec.ofNat 16 size).toNat = size := Nat.mod_eq_of_lt h16
      have hswap : byteswapOnLittleEndian (ofMemory .little 16 (leBytes 2 size).reverse) =
          BitVec.ofNat 16 size := by
        conv_lhs => rw [← hval]
        exact byteswapOnLittleEndian_ofMemory rfl (BitVec.ofNat 16 size)
      rw [if_pos hfield, if_neg h126, if_pos h16]
      refine Takes.map (takes_bigEndian (by decide) (by decide) size) ?_
      rw [hswap, hval]
      exact Takes.pure size
    · have hfield : payloadField size = 127 := by rw [payloadField, if_neg h126, if_neg h16]
      have hval : (BitVec.ofNat 64 size).toNat = size := Nat.mod_eq_of_lt hlt
      have hswap : byteswapOnLittleEndian (ofMemory .little 64 (leBytes 8 size).reverse) =
          BitVec.ofNat 64 size := by
        conv_lhs => rw [← hval]
        exact byteswapOnLittleEndian_ofMemory rfl (BitVec.ofNat 64 size)
      rw [hfield, if_neg (by decide), if_pos rfl, if_neg h126, if_neg h16]
      refine Takes.map (takes_bigEndian (by decide) (by decide) size) ?_
      rw [hswap, hval]
      exact Takes.pure size

/-- The mask that the loop variables hold, zero for an unmasked frame. -/
def Frame.maskUsed (f : Frame) : List UInt8 := f.mask.elim [0, 0, 0, 0] Subtype.val

theorem takes_readMask (f : Frame) : Takes (readMask f.head) f.maskBytes f.maskUsed := by
  have hhead : f.head.mask = f.mask.isSome := rfl
  unfold readMask Frame.maskBytes Frame.maskUsed
  rw [hhead]
  cases f.mask with
  | none => exact Takes.pure _
  | some m =>
    have hne : m.val ≠ [] := by
      rw [← List.length_pos_iff, m.property]
      decide
    have h := takes_readOrBreak hne (by rw [m.property]; decide)
    rw [m.property] at h
    exact h

theorem takes_header (f : Frame) : Takes (readOrBreak 2) f.head.bytes f.head.bytes := by
  have hlen : f.head.bytes.length = 2 := rfl
  have hle : f.head.bytes.length ≤ intMax := by
    rw [hlen]
    decide
  have hne : f.head.bytes ≠ [] := List.cons_ne_nil _ _
  have h := takes_readOrBreak hne hle
  rwa [hlen] at h

/-! ## Data frames -/

/-- The state of the loop when `cur_len` is the number of bytes of `data`. -/
def Received.Aligned (r : Received) : Prop := r.curLen = r.data.length ∧ r.data.length ≤ intMax

/-- The state after more payload than an `int` counts. -/
def Received.Overflowed (r : Received) : Prop := -2 ^ 31 ≤ r.curLen ∧ r.curLen < 0

theorem start_aligned : Received.start.Aligned := ⟨rfl, Nat.zero_le _⟩

theorem sizeSum_aligned {r : Received} (h : r.Aligned) {length : ℕ} (hlt : length < 2 ^ 63) :
    sizeSum r.curLen length = r.data.length + length := by
  obtain ⟨hcur, hle⟩ := h
  unfold intMax at hle
  rw [sizeSum, hcur]
  omega

theorem resize_add (data : List UInt8) (n : ℕ) :
    resize data (data.length + n) = data ++ List.replicate n 0 := by
  unfold resize
  rw [List.take_of_length_le (Nat.le_add_right _ _), Nat.add_sub_cancel_left]

theorem store_end {r : Received} (h : r.Aligned) {n : ℕ} {bytes old : List UInt8}
    (hold : old.length = n) (hbytes : bytes.length = n) :
    store (r.data ++ old) r.curLen bytes = .ok (r.data ++ bytes) := by
  unfold store
  split
  · rename_i hnil
    rw [hnil, List.length_nil] at hbytes
    rw [hnil, List.eq_nil_of_length_eq_zero (hold.trans hbytes.symm)]
  · have hover : overwrite (r.data ++ old) r.data.length bytes = r.data ++ bytes := by
      have hdrop : old.drop bytes.length = [] := List.drop_eq_nil_of_le (by omega)
      rw [overwrite, List.take_left, List.drop_length_add_append, hdrop, List.append_nil]
    rw [h.1, List.length_append, if_pos (by omega), Int.toNat_natCast, hover]

section
variable {maxSize : UInt32} {client : Bool} {r : Received} {f : Frame}

/-- What the loop makes of a data frame. -/
def Received.fragment (r : Received) (f : Frame) : Received :=
  r.add f.head (r.data ++ f.payload) f.payload.length

/-- The data frames that the loop takes when `size` bytes are there already. -/
structure Accepted (maxSize : UInt32) (client : Bool) (size : ℕ) (f : Frame) : Prop where
  masked : client = true ∨ f.mask.isSome = true
  below_max : size + f.payload.length < maxSize.toNat
  nonempty : f.payload ≠ []
  fits : f.payload.length ≤ intMax
  index : f.mask.isSome = true → size + f.payload.length ≤ 2 ^ 31

theorem takes_readPayload (h : r.Aligned) (hne : f.payload ≠ []) (hle : f.payload.length ≤ intMax) :
    Takes (readPayload (resize r.data (r.data.length + f.payload.length)) r.curLen f.payload.length)
      f.masked (r.data ++ f.masked) := by
  intro s rest hc hp
  have hpos := List.length_pos_iff.mpr hne
  have hlt : f.masked.length < 2 ^ 63 := by
    unfold intMax at hle
    rw [Frame.masked_length]
    omega
  obtain ⟨input, hread, hrest⟩ := Stream.readFixSize_enough hc hp hlt
  rw [Frame.masked_length] at hread
  refine ⟨input, ?_, hrest⟩
  unfold readPayload
  rw [hread, resize_add]
  dsimp only
  rw [store_end h List.length_replicate (Frame.masked_length f), toInt_eq hle]
  dsimp only
  rw [if_neg (by omega)]

theorem unmask_fragment (h : r.Aligned) (hne : f.payload ≠ []) (hle : f.payload.length ≤ intMax)
    (hidx : f.mask.isSome = true → r.data.length + f.payload.length ≤ 2 ^ 31) :
    (if f.head.mask then unmask f.maskUsed (r.data ++ f.masked) r.curLen (toInt f.payload.length)
      else .ok (r.data ++ f.masked)) = .ok (r.data ++ f.payload) := by
  have hhead : f.head.mask = f.mask.isSome := rfl
  have hpos := List.length_pos_iff.mpr hne
  have hlen := Frame.masked_length f
  rw [hhead]
  unfold Frame.maskUsed Frame.masked at *
  cases hm : f.mask with
  | none => rfl
  | some m =>
    rw [hm] at hidx hlen
    have := hidx rfl
    dsimp only [Option.isSome_some, Option.elim] at hlen ⊢
    have hback : xorMask m.val (((r.data ++ xorMask m.val f.payload).drop r.data.length).take
        f.payload.length) = f.payload := by
      rw [List.drop_left, List.take_of_length_le (Nat.le_of_eq hlen), xorMask_xorMask]
    rw [if_pos rfl, unmask, toInt_eq hle, if_neg (by omega), if_neg (by rw [h.1]; omega)]
    rw [show r.curLen.toNat = r.data.length by rw [h.1]; rfl, Int.toNat_natCast, hback]
    exact store_end h hlen rfl

theorem takes_recvData (h : r.Aligned) (ha : Accepted maxSize client r.data.length f) :
    Takes (recvData maxSize client f.head r)
      (lengthExtension f.payload.length ++ (f.maskBytes ++ f.masked))
      (if f.fin then .message (r.fragment f) else .again (r.fragment f)) := by
  have hlt := ha.fits
  unfold intMax at hlt
  have hmask : (!client && !f.head.mask) = false := by
    change (!client && !f.mask.isSome) = false
    rcases ha.masked with hc | hm
    · rw [hc]
      rfl
    · rw [hm, Bool.not_true, Bool.and_false]
  unfold recvData
  rw [hmask, if_neg Bool.false_ne_true]
  refine (takes_readLengthField (by omega)).bind ?_
  rw [sizeSum_aligned h (by omega), if_neg (Nat.not_le.mpr ha.below_max)]
  refine (takes_readMask f).bind ((takes_readPayload h ha.nonempty ha.fits).map ?_)
  rw [unmask_fragment h ha.nonempty ha.fits ha.index]
  exact Takes.pure _

/-- A payload that `readFixSize` reports as nothing read. -/
theorem fails_readPayload_of_size (h : r.Aligned) (hlt : f.payload.length < 2 ^ 32)
    (hbad : f.payload = [] ∨ intMax < f.payload.length) :
    Fails (readPayload (resize r.data (r.data.length + f.payload.length)) r.curLen
      f.payload.length) f.masked := by
  intro s rest hc hp
  obtain ⟨input, hread, -⟩ := Stream.readFixSize_enough hc hp (by rw [Frame.masked_length]; omega)
  rw [Frame.masked_length] at hread
  have hrt : toInt f.payload.length ≤ 0 := by
    rw [toInt, BitVec.toInt_ofInt, Int.bmod_def]
    unfold intMax at hbad
    rcases hbad with hnil | hgt
    · rw [hnil]
      decide
    · omega
  refine ⟨.stop, s.withInput input, ?_⟩
  unfold readPayload
  rw [hread, resize_add]
  dsimp only
  rw [store_end h List.length_replicate (Frame.masked_length f)]
  dsimp only
  rw [if_pos hrt]

/-- A data frame that is not accepted ends the loop. -/
theorem fails_recvData (h : r.Aligned) (hlt : f.payload.length < 2 ^ 63)
    (ha : ¬ Accepted maxSize client r.data.length f) :
    Fails (recvData maxSize client f.head r)
      (lengthExtension f.payload.length ++ (f.maskBytes ++ f.masked)) := by
  unfold recvData
  by_cases hmask : (!client && !f.head.mask) = true
  · rw [if_pos hmask]
    exact fails_throw _ _
  · rw [if_neg hmask]
    refine (takes_readLengthField (by omega)).bind_fails ?_
    rw [sizeSum_aligned h hlt]
    by_cases hmax : r.data.length + f.payload.length ≥ maxSize.toNat
    · rw [if_pos hmax]
      exact fails_throw _ _
    · have hmaxlt := maxSize.toNat_lt
      rw [if_neg hmax]
      refine (takes_readMask f).bind_fails ?_
      by_cases hbad : f.payload = [] ∨ intMax < f.payload.length
      · exact (fails_readPayload_of_size h (by omega) hbad).bind
      · obtain ⟨hne, hle⟩ := not_or.mp hbad
        have hle' : f.payload.length ≤ intMax := Nat.le_of_not_lt hle
        have hpos := List.length_pos_iff.mpr hne
        have hidx : f.mask.isSome = true ∧ 2 ^ 31 < r.data.length + f.payload.length := by
          by_contra hno
          refine ha ⟨?_, by omega, hne, hle', fun hs => ?_⟩
          · change ¬ (!client && !f.mask.isSome) = true at hmask
            cases client with
            | true => exact Or.inl rfl
            | false =>
              cases hs : f.mask.isSome with
              | true => exact Or.inr rfl
              | false => exact absurd (by rw [hs]; rfl) hmask
          · by_contra hgt
            exact hno ⟨hs, by omega⟩
        have htrap : ∃ w, unmask f.maskUsed (r.data ++ f.masked) r.curLen
            (toInt f.payload.length) = .error (.trap w) := by
          refine ⟨.indexOverflow r.curLen (toInt f.payload.length), ?_⟩
          rw [unmask, toInt_eq hle', if_neg (by omega), if_pos (by rw [h.1]; omega)]
        obtain ⟨w, hw⟩ := htrap
        have hhead : f.head.mask = true := hidx.1
        have hfail : Fails (liftExcept (if f.head.mask then unmask f.maskUsed (r.data ++ f.masked)
            r.curLen (toInt f.payload.length) else .ok (r.data ++ f.masked))) [] := by
          intro s _ _ _
          rw [hhead, if_pos rfl, hw]
          exact ⟨_, s, rfl⟩
        rw [← List.append_nil f.masked]
        exact (takes_readPayload h hne hle').bind_fails hfail.bind

/-- Once `cur_len` is negative every data frame ends the loop. -/
theorem fails_recvData_overflowed (h : r.Overflowed) (hlt : f.payload.length < 2 ^ 63) :
    Fails (recvData maxSize client f.head r)
      (lengthExtension f.payload.length ++ (f.maskBytes ++ f.masked)) := by
  obtain ⟨hlow, hneg⟩ := h
  have hmaxlt := maxSize.toNat_lt
  unfold recvData
  by_cases hmask : (!client && !f.head.mask) = true
  · rw [if_pos hmask]
    exact fails_throw _ _
  · rw [if_neg hmask]
    refine (takes_readLengthField (by omega)).bind_fails ?_
    by_cases hmax : sizeSum r.curLen f.payload.length ≥ maxSize.toNat
    · rw [if_pos hmax]
      exact fails_throw _ _
    · rw [if_neg hmax]
      have hpos : 0 < f.payload.length := by
        rw [sizeSum] at hmax
        omega
      have hmasked : f.masked ≠ [] := by
        rw [← List.length_pos_iff, Frame.masked_length]
        exact hpos
      refine (takes_readMask f).bind_fails (Fails.bind ?_)
      intro s rest hc hp
      obtain ⟨input, hread, -⟩ := Stream.readFixSize_enough hc hp (by rw [Frame.masked_length]; omega)
      rw [Frame.masked_length] at hread
      have hstore : ∃ e, store (resize r.data (sizeSum r.curLen f.payload.length)) r.curLen
          f.masked = .error e := by
        rw [store, if_neg hmasked, if_neg (by omega)]
        exact ⟨_, rfl⟩
      obtain ⟨e, he⟩ := hstore
      refine ⟨e, s.withInput input, ?_⟩
      unfold readPayload
      rw [hread]
      dsimp only
      rw [he]

end

/-! ## Whole frames -/

/-- `CONTINUE`, `TEXT_FRAME` and `BIN_FRAME`. -/
def OPCODE.IsData (o : OPCODE) : Prop := o = .CONTINUE ∨ o = .TEXT_FRAME ∨ o = .BIN_FRAME

instance (o : OPCODE) : Decidable o.IsData := by unfold OPCODE.IsData; infer_instance

section
variable {maxSize : UInt32} {client : Bool} {r : Received} {f : Frame}

theorem dispatch_data (hf : f.opcode.IsData) :
    dispatch maxSize client r f.head = recvData maxSize client f.head r := by
  have hop : f.head.opcode = f.opcode.value := rfl
  unfold dispatch
  rw [hop]
  rcases hf with hf | hf | hf <;> rw [hf] <;> rfl

theorem takes_recvFrame (h : r.Aligned) (hf : f.opcode.IsData)
    (ha : Accepted maxSize client r.data.length f) :
    Takes (recvFrame maxSize client r) f.bytes
      (if f.fin then .message (r.fragment f) else .again (r.fragment f)) := by
  refine (takes_header f).bind ?_
  rw [WSFrameHead.ofBytes_bytes, dispatch_data hf]
  exact takes_recvData h ha

theorem fails_recvFrame (h : r.Aligned) (hf : f.opcode.IsData) (hlt : f.payload.length < 2 ^ 63)
    (ha : ¬ Accepted maxSize client r.data.length f) :
    Fails (recvFrame maxSize client r) f.bytes := by
  refine (takes_header f).bind_fails ?_
  rw [WSFrameHead.ofBytes_bytes, dispatch_data hf]
  exact fails_recvData h hlt ha

theorem fails_recvFrame_overflowed (h : r.Overflowed) (hf : f.opcode.IsData)
    (hlt : f.payload.length < 2 ^ 63) : Fails (recvFrame maxSize client r) f.bytes := by
  refine (takes_header f).bind_fails ?_
  rw [WSFrameHead.ofBytes_bytes, dispatch_data hf]
  exact fails_recvData_overflowed h hlt

/-- After an accepted fragment the count is right or negative. -/
theorem fragment_state (h : r.Aligned) (ha : Accepted maxSize client r.data.length f) :
    (r.data.length + f.payload.length < 2 ^ 31 ∧ (r.fragment f).Aligned) ∨
      (2 ^ 31 ≤ r.data.length + f.payload.length ∧ (r.fragment f).Overflowed) := by
  have hmax := ha.below_max
  have hmaxlt := maxSize.toNat_lt
  have hcur : (r.fragment f).curLen = toInt (r.curLen + f.payload.length) := rfl
  have hdata : (r.fragment f).data.length = r.data.length + f.payload.length := List.length_append
  have hcast : r.curLen + (f.payload.length : ℤ) = ((r.data.length + f.payload.length : ℕ) : ℤ) := by
    rw [h.1]
    omega
  rw [hcast] at hcur
  by_cases hlt : r.data.length + f.payload.length < 2 ^ 31
  · have hle : r.data.length + f.payload.length ≤ intMax := by
      unfold intMax
      omega
    refine Or.inl ⟨hlt, ?_, ?_⟩
    · rw [hcur, hdata, toInt_eq hle]
    · rw [hdata]
      exact hle
  · refine Or.inr ⟨by omega, ?_⟩
    unfold Received.Overflowed
    rw [hcur, toInt, BitVec.toInt_ofInt, Int.bmod_def]
    omega

end

end Flz.Http
