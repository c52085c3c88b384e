import Flz.ByteArray.Refinement
import Flz.Lib.Radix
import Flz.Lib.Zigzag

/-! # Integer writers and readers

`ByteArray::writeF*`, `writeInt*`, `writeUint*` and the matching readers. `host` is
`FLZ_BYTE_ORDER`, the byte order of the machine; the template `byteswap` and the members of
each family differ in the width only.
-/
namespace Flz
open Lib

/-- The bytes of a value of type `T` with `8 * sizeof(T) = w` in memory. -/
def memory {w : ℕ} (host : Endian) (v : BitVec w) : List UInt8 :=
  match host with
  | .little => leBytes (w / 8) v.toNat
  | .big => (leBytes (w / 8) v.toNat).reverse

/-- The value of the bytes in memory. -/
def ofMemory (host : Endian) (w : ℕ) (bytes : List UInt8) : BitVec w :=
  match host with
  | .little => BitVec.ofNat w (ofLeBytes bytes)
  | .big => BitVec.ofNat w (ofLeBytes bytes.reverse)

/-- `byteswap` of `my_endian.h`: `bswap_16`, `bswap_32`, `bswap_64` by the width of the type. -/
def byteswap {w : ℕ} (v : BitVec w) : BitVec w :=
  BitVec.ofNat w (ofLeBytes (leBytes (w / 8) v.toNat).reverse)

namespace ByteArray

theorem bind_ok {α β : Type} {m : Access α} {f : α → Access β} {s s' : ByteArray} {a : α}
    (h : m s = .ok a s') : (m >>= f) s = f a s' := by simp [bind, EStateM.bind, h]

theorem bind_error {α β : Type} {m : Access α} {f : α → Access β} {s s' : ByteArray} {e : Trap}
    (h : m s = .error e s') : (m >>= f) s = .error e s' := by simp [bind, EStateM.bind, h]

/-! ## Fixed width -/

/-- `writeFint16` to `writeFuint64`. -/
def writeF {w : ℕ} (host : Endian) (value : BitVec w) : Access Unit := do
  let s ← get
  let value := if s.endian ≠ host then byteswap value else value
  write (memory host value)

/-- The macro `XX` of the fixed-width readers. -/
def readF (host : Endian) (w : ℕ) : Access (BitVec w) := do
  let bytes ← read (w / 8)
  let v := ofMemory host w bytes
  let s ← get
  if s.endian = host then return v else return byteswap v

def writeFint8 (value : Int8) : Access Unit := write [UInt8.ofBitVec value.toBitVec]
def writeFuint8 (value : UInt8) : Access Unit := write [value]
def writeFint16 (host : Endian) (value : Int16) : Access Unit := writeF host value.toBitVec
def writeFuint16 (host : Endian) (value : UInt16) : Access Unit := writeF host value.toBitVec
def writeFint32 (host : Endian) (value : Int32) : Access Unit := writeF host value.toBitVec
def writeFuint32 (host : Endian) (value : UInt32) : Access Unit := writeF host value.toBitVec
def writeFint64 (host : Endian) (value : Int64) : Access Unit := writeF host value.toBitVec
def writeFuint64 (host : Endian) (value : UInt64) : Access Unit := writeF host value.toBitVec

def readFuint8 : Access UInt8 := do
  let bytes ← read 1
  return bytes.headD 0

def readFint8 : Access Int8 := do
  let bytes ← read 1
  return Int8.ofBitVec (bytes.headD 0).toBitVec

def readFint16 (host : Endian) : Access Int16 := return Int16.ofBitVec (← readF host 16)
def readFuint16 (host : Endian) : Access UInt16 := return UInt16.ofBitVec (← readF host 16)
def readFint32 (host : Endian) : Access Int32 := return Int32.ofBitVec (← readF host 32)
def readFuint32 (host : Endian) : Access UInt32 := return UInt32.ofBitVec (← readF host 32)
def readFint64 (host : Endian) : Access Int64 := return Int64.ofBitVec (← readF host 64)
def readFuint64 (host : Endian) : Access UInt64 := return UInt64.ofBitVec (← readF host 64)

/-! ## Variable width -/

/-- The loop of `writeUint32` and `writeUint64`: the bytes put into `tmp`. -/
def varintLoop {w : ℕ} (value : BitVec w) : List UInt8 :=
  if value.toNat ≥ 0x80 then
    UInt8.ofBitVec (((value &&& 0x7F#w) ||| 0x80#w).setWidth 8) :: varintLoop (value >>> 7)
  else [UInt8.ofBitVec (value.setWidth 8)]
termination_by value.toNat
decreasing_by
  simp only [BitVec.toNat_ushiftRight, Nat.shiftRight_eq_div_pow]
  omega

/-- The loop `for(int i = 0; i < w; i += 7)` of `readUint32` and `readUint64`, which runs
`fuel` times at most. -/
def readVarint (w : ℕ) : ℕ → ℕ → BitVec w → Access (BitVec w)
  | 0, _, result => return result
  | fuel + 1, i, result =>
    if i < w then do
      let b ← readFuint8
      if b < 0x80 then return result ||| (b.toBitVec.setWidth w <<< i)
      else readVarint w fuel (i + 7) (result ||| ((b &&& 0x7f).toBitVec.setWidth w <<< i))
    else return result

def EncodeZigzag32 (v : Int32) : UInt32 := UInt32.ofBitVec (zigzag v.toBitVec)
def EncodeZigzag64 (v : Int64) : UInt64 := UInt64.ofBitVec (zigzag v.toBitVec)
def DecodeZigzag32 (v : UInt32) : Int32 := Int32.ofBitVec (unzigzag v.toBitVec)
def DecodeZigzag64 (v : UInt64) : Int64 := Int64.ofBitVec (unzigzag v.toBitVec)

def writeUint32 (value : UInt32) : Access Unit := write (varintLoop value.toBitVec)
def writeUint64 (value : UInt64) : Access Unit := write (varintLoop value.toBitVec)
def writeInt32 (value : Int32) : Access Unit := writeUint32 (EncodeZigzag32 value)
def writeInt64 (value : Int64) : Access Unit := writeUint64 (EncodeZigzag64 value)

def readUint32 : Access UInt32 := return UInt32.ofBitVec (← readVarint 32 32 0 0)
def readUint64 : Access UInt64 := return UInt64.ofBitVec (← readVarint 64 64 0 0)
def readInt32 : Access Int32 := return DecodeZigzag32 (← readUint32)
def readInt64 : Access Int64 := return DecodeZigzag64 (← readUint64)

/-! ## What the writers put and the readers take -/

/-- `m` returns and puts `bytes` at the cursor. -/
def Writes (endian : Endian) (m : Access Unit) (bytes : List UInt8) : Prop :=
  ∀ s c, Represents s c → s.endian = endian →
    ∃ s', m s = .ok () s' ∧ Represents s' (c.put bytes) ∧ s'.endian = endian ∧
      s'.baseSize = s.baseSize ∧
      s'.capacity ≤ max s.capacity (s.position + bytes.length + s.baseSize - 1)

/-- From a cursor with `bytes` behind it `m` returns `a` and moves past them. -/
def Reads {α : Type} (endian : Endian) (m : Access α) (bytes : List UInt8) (a : α) : Prop :=
  ∀ s c tail, Represents s c → s.endian = endian → c.rest = bytes ++ tail →
    ∃ s' c', m s = .ok a s' ∧ Represents s' c' ∧ c'.items = c.items ∧
      c'.pos = c.pos + bytes.length ∧ s'.endian = endian ∧ s'.capacity = s.capacity

theorem rest_after {c c' : Cursor UInt8} {bytes tail : List UInt8} (hrest : c.rest = bytes ++ tail)
    (hitems : c'.items = c.items) (hpos : c'.pos = c.pos + bytes.length) : c'.rest = tail := by
  unfold Cursor.rest at hrest ⊢
  rw [hitems, hpos, ← List.drop_drop, hrest, List.drop_left]

theorem writes_write (endian : Endian) (buf : List UInt8) : Writes endian (write buf) buf := by
  intro s c h he
  obtain ⟨s', hrun, hr, hb, he', hcap⟩ := write_spec h buf
  exact ⟨s', hrun, hr, he'.trans he, hb, hcap⟩

theorem reads_read (endian : Endian) {bytes : List UInt8} (hne : bytes ≠ []) :
    Reads endian (read bytes.length) bytes bytes := by
  intro s c tail h he hrest
  have hle : bytes.length ≤ c.rest.length := by
    rw [hrest, List.length_append]
    omega
  obtain ⟨s', hrun, hr, -, he', hcap, -⟩ := read_spec h (List.length_pos_iff.mpr hne) hle
  rw [Cursor.take_rest_append hrest] at hrun
  exact ⟨s', _, hrun, hr, rfl, rfl, he'.trans he, hcap⟩

/-- A reader that continues with a pure function of what it read. -/
theorem Reads.map {α β : Type} {endian : Endian} {m : Access α} {bytes : List UInt8} {a : α}
    (h : Reads endian m bytes a) {f : α → Access β} {b : β}
    (hf : ∀ s : ByteArray, s.endian = endian → f a s = .ok b s) :
    Reads endian (m >>= f) bytes b := by
  intro s c tail hr he hrest
  obtain ⟨s', c', hrun, hr', hi, hp, he', hc⟩ := h s c tail hr he hrest
  exact ⟨s', c', (bind_ok hrun).trans (hf s' he'), hr', hi, hp, he', hc⟩

theorem Reads.pure {α β : Type} {endian : Endian} {m : Access α} {bytes : List UInt8} {a : α}
    (h : Reads endian m bytes a) (g : α → β) :
    Reads endian (do return g (← m)) bytes (g a) := h.map (fun _ _ => rfl)

/-- Readers one after the other. -/
theorem Reads.bind {α β : Type} {endian : Endian} {m : Access α} {f : α → Access β}
    {xs ys : List UInt8} {a : α} {b : β} (h : Reads endian m xs a) (hf : Reads endian (f a) ys b) :
    Reads endian (m >>= f) (xs ++ ys) b := by
  intro s c tail hr he hrest
  rw [List.append_assoc] at hrest
  obtain ⟨t, d, hrun, ht, hi, hp, he', hc⟩ := h s c (ys ++ tail) hr he hrest
  obtain ⟨s', c', hrun', hr', hi', hp', he'', hc'⟩ := hf t d tail ht he' (rest_after hrest hi hp)
  refine ⟨s', c', (bind_ok hrun).trans hrun', hr', hi'.trans hi, ?_, he'', hc'.trans hc⟩
  rw [hp', hp, List.length_append, Nat.add_assoc]

section Memory
variable {w : ℕ} (host : Endian)

@[simp] theorem memory_length (v : BitVec w) : (memory host v).length = w / 8 := by
  cases host <;> simp [memory]

theorem toNat_lt_radix (hw : 8 * (w / 8) = w) (v : BitVec w) : v.toNat < 256 ^ (w / 8) := by
  have h := v.isLt
  rwa [show 256 = 2 ^ 8 from rfl, ← Nat.pow_mul, hw]

theorem ofMemory_memory (hw : 8 * (w / 8) = w) (v : BitVec w) :
    ofMemory host w (memory host v) = v := by
  have hv := toNat_lt_radix hw v
  cases host <;> simp [memory, ofMemory, ofLeBytes_leBytes hv]

theorem leBytes_byteswap (hw : 8 * (w / 8) = w) (v : BitVec w) :
    leBytes (w / 8) (byteswap v).toNat = (leBytes (w / 8) v.toNat).reverse := by
  have hlen : (leBytes (w / 8) v.toNat).reverse.length = w / 8 := by simp
  have hlt := ofLeBytes_lt (leBytes (w / 8) v.toNat).reverse
  rw [hlen, show 256 = 2 ^ 8 from rfl, ← Nat.pow_mul, hw] at hlt
  have hback := leBytes_ofLeBytes (leBytes (w / 8) v.toNat).reverse
  rw [hlen] at hback
  rw [byteswap, BitVec.toNat_ofNat, Nat.mod_eq_of_lt hlt, hback]

theorem byteswap_byteswap (hw : 8 * (w / 8) = w) (v : BitVec w) : byteswap (byteswap v) = v := by
  rw [byteswap, leBytes_byteswap hw, List.reverse_reverse, ofLeBytes_leBytes (toNat_lt_radix hw v)]
  simp

/-- The bytes a fixed-width writer puts under the given setting. -/
def fixedBytes (endian : Endian) (v : BitVec w) : List UInt8 :=
  memory host (if endian ≠ host then byteswap v else v)

theorem writes_writeF (endian : Endian) (v : BitVec w) :
    Writes endian (writeF host v) (fixedBytes host endian v) := by
  intro s c h he
  have hrun : writeF host v s = write (fixedBytes host endian v) s := by
    subst he
    rfl
  rw [hrun]
  exact writes_write endian _ s c h he

theorem reads_readF (endian : Endian) (hw : 8 * (w / 8) = w) (hpos : 0 < w) (v : BitVec w) :
    Reads endian (readF host w) (fixedBytes host endian v) v := by
  have hlen : (fixedBytes host endian v).length = w / 8 := memory_length host _
  have hne : fixedBytes host endian v ≠ [] := by
    apply List.ne_nil_of_length_pos
    omega
  have hread := reads_read endian hne
  rw [hlen] at hread
  refine hread.map ?_
  intro s he
  subst he
  have hmem : ofMemory host w (fixedBytes host s.endian v) =
      if s.endian ≠ host then byteswap v else v := ofMemory_memory host hw _
  change (if s.endian = host then _ else _ : Access (BitVec w)) s = _
  by_cases hh : s.endian = host
  · rw [if_pos hh, hmem, if_neg (not_not_intro hh)]
    rfl
  · rw [if_neg hh, hmem, if_pos hh, byteswap_byteswap hw]
    rfl

end Memory

theorem reads_readFuint8 (endian : Endian) (b : UInt8) : Reads endian readFuint8 [b] b := by
  have h := reads_read endian (List.cons_ne_nil b [])
  exact h.map (fun s _ => rfl)

theorem reads_readFint8 (endian : Endian) (v : Int8) :
    Reads endian readFint8 [UInt8.ofBitVec v.toBitVec] v := by
  have h := reads_read endian (List.cons_ne_nil (UInt8.ofBitVec v.toBitVec) [])
  exact h.map (fun s _ => rfl)

/-- The write loop computes the base-128 form. -/
theorem varintLoop_eq {w : ℕ} (hw : 8 ≤ w) (v : BitVec w) : varintLoop v = varint v.toNat := by
  have h7 : (0x7F#w).toNat = 2 ^ 7 - 1 := by
    rw [BitVec.toNat_ofNat]
    exact Nat.mod_eq_of_lt (Nat.lt_of_lt_of_le (by decide) (Nat.pow_le_pow_right (by decide) hw))
  have h8 : (0x80#w).toNat = 2 ^ 7 := by
    rw [BitVec.toNat_ofNat]
    exact Nat.mod_eq_of_lt (Nat.lt_of_lt_of_le (by decide) (Nat.pow_le_pow_right (by decide) hw))
  fun_induction varintLoop v with
  | case1 v hge ih =>
    have hdiv : (v >>> 7).toNat = v.toNat / 128 := by
      rw [BitVec.toNat_ushiftRight, Nat.shiftRight_eq_div_pow]
    have hbyte : UInt8.ofBitVec (((v &&& 0x7F#w) ||| 0x80#w).setWidth 8) =
        UInt8.ofNat (v.toNat % 128 + 128) := by
      apply UInt8.toNat_inj.mp
      simp only [UInt8.toNat_ofBitVec, BitVec.toNat_setWidth, BitVec.toNat_or, BitVec.toNat_and,
        h7, h8, Nat.and_two_pow_sub_one_eq_mod, UInt8.toNat_ofNat']
      rw [Nat.or_two_pow_eq_add_of_lt (Nat.mod_lt _ (by decide))]
    rw [varint_large (by omega), ih, hdiv, hbyte]
  | case2 v hlt =>
    rw [varint_small (by omega)]
    congr 1
    apply UInt8.toNat_inj.mp
    rw [UInt8.toNat_ofBitVec, BitVec.toNat_setWidth, UInt8.toNat_ofNat']

/-- `tmp` has room for all bytes: five for 32 bits, ten for 64. -/
theorem varintLoop_length_le (v : BitVec 32) (u : BitVec 64) :
    (varintLoop v).length ≤ 5 ∧ (varintLoop u).length ≤ 10 := by
  have hv := v.isLt
  have hu := u.isLt
  rw [varintLoop_eq (by decide), varintLoop_eq (by decide)]
  exact ⟨varint_length_le (by decide) (by omega), varint_length_le (by decide) (by omega)⟩

/-- Or-ing a shifted digit onto a smaller number adds it. -/
theorem or_shift_toNat {w i n : ℕ} {r : BitVec w} (hr : r.toNat < 2 ^ i) (b : BitVec 8)
    (hn : b.toNat = n) (hfit : n * 2 ^ i < 2 ^ w) :
    (r ||| (b.setWidth w <<< i)).toNat = r.toNat + n * 2 ^ i := by
  have hpow : 0 < 2 ^ i := Nat.two_pow_pos i
  have hle : n ≤ n * 2 ^ i := Nat.le_mul_of_pos_right n hpow
  rw [BitVec.toNat_or, BitVec.toNat_shiftLeft, BitVec.toNat_setWidth, hn,
    Nat.mod_eq_of_lt (show n < 2 ^ w by omega), Nat.shiftLeft_eq, Nat.mod_eq_of_lt hfit,
    Nat.or_comm, Nat.mul_comm n, ← Nat.two_pow_add_eq_or_of_lt hr, Nat.add_comm]

/-- The last byte of a base-128 number is its last digit. -/
theorem last_byte {n : ℕ} (h : n < 128) : UInt8.ofNat n < 0x80 ∧ (UInt8.ofNat n).toBitVec.toNat = n := by
  constructor
  · rw [UInt8.lt_iff_toNat_lt, UInt8.toNat_ofNat']
    change n % 2 ^ 8 < 128
    omega
  · change (UInt8.ofNat n).toNat = n
    rw [UInt8.toNat_ofNat']
    omega

/-- Every other byte is marked, and its digit is what is left without the mark. -/
theorem marked_byte (n : ℕ) : ¬ UInt8.ofNat (n % 128 + 128) < 0x80 ∧
    (UInt8.ofNat (n % 128 + 128) &&& 0x7f).toBitVec.toNat = n % 128 := by
  constructor
  · rw [UInt8.lt_iff_toNat_lt, UInt8.toNat_ofNat']
    change ¬ (n % 128 + 128) % 2 ^ 8 < 128
    omega
  · change (UInt8.ofNat (n % 128 + 128) &&& 0x7f).toNat = n % 128
    rw [UInt8.toNat_and, UInt8.toNat_ofNat']
    change ((n % 128 + 128) % 2 ^ 8) &&& (2 ^ 7 - 1) = n % 128
    rw [Nat.and_two_pow_sub_one_eq_mod]
    omega

/-- The read loop takes one base-128 number; its digits so far are in `result`. -/
theorem reads_readVarint (endian : Endian) {w : ℕ} (fuel i n : ℕ) (result : BitVec w)
    (hres : result.toNat < 2 ^ i) (hi : i < w) (hfuel : w < i + 7 * fuel + 1)
    (hn : n = 0 → i = 0) (hfit : n * 2 ^ i < 2 ^ w) :
    Reads endian (readVarint w fuel i result) (varint n)
      (BitVec.ofNat w (result.toNat + n * 2 ^ i)) := by
  induction fuel generalizing i n result with
  | zero => omega
  | succ fuel ih =>
    by_cases hsmall : n < 128
    · obtain ⟨hlt, hbn⟩ := last_byte hsmall
      rw [varint_small hsmall]
      simp only [readVarint, if_pos hi]
      refine (reads_readFuint8 endian (UInt8.ofNat n)).map ?_
      intro s _
      rw [if_pos hlt]
      have hval : result ||| ((UInt8.ofNat n).toBitVec.setWidth w <<< i) =
          BitVec.ofNat w (result.toNat + n * 2 ^ i) := by
        apply BitVec.eq_of_toNat_eq
        rw [BitVec.toNat_ofNat, ← or_shift_toNat hres _ hbn hfit]
        exact (Nat.mod_eq_of_lt (BitVec.isLt _)).symm
      rw [hval]
      rfl
    · have hpow : 2 ^ (i + 7) = 128 * 2 ^ i := by
        rw [Nat.pow_add, Nat.mul_comm]
      have hdm := Nat.div_add_mod n 128
      have hnext : n / 128 * 2 ^ (i + 7) + n % 128 * 2 ^ i = n * 2 ^ i := by
        rw [hpow, ← Nat.mul_assoc, ← Nat.add_mul]
        congr 1
        omega
      obtain ⟨hge, hbn⟩ := marked_byte n
      have hor := or_shift_toNat hres _ hbn (show n % 128 * 2 ^ i < 2 ^ w by omega)
      have hlow : n % 128 * 2 ^ i ≤ 127 * 2 ^ i := Nat.mul_le_mul_right _ (by omega)
      have hone : 2 ^ (i + 7) ≤ n / 128 * 2 ^ (i + 7) :=
        Nat.le_mul_of_pos_left _ (by omega)
      have hi7 : i + 7 < w := by
        apply (Nat.pow_lt_pow_iff_right (show 1 < 2 by decide)).mp
        omega
      have hrec := ih (i + 7) (n / 128)
        (result ||| ((UInt8.ofNat (n % 128 + 128) &&& 0x7f).toBitVec.setWidth w <<< i))
        (by omega) hi7 (by omega) (by omega) (by omega)
      rw [hor] at hrec
      rw [varint_large hsmall]
      simp only [readVarint, if_pos hi]
      have hbind := (reads_readFuint8 endian (UInt8.ofNat (n % 128 + 128))).bind
        (f := fun b : UInt8 => if b < 0x80 then
            (return result ||| (b.toBitVec.setWidth w <<< i) : Access (BitVec w))
          else readVarint w fuel (i + 7)
            (result ||| ((b &&& 0x7f).toBitVec.setWidth w <<< i)))
        (by simpa only [if_neg hge] using hrec)
      rwa [show result.toNat + n % 128 * 2 ^ i + n / 128 * 2 ^ (i + 7) =
        result.toNat + n * 2 ^ i by omega] at hbind

theorem reads_readUint32 (endian : Endian) (v : UInt32) :
    Reads endian readUint32 (varintLoop v.toBitVec) v := by
  have hv := v.toBitVec.isLt
  rw [varintLoop_eq (by decide)]
  have h := reads_readVarint endian 32 0 v.toBitVec.toNat (0 : BitVec 32) (by decide) (by decide)
    (by decide) (fun _ => rfl) (by omega)
  refine h.map ?_
  intro s _
  have hval : UInt32.ofBitVec (BitVec.ofNat 32 (BitVec.toNat (0 : BitVec 32) +
      v.toBitVec.toNat * 2 ^ 0)) = v := by
    apply UInt32.toBitVec_inj.mp
    simp
  rw [hval]
  rfl

theorem reads_readUint64 (endian : Endian) (v : UInt64) :
    Reads endian readUint64 (varintLoop v.toBitVec) v := by
  have hv := v.toBitVec.isLt
  rw [varintLoop_eq (by decide)]
  have h := reads_readVarint endian 64 0 v.toBitVec.toNat (0 : BitVec 64) (by decide) (by decide)
    (by decide) (fun _ => rfl) (by omega)
  refine h.map ?_
  intro s _
  have hval : UInt64.ofBitVec (BitVec.ofNat 64 (BitVec.toNat (0 : BitVec 64) +
      v.toBitVec.toNat * 2 ^ 0)) = v := by
    apply UInt64.toBitVec_inj.mp
    simp
  rw [hval]
  rfl

theorem DecodeZigzag32_EncodeZigzag32 (v : Int32) : DecodeZigzag32 (EncodeZigzag32 v) = v := by
  apply Int32.toBitVec_inj.mp
  exact unzigzag_zigzag v.toBitVec

theorem DecodeZigzag64_EncodeZigzag64 (v : Int64) : DecodeZigzag64 (EncodeZigzag64 v) = v := by
  apply Int64.toBitVec_inj.mp
  exact unzigzag_zigzag v.toBitVec

theorem reads_readInt32 (endian : Endian) (v : Int32) :
    Reads endian readInt32 (varintLoop (EncodeZigzag32 v).toBitVec) v := by
  refine (reads_readUint32 endian (EncodeZigzag32 v)).map ?_
  intro s _
  rw [DecodeZigzag32_EncodeZigzag32]
  rfl

theorem reads_readInt64 (endian : Endian) (v : Int64) :
    Reads endian readInt64 (varintLoop (EncodeZigzag64 v).toBitVec) v := by
  refine (reads_readUint64 endian (EncodeZigzag64 v)).map ?_
  intro s _
  rw [DecodeZigzag64_EncodeZigzag64]
  rfl

end ByteArray
end Flz
