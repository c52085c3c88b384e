import Flz.ByteArray.Sequence
import Mathlib.Algebra.Order.BigOperators.Group.List

/-! # Strings behind a length

`writeStringF16`, `writeStringF32`, `writeStringF64`, `writeStringVint` and their readers. The
readers take the length, size a `std::string` and call `read` on it, also for no byte at all.
`maxSize` is `std::string::max_size()`.
-/
namespace Flz.ByteArray
open Lib

/-- The four writers: the length in the type of its writer, then the characters. -/
def writeString (writeLength : ℕ → Access Unit) (value : List UInt8) : Access Unit := do
  writeLength value.length
  write value

/-- The four readers; `resize` throws beyond `max_size()`. -/
def readString (maxSize : ℕ) (readLength : Access ℕ) : Access (List UInt8) := do
  let len ← readLength
  if len > maxSize then throw .lengthError
  else read len

def writeStringF16 (host : Endian) (value : List UInt8) : Access Unit :=
  writeString (fun n => writeFuint16 host (UInt16.ofNat n)) value
def writeStringF32 (host : Endian) (value : List UInt8) : Access Unit :=
  writeString (fun n => writeFuint32 host (UInt32.ofNat n)) value
def writeStringF64 (host : Endian) (value : List UInt8) : Access Unit :=
  writeString (fun n => writeFuint64 host (UInt64.ofNat n)) value
def writeStringVint (value : List UInt8) : Access Unit :=
  writeString (fun n => writeUint64 (UInt64.ofNat n)) value

def readStringF16 (maxSize : ℕ) (host : Endian) : Access (List UInt8) :=
  readString maxSize (return (← readFuint16 host).toNat)
def readStringF32 (maxSize : ℕ) (host : Endian) : Access (List UInt8) :=
  readString maxSize (return (← readFuint32 host).toNat)
def readStringF64 (maxSize : ℕ) (host : Endian) : Access (List UInt8) :=
  readString maxSize (return (← readFuint64 host).toNat)
def readStringVint (maxSize : ℕ) : Access (List UInt8) :=
  readString maxSize (return (← readUint64).toNat)

/-! ## The length of a string on the wire -/

/-- The writer and reader pairs for strings. -/
inductive Format
  | f16 | f32 | f64 | vint
  deriving DecidableEq, Repr

/-- A string with the writer it goes through. A `uint16_t` holds the length of the first kind. -/
structure Text (maxSize : ℕ) where
  format : Format
  chars : List UInt8
  size_le : chars.length ≤ maxSize
  short : format = .f16 → chars.length < 65536

def writeText (host : Endian) {maxSize : ℕ} (t : Text maxSize) : Access Unit :=
  match t.format with
  | .f16 => writeStringF16 host t.chars
  | .f32 => writeStringF32 host t.chars
  | .f64 => writeStringF64 host t.chars
  | .vint => writeStringVint t.chars

def readText (maxSize : ℕ) (host : Endian) : Format → Access (List UInt8)
  | .f16 => readStringF16 maxSize host
  | .f32 => readStringF32 maxSize host
  | .f64 => readStringF64 maxSize host
  | .vint => readStringVint maxSize

/-- A program that writes the strings in order. -/
def writeTexts (host : Endian) {maxSize : ℕ} (ts : List (Text maxSize)) : Access Unit :=
  writeAll (ts.map (writeText host))

/-- A program that reads strings of the given kinds in order. -/
def readTexts (maxSize : ℕ) (host : Endian) (fs : List Format) : Access (List (List UInt8)) :=
  readAll (fs.map (readText maxSize host))

/-- The bytes of a length. -/
def lengthBytes (host endian : Endian) : Format → ℕ → List UInt8
  | .f16, n => fixedBytes host endian (UInt16.ofNat n).toBitVec
  | .f32, n => fixedBytes host endian (UInt32.ofNat n).toBitVec
  | .f64, n => fixedBytes host endian (UInt64.ofNat n).toBitVec
  | .vint, n => varintLoop (UInt64.ofNat n).toBitVec

/-- The number of bytes of a length. -/
def lengthWidth : Format → ℕ → ℕ
  | .f16, _ => 2
  | .f32, _ => 4
  | .f64, _ => 8
  | .vint, n => (varint n).length

/-- The length that the reader takes back. -/
def lengthValue : Format → ℕ → ℕ
  | .f16, n => n % 2 ^ 16
  | .f32, n => n % 2 ^ 32
  | .f64, n => n % 2 ^ 64
  | .vint, n => n % 2 ^ 64

def readLength (host : Endian) : Format → Access ℕ
  | .f16 => return (← readFuint16 host).toNat
  | .f32 => return (← readFuint32 host).toNat
  | .f64 => return (← readFuint64 host).toNat
  | .vint => return (← readUint64).toNat

theorem readText_eq (maxSize : ℕ) (host : Endian) (f : Format) :
    readText maxSize host f = readString maxSize (readLength host f) := by
  cases f <;> rfl

theorem reads_readLength (host endian : Endian) (f : Format) (n : ℕ) :
    Reads endian (readLength host f) (lengthBytes host endian f n) (lengthValue f n) := by
  cases f with
  | f16 =>
    exact ((reads_readF host endian rfl (by decide) (UInt16.ofNat n).toBitVec).pure
      UInt16.ofBitVec).pure UInt16.toNat
  | f32 =>
    exact ((reads_readF host endian rfl (by decide) (UInt32.ofNat n).toBitVec).pure
      UInt32.ofBitVec).pure UInt32.toNat
  | f64 =>
    exact ((reads_readF host endian rfl (by decide) (UInt64.ofNat n).toBitVec).pure
      UInt64.ofBitVec).pure UInt64.toNat
  | vint => exact (reads_readUint64 endian (UInt64.ofNat n)).pure UInt64.toNat

theorem lengthBytes_length (host endian : Endian) (f : Format) {n : ℕ} (hn : n < 2 ^ 64) :
    (lengthBytes host endian f n).length = lengthWidth f n := by
  cases f with
  | f16 => exact memory_length host _
  | f32 => exact memory_length host _
  | f64 => exact memory_length host _
  | vint =>
    have hval : (UInt64.ofNat n).toBitVec.toNat = n := Nat.mod_eq_of_lt hn
    simp only [lengthBytes, lengthWidth, varintLoop_eq (show 8 ≤ 64 by decide), hval]

theorem lengthWidth_pos (f : Format) (n : ℕ) : 0 < lengthWidth f n := by
  cases f with
  | f16 => exact Nat.two_pos
  | f32 => exact Nat.succ_pos 3
  | f64 => exact Nat.succ_pos 7
  | vint => exact List.length_pos_iff.mpr (varint_ne_nil n)

theorem lengthValue_le (f : Format) (n : ℕ) : lengthValue f n ≤ n := by
  cases f <;> exact Nat.mod_le _ _

namespace Text
variable {maxSize : ℕ}

/-- The number of bytes of a string with its length. -/
def encodedLength (t : Text maxSize) : ℕ := lengthWidth t.format t.chars.length + t.chars.length

/-- The type of the length holds it. -/
def Fits (t : Text maxSize) : Prop := t.format = .f32 → t.chars.length < 2 ^ 32

/-- The bytes of a string with its length. -/
def bytes (host endian : Endian) (t : Text maxSize) : List UInt8 :=
  lengthBytes host endian t.format t.chars.length ++ t.chars

theorem fits_iff (hmax : maxSize < 2 ^ 64) (t : Text maxSize) :
    t.Fits ↔ lengthValue t.format t.chars.length = t.chars.length := by
  obtain ⟨f, chars, hle, hs⟩ := t
  simp only [Fits]
  cases f with
  | f16 =>
    have hlt := hs rfl
    simp only [lengthValue, reduceCtorEq, false_implies, true_iff]
    exact Nat.mod_eq_of_lt hlt
  | f32 =>
    simp only [lengthValue, true_implies]
    constructor
    · exact Nat.mod_eq_of_lt
    · intro h
      rw [← h]
      exact Nat.mod_lt _ (Nat.two_pow_pos 32)
  | f64 =>
    simp only [lengthValue, reduceCtorEq, false_implies, true_iff]
    exact Nat.mod_eq_of_lt (Nat.lt_of_le_of_lt hle hmax)
  | vint =>
    simp only [lengthValue, reduceCtorEq, false_implies, true_iff]
    exact Nat.mod_eq_of_lt (Nat.lt_of_le_of_lt hle hmax)

theorem bytes_length (host endian : Endian) (hmax : maxSize < 2 ^ 64) (t : Text maxSize) :
    (t.bytes host endian).length = t.encodedLength := by
  rw [bytes, List.length_append, lengthBytes_length _ _ _ (Nat.lt_of_le_of_lt t.size_le hmax)]
  rfl

end Text

/-! ## Reading back -/

theorem readAll_cons_ok {α : Type} {m : Access α} {ms : List (Access α)} {a : α} {as : List α}
    {s s' : ByteArray} (h : readAll (m :: ms) s = .ok (a :: as) s') :
    ∃ u, m s = .ok a u ∧ readAll ms u = .ok as s' := by
  rw [readAll] at h
  cases hm : m s with
  | error e u =>
    rw [bind_error hm] at h
    cases h
  | ok b u =>
    rw [bind_ok hm] at h
    cases hms : readAll ms u with
    | error e v =>
      rw [bind_error hms] at h
      cases h
    | ok bs v =>
      rw [bind_ok hms] at h
      cases h
      exact ⟨u, rfl, hms⟩

theorem readAll_cons_eq {α : Type} {m : Access α} {ms : List (Access α)} {a : α} {as : List α}
    {s u s' : ByteArray} (hm : m s = .ok a u) (hms : readAll ms u = .ok as s') :
    readAll (m :: ms) s = .ok (a :: as) s' := by
  rw [readAll, bind_ok hm, bind_ok hms]
  rfl

/-- The smallest capacity for `total` bytes leaves room unless blocks divide the total. -/
theorem capacity_gt_iff {base total capacity count : ℕ} (hb : 1 ≤ base) (hpos : 0 < total)
    (hle : total ≤ capacity) (hcap : capacity ≤ max base (total + base - 1))
    (hmul : capacity = base * count) : total < capacity ↔ ¬ base ∣ total := by
  constructor
  · rintro hlt ⟨k, rfl⟩
    have hk : k < count := by
      apply Nat.lt_of_mul_lt_mul_left (a := base)
      omega
    have hk' : 1 ≤ k := by
      apply Nat.one_le_iff_ne_zero.mpr
      rintro rfl
      exact Nat.lt_irrefl 0 hpos
    have h1 : base * (k + 1) ≤ base * count := Nat.mul_le_mul_left base hk
    have h2 : base * 1 ≤ base * k := Nat.mul_le_mul_left base hk'
    rw [Nat.mul_add] at h1
    omega
  · intro hnd
    refine Nat.lt_of_le_of_ne hle ?_
    rintro rfl
    exact hnd ⟨count, hmul⟩

section
variable {maxSize : ℕ} (hmax : maxSize < 2 ^ 64) {host endian : Endian}

theorem writes_writeText (t : Text maxSize) :
    Writes endian (writeText host t) (t.bytes host endian) := by
  obtain ⟨f, chars, -, -⟩ := t
  cases f with
  | f16 => exact (writes_writeF host endian _).bind (writes_write endian chars)
  | f32 => exact (writes_writeF host endian _).bind (writes_write endian chars)
  | f64 => exact (writes_writeF host endian _).bind (writes_write endian chars)
  | vint => exact (writes_write endian _).bind (writes_write endian chars)

variable {s : ByteArray} {c : Cursor UInt8} {t : Text maxSize} {tail : List UInt8}

include hmax in
/-- The state after the length of a string, and what the rest of its reader does there. -/
theorem readText_after_length (h : Represents s c) (he : s.endian = endian)
    (hrest : c.rest = t.bytes host endian ++ tail) :
    ∃ s' c', readText maxSize host t.format s = read (lengthValue t.format t.chars.length) s' ∧
      Represents s' c' ∧ c'.items = c.items ∧
      c'.pos = c.pos + lengthWidth t.format t.chars.length ∧
      c'.rest = t.chars ++ tail ∧ s'.endian = endian ∧ s'.capacity = s.capacity := by
  rw [Text.bytes, List.append_assoc] at hrest
  obtain ⟨s', c', hrun, hr, hi, hp, he', hc⟩ :=
    reads_readLength host endian t.format t.chars.length s c (t.chars ++ tail) h he hrest
  have hlt : t.chars.length < 2 ^ 64 := Nat.lt_of_le_of_lt t.size_le hmax
  have hle : ¬ lengthValue t.format t.chars.length > maxSize :=
    Nat.not_lt.mpr ((lengthValue_le _ _).trans t.size_le)
  refine ⟨s', c', ?_, hr, hi, ?_, rest_after hrest hi hp, he', hc⟩
  · rw [readText_eq, readString, bind_ok hrun, if_neg hle]
  · rw [hp, lengthBytes_length _ _ _ hlt]

include hmax in
/-- A reader returns the string when the length survives and, for an empty string, its length
does not end at the end of the blocks. -/
theorem readText_ok (h : Represents s c) (he : s.endian = endian)
    (hrest : c.rest = t.bytes host endian ++ tail) (hfit : t.Fits)
    (hroom : t.chars = [] → c.pos + t.encodedLength < s.capacity) :
    ∃ s' c', readText maxSize host t.format s = .ok t.chars s' ∧ Represents s' c' ∧
      c'.items = c.items ∧ c'.pos = c.pos + t.encodedLength ∧ c'.rest = tail ∧
      s'.endian = endian ∧ s'.capacity = s.capacity := by
  obtain ⟨u, d, hrun, hu, hi, hp, hd, heu, hc⟩ := readText_after_length hmax h he hrest
  rw [(t.fits_iff hmax).mp hfit] at hrun
  rcases List.eq_nil_or_concat t.chars with hnil | ⟨init, last, hcons⟩
  · have hpos : u.position ≠ u.capacity := by
      have := hroom hnil
      rw [Text.encodedLength, hnil] at this
      rw [hnil] at hp
      rw [← hu.pos_eq, hp, hc]
      exact Nat.ne_of_lt this
    refine ⟨u, d, ?_, hu, hi, ?_, ?_, heu, hc⟩
    · rw [hrun, hnil, List.length_nil, read_zero hu, if_neg hpos]
    · rw [hp, Text.encodedLength, hnil]
      rfl
    · rw [hd, hnil, List.nil_append]
  · have hne : t.chars ≠ [] := by
      rw [hcons]
      simp
    obtain ⟨s', c', hread, hs, hi', hp', he', hc'⟩ := reads_read endian hne u d tail hu heu hd
    refine ⟨s', c', hrun.trans hread, hs, hi'.trans hi, ?_, rest_after hd hi' hp', he',
      hc'.trans hc⟩
    rw [hp', hp, Text.encodedLength, Nat.add_assoc]

include hmax in
/-- The condition of `readText_ok` is necessary. -/
theorem readText_ok_inv (h : Represents s c) (he : s.endian = endian)
    (hrest : c.rest = t.bytes host endian ++ tail) {s' : ByteArray}
    (hok : readText maxSize host t.format s = .ok t.chars s') :
    t.Fits ∧ (t.chars = [] → c.pos + t.encodedLength < s.capacity) := by
  obtain ⟨u, d, hrun, hu, hi, hp, hd, heu, hc⟩ := readText_after_length hmax h he hrest
  have hle : lengthValue t.format t.chars.length ≤ d.rest.length := by
    have := lengthValue_le t.format t.chars.length
    rw [hd, List.length_append]
    omega
  rw [hrun] at hok
  rcases Nat.eq_zero_or_pos (lengthValue t.format t.chars.length) with hz | hpos
  · rw [hz, read_zero hu] at hok
    split at hok
    · cases hok
    · rename_i hne
      have hnil : t.chars = [] := by
        injection hok with hval
        exact hval.symm
      refine ⟨(t.fits_iff hmax).mpr (by rw [hz, hnil, List.length_nil]), fun _ => ?_⟩
      have := hu.toInv.position_le_capacity
      have := hu.pos_eq
      rw [Text.encodedLength, hnil, List.length_nil]
      rw [hnil, List.length_nil] at hp
      omega
  · obtain ⟨v, hread, -⟩ := read_spec hu hpos hle
    rw [hread] at hok
    injection hok with hval
    have hlen : lengthValue t.format t.chars.length = t.chars.length := by
      conv_rhs => rw [← hval]
      rw [List.length_take, Nat.min_eq_left hle]
    refine ⟨(t.fits_iff hmax).mpr hlen, fun hnil => ?_⟩
    rw [hlen, hnil] at hpos
    exact absurd hpos (Nat.lt_irrefl 0)

include hmax in
/-- The readers succeed exactly when every length survives and a last empty string does not
end at the end of the blocks. -/
theorem readTexts_ok_iff (h : Represents s c) (he : s.endian = endian) {ts : List (Text maxSize)}
    (hrest : c.rest = ts.flatMap (Text.bytes host endian)) :
    (∃ s', readTexts maxSize host (ts.map Text.format) s = .ok (ts.map Text.chars) s' ∧
        s'.getReadSize = 0) ↔
      (∀ t ∈ ts, t.Fits) ∧
        ∀ t, ts.getLast? = some t → t.chars = [] → c.items.length < s.capacity := by
  induction ts generalizing s c with
  | nil =>
    have hz : s.getReadSize = 0 := by
      rw [← h.rest_length, hrest]
      rfl
    exact iff_of_true ⟨s, rfl, hz⟩ ⟨by simp, by simp⟩
  | cons t ts ih =>
    have hbytes : c.rest.length = t.encodedLength + (ts.flatMap (Text.bytes host endian)).length := by
      rw [hrest, List.flatMap_cons, List.length_append, Text.bytes_length host endian hmax]
    have hpos := c.pos_le
    have hsize := h.length
    have hsc := h.size_le
    rw [Cursor.rest_length] at hbytes
    rw [List.flatMap_cons] at hrest
    constructor
    · rintro ⟨s', hrun, hz⟩
      obtain ⟨u, hread, hmore⟩ := readAll_cons_ok hrun
      obtain ⟨hfit, hroom⟩ := readText_ok_inv hmax h he hrest hread
      obtain ⟨u', d, hread', hu, hi, -, hd, heu, hc⟩ := readText_ok hmax h he hrest hfit hroom
      obtain rfl : u' = u := by
        rw [hread'] at hread
        injection hread
      obtain ⟨hall, hlast⟩ := (ih hu heu hd).mp ⟨s', hmore, hz⟩
      refine ⟨List.forall_mem_cons.mpr ⟨hfit, hall⟩, ?_⟩
      intro v hv hnil
      cases ts with
      | nil =>
        simp only [List.getLast?_singleton, Option.some.injEq] at hv
        subst hv
        have := hroom hnil
        simp only [List.flatMap_nil, List.length_nil] at hbytes
        omega
      | cons t' ts' =>
        rw [List.getLast?_cons_cons] at hv
        have := hlast v hv hnil
        rwa [hi, hc] at this
    · rintro ⟨hall, hlast⟩
      obtain ⟨hfit, hfits⟩ := List.forall_mem_cons.mp hall
      have hroom : t.chars = [] → c.pos + t.encodedLength < s.capacity := by
        intro hnil
        cases ts with
        | nil =>
          have := hlast t rfl hnil
          simp only [List.flatMap_nil, List.length_nil] at hbytes
          omega
        | cons t' ts' =>
          have hwidth := lengthWidth_pos t'.format t'.chars.length
          have hsplit : t'.encodedLength =
            lengthWidth t'.format t'.chars.length + t'.chars.length := rfl
          rw [List.flatMap_cons, List.length_append, Text.bytes_length host endian hmax] at hbytes
          omega
      obtain ⟨u, d, hread, hu, hi, -, hd, heu, hc⟩ := readText_ok hmax h he hrest hfit hroom
      have hlast' : ∀ v, ts.getLast? = some v → v.chars = [] → d.items.length < u.capacity := by
        intro v hv hnil
        rw [hi, hc]
        refine hlast v ?_ hnil
        cases ts with
        | nil => cases hv
        | cons t' ts' => rwa [List.getLast?_cons_cons]
      obtain ⟨s', hmore, hz⟩ := (ih hu heu hd).mpr ⟨hfits, hlast'⟩
      exact ⟨s', readAll_cons_eq hread hmore, hz⟩

include hmax in
theorem flatMap_bytes_length (ts : List (Text maxSize)) :
    (ts.flatMap (Text.bytes host endian)).length = (ts.map Text.encodedLength).sum := by
  induction ts with
  | nil => rfl
  | cons t ts ih =>
    rw [List.flatMap_cons, List.length_append, Text.bytes_length host endian hmax, ih,
      List.map_cons, List.sum_cons]

end

/-- Strings written in any mixture come back in order from position 0, and nothing is left,
exactly when every length fits its type and the last string is not an empty one whose length
fills the last block. -/
theorem readTexts_writeTexts_iff {base : ℕ} (hb : 1 ≤ base) (heap : ℕ → UInt8) (host : Endian)
    (little : Bool) {maxSize : ℕ} (hmax : maxSize < 2 ^ 64) (ts : List (Text maxSize)) :
    (∃ s, (do writeTexts host ts; setPosition 0; readTexts maxSize host (ts.map Text.format))
        ((new base heap).setIsLittleEndian little) = .ok (ts.map Text.chars) s ∧
        s.getReadSize = 0) ↔
      (∀ t ∈ ts, t.Fits) ∧ ∀ t, ts.getLast? = some t → t.chars = [] →
        ¬ base ∣ (ts.map Text.encodedLength).sum := by
  obtain ⟨s, hwrite, hs, he, hbase, hcap⟩ := written_spec hb heap little
    (writes_writeAll (fun t => writes_writeText t) ts)
  have hlen : (ts.flatMap (Text.bytes host (if little then .little else .big))).length =
      (ts.map Text.encodedLength).sum :=
    flatMap_bytes_length hmax ts
  have hrun : (do writeTexts host ts; setPosition 0; readTexts maxSize host (ts.map Text.format))
      ((new base heap).setIsLittleEndian little) =
        readTexts maxSize host (ts.map Text.format) s := by
    rw [← bind_assoc]
    exact bind_ok hwrite
  rw [hrun, readTexts_ok_iff hmax hs he rfl]
  refine and_congr_right fun _ => forall_congr' fun t => forall_congr' fun hlast =>
    forall_congr' fun hnil => ?_
  have hwidth := lengthWidth_pos t.format t.chars.length
  have hmem : t.encodedLength ≤ (ts.map Text.encodedLength).sum :=
    List.single_le_sum (fun _ _ => Nat.zero_le _) _
      (List.mem_map_of_mem (List.mem_of_getLast? hlast))
  have hpos : 0 < (ts.map Text.encodedLength).sum := by
    rw [Text.encodedLength] at hmem
    omega
  have hitems : (Cursor.ofList (ts.flatMap (Text.bytes host
      (if little then .little else .big)))).items.length = (ts.map Text.encodedLength).sum := hlen
  have hsize := hs.length
  have hle := hs.size_le
  have hmul := hs.capacity_eq
  rw [hlen] at hcap
  rw [hitems] at hsize ⊢
  rw [hbase] at hmul
  exact capacity_gt_iff hb hpos (by omega) hcap hmul

/-- Two strings, the empty one in front, in blocks of five bytes. -/
theorem readTexts_writeTexts_iff_two :
    ∃ s, (do
        writeTexts .little [(⟨.f16, [], by decide, by decide⟩ : Text (2 ^ 62 - 1)),
          ⟨.vint, [65, 66], by decide, by decide⟩]
        setPosition 0
        readTexts (2 ^ 62 - 1) .little [.f16, .vint])
          ((new 5 (fun _ => 7)).setIsLittleEndian false) = .ok [[], [65, 66]] s ∧
      s.getReadSize = 0 :=
  (readTexts_writeTexts_iff (by decide) (fun _ => 7) .little false (by decide)
    [⟨.f16, [], by decide, by decide⟩, ⟨.vint, [65, 66], by decide, by decide⟩]).mpr
    ⟨by simp [Text.Fits], by simp⟩

/-- An empty string in blocks of two bytes: its length fills the only block. -/
theorem empty_string_not_read_back :
    ¬ ∃ s, (do
        writeTexts .little [(⟨.f16, [], by decide, by decide⟩ : Text (2 ^ 62 - 1))]
        setPosition 0
        readTexts (2 ^ 62 - 1) .little [.f16])
          ((new 2 (fun _ => 7)).setIsLittleEndian false) = .ok [[]] s ∧
      s.getReadSize = 0 := by
  have hrun : (do
      writeTexts .little [(⟨.f16, [], by decide, by decide⟩ : Text (2 ^ 62 - 1))]
      setPosition 0
      readTexts (2 ^ 62 - 1) .little [.f16])
        ((new 2 (fun _ => 7)).setIsLittleEndian false) = .error .nullNode _ := rfl
  rintro ⟨s, hok, -⟩
  rw [hrun] at hok
  cases hok

end Flz.ByteArray
