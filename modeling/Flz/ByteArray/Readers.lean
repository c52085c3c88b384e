import Flz.ByteArray.Buffers
import Flz.ByteArray.Strings

/-! # Readers on too few bytes

The readers of `src/bytearray.cc` on whatever is behind the cursor. A read of fixed width takes all
its bytes or none. A number of variable width is taken byte by byte, and a string behind its length:
what is missing then is noticed when the cursor has moved.
-/
namespace Flz.ByteArray
open Lib

/-- `readFloat` and `readDouble`: the bits of the value. -/
def readFloat (host : Endian) : Access UInt32 := readFuint32 host
def readDouble (host : Endian) : Access UInt64 := readFuint64 host

/-- The readers. -/
inductive Reader
  | item (k : Kind)
  | float
  | double
  | string (f : Format)
  deriving DecidableEq, Repr

/-- What the readers return. -/
inductive Value
  | item (v : Item)
  | float (bits : UInt32)
  | double (bits : UInt64)
  | string (chars : List UInt8)
  deriving DecidableEq

def Reader.read (maxSize : ℕ) (host : Endian) : Reader → Access Value
  | .item k => return .item (← readItem host k)
  | .float => return .float (← readFloat host)
  | .double => return .double (← readDouble host)
  | .string f => return .string (← readText maxSize host f)

/-! ## Sizes on the wire -/

/-- A fixed number of bytes, or a base-128 number of at most so many. -/
inductive Width
  | fixed (n : ℕ)
  | varint (most : ℕ)
  deriving DecidableEq, Repr

/-- A base-128 number ends with the first byte below 128. -/
def varintSize : ℕ → List UInt8 → Option ℕ
  | 0, _ => some 0
  | _ + 1, [] => none
  | most + 1, b :: bytes => if b < 0x80 then some 1 else (varintSize most bytes).map (· + 1)

/-- The size of the encoding in front, when it is all there. -/
def Width.encodedSize : Width → List UInt8 → Option ℕ
  | .fixed n, bytes => if n ≤ bytes.length then some n else none
  | .varint most, bytes => varintSize most bytes

def Kind.width : Kind → Width
  | .fint8 | .fuint8 => .fixed 1
  | .fint16 | .fuint16 => .fixed 2
  | .fint32 | .fuint32 => .fixed 4
  | .fint64 | .fuint64 => .fixed 8
  | .int32 | .uint32 => .varint 5
  | .int64 | .uint64 => .varint 10

/-- The width of the length in front of a string. -/
def Format.width : Format → Width
  | .f16 => .fixed 2
  | .f32 => .fixed 4
  | .f64 => .fixed 8
  | .vint => .varint 10

/-- A number of fixed width and its size. -/
def fixedAt (host endian : Endian) (w : ℕ) (bytes : List UInt8) : Option (BitVec w × ℕ) :=
  if w / 8 ≤ bytes.length then
    let v := ofMemory host w (bytes.take (w / 8))
    some (if endian = host then v else byteswap v, w / 8)
  else none

/-- A base-128 number and its size: the loop of the readers on a list of bytes. -/
def varintAt (w : ℕ) : ℕ → ℕ → BitVec w → List UInt8 → Option (BitVec w × ℕ)
  | 0, _, result, _ => some (result, 0)
  | fuel + 1, i, result, bytes =>
    if i < w then
      match bytes with
      | [] => none
      | b :: bytes =>
        if b < 0x80 then some (result ||| (b.toBitVec.setWidth w <<< i), 1)
        else
          (varintAt w fuel (i + 7) (result ||| ((b &&& 0x7f).toBitVec.setWidth w <<< i)) bytes).map
            fun p => (p.1, p.2 + 1)
    else some (result, 0)

/-- The length in front of a string, and the size of the length. -/
def lengthAt (host endian : Endian) : Format → List UInt8 → Option (ℕ × ℕ)
  | .f16, bytes => (fixedAt host endian 16 bytes).map fun p => (p.1.toNat, p.2)
  | .f32, bytes => (fixedAt host endian 32 bytes).map fun p => (p.1.toNat, p.2)
  | .f64, bytes => (fixedAt host endian 64 bytes).map fun p => (p.1.toNat, p.2)
  | .vint, bytes => (varintAt 64 64 0 0 bytes).map fun p => (p.1.toNat, p.2)

/-- The size of what a reader takes, when it is all there. -/
def Reader.encodedSize (host endian : Endian) : Reader → List UInt8 → Option ℕ
  | .item k, bytes => k.width.encodedSize bytes
  | .float, bytes => (Width.fixed 4).encodedSize bytes
  | .double, bytes => (Width.fixed 8).encodedSize bytes
  | .string f, bytes =>
    (lengthAt host endian f bytes).bind fun (len, n) =>
      if n + len ≤ bytes.length then some (n + len) else none

/-- The bytes behind the cursor. -/
def unread (s : ByteArray) : List UInt8 := s.contents.drop s.position

/-- A value and all its bytes, or `std::out_of_range` and nothing happened. -/
def AllOrNothing {α : Type} (m : Access α) (size : Option ℕ) (s : ByteArray) : Prop :=
  (∃ a s' n, m s = .ok a s' ∧ size = some n ∧ s'.position = s.position + n) ∨
    ∃ what s', m s = .error (.outOfRange what) s' ∧ s'.position = s.position ∧ s'.size = s.size ∧
      s'.contents = s.contents

/-- How many bytes are taken when the encoding is not all there. -/
def Width.lost : Width → List UInt8 → ℕ
  | .fixed _, _ => 0
  | .varint _, bytes => bytes.length

/-- Nothing behind the cursor is cut off where a reader notices it late. -/
def Uncut (maxSize : ℕ) (host : Endian) (s : ByteArray) : Reader → Prop
  | .item k => k.width.lost s.unread = 0 ∨ k.width.encodedSize s.unread ≠ none
  | .float => True
  | .double => True
  | .string f =>
    (f.width.lost s.unread = 0 ∧ f.width.encodedSize s.unread = none) ∨
      ∃ len n, lengthAt host s.endian f s.unread = some (len, n) ∧ len ≤ maxSize ∧
        n + len ≤ s.unread.length ∧ (len = 0 → s.position + n < s.capacity)

/-! ## Decoding -/

/-- `m` takes what `d` finds behind the cursor. When it finds nothing, `m` throws, and the cursor
has moved past `lost` bytes. -/
structure Decodes {α : Type} (endian : Endian) (m : Access α) (d : List UInt8 → Option (α × ℕ))
    (lost : List UInt8 → ℕ) : Prop where
  ok : ∀ {s c a n}, Represents s c → s.endian = endian → d c.rest = some (a, n) →
    ∃ s' c', m s = .ok a s' ∧ Represents s' c' ∧ c'.items = c.items ∧ c'.pos = c.pos + n ∧
      s'.endian = endian ∧ s'.capacity = s.capacity
  throws : ∀ {s c}, Represents s c → s.endian = endian → d c.rest = none →
    ∃ s' c', m s = .error (.outOfRange "not enough len") s' ∧ Represents s' c' ∧ c'.items = c.items ∧
      c'.pos = c.pos + lost c.rest

section
variable {α β : Type} {endian : Endian} {m : Access α} {d : List UInt8 → Option (α × ℕ)}
  {lost : List UInt8 → ℕ}

theorem rest_drop {c c' : Cursor UInt8} {k : ℕ} (hitems : c'.items = c.items) (hpos : c'.pos = c.pos + k) :
    c'.rest = c.rest.drop k := by
  unfold Cursor.rest
  rw [hitems, hpos, List.drop_drop]

theorem Decodes.map (h : Decodes endian m d lost) {f : α → Access β} {g : α → β}
    (hf : ∀ a s, s.endian = endian → f a s = .ok (g a) s) :
    Decodes endian (m >>= f) (fun bytes => (d bytes).map fun p => (g p.1, p.2)) lost where
  ok hr he hd := by
    obtain ⟨⟨a, n⟩, hfound, hpair⟩ := Option.map_eq_some_iff.mp hd
    cases hpair
    obtain ⟨s', c', hrun, hr', hi, hp, he', hc⟩ := h.ok hr he hfound
    exact ⟨s', c', (bind_ok hrun).trans (hf a s' he'), hr', hi, hp, he', hc⟩
  throws hr he hd := by
    obtain ⟨s', c', hrun, hrest⟩ := h.throws hr he (Option.map_eq_none_iff.mp hd)
    exact ⟨s', c', bind_error hrun, hrest⟩

theorem Decodes.pure (h : Decodes endian m d lost) (g : α → β) :
    Decodes endian (do return g (← m)) (fun bytes => (d bytes).map fun p => (g p.1, p.2)) lost :=
  h.map (fun _ _ _ => rfl)

theorem decodes_pure (endian : Endian) (v : α) (lost : List UInt8 → ℕ) :
    Decodes endian (pure v) (fun _ => some (v, 0)) lost where
  ok := by
    intro s c a n hr he hd
    cases hd
    exact ⟨s, c, rfl, hr, rfl, rfl, he, rfl⟩
  throws := fun _ _ hd => by cases hd

/-- One decoding behind another. -/
theorem Decodes.bind (h : Decodes endian m d lost) {f : α → Access β}
    {df : α → List UInt8 → Option (β × ℕ)} {lf : α → List UInt8 → ℕ}
    (hf : ∀ a, Decodes endian (f a) (df a) (lf a)) {e : List UInt8 → Option (β × ℕ)} {l : List UInt8 → ℕ}
    (hfound : ∀ bytes, e bytes =
      (d bytes).bind fun p => (df p.1 (bytes.drop p.2)).map fun q => (q.1, p.2 + q.2))
    (hlost : ∀ bytes, l bytes = (d bytes).elim (lost bytes) fun p => p.2 + lf p.1 (bytes.drop p.2)) :
    Decodes endian (m >>= f) e l where
  ok := by
    intro s c b n hr he hd
    rw [hfound] at hd
    obtain ⟨⟨a, k⟩, hfirst, hrest⟩ := Option.bind_eq_some_iff.mp hd
    obtain ⟨⟨b', j⟩, hsecond, hpair⟩ := Option.map_eq_some_iff.mp hrest
    cases hpair
    obtain ⟨s', c', hrun, hr', hitems, hp, he', hc⟩ := h.ok hr he hfirst
    rw [← rest_drop hitems hp] at hsecond
    obtain ⟨t, c'', hrun', ht, hitems', hp', het, hct⟩ := (hf a).ok hr' he' hsecond
    refine ⟨t, c'', (bind_ok hrun).trans hrun', ht, hitems'.trans hitems, ?_, het, hct.trans hc⟩
    rw [hp', hp, Nat.add_assoc]
  throws := by
    intro s c hr he hd
    rw [hfound] at hd
    rw [hlost]
    cases hfirst : d c.rest with
    | none =>
      obtain ⟨s', c', hrun, hrest⟩ := h.throws hr he hfirst
      exact ⟨s', c', bind_error hrun, hrest⟩
    | some p =>
      obtain ⟨a, k⟩ := p
      obtain ⟨s', c', hrun, hr', hitems, hp, he', -⟩ := h.ok hr he hfirst
      rw [hfirst, Option.bind_some, Option.map_eq_none_iff, ← rest_drop hitems hp] at hd
      obtain ⟨t, c'', hrun', ht, hitems', hp'⟩ := (hf a).throws hr' he' hd
      refine ⟨t, c'', (bind_ok hrun).trans hrun', ht, hitems'.trans hitems, ?_⟩
      rw [hp', hp, rest_drop hitems hp, Nat.add_assoc]
      rfl

theorem Decodes.congr (h : Decodes endian m d lost) {d' : List UInt8 → Option (α × ℕ)}
    (hd : ∀ bytes, d bytes = d' bytes) : Decodes endian m d' lost := by
  rwa [← funext hd]

theorem decodes_read (endian : Endian) {n : ℕ} (hn : 0 < n) :
    Decodes endian (read n) (fun bytes => if n ≤ bytes.length then some (bytes.take n, n) else none)
      (Width.fixed n).lost where
  ok := by
    intro s c a k hr he hd
    by_cases hle : n ≤ c.rest.length
    · rw [if_pos hle] at hd
      cases hd
      obtain ⟨s', hrun, hr', -, he', hc, -⟩ := read_spec hr hn hle
      exact ⟨s', _, hrun, hr', rfl, rfl, he'.trans he, hc⟩
    · rw [if_neg hle] at hd
      cases hd
  throws := by
    intro s c hr he hd
    by_cases hle : n ≤ c.rest.length
    · rw [if_pos hle] at hd
      cases hd
    · exact ⟨s, c, read_throws hr (Nat.not_le.mp hle), hr, rfl, rfl⟩

theorem decodes_readF (host endian : Endian) {w : ℕ} (hw : 0 < w / 8) :
    Decodes endian (readF host w) (fixedAt host endian w) (Width.fixed (w / 8)).lost := by
  refine ((decodes_read endian hw).map (g := fun bytes =>
    if endian = host then ofMemory host w bytes else byteswap (ofMemory host w bytes)) ?_).congr ?_
  · intro bytes s he
    subst he
    change (if s.endian = host then _ else _ : Access (BitVec w)) s = _
    split <;> rfl
  · intro bytes
    by_cases hle : w / 8 ≤ bytes.length <;> simp [fixedAt, hle]

theorem decodes_byte (endian : Endian) {f : List UInt8 → Access α} {g : UInt8 → α}
    (hf : ∀ bytes s, f bytes s = .ok (g (bytes.headD 0)) s) :
    Decodes endian (read 1 >>= f)
      (fun | [] => none
           | b :: _ => some (g b, 1))
      (Width.fixed 1).lost := by
  refine ((decodes_read endian Nat.one_pos).map (fun bytes s _ => hf bytes s)).congr ?_
  intro bytes
  cases bytes with
  | nil => rfl
  | cons b bytes => simp

theorem decodes_readFuint8 (endian : Endian) :
    Decodes endian readFuint8
      (fun | [] => none
           | b :: _ => some (b, 1))
      (Width.fixed 1).lost := decodes_byte endian (fun _ _ => rfl)

/-- The loop takes what there is before it notices the end. -/
theorem decodes_readVarint (endian : Endian) {w : ℕ} (fuel i : ℕ) (result : BitVec w) (most : ℕ) :
    Decodes endian (readVarint w fuel i result) (varintAt w fuel i result) (Width.varint most).lost := by
  induction fuel generalizing i result with
  | zero => exact decodes_pure endian result _
  | succ fuel ih =>
    by_cases hi : i < w
    · have hrun : readVarint w (fuel + 1) i result = (readFuint8 >>= fun b =>
          if b < 0x80 then pure (result ||| (b.toBitVec.setWidth w <<< i))
          else readVarint w fuel (i + 7) (result ||| ((b &&& 0x7f).toBitVec.setWidth w <<< i))) := if_pos hi
      have hmore : ∀ b : UInt8, Decodes endian
          (if b < 0x80 then pure (result ||| (b.toBitVec.setWidth w <<< i))
            else readVarint w fuel (i + 7) (result ||| ((b &&& 0x7f).toBitVec.setWidth w <<< i)))
          (if b < 0x80 then fun _ => some (result ||| (b.toBitVec.setWidth w <<< i), 0)
            else varintAt w fuel (i + 7) (result ||| ((b &&& 0x7f).toBitVec.setWidth w <<< i)))
          (Width.varint most).lost := by
        intro b
        split
        · exact decodes_pure endian _ _
        · exact ih _ _
      rw [hrun]
      refine (decodes_readFuint8 endian).bind hmore (fun bytes => ?_) (fun bytes => ?_)
      · cases bytes with
        | nil => simp [varintAt, hi]
        | cons b tail =>
          by_cases hb : b < 0x80
          · simp [varintAt, hi, hb]
          · simp [varintAt, hi, hb, Nat.add_comm 1]
      · cases bytes with
        | nil => rfl
        | cons b tail => exact Nat.add_comm tail.length 1
    · have hrun : readVarint w (fuel + 1) i result = pure result := if_neg hi
      have hat : varintAt w (fuel + 1) i result = fun _ => some (result, 0) := funext fun _ => if_neg hi
      rw [hrun, hat]
      exact decodes_pure endian result _

end

/-- The loop runs once for each seven bits. -/
theorem varintAt_size {w fuel i most : ℕ} (result : BitVec w) (bytes : List UInt8)
    (hmost : most = (w - i + 6) / 7) (hfuel : most ≤ fuel) :
    (varintAt w fuel i result bytes).map Prod.snd = varintSize most bytes := by
  induction fuel generalizing i most result bytes with
  | zero =>
    obtain rfl : most = 0 := Nat.le_zero.mp hfuel
    rfl
  | succ fuel ih =>
    by_cases hi : i < w
    · obtain ⟨k, rfl⟩ : ∃ k, most = k + 1 := Nat.exists_eq_succ_of_ne_zero (by omega)
      simp only [varintAt, if_pos hi]
      cases bytes with
      | nil => rfl
      | cons b tail =>
        simp only [varintSize]
        split
        · rfl
        · rw [← @ih (i + 7) k _ tail (by omega) (by omega), Option.map_map, Option.map_map]
          rfl
    · obtain rfl : most = 0 := by omega
      simp only [varintAt, if_neg hi]
      rfl

theorem fixedAt_size (host endian : Endian) (w : ℕ) (bytes : List UInt8) :
    (fixedAt host endian w bytes).map Prod.snd = (Width.fixed (w / 8)).encodedSize bytes := by
  simp only [fixedAt, Width.encodedSize]
  split <;> rfl

theorem encodedSize_pos (f : Format) {bytes : List UInt8} {n : ℕ} (h : f.width.encodedSize bytes = some n) :
    0 < n := by
  have hfixed : ∀ k, 0 < k → (Width.fixed k).encodedSize bytes = some n → 0 < n := by
    intro k hk hsize
    simp only [Width.encodedSize] at hsize
    split at hsize
    · cases hsize
      exact hk
    · cases hsize
  cases f with
  | f16 => exact hfixed 2 (by decide) h
  | f32 => exact hfixed 4 (by decide) h
  | f64 => exact hfixed 8 (by decide) h
  | vint =>
    cases bytes with
    | nil => cases h
    | cons b bytes =>
      simp only [Format.width, Width.encodedSize, varintSize] at h
      split at h
      · cases h
        exact Nat.one_pos
      · obtain ⟨k, -, rfl⟩ := Option.map_eq_some_iff.mp h
        exact Nat.succ_pos k

/-! ## All or nothing -/

/-- `m` takes an encoding of that width. -/
def Takes {α : Type} (endian : Endian) (m : Access α) (width : Width) : Prop :=
  ∃ d : List UInt8 → Option (α × ℕ), Decodes endian m d width.lost ∧
    ∀ bytes, (d bytes).map Prod.snd = width.encodedSize bytes

section
variable {α β : Type} {endian host : Endian} {m : Access α} {width : Width} {s : ByteArray} {maxSize : ℕ}

theorem Takes.pure (h : Takes endian m width) (g : α → β) : Takes endian (do return g (← m)) width := by
  obtain ⟨d, hd, hsize⟩ := h
  refine ⟨_, hd.pure g, fun bytes => ?_⟩
  rw [Option.map_map, ← hsize]
  rfl

theorem takes_readF {w : ℕ} (hw : 0 < w / 8) : Takes endian (readF host w) (.fixed (w / 8)) :=
  ⟨_, decodes_readF host endian hw, fixedAt_size host endian w⟩

theorem takes_byte {f : List UInt8 → Access α} {g : UInt8 → α}
    (hf : ∀ bytes s, f bytes s = .ok (g (bytes.headD 0)) s) : Takes endian (read 1 >>= f) (.fixed 1) := by
  refine ⟨_, decodes_byte endian hf, fun bytes => ?_⟩
  cases bytes <;> simp [Width.encodedSize]

theorem takes_readVarint {w most : ℕ} (hmost : most = (w + 6) / 7) (hfuel : most ≤ w) :
    Takes endian (readVarint w w 0 0) (.varint most) :=
  ⟨_, decodes_readVarint endian w 0 0 most, fun bytes => varintAt_size 0 bytes hmost hfuel⟩

theorem takes_readItem (k : Kind) : Takes endian (readItem host k) k.width := by
  have h16 : Takes endian (readF host 16) (.fixed 2) := takes_readF (by decide)
  have h32 : Takes endian (readF host 32) (.fixed 4) := takes_readF (by decide)
  have h64 : Takes endian (readF host 64) (.fixed 8) := takes_readF (by decide)
  have hv32 : Takes endian (readVarint 32 32 0 0) (.varint 5) := takes_readVarint rfl (by decide)
  have hv64 : Takes endian (readVarint 64 64 0 0) (.varint 10) := takes_readVarint rfl (by decide)
  cases k with
  | fint8 => exact (takes_byte (fun _ _ => rfl)).pure Item.fint8
  | fuint8 => exact (takes_byte (g := id) (fun _ _ => rfl)).pure Item.fuint8
  | fint16 => exact (h16.pure Int16.ofBitVec).pure Item.fint16
  | fuint16 => exact (h16.pure UInt16.ofBitVec).pure Item.fuint16
  | fint32 => exact (h32.pure Int32.ofBitVec).pure Item.fint32
  | fuint32 => exact (h32.pure UInt32.ofBitVec).pure Item.fuint32
  | fint64 => exact (h64.pure Int64.ofBitVec).pure Item.fint64
  | fuint64 => exact (h64.pure UInt64.ofBitVec).pure Item.fuint64
  | int32 => exact ((hv32.pure UInt32.ofBitVec).pure DecodeZigzag32).pure Item.int32
  | uint32 => exact (hv32.pure UInt32.ofBitVec).pure Item.uint32
  | int64 => exact ((hv64.pure UInt64.ofBitVec).pure DecodeZigzag64).pure Item.int64
  | uint64 => exact (hv64.pure UInt64.ofBitVec).pure Item.uint64

theorem decodes_readLength (host endian : Endian) (f : Format) :
    Decodes endian (readLength host f) (lengthAt host endian f) f.width.lost := by
  cases f with
  | f16 =>
    refine (((decodes_readF host endian (by decide)).pure UInt16.ofBitVec).pure UInt16.toNat).congr ?_
    intro bytes
    rw [Option.map_map]
    rfl
  | f32 =>
    refine (((decodes_readF host endian (by decide)).pure UInt32.ofBitVec).pure UInt32.toNat).congr ?_
    intro bytes
    rw [Option.map_map]
    rfl
  | f64 =>
    refine (((decodes_readF host endian (by decide)).pure UInt64.ofBitVec).pure UInt64.toNat).congr ?_
    intro bytes
    rw [Option.map_map]
    rfl
  | vint =>
    refine (((decodes_readVarint endian 64 0 0 10).pure UInt64.ofBitVec).pure UInt64.toNat).congr ?_
    intro bytes
    rw [Option.map_map]
    rfl

theorem lengthAt_size (host endian : Endian) (f : Format) (bytes : List UInt8) :
    (lengthAt host endian f bytes).map Prod.snd = f.width.encodedSize bytes := by
  have hv64 : (varintAt 64 64 0 0 bytes).map Prod.snd = varintSize 10 bytes :=
    varintAt_size 0 bytes rfl (by decide)
  cases f with
  | f16 => exact (Option.map_map ..).trans (fixedAt_size host endian 16 bytes)
  | f32 => exact (Option.map_map ..).trans (fixedAt_size host endian 32 bytes)
  | f64 => exact (Option.map_map ..).trans (fixedAt_size host endian 64 bytes)
  | vint => exact (Option.map_map ..).trans hv64

theorem allOrNothing_pure (g : α → β) {size : Option ℕ} :
    AllOrNothing (do return g (← m)) size s ↔ AllOrNothing m size s := by
  cases hm : m s with
  | ok a s' =>
    have hrun : (do return g (← m) : Access β) s = .ok (g a) s' := bind_ok hm
    simp [AllOrNothing, hm, hrun]
  | error e s' =>
    have hrun : (do return g (← m) : Access β) s = .error e s' := bind_error hm
    simp [AllOrNothing, hm, hrun]

theorem Inv.cursor_rest (h : Inv s) : h.cursor.rest = s.unread := rfl

/-- A throw undoes nothing. -/
theorem allOrNothing_throws {s' : ByteArray} {what : String} {size : Option ℕ} {k : ℕ}
    (hrun : m s = .error (.outOfRange what) s') (hposition : s'.position = s.position + k)
    (hsame : s'.size = s.size ∧ s'.contents = s.contents) : AllOrNothing m size s ↔ k = 0 := by
  constructor
  · rintro (⟨a, t, n, hok, -⟩ | ⟨what', t, herror, hp, -⟩)
    · rw [hrun] at hok
      cases hok
    · rw [hrun] at herror
      cases herror
      omega
  · intro hk
    exact Or.inr ⟨what, s', hrun, by omega, hsame⟩

theorem Takes.allOrNothing (h : Takes s.endian m width) (hinv : Inv s) :
    AllOrNothing m (width.encodedSize s.unread) s ↔
      width.lost s.unread = 0 ∨ width.encodedSize s.unread ≠ none := by
  obtain ⟨d, hd, hsize⟩ := h
  have hr := hinv.represents
  rw [← hsize]
  cases hfound : d s.unread with
  | none =>
    obtain ⟨s', c', hrun, hr', hitems, hp⟩ := hd.throws hr rfl hfound
    rw [hr'.pos_eq, hr.pos_eq, hinv.cursor_rest] at hp
    rw [allOrNothing_throws hrun hp (hr.same hr' hitems)]
    simp
  | some p =>
    obtain ⟨s', c', hrun, hr', hitems, hp, -⟩ := hd.ok hr rfl hfound
    rw [hr'.pos_eq, hr.pos_eq] at hp
    refine iff_of_true (Or.inl ⟨p.1, s', p.2, hrun, rfl, hp⟩) (Or.inr (by simp))

/-- The bytes of a string behind its length, which is in front of `s'`. -/
theorem chars_allOrNothing {chars : Access (List UInt8)} {s' : ByteArray} {c : Cursor UInt8} {len n : ℕ}
    (hread : chars s = read len s') (hinv : Inv s) (hr : Represents s' c)
    (hitems : c.items = hinv.cursor.items) (hp : s'.position = s.position + n)
    (hc : s'.capacity = s.capacity) (hn : 0 < n) :
    AllOrNothing chars (if n + len ≤ s.unread.length then some (n + len) else none) s ↔
      n + len ≤ s.unread.length ∧ (len = 0 → s.position + n < s.capacity) := by
  have hs := hinv.represents
  have hpos : hinv.cursor.pos = s.position := hs.pos_eq
  have hfit : n ≤ s.unread.length := by
    have hle := c.pos_le
    rw [hitems, hr.pos_eq, hp] at hle
    rw [← hinv.cursor_rest, Cursor.rest_length, hpos]
    omega
  have hrest : c.rest.length = s.unread.length - n := by
    rw [← hinv.cursor_rest, Cursor.rest_length, Cursor.rest_length, hitems, hr.pos_eq, hpos, hp]
    omega
  rcases Nat.eq_zero_or_pos len with rfl | hlen
  · rw [read_zero hr, hc, hp] at hread
    by_cases hend : s.position + n = s.capacity
    · rw [if_pos hend] at hread
      refine iff_of_false (by simp [AllOrNothing, hread]) ?_
      rintro ⟨-, hlt⟩
      exact absurd hend (Nat.ne_of_lt (hlt rfl))
    · rw [if_neg hend] at hread
      have hle := hr.toInv.position_le_capacity
      refine iff_of_true (Or.inl ⟨[], s', n, hread, ?_, hp⟩) ⟨hfit, fun _ => by omega⟩
      rw [Nat.add_zero, if_pos hfit]
  · by_cases hall : n + len ≤ s.unread.length
    · obtain ⟨t, hrun, ht, -⟩ := read_spec hr hlen (show len ≤ c.rest.length by omega)
      refine iff_of_true (Or.inl ⟨_, t, n + len, hread.trans hrun, if_pos hall, ?_⟩)
        ⟨hall, fun h0 => absurd h0 hlen.ne'⟩
      rw [← ht.pos_eq, ← Nat.add_assoc, ← hp, ← hr.pos_eq]
      rfl
    · have hthrow := read_throws hr (show c.rest.length < len by omega)
      rw [allOrNothing_throws (hread.trans hthrow) hp (hs.same hr hitems)]
      exact iff_of_false hn.ne' (fun hand => hall hand.1)

theorem readText_allOrNothing (f : Format) (hinv : Inv s) :
    AllOrNothing (readText maxSize host f) ((Reader.string f).encodedSize host s.endian s.unread) s ↔
      Uncut maxSize host s (.string f) := by
  have hd := decodes_readLength host s.endian f
  have hr := hinv.represents
  have hsize := lengthAt_size host s.endian f s.unread
  rw [readText_eq]
  simp only [Uncut, Reader.encodedSize]
  rw [← hsize]
  cases hfound : lengthAt host s.endian f s.unread with
  | none =>
    obtain ⟨s', c', hrun, hr', hitems, hp⟩ := hd.throws hr rfl hfound
    rw [hr'.pos_eq, hr.pos_eq, hinv.cursor_rest] at hp
    have herror : readString maxSize (readLength host f) s = .error (.outOfRange "not enough len") s' :=
      bind_error hrun
    rw [allOrNothing_throws herror hp (hr.same hr' hitems)]
    simp
  | some p =>
    obtain ⟨len, n⟩ := p
    obtain ⟨s', c', hrun, hr', hitems, hp, -, hc⟩ := hd.ok hr rfl hfound
    rw [hr'.pos_eq, hr.pos_eq] at hp
    have hn : 0 < n := encodedSize_pos f (by rw [← hsize, hfound]; rfl)
    simp only [Option.map_some, reduceCtorEq, and_false, false_or, Option.some.injEq, Prod.mk.injEq,
      Option.bind_some]
    by_cases hmax : len > maxSize
    · have herror : readString maxSize (readLength host f) s = .error .lengthError s' := by
        rw [readString, bind_ok hrun, if_pos hmax]
        rfl
      refine iff_of_false ?_ ?_
      · simp [AllOrNothing, herror]
      · rintro ⟨len', n', ⟨rfl, rfl⟩, hle, -⟩
        omega
    · have hread : readString maxSize (readLength host f) s = read len s' := by
        rw [readString, bind_ok hrun, if_neg hmax]
      rw [chars_allOrNothing hread hinv hr' hitems hp hc hn]
      constructor
      · intro h
        exact ⟨len, n, ⟨rfl, rfl⟩, Nat.not_lt.mp hmax, h⟩
      · rintro ⟨len', n', ⟨rfl, rfl⟩, -, h⟩
        exact h

/-- A reader takes all or nothing exactly when nothing behind the cursor is cut off. -/
theorem allOrNothing_iff (h : Reachable s) (maxSize : ℕ) (host : Endian) (r : Reader) :
    AllOrNothing (r.read maxSize host) (r.encodedSize host s.endian s.unread) s ↔ Uncut maxSize host s r := by
  have hinv := h.inv
  cases r with
  | item k =>
    exact (allOrNothing_pure Value.item).trans ((takes_readItem k).allOrNothing hinv)
  | float =>
    have htakes : Takes s.endian (readFloat host) (.fixed 4) :=
      (takes_readF (by decide : 0 < 32 / 8)).pure UInt32.ofBitVec
    exact (allOrNothing_pure Value.float).trans ((htakes.allOrNothing hinv).trans (by simp [Uncut, Width.lost]))
  | double =>
    have htakes : Takes s.endian (readDouble host) (.fixed 8) :=
      (takes_readF (by decide : 0 < 64 / 8)).pure UInt64.ofBitVec
    exact (allOrNothing_pure Value.double).trans ((htakes.allOrNothing hinv).trans (by simp [Uncut, Width.lost]))
  | string f =>
    exact (allOrNothing_pure Value.string).trans (readText_allOrNothing f hinv)

end

/-- Two bytes of a number of ten at most, and the second one ends it. -/
theorem allOrNothing_iff_varint : ∃ s : ByteArray, s.unread = [200, 1, 9] ∧
    (AllOrNothing ((Reader.item .uint64).read (2 ^ 62 - 1) .little) (some 2) s ↔
      Uncut (2 ^ 62 - 1) .little s (.item .uint64)) := by
  have hwrite := (Reachable.new (by decide : 1 ≤ 2) (fun _ => 7)).step (.write [200, 1, 9]) trivial rfl
  have h := hwrite.step (.setPosition 0) trivial rfl
  exact ⟨_, rfl, allOrNothing_iff h (2 ^ 62 - 1) .little (.item .uint64)⟩

/-- A number without its end: the byte in front of the throw is gone. -/
theorem not_always_allOrNothing : ∃ s : ByteArray, Reachable s ∧ s.unread = [200] ∧
    ¬ AllOrNothing ((Reader.item .uint64).read (2 ^ 62 - 1) .little)
      ((Reader.item .uint64).encodedSize .little s.endian s.unread) s := by
  have hwrite := (Reachable.new (by decide : 1 ≤ 2) (fun _ => 7)).step (.write [200]) trivial rfl
  have h := hwrite.step (.setPosition 0) trivial rfl
  refine ⟨_, h, rfl, ?_⟩
  rintro (⟨a, t, n, hok, hn, -⟩ | ⟨what, t, hthrow, hp, -⟩)
  · cases hn
  · cases hthrow
    exact absurd hp (by decide)

end Flz.ByteArray
