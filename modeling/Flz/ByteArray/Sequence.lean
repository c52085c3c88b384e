import Flz.ByteArray.Integers

/-! # Sequences of writers and readers

Values written one after the other into a fresh object and read back from position 0.
-/
namespace Flz.ByteArray
open Lib

def writeAll : List (Access Unit) → Access Unit
  | [] => return ()
  | m :: ms => do
    m
    writeAll ms

def readAll {α : Type} : List (Access α) → Access (List α)
  | [] => return []
  | m :: ms => do
    let a ← m
    let as ← readAll ms
    return a :: as

theorem Writes.nil (endian : Endian) : Writes endian (return ()) [] := by
  intro s c h he
  exact ⟨s, rfl, by rwa [Cursor.put_nil], he, rfl, by omega⟩

/-- Writers one after the other. -/
theorem Writes.bind {endian : Endian} {m m' : Access Unit} {xs ys : List UInt8}
    (h : Writes endian m xs) (h' : Writes endian m' ys) :
    Writes endian (m >>= fun _ => m') (xs ++ ys) := by
  intro s c hr he
  obtain ⟨t, hrun, ht, het, hbt, hct⟩ := h s c hr he
  obtain ⟨s', hrun', hs', hes, hbs, hcs⟩ := h' t _ ht het
  have hpos : t.position = s.position + xs.length := by
    rw [← ht.pos_eq, ← hr.pos_eq]
    rfl
  refine ⟨s', (bind_ok hrun).trans hrun', ?_, hes, hbs.trans hbt, ?_⟩
  · rwa [Cursor.put_put] at hs'
  · rw [List.length_append]
    omega

theorem writes_writeAll {ι : Type} {endian : Endian} {w : ι → Access Unit}
    {bytes : ι → List UInt8} (hw : ∀ v, Writes endian (w v) (bytes v)) (vs : List ι) :
    Writes endian (writeAll (vs.map w)) (vs.flatMap bytes) := by
  induction vs with
  | nil => exact Writes.nil endian
  | cons v vs ih => exact (hw v).bind ih

theorem Reads.nil {α : Type} (endian : Endian) (a : α) : Reads endian (return a) [] a := by
  intro s c tail h he _
  exact ⟨s, c, rfl, h, rfl, rfl, he, rfl⟩

theorem reads_readAll {ι α : Type} {endian : Endian} {r : ι → Access α} {bytes : ι → List UInt8}
    {val : ι → α} (hr : ∀ v, Reads endian (r v) (bytes v) (val v)) (vs : List ι) :
    Reads endian (readAll (vs.map r)) (vs.flatMap bytes) (vs.map val) := by
  induction vs with
  | nil => exact Reads.nil endian []
  | cons v vs ih => exact (hr v).bind (ih.map (fun _ _ => rfl))

theorem setIsLittleEndian_represents {s : ByteArray} {c : Cursor UInt8} (h : Represents s c)
    (val : Bool) : Represents (s.setIsLittleEndian val) c :=
  ⟨⟨h.base_pos, h.uniform, h.root, h.capacity_eq, h.position_le, h.size_le, h.cur_eq⟩,
    h.items_eq, h.pos_eq⟩

/-- A fresh object after the given writers and `setPosition(0)`: it holds their bytes, and its
capacity is the smallest possible. -/
theorem written_spec {base : ℕ} (hb : 1 ≤ base) (heap : ℕ → UInt8) (little : Bool)
    {m : Access Unit} {bytes : List UInt8}
    (hm : Writes (if little then .little else .big) m bytes) :
    ∃ s, (do m; setPosition 0) ((new base heap).setIsLittleEndian little) = .ok () s ∧
      Represents s (Cursor.ofList bytes) ∧ s.endian = (if little then .little else .big) ∧
      s.baseSize = base ∧ s.capacity ≤ max base (bytes.length + base - 1) := by
  have h0 := setIsLittleEndian_represents (new_represents hb heap) little
  obtain ⟨t, hrun, ht, het, hbt, hct⟩ := hm _ _ h0 rfl
  obtain ⟨s, c, hrun', hs, hpos, ⟨pad, hpad, hitems⟩, hbs, hes, hcs, -⟩ :=
    setPosition_spec ht (Nat.zero_le t.capacity)
  have hc : c = Cursor.ofList bytes := by
    have hnil : pad = [] := by
      apply List.eq_nil_of_length_eq_zero
      omega
    have hput : (Cursor.empty.put bytes).items = bytes := by
      simp [Cursor.put, Cursor.empty, overwrite]
    ext1
    · rw [hitems, hnil, List.append_nil, hput]
      rfl
    · exact hpos
  have hbase : t.baseSize = base := hbt
  have hcap : t.capacity ≤ max base (bytes.length + base - 1) := by
    have h : t.capacity ≤ max base (0 + bytes.length + base - 1) := hct
    rwa [Nat.zero_add] at h
  refine ⟨s, (bind_ok hrun).trans hrun', hc ▸ hs, hes.trans het, hbs.trans hbase, ?_⟩
  rw [hcs]
  exact hcap

/-! ## Integers of any types in any mixture -/

/-- The writer and reader pairs for integers. -/
inductive Kind
  | fint8 | fuint8 | fint16 | fuint16 | fint32 | fuint32 | fint64 | fuint64
  | int32 | uint32 | int64 | uint64
  deriving DecidableEq, Repr

/-- A value with the writer it goes through. -/
inductive Item
  | fint8 (v : Int8)
  | fuint8 (v : UInt8)
  | fint16 (v : Int16)
  | fuint16 (v : UInt16)
  | fint32 (v : Int32)
  | fuint32 (v : UInt32)
  | fint64 (v : Int64)
  | fuint64 (v : UInt64)
  | int32 (v : Int32)
  | uint32 (v : UInt32)
  | int64 (v : Int64)
  | uint64 (v : UInt64)
  deriving DecidableEq

def Item.kind : Item → Kind
  | .fint8 _ => .fint8
  | .fuint8 _ => .fuint8
  | .fint16 _ => .fint16
  | .fuint16 _ => .fuint16
  | .fint32 _ => .fint32
  | .fuint32 _ => .fuint32
  | .fint64 _ => .fint64
  | .fuint64 _ => .fuint64
  | .int32 _ => .int32
  | .uint32 _ => .uint32
  | .int64 _ => .int64
  | .uint64 _ => .uint64

def writeItem (host : Endian) : Item → Access Unit
  | .fint8 v => writeFint8 v
  | .fuint8 v => writeFuint8 v
  | .fint16 v => writeFint16 host v
  | .fuint16 v => writeFuint16 host v
  | .fint32 v => writeFint32 host v
  | .fuint32 v => writeFuint32 host v
  | .fint64 v => writeFint64 host v
  | .fuint64 v => writeFuint64 host v
  | .int32 v => writeInt32 v
  | .uint32 v => writeUint32 v
  | .int64 v => writeInt64 v
  | .uint64 v => writeUint64 v

def readItem (host : Endian) : Kind → Access Item
  | .fint8 => return .fint8 (← readFint8)
  | .fuint8 => return .fuint8 (← readFuint8)
  | .fint16 => return .fint16 (← readFint16 host)
  | .fuint16 => return .fuint16 (← readFuint16 host)
  | .fint32 => return .fint32 (← readFint32 host)
  | .fuint32 => return .fuint32 (← readFuint32 host)
  | .fint64 => return .fint64 (← readFint64 host)
  | .fuint64 => return .fuint64 (← readFuint64 host)
  | .int32 => return .int32 (← readInt32)
  | .uint32 => return .uint32 (← readUint32)
  | .int64 => return .int64 (← readInt64)
  | .uint64 => return .uint64 (← readUint64)

/-- The bytes of a value on the wire. -/
def itemBytes (host endian : Endian) : Item → List UInt8
  | .fint8 v => [UInt8.ofBitVec v.toBitVec]
  | .fuint8 v => [v]
  | .fint16 v => fixedBytes host endian v.toBitVec
  | .fuint16 v => fixedBytes host endian v.toBitVec
  | .fint32 v => fixedBytes host endian v.toBitVec
  | .fuint32 v => fixedBytes host endian v.toBitVec
  | .fint64 v => fixedBytes host endian v.toBitVec
  | .fuint64 v => fixedBytes host endian v.toBitVec
  | .int32 v => varintLoop (EncodeZigzag32 v).toBitVec
  | .uint32 v => varintLoop v.toBitVec
  | .int64 v => varintLoop (EncodeZigzag64 v).toBitVec
  | .uint64 v => varintLoop v.toBitVec

theorem writes_writeItem (host endian : Endian) (v : Item) :
    Writes endian (writeItem host v) (itemBytes host endian v) := by
  cases v with
  | fint8 v => exact writes_write endian [UInt8.ofBitVec v.toBitVec]
  | fuint8 v => exact writes_write endian [v]
  | fint16 v => exact writes_writeF host endian _
  | fuint16 v => exact writes_writeF host endian _
  | fint32 v => exact writes_writeF host endian _
  | fuint32 v => exact writes_writeF host endian _
  | fint64 v => exact writes_writeF host endian _
  | fuint64 v => exact writes_writeF host endian _
  | int32 v => exact writes_write endian _
  | uint32 v => exact writes_write endian _
  | int64 v => exact writes_write endian _
  | uint64 v => exact writes_write endian _

theorem reads_readItem (host endian : Endian) (v : Item) :
    Reads endian (readItem host v.kind) (itemBytes host endian v) v := by
  have h16 := fun v : BitVec 16 => reads_readF host endian rfl (by decide) v
  have h32 := fun v : BitVec 32 => reads_readF host endian rfl (by decide) v
  have h64 := fun v : BitVec 64 => reads_readF host endian rfl (by decide) v
  cases v with
  | fint8 v => exact (reads_readFint8 endian v).pure Item.fint8
  | fuint8 v => exact (reads_readFuint8 endian v).pure Item.fuint8
  | fint16 v => exact ((h16 v.toBitVec).pure Int16.ofBitVec).pure Item.fint16
  | fuint16 v => exact ((h16 v.toBitVec).pure UInt16.ofBitVec).pure Item.fuint16
  | fint32 v => exact ((h32 v.toBitVec).pure Int32.ofBitVec).pure Item.fint32
  | fuint32 v => exact ((h32 v.toBitVec).pure UInt32.ofBitVec).pure Item.fuint32
  | fint64 v => exact ((h64 v.toBitVec).pure Int64.ofBitVec).pure Item.fint64
  | fuint64 v => exact ((h64 v.toBitVec).pure UInt64.ofBitVec).pure Item.fuint64
  | int32 v => exact (reads_readInt32 endian v).pure Item.int32
  | uint32 v => exact (reads_readUint32 endian v).pure Item.uint32
  | int64 v => exact (reads_readInt64 endian v).pure Item.int64
  | uint64 v => exact (reads_readUint64 endian v).pure Item.uint64

/-- A program that writes the values in order. -/
def writeItems (host : Endian) (vs : List Item) : Access Unit := writeAll (vs.map (writeItem host))

/-- A program that reads values of the given kinds in order. -/
def readItems (host : Endian) (ks : List Kind) : Access (List Item) :=
  readAll (ks.map (readItem host))

/-- Integers written in any mixture come back in order from position 0, and nothing is left. -/
theorem readItems_writeItems {base : ℕ} (hb : 1 ≤ base) (heap : ℕ → UInt8) (host : Endian)
    (little : Bool) (vs : List Item) :
    ∃ s, (do writeItems host vs; setPosition 0; readItems host (vs.map Item.kind))
        ((new base heap).setIsLittleEndian little) = .ok vs s ∧ s.getReadSize = 0 := by
  obtain ⟨t, hwrite, ht, het, -⟩ := written_spec hb heap little
    (writes_writeAll (writes_writeItem host _) vs)
  have hall := reads_readAll (reads_readItem host (if little then .little else .big)) vs
  have hmap : vs.map (fun v => readItem host v.kind) = (vs.map Item.kind).map (readItem host) := by
    rw [List.map_map]
    rfl
  rw [List.map_id', hmap] at hall
  obtain ⟨s, c, hread, hs, hitems, hpos, -⟩ := hall t _ [] ht het (by rw [List.append_nil]; rfl)
  refine ⟨s, ?_, ?_⟩
  · rw [← bind_assoc]
    exact (bind_ok hwrite).trans hread
  · rw [← hs.rest_length, Cursor.rest_length, hitems, hpos]
    simp [Cursor.ofList]

theorem readItems_writeItems_extremes :
    ∃ s, (do
        writeItems .little [.int32 Int32.minValue, .fuint16 65535, .int64 Int64.minValue]
        setPosition 0
        readItems .little [.int32, .fuint16, .int64])
          ((new 3 (fun _ => 7)).setIsLittleEndian false) =
        .ok [.int32 Int32.minValue, .fuint16 65535, .int64 Int64.minValue] s ∧
      s.getReadSize = 0 :=
  readItems_writeItems (by decide) (fun _ => 7) .little false
    [.int32 Int32.minValue, .fuint16 65535, .int64 Int64.minValue]

end Flz.ByteArray
