import Flz.ByteArray.Positional
import Flz.ByteArray.Sequence

/-! # Through a file

`writeToFile` and `readFromFile` of `src/bytearray.cc`. A file is its bytes, and the streams on it keep
and return them. The write loop takes `diff` off the length of every chunk, and not off the block: a
rest that is shorter than a block ends in front of `m_size` unless it starts at a block.
-/
namespace Flz.ByteArray
open Lib

/-- The loop of `writeToFile` from the block `cur` on. The offset is an `int`, and a length below zero
has no meaning to `ofs.write`. -/
def writeFileLoop (base : ℕ) : List Node → ℕ → ℕ → Except Trap (List UInt8)
  | [], _, readSize => if readSize = 0 then .ok [] else .error .nullNode
  | n :: rest, pos, readSize =>
    if readSize = 0 then .ok []
    else
      let diff := (Int32.ofNat (pos % base)).toInt
      let len := (if readSize > base then base else readSize : ℕ) - diff
      if diff < 0 ∨ len < 0 then .error .outOfBlock
      else do
        let bytes ← n.load diff.toNat len.toNat
        let more ← writeFileLoop base rest (pos + len.toNat) (readSize - len.toNat)
        return bytes ++ more

/-- `writeToFile(name)`: what is in the file. -/
def writeToFile : Access (List UInt8) := fun s =>
  if s.getReadSize = 0 then .ok [] s
  else
    match s.cur with
    | none => .error .nullNode s
    | some i =>
      match writeFileLoop s.baseSize (s.nodes.drop i) s.position s.getReadSize with
      | .error e => .error e s
      | .ok file => .ok file s

/-- The loop of `readFromFile`: `eof()` holds after a `read` that found less than it was asked for.
It runs `fuel` times at most. -/
def readFileLoop (base : ℕ) : ℕ → List UInt8 → Access Unit
  | 0, _ => return ()
  | fuel + 1, file => do
    write (file.take base)
    if file.length < base then return ()
    else readFileLoop base fuel (file.drop base)

/-- `readFromFile(name)`. -/
def readFromFile (file : List UInt8) : Access Unit := do
  let s ← get
  readFileLoop s.baseSize (file.length + 1) file

/-- The bytes behind the cursor go to the file, and come back from it. -/
def RoundTrips (s : ByteArray) : Prop :=
  writeToFile s = .ok (s.contents.drop s.position) s ∧
    ∀ base heap, 1 ≤ base → ∃ t u, readFromFile (s.contents.drop s.position) (new base heap) = .ok () t ∧
      setPosition 0 t = .ok () u ∧ u.toString = s.toString

/-- Nothing is left, or the rest starts at a block or is as long as one. -/
def Blockwise (s : ByteArray) : Prop :=
  s.getReadSize = 0 ∨
    s.position % s.baseSize < 2 ^ 31 ∧ (s.position % s.baseSize = 0 ∨ s.baseSize ≤ s.getReadSize)

/-! ## Writing -/

section
variable {b pos readSize : ℕ} {chain : List Node} {n : Node} {rest : List Node}

theorem int_diff (h : pos % b < 2 ^ 31) : (Int32.ofNat (pos % b)).toInt = (pos % b : ℕ) :=
  Int32.toInt_ofNat_of_lt h

/-- One chunk, when the offset in the block is less than the rest. -/
theorem writeFileLoop_cons (len : ℕ) (hn : n.size = b) (hpos : 0 < readSize) (hint : pos % b < 2 ^ 31)
    (hlen : len + pos % b = min readSize b) :
    writeFileLoop b (n :: rest) pos readSize = (do
      let more ← writeFileLoop b rest (pos + len) (readSize - len)
      return (n.ptr.drop (pos % b)).take len ++ more) := by
  have hmin : (if readSize > b then b else readSize) = len + pos % b := by
    rw [hlen]
    split <;> omega
  have hdiff : ((len + pos % b : ℕ) : ℤ) - (pos % b : ℕ) = (len : ℕ) := by omega
  have hload : n.load (pos % b) len = .ok ((n.ptr.drop (pos % b)).take len) := load_ok (by omega)
  simp only [writeFileLoop, Nat.ne_of_gt hpos, int_diff hint, hmin, hdiff, ↓reduceIte, Int.toNat_natCast, hload,
    bind, Except.bind]
  rw [if_neg (by omega)]

/-- From the start of a block on the chunks are whole blocks, and then the rest of the bytes. -/
theorem writeFileLoop_aligned (hu : Uniform b chain) (hpos : pos % b = 0)
    (hfit : readSize ≤ b * chain.length) :
    writeFileLoop b chain pos readSize = .ok ((cells chain).take readSize) := by
  induction chain generalizing pos readSize with
  | nil =>
    obtain rfl : readSize = 0 := by simpa using hfit
    rfl
  | cons n rest ih =>
    have hn : n.ptr.length = b := hu n List.mem_cons_self
    rcases Nat.eq_zero_or_pos readSize with rfl | hr
    · rfl
    · rw [List.length_cons, Nat.mul_succ] at hfit
      rw [writeFileLoop_cons (min readSize b) hn hr (by omega) (by omega), hpos, List.drop_zero,
        cells_cons, List.take_append, hn]
      by_cases hlast : readSize ≤ b
      · rw [Nat.min_eq_left hlast, Nat.sub_self, Nat.sub_eq_zero_of_le hlast]
        cases rest <;> rfl
      · have hle := Nat.le_of_not_le hlast
        have halign : (pos + b) % b = 0 := by rw [Nat.add_mod_right, hpos]
        rw [Nat.min_eq_right hle, ih hu.tail halign (by omega), List.take_of_length_le hn.le,
          List.take_of_length_le (show n.ptr.length ≤ readSize by omega)]
        rfl

/-- The first chunk fills up the block. -/
theorem writeFileLoop_blockwise (hb : 0 < b) (hu : Uniform b chain) (hint : pos % b < 2 ^ 31)
    (hr : 0 < readSize) (hwhole : pos % b = 0 ∨ b ≤ readSize)
    (hfit : pos % b + readSize ≤ b * chain.length) :
    writeFileLoop b chain pos readSize = .ok (((cells chain).drop (pos % b)).take readSize) := by
  have hmod := Nat.mod_lt pos hb
  rcases hwhole with h0 | hge
  · rw [writeFileLoop_aligned hu h0 (by omega), h0, List.drop_zero]
  · cases chain with
    | nil =>
      simp at hfit
      omega
    | cons n rest =>
      have hn : n.ptr.length = b := hu n List.mem_cons_self
      have halign : (pos + (b - pos % b)) % b = 0 := by
        have hat := Nat.div_add_mod pos b
        rw [show pos + (b - pos % b) = b * (pos / b + 1) by rw [Nat.mul_succ]; omega, Nat.mul_mod_right]
      have hd : (n.ptr.drop (pos % b)).length = b - pos % b := by rw [List.length_drop, hn]
      rw [List.length_cons, Nat.mul_succ] at hfit
      rw [writeFileLoop_cons (b - pos % b) hn hr hint (by omega),
        writeFileLoop_aligned hu.tail halign (by omega), cells_cons,
        List.drop_append_of_le_length (by omega), List.take_append, hd, List.take_of_length_le hd.le,
        List.take_of_length_le (show (n.ptr.drop (pos % b)).length ≤ readSize by omega)]
      rfl

/-- A rest that is not longer than the offset never gets out. -/
theorem writeFileLoop_stuck (hb : b ≤ 2 ^ 31) (hu : Uniform b chain) (hmod : pos % b < b)
    (hr : 0 < readSize) (hle : readSize ≤ pos % b) : ∃ e, writeFileLoop b chain pos readSize = .error e := by
  induction chain with
  | nil => exact ⟨.nullNode, if_neg (Nat.ne_of_gt hr)⟩
  | cons n rest ih =>
    have hn : n.size = b := hu n List.mem_cons_self
    rcases Nat.lt_or_eq_of_le hle with hlt | heq
    · refine ⟨.outOfBlock, ?_⟩
      simp only [writeFileLoop, Nat.ne_of_gt hr, int_diff (show pos % b < 2 ^ 31 by omega), ↓reduceIte,
        if_neg (show ¬ readSize > b by omega)]
      rw [if_pos (by omega)]
    · obtain ⟨e, hrest⟩ := ih hu.tail
      refine ⟨e, ?_⟩
      rw [writeFileLoop_cons 0 hn hr (by omega) (by omega), Nat.add_zero, Nat.sub_zero, hrest]
      rfl

/-- A rest that is shorter than a block and starts inside one does not get into the file. -/
theorem writeFileLoop_short (hb : b ≤ 2 ^ 31) (hu : Uniform b chain) (hr : 0 < readSize)
    (hin : 0 < pos % b) (hlt : readSize < b) : ∃ e, writeFileLoop b chain pos readSize = .error e := by
  have hmod := Nat.mod_lt pos (show 0 < b by omega)
  by_cases hle : readSize ≤ pos % b
  · exact writeFileLoop_stuck hb hu hmod hr hle
  · cases chain with
    | nil => exact ⟨.nullNode, if_neg (Nat.ne_of_gt hr)⟩
    | cons n rest =>
      have hat := Nat.div_add_mod pos b
      have hmod' : (pos + (readSize - pos % b)) % b = readSize := by
        rw [show pos + (readSize - pos % b) = readSize + b * (pos / b) by omega, Nat.add_mul_mod_self_left,
          Nat.mod_eq_of_lt hlt]
      have hstuck : ∃ e, writeFileLoop b rest (pos + (readSize - pos % b))
          (readSize - (readSize - pos % b)) = .error e :=
        writeFileLoop_stuck hb hu.tail (by omega) (by omega) (by omega)
      obtain ⟨e, hrest⟩ := hstuck
      refine ⟨e, ?_⟩
      rw [writeFileLoop_cons (readSize - pos % b) (hu n List.mem_cons_self) hr (by omega) (by omega), hrest]
      rfl

end

/-! ## Reading -/

theorem writes_readFileLoop (endian : Endian) {base fuel : ℕ} (hb : 1 ≤ base) {file : List UInt8}
    (hfuel : file.length < fuel) : Writes endian (readFileLoop base fuel file) file := by
  induction fuel generalizing file with
  | zero => omega
  | succ fuel ih =>
    have h := writes_write endian (file.take base)
    by_cases hlt : file.length < base
    · have hbind := h.bind (Writes.nil endian)
      rw [List.append_nil, List.take_of_length_le hlt.le] at hbind
      simpa only [readFileLoop, if_pos hlt, List.take_of_length_le hlt.le] using hbind
    · have hmore : Writes endian (readFileLoop base fuel (file.drop base)) (file.drop base) := by
        apply ih
        rw [List.length_drop]
        omega
      have hbind := h.bind hmore
      rw [List.take_append_drop] at hbind
      simpa only [readFileLoop, if_neg hlt] using hbind

/-- What was read from a file is there from position 0 on. -/
theorem readFromFile_new {base : ℕ} (hb : 1 ≤ base) (heap : ℕ → UInt8) {file : List UInt8}
    (hfits : file.length < 2 ^ 64) :
    ∃ t u, readFromFile file (new base heap) = .ok () t ∧ setPosition 0 t = .ok () u ∧
      u.toString = .ok file := by
  obtain ⟨t, hrun, ht, -⟩ := writes_readFileLoop .big hb (Nat.lt_succ_self file.length) (new base heap) _
    (new_represents hb heap) rfl
  have hput : (Cursor.empty.put file).items = file := overwrite_end [] file
  obtain ⟨u, c, hset, hu, hpos, ⟨pad, hpad, hitems⟩, -⟩ := setPosition_spec ht (Nat.zero_le _)
  obtain rfl : pad = [] := List.eq_nil_of_length_eq_zero (by omega)
  rw [hput, List.append_nil] at hitems
  have hsize : u.size = file.length := by rw [← hu.length, hitems]
  refine ⟨t, u, hrun, hset, ?_⟩
  rw [hu.toInv.toString_eq (by omega), hu.contents_eq, hitems, ← hu.pos_eq, hpos, List.drop_zero]

/-! ## Both -/

section
variable {s : ByteArray}

theorem Inv.writeToFile_eq (h : Inv s) (hr : s.getReadSize ≠ 0) :
    writeToFile s = match writeFileLoop s.baseSize (s.nodes.drop (s.position / s.baseSize)) s.position
        s.getReadSize with
      | .error e => .error e s
      | .ok file => .ok file s := by
  have hsize := h.size_le
  have hread : s.getReadSize = s.size - s.position := rfl
  simp only [writeToFile, hr, ↓reduceIte, h.cur_some (by omega)]

theorem Inv.writeToFile_blockwise (h : Inv s) (hblock : s.Blockwise) :
    writeToFile s = .ok (s.contents.drop s.position) s := by
  have hread : s.getReadSize = s.size - s.position := rfl
  have hlength := h.contents_length
  by_cases h0 : s.getReadSize = 0
  · rw [List.drop_eq_nil_of_le (by omega)]
    exact if_pos h0
  · obtain h0' | ⟨hint, hwhole⟩ := hblock
    · exact absurd h0' h0
    · have hsize := h.size_le
      obtain ⟨hu, -, hfit, -⟩ := h.from_cur (show s.position + s.getReadSize ≤ s.capacity by omega)
      rw [h.writeToFile_eq h0, writeFileLoop_blockwise h.base_pos hu hint (Nat.pos_of_ne_zero h0) hwhole hfit,
        h.cells_at (by omega), List.take_of_length_le]
      rw [List.length_drop, hlength, hread]

/-- A blockwise rest makes the way through a file and back. For blocks up to `2 ^ 31`, which an `int`
can point into, no other rest does. -/
theorem roundTrips_iff (h : Reachable s) (hfits : s.size < 2 ^ 64) :
    (s.Blockwise → s.RoundTrips) ∧ (s.baseSize ≤ 2 ^ 31 → (s.RoundTrips ↔ s.Blockwise)) := by
  have hinv := h.inv
  have hright : s.Blockwise → s.RoundTrips := by
    intro hblock
    refine ⟨hinv.writeToFile_blockwise hblock, fun base heap hb => ?_⟩
    obtain ⟨t, u, hread, hset, hstring⟩ := readFromFile_new hb heap
      (show (s.contents.drop s.position).length < 2 ^ 64 by
        rw [List.length_drop, hinv.contents_length]
        omega)
    exact ⟨t, u, hread, hset, hstring.trans (hinv.toString_eq hfits).symm⟩
  refine ⟨hright, fun hbase => ⟨?_, hright⟩⟩
  rintro ⟨hwrite, -⟩
  by_contra hnot
  simp only [Blockwise, not_or, not_and, Nat.not_le] at hnot
  obtain ⟨h0, hshort⟩ := hnot
  have hmod := Nat.mod_lt s.position hinv.base_pos
  obtain ⟨hin, hlt⟩ := hshort (by omega)
  obtain ⟨e, herror⟩ := writeFileLoop_short hbase (hinv.uniform.drop (s.position / s.baseSize))
    (Nat.pos_of_ne_zero h0) (Nat.pos_of_ne_zero hin) hlt
  rw [hinv.writeToFile_eq h0, herror] at hwrite
  cases hwrite

end

/-- Blocks of two: from the second byte on more than a block is left. -/
theorem roundTrips_iff_two : ∃ s : ByteArray, s.contents = [1, 2, 3, 4] ∧ s.position = 1 ∧
    ((s.Blockwise → s.RoundTrips) ∧ (s.baseSize ≤ 2 ^ 31 → (s.RoundTrips ↔ s.Blockwise))) := by
  have hwrite := (Reachable.new (by decide : 1 ≤ 2) (fun _ => 7)).step (.write [1, 2, 3, 4]) trivial rfl
  have h := hwrite.step (.setPosition 1) trivial rfl
  exact ⟨_, rfl, rfl, roundTrips_iff h (by decide)⟩

/-- One block of four: of the two bytes behind the first one the file gets one, and then the loop runs
off the chain. -/
theorem not_always_roundTrips : ∃ s : ByteArray, Reachable s ∧ s.contents = [1, 2, 3] ∧ s.position = 1 ∧
    writeToFile s = .error .nullNode s ∧ ¬ s.RoundTrips := by
  have hwrite := (Reachable.new (by decide : 1 ≤ 4) (fun _ => 7)).step (.write [1, 2, 3]) trivial rfl
  have h := hwrite.step (.setPosition 1) trivial rfl
  refine ⟨_, h, rfl, rfl, rfl, ?_⟩
  rintro ⟨hright, -⟩
  cases hright

end Flz.ByteArray
