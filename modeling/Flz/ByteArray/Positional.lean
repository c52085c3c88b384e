import Flz.ByteArray.Buffers

/-! # Reading at a position

`read(buf, size, position)`, `getReadBuffers(buffers, len, position)` and `toString` of
`src/bytearray.cc`. The first walks from the block of the cursor on, and takes the size that is left
modulo `2 ^ 64`; the second walks from the block of the position on, and takes no more than what is
left behind the cursor.
-/
namespace Flz.ByteArray
open Lib

/-- `read(buf, size, position)`: the bytes in `buf`. -/
def readAt (size position : UInt64) (s : ByteArray) : Except Trap (List UInt8) :=
  if size > UInt64.ofNat s.size - position then .error (.outOfRange "not enough len")
  else
    match s.cur with
    | none => .error .nullNode
    | some i => do
      let (bytes, _) ← readLoop (s.nodes.drop i) (position.toNat % s.baseSize) size.toNat
      return bytes

/-- `getReadBuffers(buffers, len, position)`. -/
def getReadBuffersAt (len position : ℕ) (s : ByteArray) : Except Trap (ℕ × List IoVec) :=
  let len := if len > s.getReadSize then s.getReadSize else len
  if len = 0 then .ok (0, [])
  else do
    let count := position / s.baseSize
    let iovs ← bufferLoop (s.nodes.drop count) count (position % s.baseSize) len
    return (len, iovs)

def toString (s : ByteArray) : Except Trap (List UInt8) :=
  if s.getReadSize = 0 then .ok []
  else readAt (UInt64.ofNat s.getReadSize) (UInt64.ofNat s.position) s

section
variable {b npos size : ℕ} {chain : List Node}

/-- A read beyond the last block finds the null pointer. -/
theorem readLoop_short (hb : 0 < b) (hu : Uniform b chain) (hn : npos < b)
    (hlong : b * chain.length < npos + size) : readLoop chain npos size = .error .nullNode := by
  induction chain generalizing npos size with
  | nil => rfl
  | cons n rest ih =>
    have hsize : n.size = b := hu n List.mem_cons_self
    rw [List.length_cons, Nat.mul_succ] at hlong
    have hne : size ≠ 0 := by omega
    have hc : ¬ b - npos ≥ size := by omega
    have hrest := ih hu.tail hb (show b * rest.length < 0 + (size - (b - npos)) by omega)
    simp only [readLoop, hsize, hne, hc, ↓reduceIte, load_ok (show npos + (b - npos) ≤ n.size by omega),
      hrest, bind, Except.bind]

end

/-! ## Reading -/

/-- What the call is for: the bytes from `position` on, or `std::out_of_range`. -/
def ReadsAt (s : ByteArray) (size position : UInt64) : Prop :=
  readAt size position s =
    if position.toNat ≤ s.size ∧ size.toNat ≤ s.size - position.toNat then
      .ok ((s.contents.drop position.toNat).take size.toNat)
    else .error (.outOfRange "not enough len")

/-- In the block of the cursor, behind the offset that `position` has in its own, the chain holds
the bytes that are asked for. Beyond `m_size` the difference wraps around and the size is more. -/
def Alike (s : ByteArray) (size position : UInt64) : Prop :=
  (position.toNat ≤ s.size → size.toNat ≤ s.size - position.toNat → ∃ i, s.cur = some i ∧
    s.baseSize * i + position.toNat % s.baseSize + size.toNat ≤ s.capacity ∧
    ((cells s.nodes).drop (s.baseSize * i + position.toNat % s.baseSize)).take size.toNat =
      (s.contents.drop position.toNat).take size.toNat) ∧
  (s.size < position.toNat → 2 ^ 64 < position.toNat - s.size + size.toNat)

section
variable {s : ByteArray} {size position : UInt64}

theorem sub_toNat (position : UInt64) (hfits : s.size < 2 ^ 64) :
    (UInt64.ofNat s.size - position).toNat =
      if position.toNat ≤ s.size then s.size - position.toNat
      else 2 ^ 64 - (position.toNat - s.size) := by
  have hlt := position.toNat_lt
  rw [UInt64.toNat_sub, UInt64.toNat_ofNat', Nat.mod_eq_of_lt hfits]
  split <;> omega

theorem Inv.cur_le (h : Inv s) {i : ℕ} (hcur : s.cur = some i) : i ≤ s.nodes.length := by
  rw [h.cur_eq] at hcur
  split at hcur
  · cases hcur
  · cases hcur
    exact h.block_le h.position_le_capacity

theorem Inv.readLoop_cur (h : Inv s) (hsize : 1 ≤ size) {i : ℕ} (hcur : s.cur = some i) :
    readLoop (s.nodes.drop i) (position.toNat % s.baseSize) size.toNat =
      if s.baseSize * i + position.toNat % s.baseSize + size.toNat ≤ s.capacity then
        .ok (((cells s.nodes).drop (s.baseSize * i + position.toNat % s.baseSize)).take size.toNat,
          (position.toNat % s.baseSize + size.toNat) / s.baseSize)
      else .error .nullNode := by
  have hb : 0 < s.baseSize := h.base_pos
  have hi := h.cur_le hcur
  have hmod := Nat.mod_lt position.toNat hb
  have hpos : 0 < size.toNat := UInt64.le_iff_toNat_le.mp hsize
  have hlength : s.baseSize * (s.nodes.drop i).length = s.capacity - s.baseSize * i := by
    rw [List.length_drop, Nat.mul_sub, h.capacity_eq]
  have hle : s.baseSize * i ≤ s.capacity := by
    rw [h.capacity_eq]
    exact Nat.mul_le_mul_left _ hi
  split
  · rw [readLoop_spec hb (h.uniform.drop i) hpos hmod (by omega), h.uniform.cells_drop hi, List.drop_drop]
  · exact readLoop_short hb (h.uniform.drop i) hmod (by omega)

theorem Inv.readsAt_iff_alike (hinv : Inv s) (hfits : s.size < 2 ^ 64) (hsize : 1 ≤ size) :
    s.ReadsAt size position ↔ s.Alike size position := by
  have hsub := sub_toNat position hfits
  have hgt : size > UInt64.ofNat s.size - position ↔
      (UInt64.ofNat s.size - position).toNat < size.toNat := UInt64.lt_iff_toNat_lt
  have hlt := size.toNat_lt
  rw [ReadsAt, Alike]
  by_cases hp : position.toNat ≤ s.size
  · rw [if_pos hp] at hsub
    by_cases hin : size.toNat ≤ s.size - position.toNat
    · rw [if_pos ⟨hp, hin⟩, readAt, if_neg (by rw [hgt, hsub]; omega)]
      cases hcur : s.cur with
      | none =>
        refine iff_of_false (by simp) ?_
        rintro ⟨halike, -⟩
        obtain ⟨i, hi, -⟩ := halike hp hin
        cases hi
      | some i =>
        simp only [hinv.readLoop_cur hsize hcur]
        by_cases hroom : s.baseSize * i + position.toNat % s.baseSize + size.toNat ≤ s.capacity
        · simp only [if_pos hroom, bind, Except.bind, pure, Except.pure, Except.ok.injEq]
          constructor
          · intro heq
            exact ⟨fun _ _ => ⟨i, rfl, hroom, heq⟩, fun hlt => by omega⟩
          · rintro ⟨halike, -⟩
            obtain ⟨j, hj, -, heq⟩ := halike hp hin
            cases hj
            exact heq
        · refine iff_of_false (by simp [hroom, bind, Except.bind]) ?_
          rintro ⟨halike, -⟩
          obtain ⟨j, hj, hroom', -⟩ := halike hp hin
          cases hj
          exact hroom hroom'
    · rw [if_neg (fun hand => hin hand.2), readAt, if_pos (by rw [hgt, hsub]; omega)]
      exact iff_of_true rfl ⟨fun _ hin' => absurd hin' hin, fun hlt => by omega⟩
  · rw [if_neg hp] at hsub
    rw [if_neg (fun hand => hp hand.1), readAt]
    have hle := hinv.size_le
    have hposition := position.toNat_lt
    by_cases hlong : 2 ^ 64 < position.toNat - s.size + size.toNat
    · rw [if_pos (by rw [hgt, hsub]; omega)]
      exact iff_of_true rfl ⟨fun hp' => absurd hp' hp, fun _ => hlong⟩
    · rw [if_neg (by rw [hgt, hsub]; omega)]
      refine iff_of_false ?_ (fun halike => hlong (halike.2 (Nat.not_le.mp hp)))
      cases hcur : s.cur with
      | none => simp
      | some i =>
        simp only [hinv.readLoop_cur hsize hcur]
        split <;> simp [bind, Except.bind, pure, Except.pure]

/-- In the block of the cursor a positional read is right. -/
theorem Inv.alike_of_same_block (h : Inv s) {i : ℕ} (hcur : s.cur = some i)
    (hblock : position.toNat / s.baseSize = i) (hp : position.toNat ≤ s.size) : s.Alike size position := by
  have hat := Nat.div_add_mod position.toNat s.baseSize
  have hsize := h.size_le
  refine ⟨fun _ hin => ⟨i, hcur, ?_, ?_⟩, fun hlt => by omega⟩
  · rw [← hblock, hat]
    omega
  · rw [← hblock, hat, contents, List.drop_take, List.take_take, Nat.min_eq_left hin]

/-- A positional read does what it is for exactly when the block of the cursor is as good. -/
theorem readsAt_iff (h : Reachable s) (hfits : s.size < 2 ^ 64) (hsize : 1 ≤ size) :
    s.ReadsAt size position ↔ s.Alike size position := h.inv.readsAt_iff_alike hfits hsize

/-- `toString` reads at the cursor, where nothing can go wrong. -/
theorem Inv.toString_eq (h : Inv s) (hfits : s.size < 2 ^ 64) :
    s.toString = .ok (s.contents.drop s.position) := by
  have hp := h.position_le
  have hsize := h.size_le
  have hread : s.getReadSize = s.size - s.position := rfl
  by_cases h0 : s.getReadSize = 0
  · rw [toString, if_pos h0, List.drop_eq_nil_of_le]
    rw [h.contents_length]
    omega
  · have hlen : (UInt64.ofNat s.getReadSize).toNat = s.getReadSize := Nat.mod_eq_of_lt (by omega)
    have hpos : (UInt64.ofNat s.position).toNat = s.position := Nat.mod_eq_of_lt (by omega)
    have halike : s.Alike (UInt64.ofNat s.getReadSize) (UInt64.ofNat s.position) :=
      h.alike_of_same_block (h.cur_some (by omega)) (by rw [hpos]) (by omega)
    have hone : 1 ≤ UInt64.ofNat s.getReadSize := by
      rw [UInt64.le_iff_toNat_le, hlen]
      exact Nat.pos_of_ne_zero h0
    have hreads := (h.readsAt_iff_alike hfits hone).mpr halike
    rw [ReadsAt, if_pos (by omega), hlen, hpos, List.take_of_length_le] at hreads
    · rw [toString, if_neg h0, hreads]
    · rw [List.length_drop, h.contents_length, hread]

end

/-- Blocks of two; the position is that of the cursor. -/
theorem readsAt_iff_cursor : ∃ s : ByteArray, s.contents = [1, 2, 3, 4] ∧ s.cur = some 1 ∧
    readAt 1 3 s = .ok [4] ∧ (s.ReadsAt 1 3 ↔ s.Alike 1 3) := by
  have hwrite := (Reachable.new (by decide : 1 ≤ 2) (fun _ => 7)).step (.write [1, 2, 3, 4]) trivial rfl
  have h := hwrite.step (.setPosition 2) trivial rfl
  exact ⟨_, rfl, rfl, rfl, readsAt_iff h (by decide) (by decide)⟩

/-- With the cursor in the first block of two bytes the last byte is taken from there. -/
theorem not_always_readsAt : ∃ s : ByteArray, Reachable s ∧ s.contents = [1, 2, 3, 4] ∧ s.position = 0 ∧
    readAt 1 3 s = .ok [2] ∧ ¬ s.ReadsAt 1 3 := by
  have hwrite := (Reachable.new (by decide : 1 ≤ 2) (fun _ => 7)).step (.write [1, 2, 3, 4]) trivial rfl
  have h := hwrite.step (.setPosition 0) trivial rfl
  refine ⟨_, h, rfl, rfl, rfl, fun hreads => ?_⟩
  have hbytes := Except.ok.inj hreads
  exact absurd hbytes (by decide)

/-! ## Buffers at a position -/

/-- What the call is for: iovecs over the bytes from `position` on, as far as there are any. -/
def GathersAt (s : ByteArray) (len position : ℕ) : Prop :=
  ∃ iovs, getReadBuffersAt len position s = .ok (min len (s.size - position), iovs) ∧
    gather s.nodes iovs = .ok ((s.contents.drop position).take (min len (s.size - position))) ∧
    ∀ v ∈ iovs, s.Inside v ∧ s.baseSize * v.node + v.base + v.len ≤ s.size

section
variable {s : ByteArray} {len position : ℕ}

theorem getReadBuffersAt_fst {r : ℕ × List IoVec} (hrun : getReadBuffersAt len position s = .ok r) :
    r.1 = min len s.getReadSize := by
  have hmin : (if len > s.getReadSize then s.getReadSize else len) = min len s.getReadSize := by
    split <;> omega
  simp only [getReadBuffersAt, hmin] at hrun
  split at hrun
  · cases hrun
    omega
  · cases hloop : bufferLoop (s.nodes.drop (position / s.baseSize)) (position / s.baseSize)
        (position % s.baseSize) (min len s.getReadSize) with
    | error e => simp [hloop, bind, Except.bind] at hrun
    | ok iovs =>
      simp only [hloop, bind, Except.bind, pure, Except.pure, Except.ok.injEq] at hrun
      rw [← hrun]

/-- The iovecs at a position are right exactly when what is left behind the cursor does not take
more or less off than what is left behind the position. -/
theorem gathersAt_iff (h : Reachable s) (hp : position ≤ s.size) :
    s.GathersAt len position ↔ min len s.getReadSize = min len (s.size - position) := by
  have hmin : (if len > s.getReadSize then s.getReadSize else len) = min len s.getReadSize := by
    split <;> omega
  constructor
  · rintro ⟨iovs, hrun, -⟩
    exact (getReadBuffersAt_fst hrun).symm
  · intro heq
    by_cases h0 : min len s.getReadSize = 0
    · refine ⟨[], ?_, ?_, by simp⟩
      · simp only [getReadBuffersAt, hmin, h0, ↓reduceIte, ← heq]
      · rw [← heq, h0]
        rfl
    · obtain ⟨iovs, hloop, hin, hgather⟩ := h.inv.gather_at (p := position) (Nat.pos_of_ne_zero h0) (by omega)
      refine ⟨iovs, ?_, ?_, fun v hv => ⟨(hin v hv).1, ?_⟩⟩
      · simp only [getReadBuffersAt, hmin, h0, ↓reduceIte, hloop, ← heq]
        rfl
      · rw [← heq]
        exact hgather
      · have hle := (hin v hv).2
        omega

end

/-- Blocks of two; what is left behind the cursor is what is asked for. -/
theorem gathersAt_iff_two : ∃ s : ByteArray, s.contents = [1, 2, 3, 4] ∧ s.position = 1 ∧
    getReadBuffersAt 2 2 s = .ok (2, [⟨1, 0, 2⟩]) ∧
    (s.GathersAt 2 2 ↔ min 2 s.getReadSize = min 2 (s.size - 2)) := by
  have hwrite := (Reachable.new (by decide : 1 ≤ 2) (fun _ => 7)).step (.write [1, 2, 3, 4]) trivial rfl
  have h := hwrite.step (.setPosition 1) trivial rfl
  exact ⟨_, rfl, rfl, rfl, gathersAt_iff h (by decide)⟩

/-- With the cursor at the start the iovec behind the last byte is of a byte that was never written. -/
theorem not_always_gathersAt : ∃ s : ByteArray, Reachable s ∧ s.contents = [1, 2, 3] ∧ s.position = 0 ∧
    getReadBuffersAt 2 2 s = .ok (2, [⟨1, 0, 2⟩]) ∧ ¬ s.GathersAt 2 2 := by
  have hwrite := (Reachable.new (by decide : 1 ≤ 2) (fun _ => 7)).step (.write [1, 2, 3]) trivial rfl
  have h := hwrite.step (.setPosition 0) trivial rfl
  refine ⟨_, h, rfl, rfl, rfl, fun hgathers => ?_⟩
  obtain ⟨iovs, hrun, -⟩ := hgathers
  have hclamp : 1 = 2 := getReadBuffersAt_fst hrun
  omega

end Flz.ByteArray

