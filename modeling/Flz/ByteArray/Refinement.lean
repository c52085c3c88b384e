import Flz.ByteArray.Chain
import Flz.Lib.Cursor

/-! # `ByteArray` is a flat vector with a cursor

The invariant of the block chain, one lemma for each member function that says it returns,
keeps the invariant and acts on the flat vector, and the run over any sequence of calls.
-/
namespace Flz.ByteArray
open Lib

/-- What every member function keeps. `m_cur` is null exactly at the end of the last block. -/
structure Inv (s : ByteArray) : Prop where
  base_pos : 1 ≤ s.baseSize
  uniform : Uniform s.baseSize s.nodes
  root : s.nodes ≠ []
  capacity_eq : s.capacity = s.baseSize * s.nodes.length
  position_le : s.position ≤ s.size
  size_le : s.size ≤ s.capacity
  cur_eq : s.cur = if s.position = s.capacity then none else some (s.position / s.baseSize)

/-- The object holds the flat vector `c`. -/
structure Represents (s : ByteArray) (c : Cursor UInt8) : Prop extends Inv s where
  items_eq : c.items = (cells s.nodes).take s.size
  pos_eq : c.pos = s.position

variable {s : ByteArray} {c : Cursor UInt8}

theorem Inv.position_le_capacity (h : Inv s) : s.position ≤ s.capacity := h.position_le.trans h.size_le

theorem Inv.cells_length (h : Inv s) : (cells s.nodes).length = s.capacity :=
  h.uniform.cells_length.trans h.capacity_eq.symm

/-- A position inside the chain lies in the block of its quotient. -/
theorem nodeAt_div {b v : ℕ} (hb : 1 ≤ b) {nodes : List Node} (h : v ≤ b * nodes.length) :
    nodeAt nodes (v / b) = if v = b * nodes.length then none else some (v / b) := by
  unfold nodeAt
  have hlt : v / b < nodes.length ↔ v < b * nodes.length := by
    rw [Nat.div_lt_iff_lt_mul (by omega), Nat.mul_comm]
  by_cases he : v = b * nodes.length
  · rw [if_neg (by omega), if_pos he]
  · rw [if_pos (by omega), if_neg he]

theorem Represents.length (h : Represents s c) : c.items.length = s.size := by
  have := h.size_le
  rw [h.items_eq, List.length_take, h.cells_length]
  omega

theorem Represents.rest_length (h : Represents s c) : c.rest.length = s.getReadSize := by
  rw [Cursor.rest_length, h.length, h.pos_eq]
  rfl

theorem new_represents {base : ℕ} (hb : 1 ≤ base) (heap : ℕ → UInt8) :
    Represents (new base heap) Cursor.empty where
  base_pos := hb
  uniform := by
    intro n hn
    rw [List.mem_singleton.mp hn]
    exact alloc_size heap base
  root := List.cons_ne_nil _ _
  capacity_eq := by simp [new]
  position_le := le_rfl
  size_le := Nat.zero_le _
  cur_eq := by
    have : (0 : ℕ) ≠ base := by omega
    simp [new, this]
  items_eq := rfl
  pos_eq := rfl

theorem blockCount_bounds {b : ℕ} (hb : 1 ≤ b) (n : ℕ) :
    n ≤ blockCount n b * b ∧ blockCount n b * b ≤ n + b - 1 := by
  refine ⟨?_, Nat.div_mul_le_self _ _⟩
  have h := Nat.lt_mul_div_succ (n + b - 1) (show 0 < b by omega)
  rw [Nat.mul_succ, Nat.mul_comm] at h
  unfold blockCount
  omega

/-- Linking in at least one block keeps the flat vector. -/
theorem link_represents (h : Represents s c) {count : ℕ} (hc : 0 < count) :
    Represents (link count s) c := by
  have hb : 0 < s.baseSize := h.base_pos
  have hgrow : 0 < count * s.baseSize := Nat.mul_pos hc hb
  have hp := h.position_le_capacity
  have hs := h.size_le
  have hlen : (s.nodes ++ allocNodes s.baseSize count s.heap).length = s.nodes.length + count := by
    rw [List.length_append, allocNodes_length]
  refine ⟨⟨hb, h.uniform.append (allocNodes_uniform _ _ _), ?_, ?_, h.position_le, ?_, ?_⟩,
    ?_, h.pos_eq⟩
  · exact List.append_ne_nil_of_left_ne_nil h.root _
  · simp only [link]
    rw [hlen, h.capacity_eq, Nat.mul_add, Nat.mul_comm count]
  · simp only [link]
    omega
  · have hcap : s.getCapacity = s.capacity - s.position := rfl
    have hroom : ¬ (link count s).position = (link count s).capacity := by
      simp only [link]
      omega
    rw [if_neg hroom]
    change (if s.getCapacity = 0 then _ else s.cur) = some (s.position / s.baseSize)
    by_cases hfull : s.position = s.capacity
    · rw [if_pos (show s.getCapacity = 0 by omega), hfull, h.capacity_eq,
        Nat.mul_div_cancel_left _ hb]
      exact if_pos (by omega)
    · rw [if_neg (show ¬ s.getCapacity = 0 by omega), h.cur_eq, if_neg hfull]
  · have hl := h.cells_length
    simp only [link]
    rw [h.items_eq, cells_append, List.take_append_of_le_length (by omega)]

/-- `addCapacity` makes room for `len` bytes after the cursor and changes nothing else. -/
theorem addCapacity_spec (h : Represents s c) (len : ℕ) :
    Represents (addCapacity len s) c ∧
      s.position + len ≤ (addCapacity len s).capacity ∧
      (addCapacity len s).capacity ≤ max s.capacity (s.position + len + s.baseSize - 1) ∧
      (addCapacity len s).position = s.position ∧ (addCapacity len s).baseSize = s.baseSize ∧
      (addCapacity len s).endian = s.endian := by
  have hp := h.position_le_capacity
  have hb := h.base_pos
  unfold addCapacity
  by_cases h0 : len = 0
  · rw [if_pos h0]
    exact ⟨h, by omega, by omega, rfl, rfl, rfl⟩
  by_cases hcap : s.getCapacity ≥ len
  · rw [if_neg h0, if_pos hcap]
    unfold getCapacity at hcap
    exact ⟨h, by omega, by omega, rfl, rfl, rfl⟩
  rw [if_neg h0, if_neg hcap]
  obtain ⟨hlow, hhigh⟩ := blockCount_bounds hb (len - s.getCapacity)
  have hcount : 0 < blockCount (len - s.getCapacity) s.baseSize := by
    rcases Nat.eq_zero_or_pos (blockCount (len - s.getCapacity) s.baseSize) with hz | hz
    · rw [hz, Nat.zero_mul] at hlow
      omega
    · exact hz
  unfold getCapacity at hcap
  refine ⟨link_represents h hcount, ?_, ?_, rfl, rfl, rfl⟩
  · simp only [link]
    unfold getCapacity at hlow ⊢
    omega
  · simp only [link]
    unfold getCapacity at hhigh ⊢
    omega

/-- With room behind it the cursor stands in a block. -/
theorem Inv.cur_some (h : Inv s) (hlt : s.position < s.capacity) :
    s.cur = some (s.position / s.baseSize) := by
  rw [h.cur_eq, if_neg (by omega)]

/-- The part of the chain from the cursor's block on, and where the cursor is in it. -/
theorem Inv.from_cur (h : Inv s) {len : ℕ} (hfit : s.position + len ≤ s.capacity) :
    Uniform s.baseSize (s.nodes.drop (s.position / s.baseSize)) ∧
      s.position % s.baseSize < s.baseSize ∧
      s.position % s.baseSize + len ≤
        s.baseSize * (s.nodes.drop (s.position / s.baseSize)).length ∧
      s.position / s.baseSize + (s.position % s.baseSize + len) / s.baseSize =
        (s.position + len) / s.baseSize := by
  have hb : 0 < s.baseSize := h.base_pos
  have hdm := Nat.div_add_mod s.position s.baseSize
  refine ⟨h.uniform.drop _, Nat.mod_lt _ hb, ?_, ?_⟩
  · rw [List.length_drop, Nat.mul_sub, ← h.capacity_eq]
    omega
  · rw [Nat.add_comm, ← Nat.add_mul_div_left _ _ hb]
    congr 1
    omega

theorem cells_split (s : ByteArray) :
    cells s.nodes = cells (s.nodes.take (s.position / s.baseSize)) ++
      cells (s.nodes.drop (s.position / s.baseSize)) := by
  rw [← cells_append, List.take_append_drop]

theorem Inv.cells_before_length (h : Inv s) :
    (cells (s.nodes.take (s.position / s.baseSize))).length =
      s.baseSize * (s.position / s.baseSize) := by
  have hb : 0 < s.baseSize := h.base_pos
  have hle : s.position / s.baseSize ≤ s.nodes.length := by
    apply Nat.div_le_of_le_mul
    rw [← h.capacity_eq]
    exact h.position_le_capacity
  rw [(h.uniform.take _).cells_length, List.length_take, Nat.min_eq_left hle]

/-- `write` returns and puts the buffer at the cursor. -/
theorem write_spec (h : Represents s c) (buf : List UInt8) :
    ∃ s', write buf s = .ok () s' ∧ Represents s' (c.put buf) ∧
      s'.baseSize = s.baseSize ∧ s'.endian = s.endian ∧
      s'.capacity ≤ max s.capacity (s.position + buf.length + s.baseSize - 1) := by
  by_cases hbuf : buf = []
  · subst hbuf
    exact ⟨s, rfl, by rwa [Cursor.put_nil], rfl, rfl, by omega⟩
  have hpos : 0 < buf.length := List.length_pos_iff.mpr hbuf
  obtain ⟨ha, hroom, hcap, hpe, hbe, hee⟩ := addCapacity_spec h buf.length
  set t := addCapacity buf.length s with ht
  rw [← hpe] at hroom
  obtain ⟨hu, hmod, hfit, hadv⟩ := ha.from_cur hroom
  have hb : 0 < t.baseSize := ha.base_pos
  have hle : t.position / t.baseSize ≤ t.nodes.length := by
    apply Nat.div_le_of_le_mul
    rw [← ha.capacity_eq]
    exact ha.position_le_capacity
  obtain ⟨chain, hrun, hu', hl', hc'⟩ := writeLoop_spec hb hu hbuf hmod hfit
  have hlen : (t.nodes.take (t.position / t.baseSize) ++ chain).length = t.nodes.length := by
    rw [List.length_append, hl', List.length_take, List.length_drop]
    omega
  have hcells : cells (t.nodes.take (t.position / t.baseSize) ++ chain) =
      overwrite (cells t.nodes) t.position buf := by
    have hdm := Nat.div_add_mod t.position t.baseSize
    have hat : (cells (t.nodes.take (t.position / t.baseSize))).length +
        t.position % t.baseSize = t.position := by rw [ha.cells_before_length, hdm]
    rw [cells_append, hc', cells_split t, ← overwrite_append_right, hat]
  refine ⟨{ t with
      nodes := t.nodes.take (t.position / t.baseSize) ++ chain
      cur := nodeAt t.nodes ((t.position + buf.length) / t.baseSize)
      position := t.position + buf.length
      size := if t.position + buf.length > t.size then t.position + buf.length else t.size },
    ?_, ?_, hbe, hee, hcap⟩
  · simp only [write, if_neg (show ¬ buf.length = 0 by omega), ← ht,
      ha.cur_some (show t.position < t.capacity by omega), hrun, hadv]
  · have hps := ha.position_le
    have hsc := ha.size_le
    have hcl := ha.cells_length
    have hceq := ha.capacity_eq
    have hce : t.capacity = t.baseSize * (t.nodes.take (t.position / t.baseSize) ++ chain).length := by
      rw [hlen, hceq]
    refine ⟨⟨ha.base_pos, (ha.uniform.take _).append hu', ?_, hce, ?_, ?_, ?_⟩, ?_, ?_⟩
    · apply List.ne_nil_of_length_pos
      rw [hlen]
      exact List.length_pos_iff.mpr ha.root
    · dsimp only
      split <;> omega
    · dsimp only
      split <;> omega
    · dsimp only
      rw [nodeAt_div hb (by omega), ← hceq]
    · dsimp only [Cursor.put]
      rw [hcells, ha.items_eq, ha.pos_eq]
      split
      · next hgt => rw [take_overwrite_of_le hps (by omega) (by omega)]
      · next hgt => rw [take_overwrite (by omega) (by omega)]
    · dsimp only [Cursor.put]
      rw [ha.pos_eq]

/-- `read` of at least one byte that is there returns the bytes after the cursor. -/
theorem read_spec (h : Represents s c) {n : ℕ} (hn : 0 < n) (hle : n ≤ c.rest.length) :
    ∃ s', read n s = .ok (c.rest.take n) s' ∧ Represents s' (c.skip n hle) ∧
      s'.baseSize = s.baseSize ∧ s'.endian = s.endian ∧ s'.capacity = s.capacity ∧
      s'.nodes = s.nodes := by
  have hps := h.position_le
  have hsc := h.size_le
  have hceq := h.capacity_eq
  have hb : 0 < s.baseSize := h.base_pos
  have hrl := h.rest_length
  have hle' := hle
  rw [hrl, getReadSize] at hle'
  obtain ⟨hu, hmod, hfit, hadv⟩ := h.from_cur (show s.position + n ≤ s.capacity by omega)
  have hrun := readLoop_spec hb hu hn hmod hfit
  have hbytes : ((cells (s.nodes.drop (s.position / s.baseSize))).drop
      (s.position % s.baseSize)).take n = c.rest.take n := by
    have hbl := h.cells_before_length
    have hdm := Nat.div_add_mod s.position s.baseSize
    have hd : (cells s.nodes).drop s.position =
        (cells (s.nodes.drop (s.position / s.baseSize))).drop (s.position % s.baseSize) := by
      rw [cells_split s, List.drop_append, hbl, List.drop_eq_nil_of_le (by omega),
        List.nil_append]
      congr 1
      omega
    rw [← hd, Cursor.rest, h.items_eq, h.pos_eq, List.drop_take, List.take_take,
      Nat.min_eq_left (by omega)]
  refine ⟨{ s with
      position := s.position + n
      cur := nodeAt s.nodes ((s.position + n) / s.baseSize) }, ?_, ?_, rfl, rfl, rfl, rfl⟩
  · simp only [read, if_neg (show ¬ n > s.getReadSize by unfold getReadSize; omega),
      h.cur_some (show s.position < s.capacity by omega), hrun, hadv, hbytes]
  · refine ⟨⟨hb, h.uniform, h.root, hceq, ?_, hsc, ?_⟩, h.items_eq, ?_⟩
    · dsimp only
      omega
    · dsimp only
      rw [nodeAt_div hb (by omega), ← hceq]
    · dsimp only [Cursor.skip]
      rw [h.pos_eq]

/-- `read` throws when fewer bytes remain, whatever else holds. -/
theorem read_throws (h : Represents s c) {n : ℕ} (hlt : c.rest.length < n) :
    read n s = .error (.outOfRange "not enough len") s := by
  have hrl := h.rest_length
  exact if_pos (by omega)

/-- A read of no byte fails on the null block at the end of the chain only. -/
theorem read_zero (h : Represents s c) :
    read 0 s = if s.position = s.capacity then .error .nullNode s else .ok [] s := by
  have hceq := h.capacity_eq
  have hb : 0 < s.baseSize := h.base_pos
  have hps := h.position_le_capacity
  have h0 : ¬ 0 > s.getReadSize := by omega
  by_cases he : s.position = s.capacity
  · simp only [read, if_neg h0, h.cur_eq, if_pos he]
  · have hlt : s.position / s.baseSize < s.nodes.length := by
      rw [Nat.div_lt_iff_lt_mul hb, Nat.mul_comm]
      omega
    have hd : s.nodes.drop (s.position / s.baseSize) ≠ [] := by
      apply List.ne_nil_of_length_pos
      rw [List.length_drop]
      omega
    obtain ⟨n, rest, hnr⟩ := List.exists_cons_of_ne_nil hd
    have hcur : nodeAt s.nodes (s.position / s.baseSize) = s.cur := by
      rw [h.cur_eq, if_neg he]
      exact if_pos hlt
    have hat : s.cur = some (s.position / s.baseSize) := by rw [h.cur_eq, if_neg he]
    simp only [read, if_neg h0, hat, hnr, readLoop, ↓reduceIte, Nat.add_zero, hcur, if_neg he]
    rw [← hat]

/-- `setPosition` inside the capacity moves the cursor; past `m_size` the vector grows by
whatever the blocks hold there. -/
theorem setPosition_spec (h : Represents s c) {v : ℕ} (hv : v ≤ s.capacity) :
    ∃ s' c', setPosition v s = .ok () s' ∧ Represents s' c' ∧ c'.pos = v ∧
      (∃ pad, pad.length = v - c.items.length ∧ c'.items = c.items ++ pad) ∧
      s'.baseSize = s.baseSize ∧ s'.endian = s.endian ∧ s'.capacity = s.capacity ∧
      s'.nodes = s.nodes := by
  have hps := h.position_le
  have hsc := h.size_le
  have hceq := h.capacity_eq
  have hcl := h.cells_length
  have hb : 0 < s.baseSize := h.base_pos
  have hrun := seek_spec hb h.uniform h.root (v := v) (by omega)
  let size' := if v > s.size then v else s.size
  have hs1 : v ≤ size' := by dsimp only [size']; split <;> omega
  have hs2 : size' ≤ s.capacity := by dsimp only [size']; split <;> omega
  have hs3 : s.size ≤ size' := by dsimp only [size']; split <;> omega
  have hs4 : size' - s.size = v - s.size := by dsimp only [size']; split <;> omega
  refine ⟨{ s with position := v, size := size', cur := nodeAt s.nodes (v / s.baseSize) },
    ⟨(cells s.nodes).take size', v, by rw [List.length_take]; omega⟩, ?_, ?_, rfl,
    ⟨((cells s.nodes).drop s.size).take (size' - s.size), ?_, ?_⟩, rfl, rfl, rfl, rfl⟩
  · simp only [setPosition, if_neg (show ¬ v > s.capacity by omega), hrun, size']
  · refine ⟨⟨hb, h.uniform, h.root, hceq, hs1, hs2, ?_⟩, rfl, rfl⟩
    dsimp only
    rw [nodeAt_div hb (by omega), ← hceq]
  · rw [List.length_take, List.length_drop, h.length]
    omega
  · dsimp only
    rw [h.items_eq, ← List.take_add]
    congr 1
    omega

theorem clear_spec (h : Represents s c) :
    ∃ s', clear s = .ok () s' ∧ Represents s' Cursor.empty ∧ s'.baseSize = s.baseSize ∧
      s'.endian = s.endian := by
  have hb : 0 < s.baseSize := h.base_pos
  have hlen : 0 < s.nodes.length := List.length_pos_iff.mpr h.root
  have htake : (s.nodes.take 1).length = 1 := by
    rw [List.length_take]
    omega
  refine ⟨_, rfl, ⟨⟨hb, h.uniform.take 1, ?_, ?_, le_rfl, Nat.zero_le _, ?_⟩, rfl, rfl⟩, rfl, rfl⟩
  · exact List.ne_nil_of_length_pos (by dsimp only; omega)
  · dsimp only
    rw [htake, Nat.mul_one]
  · dsimp only
    rw [if_neg (by omega), Nat.zero_div]
    exact if_pos hlen

/-- `getWriteBuffers` only makes room: the flat vector stays, and the iovecs it returns stay
inside their blocks and add up to `len` bytes. -/
theorem getWriteBuffers_spec (h : Represents s c) (len : ℕ) :
    ∃ s' iovs, getWriteBuffers len s = .ok (len, iovs) s' ∧ Represents s' c ∧
      s'.baseSize = s.baseSize ∧ (iovs.map IoVec.len).sum = len ∧
      ∀ v ∈ iovs, v.node < s'.nodes.length ∧ v.base + v.len ≤ s'.baseSize := by
  by_cases h0 : len = 0
  · subst h0
    exact ⟨s, [], rfl, h, rfl, rfl, by simp⟩
  obtain ⟨ha, hroom, -, hpe, hbe, -⟩ := addCapacity_spec h len
  set t := addCapacity len s with ht
  rw [← hpe] at hroom
  obtain ⟨hu, hmod, hfit, -⟩ := ha.from_cur hroom
  have hb : 0 < t.baseSize := ha.base_pos
  obtain ⟨iovs, hrun, hsum, hin⟩ := bufferLoop_spec hb hu (i := t.position / t.baseSize)
    (show 0 < len by omega) hmod hfit
  refine ⟨t, iovs, ?_, ha, hbe, hsum, ?_⟩
  · simp only [getWriteBuffers, if_neg h0, ← ht,
      ha.cur_some (show t.position < t.capacity by omega), hrun]
  · intro v hv
    have hv' := hin v hv
    rw [List.length_drop] at hv'
    exact ⟨by omega, hv'.2.2⟩

end Flz.ByteArray
