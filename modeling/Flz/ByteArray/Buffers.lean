import Flz.ByteArray.Run

/-! # Scatter and gather

The iovecs that `getWriteBuffers` and `getReadBuffers` of `src/bytearray.cc` hand out, and what a
caller does with them: `readv` fills the first ones, and `setPosition` follows. This is the same as
`write`, and what `read` returns is in the iovecs for reading.
-/
namespace Flz.ByteArray
open Lib

/-- `getReadBuffers(buffers, len)`. -/
def getReadBuffers (len : ℕ) (s : ByteArray) : Except Trap (ℕ × List IoVec) :=
  let len := if len > s.getReadSize then s.getReadSize else len
  if len = 0 then .ok (0, [])
  else
    match s.cur with
    | none => .error .nullNode
    | some i => do
      let iovs ← bufferLoop (s.nodes.drop i) i (s.position % s.baseSize) len
      return (len, iovs)

/-- The bytes go into the iovecs in order, as far as there are any. -/
def fill : List IoVec → List UInt8 → List Node → Except Trap (List Node)
  | [], _, nodes => .ok nodes
  | v :: iovs, data, nodes =>
    match nodes[v.node]? with
    | none => .error .nullNode
    | some n => do
      let n' ← n.store v.base (data.take v.len)
      fill iovs (data.drop v.len) (nodes.set v.node n')

/-- The bytes in the iovecs in order. -/
def gather (nodes : List Node) : List IoVec → Except Trap (List UInt8)
  | [] => .ok []
  | v :: iovs =>
    match nodes[v.node]? with
    | none => .error .nullNode
    | some n => do
      let bytes ← n.load v.base v.len
      let more ← gather nodes iovs
      return bytes ++ more

/-- The bytes up to `m_size`. -/
def contents (s : ByteArray) : List UInt8 := (cells s.nodes).take s.size

/-- The iovec lies in one block. -/
def Inside (s : ByteArray) (v : IoVec) : Prop :=
  ∃ n, s.nodes[v.node]? = some n ∧ v.base + v.len ≤ n.size

/-! ## The loops -/

section
variable {b : ℕ} {chain : List Node} {npos len : ℕ} {data : List UInt8}

theorem getElem?_chain (before : List Node) (n : Node) (rest : List Node) :
    (before ++ n :: rest)[before.length]? = some n := by simp

theorem set_chain (before : List Node) (n m : Node) (rest : List Node) :
    (before ++ n :: rest).set before.length m = before ++ [m] ++ rest := by simp

/-- Filling puts the bytes over the flat contents of the chain. -/
theorem fill_spec (before : List Node) (hb : 0 < b) (hu : Uniform b chain) (hlen : 0 < len) (hn : npos < b)
    (hfit : npos + len ≤ b * chain.length) (hdata : data.length ≤ len) :
    ∃ iovs chain', bufferLoop chain before.length npos len = .ok iovs ∧
      fill iovs data (before ++ chain) = .ok (before ++ chain') ∧ Uniform b chain' ∧
      chain'.length = chain.length ∧ cells chain' = overwrite (cells chain) npos data := by
  induction chain generalizing before npos len data with
  | nil =>
    simp at hfit
    omega
  | cons n rest ih =>
    have hs : n.ptr.length = b := hu n List.mem_cons_self
    have hsize : n.size = b := hs
    by_cases hc : b - npos ≥ len
    · have hin : npos + data.length ≤ n.size := by omega
      refine ⟨[⟨before.length, npos, len⟩], ⟨overwrite n.ptr npos data⟩ :: rest, ?_, ?_, ?_, rfl, ?_⟩
      · simp only [bufferLoop, hsize, hc, ↓reduceIte]
      · simp only [fill, getElem?_chain, List.take_of_length_le hdata, store_ok hin, bind, Except.bind,
          set_chain, List.append_assoc, List.singleton_append]
      · intro m hm
        rcases List.mem_cons.mp hm with rfl | hm
        · exact (overwrite_length hin).trans hs
        · exact hu.tail m hm
      · exact (overwrite_append_left hin).symm
    · have htake : (data.take (b - npos)).length ≤ b - npos := List.length_take_le _ _
      have hin : npos + (data.take (b - npos)).length ≤ n.size := by omega
      have hdrop : (data.drop (b - npos)).length ≤ len - (b - npos) := by
        rw [List.length_drop]
        omega
      have hfit' : 0 + (len - (b - npos)) ≤ b * rest.length := by
        rw [List.length_cons, Nat.mul_succ] at hfit
        omega
      obtain ⟨iovs, rest', hloop, hfill, hu', hl', hc'⟩ :=
        ih (before ++ [⟨overwrite n.ptr npos (data.take (b - npos))⟩]) hu.tail
          (show 0 < len - (b - npos) by omega) hb hfit' hdrop
      rw [List.length_append, List.length_singleton] at hloop
      refine ⟨⟨before.length, npos, b - npos⟩ :: iovs,
        ⟨overwrite n.ptr npos (data.take (b - npos))⟩ :: rest', ?_, ?_, ?_, ?_, ?_⟩
      · simp only [bufferLoop, hsize, hc, ↓reduceIte, bind, Except.bind, pure, Except.pure, hloop]
      · simp only [fill, getElem?_chain, store_ok hin, bind, Except.bind, set_chain, hfill]
        simp
      · intro m hm
        rcases List.mem_cons.mp hm with rfl | hm
        · exact (overwrite_length hin).trans hs
        · exact hu' m hm
      · simp [hl']
      · rw [cells_cons, cells_cons, hc']
        by_cases hshort : data.length ≤ b - npos
        · rw [List.take_of_length_le hshort, List.drop_eq_nil_of_le hshort, overwrite_nil,
            overwrite_append_left (by omega)]
        · have h : overwrite (n.ptr ++ cells rest) npos data = _ :=
            overwrite_append_split (by omega) (by omega)
          rw [hs] at h
          exact h.symm

/-- Gathering gives the bytes of the range. -/
theorem gather_spec (before : List Node) (hb : 0 < b) (hu : Uniform b chain) (hlen : 0 < len) (hn : npos < b)
    (hfit : npos + len ≤ b * chain.length) :
    ∃ iovs, bufferLoop chain before.length npos len = .ok iovs ∧
      gather (before ++ chain) iovs = .ok (((cells chain).drop npos).take len) := by
  induction chain generalizing before npos len with
  | nil =>
    simp at hfit
    omega
  | cons n rest ih =>
    have hs : n.ptr.length = b := hu n List.mem_cons_self
    have hsize : n.size = b := hs
    have hd : (n.ptr ++ cells rest).drop npos = n.ptr.drop npos ++ cells rest :=
      List.drop_append_of_le_length (by omega)
    have hl : (n.ptr.drop npos).length = b - npos := by rw [List.length_drop, hs]
    by_cases hc : b - npos ≥ len
    · refine ⟨[⟨before.length, npos, len⟩], by simp only [bufferLoop, hsize, hc, ↓reduceIte], ?_⟩
      simp only [gather, getElem?_chain, load_ok (show npos + len ≤ n.size by omega), bind, Except.bind,
        pure, Except.pure, List.append_nil]
      rw [cells_cons, hd, List.take_append_of_le_length (by omega)]
    · have hfit' : 0 + (len - (b - npos)) ≤ b * rest.length := by
        rw [List.length_cons, Nat.mul_succ] at hfit
        omega
      obtain ⟨iovs, hloop, hgather⟩ :=
        ih (before ++ [n]) hu.tail (show 0 < len - (b - npos) by omega) hb hfit'
      rw [List.length_append, List.length_singleton] at hloop
      rw [List.append_assoc, List.singleton_append] at hgather
      refine ⟨⟨before.length, npos, b - npos⟩ :: iovs, ?_, ?_⟩
      · simp only [bufferLoop, hsize, hc, ↓reduceIte, bind, Except.bind, pure, Except.pure, hloop]
      · simp only [gather, getElem?_chain, load_ok (show npos + (b - npos) ≤ n.size by omega), bind,
          Except.bind, pure, Except.pure, hgather, List.drop_zero]
        rw [cells_cons, hd, List.take_append, hl, List.take_of_length_le (le_of_eq hl),
          List.take_of_length_le (show (n.ptr.drop npos).length ≤ len by omega)]

theorem bufferLoop_range (hu : Uniform b chain) (hn : npos ≤ b) {i : ℕ} {iovs : List IoVec}
    (hloop : bufferLoop chain i npos len = .ok iovs) :
    ∀ v ∈ iovs, b * v.node + v.base + v.len ≤ b * i + npos + len := by
  induction chain generalizing i npos len iovs with
  | nil => cases hloop
  | cons n rest ih =>
    have hsize : n.size = b := hu n List.mem_cons_self
    intro v hv
    by_cases hc : b - npos ≥ len
    · simp only [bufferLoop, hsize, hc, ↓reduceIte, Except.ok.injEq] at hloop
      subst hloop
      simp [List.mem_singleton.mp hv]
    · cases hmore : bufferLoop rest (i + 1) 0 (len - (b - npos)) with
      | error e => simp [bufferLoop, hsize, hc, hmore, bind, Except.bind] at hloop
      | ok more =>
        simp only [bufferLoop, hsize, hc, ↓reduceIte, hmore, bind, Except.bind, pure, Except.pure,
          Except.ok.injEq] at hloop
        subst hloop
        rcases List.mem_cons.mp hv with rfl | hv
        · dsimp only
          omega
        · have hrest := ih hu.tail (Nat.zero_le b) hmore v hv
          rw [Nat.mul_succ] at hrest
          omega

theorem Uniform.cells_drop (h : Uniform b chain) {i : ℕ} (hle : i ≤ chain.length) :
    cells (chain.drop i) = (cells chain).drop (b * i) := by
  have hlen : (cells (chain.take i)).length = b * i := by
    rw [(h.take i).cells_length, List.length_take_of_le hle]
  conv_rhs => rw [← List.take_append_drop i chain, cells_append, ← hlen, List.drop_left]

end

/-! ## Reachable objects -/

/-- The states that member functions lead to, where `readv` may fill iovecs in between. -/
inductive Reachable : ByteArray → Prop
  | new {base : ℕ} (hb : 1 ≤ base) (heap : ℕ → UInt8) : Reachable (new base heap)
  | setIsLittleEndian {s : ByteArray} (h : Reachable s) (val : Bool) : Reachable (s.setIsLittleEndian val)
  | step {s s' : ByteArray} {r : Reply} (h : Reachable s) (op : Op) (hop : op.Admissible)
    (hstep : step s op = .ok (r, s')) : Reachable s'
  | fill {s s' : ByteArray} {len : ℕ} {iovs : List IoVec} {data : List UInt8} {nodes : List Node}
    (h : Reachable s) (hbuffers : getWriteBuffers len s = .ok (len, iovs) s') (hdata : data.length ≤ len)
    (hfill : fill iovs data s'.nodes = .ok nodes) : Reachable { s' with nodes := nodes }

section
variable {s s₁ : ByteArray} {c : Cursor UInt8} {len : ℕ} {iovs : List IoVec} {data : List UInt8}

/-- What the object holds. -/
def Inv.cursor (h : Inv s) : Cursor UInt8 where
  items := s.contents
  pos := s.position
  pos_le := by
    have hp := h.position_le
    have hs := h.size_le
    rw [contents, List.length_take, h.cells_length]
    omega

theorem Inv.represents (h : Inv s) : Represents s h.cursor := ⟨h, rfl, rfl⟩

theorem Represents.contents_eq (h : Represents s c) : s.contents = c.items := h.items_eq.symm

theorem Inv.contents_length (h : Inv s) : s.contents.length = s.size := h.represents.length

/-- Filling iovecs for writing changes the blocks behind the position only. -/
theorem Inv.fill (h : Inv s) (hbuffers : getWriteBuffers len s = .ok (len, iovs) s₁)
    (hdata : data.length ≤ len) : ∃ nodes, ByteArray.fill iovs data s₁.nodes = .ok nodes ∧
      Represents s₁ h.cursor ∧ Inv { s₁ with nodes := nodes } ∧ s₁.position + len ≤ s₁.capacity ∧
      cells nodes = overwrite (cells s₁.nodes) s₁.position data := by
  by_cases h0 : len = 0
  · subst h0
    obtain rfl : data = [] := List.eq_nil_of_length_eq_zero (by omega)
    simp only [getWriteBuffers, ↓reduceIte] at hbuffers
    cases hbuffers
    exact ⟨s.nodes, rfl, h.represents, h, h.position_le_capacity, (overwrite_nil _ _).symm⟩
  · obtain ⟨ha, hroom, -, hpe, -, -⟩ := addCapacity_spec h.represents len
    simp only [getWriteBuffers, h0, ↓reduceIte] at hbuffers
    set t := addCapacity len s
    rw [← hpe] at hroom
    obtain ⟨hu, hmod, hfit, -⟩ := ha.from_cur hroom
    have hb : 0 < t.baseSize := ha.base_pos
    have hnodes := List.take_append_drop (t.position / t.baseSize) t.nodes
    have hle : t.position / t.baseSize ≤ t.nodes.length := by
      apply Nat.div_le_of_le_mul
      rw [← ha.capacity_eq]
      exact ha.position_le_capacity
    obtain ⟨iovs', chain, hloop, hfill, hu', hl', hc'⟩ := fill_spec
      (t.nodes.take (t.position / t.baseSize)) hb hu (Nat.pos_of_ne_zero h0) hmod hfit hdata
    rw [List.length_take_of_le hle] at hloop
    rw [hnodes] at hfill
    simp only [ha.cur_some (show t.position < t.capacity by omega), hloop] at hbuffers
    injection hbuffers with hval hstate
    cases hval
    subst hstate
    have hlen : (t.nodes.take (t.position / t.baseSize) ++ chain).length = t.nodes.length := by
      rw [List.length_append, hl', ← List.length_append, hnodes]
    refine ⟨_, hfill, ha, ?_, hroom, ?_⟩
    · refine ⟨ha.base_pos, (ha.uniform.take _).append hu', ?_, ?_, ha.position_le, ha.size_le, ha.cur_eq⟩
      · apply List.ne_nil_of_length_pos
        rw [hlen]
        exact List.length_pos_iff.mpr ha.root
      · exact ha.capacity_eq.trans (congrArg _ hlen.symm)
    · have hat := Nat.div_add_mod t.position t.baseSize
      rw [cells_append, hc', cells_split t, ← overwrite_append_right, ha.cells_before_length, hat]

theorem Reachable.inv (h : Reachable s) : Inv s := by
  induction h with
  | new hb heap => exact (new_represents hb heap).toInv
  | setIsLittleEndian h val ih => exact ⟨ih.base_pos, ih.uniform, ih.root, ih.capacity_eq, ih.position_le,
      ih.size_le, ih.cur_eq⟩
  | step h op hop hstep ih =>
    obtain ⟨r, s', c', hstep', -, hr, -⟩ := step_spec ih.represents hop
    rw [hstep] at hstep'
    cases hstep'
    exact hr.toInv
  | fill h hbuffers hdata hfill ih =>
    obtain ⟨nodes, hfill', -, hinv, -⟩ := ih.fill hbuffers hdata
    rw [hfill] at hfill'
    cases hfill'
    exact hinv

/-! ## The plain calls -/

/-- `setPosition` behind a fill leaves what `write` leaves. -/
theorem Inv.fill_setPosition (h : Inv s) (hbuffers : getWriteBuffers len s = .ok (len, iovs) s₁)
    (hdata : data.length ≤ len) : ∃ nodes s₂, ByteArray.fill iovs data s₁.nodes = .ok nodes ∧
      setPosition (s₁.position + data.length) { s₁ with nodes := nodes } = .ok () s₂ ∧
      Represents s₂ (h.cursor.put data) := by
  obtain ⟨nodes, hfill, hr, hinv, hroom, hcells⟩ := h.fill hbuffers hdata
  obtain ⟨s₂, c₂, hset, hr₂, hpos₂, ⟨pad, hpad, hitems⟩, -, -, -, hnodes⟩ :=
    setPosition_spec hinv.represents
      (show s₁.position + data.length ≤ ({ s₁ with nodes := nodes } : ByteArray).capacity from by
        dsimp only
        omega)
  have hcl := hr.cells_length
  have hsize : s₂.size = max s₁.size (s₁.position + data.length) := by
    have hlen := congrArg List.length hitems
    have hcl₂ : hinv.cursor.items.length = s₁.size := hinv.contents_length
    rw [List.length_append, hr₂.length, hcl₂] at hlen
    rw [hcl₂] at hpad
    omega
  refine ⟨nodes, s₂, hfill, hset, hr₂.toInv, ?_, ?_⟩
  · rw [hnodes, hsize]
    change overwrite h.cursor.items h.cursor.pos data = (cells nodes).take _
    rw [hcells, hr.items_eq, hr.pos_eq]
    exact (take_overwrite_max hr.position_le (by rw [hcl]; exact hr.size_le) (by omega)).symm
  · rw [← hr₂.pos_eq, hpos₂, ← hr.pos_eq]
    rfl

theorem Inv.inside (h : Inv s) {v : IoVec} (hlt : v.node < s.nodes.length)
    (hle : v.base + v.len ≤ s.baseSize) : s.Inside v := by
  refine ⟨s.nodes[v.node], List.getElem?_eq_getElem hlt, ?_⟩
  rw [h.uniform _ (List.getElem_mem hlt)]
  exact hle

theorem Inv.block_le (h : Inv s) {p : ℕ} (hp : p ≤ s.capacity) : p / s.baseSize ≤ s.nodes.length := by
  apply Nat.div_le_of_le_mul
  rwa [← h.capacity_eq]

/-- The bytes of a range of the contents, from the block of its first byte on. -/
theorem Inv.cells_at (h : Inv s) {p : ℕ} (hfit : p + len ≤ s.size) :
    ((cells (s.nodes.drop (p / s.baseSize))).drop (p % s.baseSize)).take len = (s.contents.drop p).take len := by
  have hcapacity := hfit.trans h.size_le
  rw [h.uniform.cells_drop (h.block_le (by omega)), List.drop_drop, Nat.div_add_mod, contents, List.drop_take,
    List.take_take, Nat.min_eq_left (by omega)]

theorem Inv.gather_at (h : Inv s) {p : ℕ} (hlen : 0 < len) (hfit : p + len ≤ s.size) :
    ∃ iovs, bufferLoop (s.nodes.drop (p / s.baseSize)) (p / s.baseSize) (p % s.baseSize) len = .ok iovs ∧
      (∀ v ∈ iovs, s.Inside v ∧ s.baseSize * v.node + v.base + v.len ≤ p + len) ∧
      gather s.nodes iovs = .ok ((s.contents.drop p).take len) := by
  have hb : 0 < s.baseSize := h.base_pos
  have hat := Nat.div_add_mod p s.baseSize
  have hmod := Nat.mod_lt p hb
  have hcapacity := hfit.trans h.size_le
  have hle := h.block_le (show p ≤ s.capacity by omega)
  have hu := h.uniform.drop (p / s.baseSize)
  have hroom : p % s.baseSize + len ≤ s.baseSize * (s.nodes.drop (p / s.baseSize)).length := by
    rw [List.length_drop, Nat.mul_sub, ← h.capacity_eq]
    omega
  obtain ⟨iovs, hloop, hgather⟩ :=
    gather_spec (s.nodes.take (p / s.baseSize)) hb hu hlen hmod hroom
  obtain ⟨iovs', hloop', -, hin⟩ := bufferLoop_spec hb hu (i := p / s.baseSize) hlen hmod hroom
  rw [List.length_take_of_le hle] at hloop
  rw [hloop] at hloop'
  cases hloop'
  refine ⟨iovs, hloop, fun v hv => ⟨?_, ?_⟩, ?_⟩
  · have hv' := hin v hv
    rw [List.length_drop] at hv'
    exact h.inside (by omega) hv'.2.2
  · have hv' := bufferLoop_range hu hmod.le hloop v hv
    omega
  · rw [List.take_append_drop] at hgather
    rw [hgather, h.cells_at hfit]

/-- The iovecs for reading hold the bytes behind the position. -/
theorem Inv.getReadBuffers (h : Inv s) (len : ℕ) :
    ∃ iovs, ByteArray.getReadBuffers len s = .ok (min len s.getReadSize, iovs) ∧ (∀ v ∈ iovs, s.Inside v) ∧
      gather s.nodes iovs = .ok ((s.contents.drop s.position).take (min len s.getReadSize)) := by
  have hmin : (if len > s.getReadSize then s.getReadSize else len) = min len s.getReadSize := by
    split <;> omega
  by_cases h0 : min len s.getReadSize = 0
  · refine ⟨[], ?_, by simp, ?_⟩
    · simp only [ByteArray.getReadBuffers, hmin, h0, ↓reduceIte]
    · rw [h0]
      rfl
  · have hsize := h.size_le
    have hread : s.getReadSize = s.size - s.position := rfl
    obtain ⟨iovs, hloop, hin, hgather⟩ :=
      h.gather_at (Nat.pos_of_ne_zero h0) (show s.position + min len s.getReadSize ≤ s.size by omega)
    refine ⟨iovs, ?_, fun v hv => (hin v hv).1, hgather⟩
    simp only [ByteArray.getReadBuffers, hmin, h0, ↓reduceIte,
      h.cur_some (show s.position < s.capacity by omega), hloop]
    rfl

theorem Represents.same {c' : Cursor UInt8} {s' : ByteArray} (h : Represents s c) (h' : Represents s' c')
    (hitems : c'.items = c.items) : s'.size = s.size ∧ s'.contents = s.contents := by
  constructor
  · rw [← h.length, ← h'.length, hitems]
  · rw [h.contents_eq, h'.contents_eq, hitems]

/-- `setPosition` up to the end of the contents moves the cursor only. -/
theorem Inv.setPosition_within (h : Inv s) {k : ℕ} (hk : k ≤ h.cursor.rest.length) :
    ∃ s₂, setPosition (s.position + k) s = .ok () s₂ ∧ Represents s₂ (h.cursor.skip k hk) := by
  have hsize := h.size_le
  have hp := h.position_le
  have hcl : h.cursor.items.length = s.size := h.contents_length
  have hle : s.position + k ≤ s.size := by
    rw [h.represents.rest_length, getReadSize] at hk
    omega
  obtain ⟨s₂, c₂, hset, hr₂, hpos₂, ⟨pad, hpad, hitems⟩, -⟩ :=
    setPosition_spec h.represents (show s.position + k ≤ s.capacity by omega)
  obtain rfl : pad = [] := List.eq_nil_of_length_eq_zero (by omega)
  refine ⟨s₂, hset, hr₂.toInv, ?_, ?_⟩
  · rw [← hr₂.items_eq, hitems, List.append_nil]
    rfl
  · rw [← hr₂.pos_eq, hpos₂]
    rfl

/-- `setPosition` behind a gather leaves what `read` leaves. -/
theorem Inv.read_setPosition (h : Inv s) {k : ℕ} (hk : k ≤ s.getReadSize) :
    ∃ s₂, setPosition (s.position + k) s = .ok () s₂ ∧ s₂.position = s.position + k ∧
      s₂.contents = s.contents ∧ (k ≠ 0 → ∃ out s₃, read k s = .ok out s₃) ∧
      ∀ out s₃, read k s = .ok out s₃ → out = (s.contents.drop s.position).take k ∧
        s₃.contents = s₂.contents ∧ s₃.position = s₂.position := by
  rw [← h.represents.rest_length] at hk
  obtain ⟨s₂, hset, hr₂⟩ := h.setPosition_within hk
  have hcontents : s₂.contents = s.contents := hr₂.contents_eq
  have hposition : s₂.position = s.position + k := hr₂.pos_eq.symm
  refine ⟨s₂, hset, hposition, hcontents, ?_⟩
  by_cases h0 : k = 0
  · subst h0
    refine ⟨fun hne => absurd rfl hne, fun out s₃ hrun => ?_⟩
    rw [read_zero h.represents] at hrun
    split at hrun
    · cases hrun
    · cases hrun
      exact ⟨rfl, hcontents.symm, hposition.symm⟩
  · obtain ⟨s', hrun', hr', -⟩ := read_spec h.represents (Nat.pos_of_ne_zero h0) hk
    refine ⟨fun _ => ⟨_, s', hrun'⟩, fun out s₃ hrun => ?_⟩
    rw [hrun'] at hrun
    cases hrun
    exact ⟨rfl, (hr₂.same hr' rfl).2, hr'.pos_eq.symm.trans hr₂.pos_eq⟩

/-- Scatter and gather do what `write` and `read` do, for any part of the bytes that are asked for. -/
theorem buffers_match (h : Reachable s) (len : ℕ) :
    (∃ s₁ iovs, getWriteBuffers len s = .ok (len, iovs) s₁ ∧ (∀ v ∈ iovs, s₁.Inside v) ∧
      ∀ data : List UInt8, data.length ≤ len → ∃ nodes s₂ s₃,
        ByteArray.fill iovs data s₁.nodes = .ok nodes ∧
        setPosition (s₁.position + data.length) { s₁ with nodes := nodes } = .ok () s₂ ∧
        write data s = .ok () s₃ ∧ s₂.contents = s₃.contents ∧ s₂.size = s₃.size ∧
        s₂.position = s₃.position) ∧
    ∃ iovs bytes, ByteArray.getReadBuffers len s = .ok (min len s.getReadSize, iovs) ∧
      (∀ v ∈ iovs, s.Inside v) ∧ gather s.nodes iovs = .ok bytes ∧
      bytes.length = min len s.getReadSize ∧
      ∀ k ≤ min len s.getReadSize, ∃ s₂, setPosition (s.position + k) s = .ok () s₂ ∧
        s₂.position = s.position + k ∧ s₂.contents = s.contents ∧
        (k ≠ 0 → ∃ out s₃, read k s = .ok out s₃) ∧
        ∀ out s₃, read k s = .ok out s₃ → out = bytes.take k ∧ s₃.contents = s₂.contents ∧
          s₃.position = s₂.position := by
  have hinv := h.inv
  constructor
  · obtain ⟨s₁, iovs, hbuffers, hr, -, -, hin⟩ := getWriteBuffers_spec hinv.represents len
    refine ⟨s₁, iovs, hbuffers, fun v hv => hr.toInv.inside (hin v hv).1 (hin v hv).2, ?_⟩
    intro data hdata
    obtain ⟨nodes, s₂, hfill, hset, hr₂⟩ := hinv.fill_setPosition hbuffers hdata
    obtain ⟨s₃, hwrite, hr₃, -⟩ := write_spec hinv.represents data
    obtain ⟨hsize, hcontents⟩ := hr₃.same hr₂ rfl
    exact ⟨nodes, s₂, s₃, hfill, hset, hwrite, hcontents, hsize, hr₂.pos_eq.symm.trans hr₃.pos_eq⟩
  · obtain ⟨iovs, hrun, hin, hgather⟩ := hinv.getReadBuffers len
    refine ⟨iovs, _, hrun, hin, hgather, ?_, fun k hk => ?_⟩
    · rw [List.length_take, List.length_drop, hinv.contents_length]
      unfold getReadSize
      omega
    · obtain ⟨s₂, hset, hpos, hcontents, hreturns, hsame⟩ :=
        hinv.read_setPosition (hk.trans (Nat.min_le_right _ _))
      refine ⟨s₂, hset, hpos, hcontents, hreturns, fun out s₃ hout => ?_⟩
      rw [List.take_take, Nat.min_eq_left hk]
      exact hsame out s₃ hout

end

/-- Three bytes in blocks of two, from the second one on. -/
theorem buffers_match_blocks_of_two : ∃ s : ByteArray, s.contents = [1, 2, 3] ∧ s.position = 1 ∧
    (∃ s₁ iovs, getWriteBuffers 4 s = .ok (4, iovs) s₁) ∧
    ∃ iovs bytes, getReadBuffers 5 s = .ok (2, iovs) ∧ gather s.nodes iovs = .ok bytes ∧ bytes.length = 2 := by
  have hwrite := (Reachable.new (by decide : 1 ≤ 2) (fun _ => 7)).step (.write [1, 2, 3]) trivial rfl
  have h := hwrite.step (.setPosition 1) trivial rfl
  obtain ⟨⟨s₁, iovs, hwriting, -⟩, -⟩ := buffers_match h 4
  obtain ⟨-, iovs', bytes, hreading, -, hgather, hlength, -⟩ := buffers_match h 5
  exact ⟨_, rfl, rfl, ⟨s₁, iovs, hwriting⟩, iovs', bytes, hreading, hgather, hlength⟩

end Flz.ByteArray
