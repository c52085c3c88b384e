import Flz.ByteArray.Model
import Mathlib.Tactic.Linarith
import Mathlib.Tactic.Ring

/-! # What the block loops do to the flat contents of a chain

Each loop is specified by the concatenation of the blocks it runs over. The blocks have
one size `b`; the cursor offset `npos` lies inside the first of them.
-/
namespace Flz.ByteArray
open Lib

/-- The bytes of all blocks, one after the other. -/
def cells (nodes : List Node) : List UInt8 := nodes.flatMap Node.ptr

/-- Every block has size `b`. -/
def Uniform (b : ℕ) (nodes : List Node) : Prop := ∀ n ∈ nodes, n.size = b

@[simp] theorem cells_nil : cells [] = [] := rfl
@[simp] theorem cells_cons (n : Node) (rest : List Node) : cells (n :: rest) = n.ptr ++ cells rest := rfl
@[simp] theorem cells_append (xs ys : List Node) : cells (xs ++ ys) = cells xs ++ cells ys :=
  List.flatMap_append

theorem Uniform.tail {b : ℕ} {n : Node} {rest : List Node} (h : Uniform b (n :: rest)) :
    Uniform b rest := fun m hm => h m (List.mem_cons_of_mem n hm)

theorem Uniform.append {b : ℕ} {xs ys : List Node} (hx : Uniform b xs) (hy : Uniform b ys) :
    Uniform b (xs ++ ys) := by
  intro n hn
  rcases List.mem_append.mp hn with h | h
  · exact hx n h
  · exact hy n h

theorem Uniform.take {b : ℕ} {nodes : List Node} (h : Uniform b nodes) (k : ℕ) :
    Uniform b (nodes.take k) := fun n hn => h n (List.mem_of_mem_take hn)

theorem Uniform.drop {b : ℕ} {nodes : List Node} (h : Uniform b nodes) (k : ℕ) :
    Uniform b (nodes.drop k) := fun n hn => h n (List.mem_of_mem_drop hn)

theorem Uniform.cells_length {b : ℕ} {nodes : List Node} (h : Uniform b nodes) :
    (cells nodes).length = b * nodes.length := by
  induction nodes with
  | nil => simp
  | cons n rest ih =>
    have hn : n.ptr.length = b := h n List.mem_cons_self
    have hr := ih h.tail
    simp only [cells_cons, List.length_append, List.length_cons, hn, hr]
    ring

@[simp] theorem alloc_size (heap : ℕ → UInt8) (b : ℕ) : (Node.alloc heap b).size = b := by
  simp [Node.alloc, Node.size]

theorem allocNodes_length (b count : ℕ) (heap : ℕ → UInt8) :
    (allocNodes b count heap).length = count := by
  induction count generalizing heap with
  | zero => rfl
  | succ count ih => simp [allocNodes, ih]

theorem allocNodes_uniform (b count : ℕ) (heap : ℕ → UInt8) :
    Uniform b (allocNodes b count heap) := by
  induction count generalizing heap with
  | zero =>
    intro n hn
    cases hn
  | succ count ih =>
    intro n hn
    rcases List.mem_cons.mp hn with rfl | hn
    · exact alloc_size heap b
    · exact ih _ n hn

theorem store_ok {n : Node} {npos : ℕ} {buf : List UInt8} (h : npos + buf.length ≤ n.size) :
    n.store npos buf = .ok ⟨overwrite n.ptr npos buf⟩ := if_pos h

theorem load_ok {n : Node} {npos size : ℕ} (h : npos + size ≤ n.size) :
    n.load npos size = .ok ((n.ptr.drop npos).take size) := if_pos h

/-- How many blocks the cursor moves when the range ends inside the first block. -/
theorem advance_within {b x : ℕ} (hb : 0 < b) (h : x ≤ b) : (if b = x then 1 else 0) = x / b := by
  split
  · next he => rw [he, Nat.div_self (by omega)]
  · exact (Nat.div_eq_of_lt (by omega)).symm

/-- How many it moves when the range runs over the end of the first block. -/
theorem advance_past {b npos len : ℕ} (hb : 0 < b) (hn : npos ≤ b) (h : b - npos ≤ len) :
    (0 + (len - (b - npos))) / b + 1 = (npos + len) / b := by
  have he : npos + len = 0 + (len - (b - npos)) + b := by omega
  rw [he, Nat.add_div_right _ hb]

/-- `write` puts the buffer over the flat contents and moves `m_cur` to the block of the
end of the range. -/
theorem writeLoop_spec {b : ℕ} (hb : 0 < b) {chain : List Node} (hu : Uniform b chain)
    {npos : ℕ} {buf : List UInt8} (hbuf : buf ≠ []) (hn : npos < b)
    (hfit : npos + buf.length ≤ b * chain.length) :
    ∃ chain', writeLoop chain npos buf = .ok (chain', (npos + buf.length) / b) ∧
      Uniform b chain' ∧ chain'.length = chain.length ∧
      cells chain' = overwrite (cells chain) npos buf := by
  induction chain generalizing npos buf with
  | nil =>
    have := List.length_pos_iff.mpr hbuf
    simp only [List.length_nil, Nat.mul_zero] at hfit
    omega
  | cons n rest ih =>
    have hs : n.ptr.length = b := hu n List.mem_cons_self
    have hsize : n.size = b := hs
    by_cases hc : b - npos ≥ buf.length
    · have hin : npos + buf.length ≤ n.size := by omega
      refine ⟨⟨overwrite n.ptr npos buf⟩ :: rest, ?_, ?_, rfl, ?_⟩
      · simp only [writeLoop, hsize, hc, ↓reduceIte, bind, Except.bind, pure, Except.pure,
          store_ok hin]
        rw [advance_within hb (by omega)]
      · intro m hm
        rcases List.mem_cons.mp hm with rfl | hm
        · exact (overwrite_length hin).trans hs
        · exact hu.tail m hm
      · exact (overwrite_append_left hin).symm
    · have htake : (buf.take (b - npos)).length = b - npos := by
        rw [List.length_take]
        omega
      have hin : npos + (buf.take (b - npos)).length ≤ n.size := by omega
      have hdrop : (buf.drop (b - npos)).length = buf.length - (b - npos) := List.length_drop
      have hne : buf.drop (b - npos) ≠ [] := by
        apply List.ne_nil_of_length_pos
        omega
      have hfit' : 0 + (buf.drop (b - npos)).length ≤ b * rest.length := by
        rw [List.length_cons, Nat.mul_succ] at hfit
        omega
      obtain ⟨rest', hrun, hu', hl', hc'⟩ := ih hu.tail hne hb hfit'
      refine ⟨⟨overwrite n.ptr npos (buf.take (b - npos))⟩ :: rest', ?_, ?_, ?_, ?_⟩
      · simp only [writeLoop, hsize, hc, ↓reduceIte, bind, Except.bind, pure, Except.pure,
          store_ok hin, hrun]
        rw [hdrop, advance_past hb hn.le (by omega)]
      · intro m hm
        rcases List.mem_cons.mp hm with rfl | hm
        · exact (overwrite_length hin).trans hs
        · exact hu' m hm
      · simp [hl']
      · have h : overwrite (n.ptr ++ cells rest) npos buf = _ :=
          overwrite_append_split (by omega) (by omega)
        rw [hs] at h
        rw [cells_cons, cells_cons, hc', h]

/-- `read` delivers the bytes after the cursor of the flat contents. -/
theorem readLoop_spec {b : ℕ} (hb : 0 < b) {chain : List Node} (hu : Uniform b chain)
    {npos size : ℕ} (hsize : 0 < size) (hn : npos < b) (hfit : npos + size ≤ b * chain.length) :
    readLoop chain npos size =
      .ok (((cells chain).drop npos).take size, (npos + size) / b) := by
  induction chain generalizing npos size with
  | nil =>
    simp at hfit
    omega
  | cons n rest ih =>
    have hs : n.ptr.length = b := hu n List.mem_cons_self
    have hns : n.size = b := hs
    have hne : size ≠ 0 := by omega
    have hd : (n.ptr ++ cells rest).drop npos = n.ptr.drop npos ++ cells rest :=
      List.drop_append_of_le_length (by omega)
    have hl : (n.ptr.drop npos).length = b - npos := by rw [List.length_drop, hs]
    by_cases hc : b - npos ≥ size
    · simp only [readLoop, hns, hne, hc, ↓reduceIte, bind, Except.bind, pure, Except.pure,
        load_ok (show npos + size ≤ n.size by omega)]
      rw [advance_within hb (by omega), cells_cons, hd, List.take_append_of_le_length (by omega)]
    · have hfit' : 0 + (size - (b - npos)) ≤ b * rest.length := by
        rw [List.length_cons, Nat.mul_succ] at hfit
        omega
      have hrun := ih hu.tail (show 0 < size - (b - npos) by omega) hb hfit'
      simp only [readLoop, hns, hne, hc, ↓reduceIte, bind, Except.bind, pure, Except.pure,
        load_ok (show npos + (b - npos) ≤ n.size by omega), hrun, List.drop_zero]
      rw [advance_past hb hn.le (by omega), cells_cons, hd, List.take_append, hl,
        List.take_of_length_le (le_of_eq hl),
        List.take_of_length_le (show (n.ptr.drop npos).length ≤ size by omega)]

/-- `setPosition` walks to the block of `v`, one block past the last for the very end. -/
theorem seek_spec {b : ℕ} (hb : 0 < b) {chain : List Node} (hu : Uniform b chain)
    (hne : chain ≠ []) {v : ℕ} (hfit : v ≤ b * chain.length) : seek chain v = .ok (v / b) := by
  induction chain generalizing v with
  | nil => exact absurd rfl hne
  | cons n rest ih =>
    have hns : n.size = b := hu n List.mem_cons_self
    by_cases hc : v > b
    · have hfit' : v - b ≤ b * rest.length := by
        rw [List.length_cons, Nat.mul_succ] at hfit
        omega
      have hrest : rest ≠ [] := by
        rintro rfl
        simp at hfit'
        omega
      simp only [seek, hns, hc, ↓reduceIte, bind, Except.bind, pure, Except.pure,
        ih hu.tail hrest hfit']
      have he : v = v - b + b := by omega
      conv_rhs => rw [he, Nat.add_div_right _ hb]
    · simp only [seek, hns, hc, ↓reduceIte]
      rw [← advance_within hb (by omega : v ≤ b)]
      simp only [eq_comm]

/-- The iovecs of a range name blocks of the chain and stay inside them, and together they
cover the range. -/
theorem bufferLoop_spec {b : ℕ} (hb : 0 < b) {chain : List Node} (hu : Uniform b chain)
    {i npos len : ℕ} (hlen : 0 < len) (hn : npos < b) (hfit : npos + len ≤ b * chain.length) :
    ∃ iovs, bufferLoop chain i npos len = .ok iovs ∧ (iovs.map IoVec.len).sum = len ∧
      ∀ v ∈ iovs, i ≤ v.node ∧ v.node < i + chain.length ∧ v.base + v.len ≤ b := by
  induction chain generalizing i npos len with
  | nil =>
    simp at hfit
    omega
  | cons n rest ih =>
    have hns : n.size = b := hu n List.mem_cons_self
    by_cases hc : b - npos ≥ len
    · refine ⟨[⟨i, npos, len⟩], by simp only [bufferLoop, hns, hc, ↓reduceIte], by simp, ?_⟩
      intro v hv
      rw [List.mem_singleton.mp hv]
      simp only [List.length_cons]
      omega
    · have hfit' : 0 + (len - (b - npos)) ≤ b * rest.length := by
        rw [List.length_cons, Nat.mul_succ] at hfit
        omega
      obtain ⟨more, hrun, hsum, hin⟩ :=
        ih hu.tail (i := i + 1) (show 0 < len - (b - npos) by omega) hb hfit'
      refine ⟨⟨i, npos, b - npos⟩ :: more, ?_, ?_, ?_⟩
      · simp only [bufferLoop, hns, hc, ↓reduceIte, bind, Except.bind, pure, Except.pure, hrun]
      · simp only [List.map_cons, List.sum_cons, hsum]
        omega
      · intro v hv
        rcases List.mem_cons.mp hv with rfl | hv
        · simp only [List.length_cons]
          omega
        · have h := hin v hv
          simp only [List.length_cons]
          omega

end Flz.ByteArray
