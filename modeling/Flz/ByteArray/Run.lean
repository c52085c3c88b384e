import Flz.ByteArray.Refinement

/-! # Runs of `ByteArray` calls

A run applies any sequence of member functions to a fresh object; a thrown
`std::out_of_range` is an answer like any other, a null or foreign block ends the run.
-/
namespace Flz.ByteArray
open Lib

inductive Op
  | write (buf : List UInt8)
  | read (size : ℕ)
  | setPosition (v : ℕ)
  | clear
  | getWriteBuffers (len : ℕ)
  deriving DecidableEq, Repr

inductive Reply
  | done
  | bytes (bs : List UInt8)
  | buffers (size : ℕ) (iovs : List IoVec)
  | outOfRange (what : String)
  deriving DecidableEq, Repr

/-- `read` is asked for at least one byte. -/
def Op.Admissible : Op → Prop
  | .read size => 1 ≤ size
  | _ => True

/-- What the caller sees of a member function: its value, or the exception it catches. -/
def call {α : Type} (m : Access α) (reply : α → Reply) (s : ByteArray) :
    Except Trap (Reply × ByteArray) :=
  match m s with
  | .ok a s' => .ok (reply a, s')
  | .error (.outOfRange what) s' => .ok (.outOfRange what, s')
  | .error e _ => .error e

def step (s : ByteArray) : Op → Except Trap (Reply × ByteArray)
  | .write buf => call (write buf) (fun _ => .done) s
  | .read size => call (read size) .bytes s
  | .setPosition v => call (setPosition v) (fun _ => .done) s
  | .clear => call clear (fun _ => .done) s
  | .getWriteBuffers len => call (getWriteBuffers len) (fun r => .buffers r.1 r.2) s

def run (s : ByteArray) : List Op → Except Trap ByteArray
  | [] => .ok s
  | op :: ops => do
    let (_, s') ← step s op
    run s' ops

/-- What a call answers and does on the flat vector: `write` overwrites and appends, `read`
delivers and moves on or throws and leaves everything alone, `setPosition` moves the cursor up
to the capacity, and `getWriteBuffers` only reserves memory. -/
def Effect (capacity : ℕ) (c : Cursor UInt8) : Op → Reply → Cursor UInt8 → Prop
  | .write buf, r, c' => r = .done ∧ c' = c.put buf
  | .read size, r, c' =>
    (∃ h : size ≤ c.rest.length, r = .bytes (c.rest.take size) ∧ c' = c.skip size h) ∨
      (c.rest.length < size ∧ r = .outOfRange "not enough len" ∧ c' = c)
  | .setPosition v, r, c' =>
    (v ≤ capacity ∧ r = .done ∧ c'.pos = v ∧
        ∃ pad, pad.length = v - c.items.length ∧ c'.items = c.items ++ pad) ∨
      (capacity < v ∧ r = .outOfRange "set_position out of range" ∧ c' = c)
  | .clear, r, c' => r = .done ∧ c' = Cursor.empty
  | .getWriteBuffers len, r, c' =>
    c' = c ∧ ∃ iovs, r = .buffers len iovs ∧ (iovs.map IoVec.len).sum = len

theorem call_ok {α : Type} {m : Access α} {reply : α → Reply} {s s' : ByteArray} {a : α}
    (h : m s = .ok a s') : call m reply s = .ok (reply a, s') := by simp only [call, h]

theorem call_throws {α : Type} {m : Access α} {reply : α → Reply} {s s' : ByteArray}
    {what : String} (h : m s = .error (.outOfRange what) s') :
    call m reply s = .ok (.outOfRange what, s') := by simp only [call, h]

/-- One call on an object that holds `c`. -/
theorem step_spec {s : ByteArray} {c : Cursor UInt8} (h : Represents s c) {op : Op}
    (hop : op.Admissible) :
    ∃ r s' c', step s op = .ok (r, s') ∧ Effect s.capacity c op r c' ∧ Represents s' c' ∧
      s'.baseSize = s.baseSize := by
  cases op with
  | write buf =>
    obtain ⟨s', hrun, hr, hb, -⟩ := write_spec h buf
    exact ⟨.done, s', _, call_ok hrun, ⟨rfl, rfl⟩, hr, hb⟩
  | read size =>
    by_cases hle : size ≤ c.rest.length
    · obtain ⟨s', hrun, hr, hb, -⟩ := read_spec h hop hle
      exact ⟨_, s', _, call_ok hrun, Or.inl ⟨hle, rfl, rfl⟩, hr, hb⟩
    · have hlt : c.rest.length < size := by omega
      exact ⟨_, s, c, call_throws (read_throws h hlt), Or.inr ⟨hlt, rfl, rfl⟩, h, rfl⟩
  | setPosition v =>
    by_cases hv : v ≤ s.capacity
    · obtain ⟨s', c', hrun, hr, hpos, hpad, hb, -⟩ := setPosition_spec h hv
      exact ⟨.done, s', c', call_ok hrun, Or.inl ⟨hv, rfl, hpos, hpad⟩, hr, hb⟩
    · have hlt : s.capacity < v := by omega
      exact ⟨_, s, c, call_throws (if_pos hlt), Or.inr ⟨hlt, rfl, rfl⟩, h, rfl⟩
  | clear =>
    obtain ⟨s', hrun, hr, hb, -⟩ := clear_spec h
    have hcall : call clear (fun _ => Reply.done) s = .ok (.done, s') := call_ok hrun
    exact ⟨.done, s', _, hcall, ⟨rfl, rfl⟩, hr, hb⟩
  | getWriteBuffers len =>
    obtain ⟨s', iovs, hrun, hr, hb, hsum, -⟩ := getWriteBuffers_spec h len
    exact ⟨_, s', c, call_ok hrun, ⟨rfl, iovs, rfl, hsum⟩, hr, hb⟩

theorem run_represents {s : ByteArray} {c : Cursor UInt8} (h : Represents s c) {ops : List Op}
    (hops : ∀ op ∈ ops, op.Admissible) :
    ∃ s' c', run s ops = .ok s' ∧ Represents s' c' ∧ s'.baseSize = s.baseSize := by
  induction ops generalizing s c with
  | nil => exact ⟨s, c, rfl, h, rfl⟩
  | cons op ops ih =>
    obtain ⟨r, t, d, hstep, -, ht, hb⟩ := step_spec h (hops op List.mem_cons_self)
    obtain ⟨s', c', hrun, hr, hb'⟩ := ih ht (fun o ho => hops o (List.mem_cons_of_mem op ho))
    refine ⟨s', c', ?_, hr, hb'.trans hb⟩
    simp only [run, hstep, bind, Except.bind]
    exact hrun

/-- After any sequence of calls on a fresh object the block invariant holds, and every further
call answers and acts as on one contiguous vector with a cursor; none of them touches a null
block or leaves a block. -/
theorem run_refines_cursor {base : ℕ} (hb : 1 ≤ base) (heap : ℕ → UInt8) (ops : List Op)
    (hops : ∀ op ∈ ops, op.Admissible) :
    ∃ s c, run (new base heap) ops = .ok s ∧ s.baseSize = base ∧ Represents s c ∧
      ∀ op : Op, op.Admissible → ∃ r s' c', step s op = .ok (r, s') ∧
        Effect s.capacity c op r c' ∧ Represents s' c' := by
  obtain ⟨s, c, hrun, hr, hbase⟩ := run_represents (new_represents hb heap) hops
  refine ⟨s, c, hrun, hbase, hr, ?_⟩
  intro op hop
  obtain ⟨r, s', c', hstep, he, hr', -⟩ := step_spec hr hop
  exact ⟨r, s', c', hstep, he, hr'⟩

theorem run_refines_cursor_blocks_of_two :
    ∃ s c, run (new 2 (fun _ => 0)) [.write [1, 2, 3, 4], .setPosition 1, .read 3, .write [5]] = .ok s ∧
      s.baseSize = 2 ∧ Represents s c ∧
      ∀ op : Op, op.Admissible → ∃ r s' c', step s op = .ok (r, s') ∧
        Effect s.capacity c op r c' ∧ Represents s' c' :=
  run_refines_cursor (by decide) (fun _ => 0) _ (by simp [Op.Admissible])

end Flz.ByteArray
