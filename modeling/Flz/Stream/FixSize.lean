import Flz.Stream
import Flz.ByteArray.Buffers
import Mathlib.Algebra.BigOperators.Group.Finset.Basic
import Mathlib.Data.UInt

/-! # Transfers of a fixed size

The two versions of `Stream::readFixSize` and `Stream::writeFixSize` of `src/stream.cc` over the calls of
`SocketStream`, with any results of the socket. The four loops differ in the call only. What is left is
an `int64_t`, and what is returned at the end is the length as an `int`.
-/
namespace Flz.FixSize
open Lib Flz.ByteArray

/-- The other side of a connection: what the coming calls on the socket return at most, the bytes that
come in, and those that went out. -/
structure Peer where
  results : ℕ → Int32
  data : ℕ → UInt8
  calls : ℕ
  taken : ℕ
  sent : List UInt8

/-- The next bytes to come in. -/
def Peer.next (p : Peer) (k : ℕ) : List UInt8 := (List.range k).map fun j => p.data (p.taken + j)

/-- What a call for `n` bytes returns. -/
def Peer.result (p : Peer) (n : ℕ) : ℤ := min (p.results p.calls).toInt n

def Peer.recv (n : ℕ) (p : Peer) : Peer :=
  { p with calls := p.calls + 1, taken := p.taken + (p.result n).toNat }

def Peer.send (bytes : List UInt8) (p : Peer) : Peer :=
  { p with
    calls := p.calls + 1
    sent := p.sent ++ bytes.take (p.result bytes.length).toNat }

/-- What the functions work on: the connection, the memory behind `buffer` with the `offset` into it, and
the `ByteArray`. -/
structure Link where
  peer : Peer
  memory : ℕ → UInt8
  offset : ℕ
  ba : ByteArray

/-- The bytes go into the memory from `offset` on. -/
def poke (memory : ℕ → UInt8) (offset : ℕ) (bytes : List UInt8) : ℕ → UInt8 :=
  fun a => if offset ≤ a then bytes[a - offset]?.getD (memory a) else memory a

/-- The underlying calls. -/
inductive Version
  | read | readBA | write | writeBA
  deriving DecidableEq, Repr

/-- `read(buffer + offset, length)`; the offset moves with it. -/
def read (length : ℕ) (s : Link) : Except Trap (ℤ × Link) :=
  let len := s.peer.result length
  .ok (len, { s with
    peer := s.peer.recv length
    memory := poke s.memory s.offset (s.peer.next len.toNat)
    offset := s.offset + len.toNat })

/-- `read(ba, length)`. -/
def readBA (length : ℕ) (s : Link) : Except Trap (ℤ × Link) :=
  match getWriteBuffers length s.ba with
  | .error e _ => .error e
  | .ok (_, iovs) ba => do
    let total := (iovs.map IoVec.len).sum
    let rt := s.peer.result total
    let nodes ← fill iovs (s.peer.next rt.toNat) ba.nodes
    let s := { s with peer := s.peer.recv total, ba := { ba with nodes := nodes } }
    if rt > 0 then
      match setPosition (s.ba.position + rt.toNat) s.ba with
      | .error e _ => .error e
      | .ok () ba => .ok (rt, { s with ba := ba })
    else .ok (rt, s)

/-- `write(buffer + offset, length)`; the offset moves with it. -/
def write (length : ℕ) (s : Link) : Except Trap (ℤ × Link) :=
  let bytes := (List.range length).map fun j => s.memory (s.offset + j)
  let len := s.peer.result length
  .ok (len, { s with
    peer := s.peer.send bytes
    offset := s.offset + len.toNat })

/-- `write(ba, length)`. -/
def writeBA (length : ℕ) (s : Link) : Except Trap (ℤ × Link) := do
  let (_, iovs) ← getReadBuffers length s.ba
  let bytes ← gather s.ba.nodes iovs
  let rt := s.peer.result bytes.length
  let s := { s with peer := s.peer.send bytes }
  if rt > 0 then
    match setPosition (s.ba.position + rt.toNat) s.ba with
    | .error e _ => .error e
    | .ok () ba => .ok (rt, { s with ba := ba })
  else .ok (rt, s)

def Version.call : Version → ℕ → Link → Except Trap (ℤ × Link)
  | .read => FixSize.read
  | .readBA => FixSize.readBA
  | .write => FixSize.write
  | .writeBA => FixSize.writeBA

/-- The loop of the four functions; a result ends it early. -/
def fixLoop {σ : Type} (call : ℕ → σ → Except Trap (ℤ × σ)) (left : ℤ) (s : σ) : Except Trap (Option ℤ × σ) :=
  if left > 0 then
    match call left.toNat s with
    | .error e => .error e
    | .ok (len, s) => if len ≤ 0 then .ok (some len, s) else fixLoop call (left - len) s
  else .ok (none, s)
termination_by left.toNat

def fixSize (v : Version) (length : UInt64) (s : Link) : Except Trap (ℤ × Link) := do
  let (r, s) ← fixLoop v.call (toInt64 length.toNat) { s with offset := 0 }
  return (r.getD (toInt length.toNat), s)

def readFixSize (length : UInt64) (s : Link) : Except Trap (ℤ × Link) := fixSize .read length s
def readFixSizeBA (length : UInt64) (s : Link) : Except Trap (ℤ × Link) := fixSize .readBA length s
def writeFixSize (length : UInt64) (s : Link) : Except Trap (ℤ × Link) := fixSize .write length s
def writeFixSizeBA (length : UInt64) (s : Link) : Except Trap (ℤ × Link) := fixSize .writeBA length s

/-! ## What they are for -/

/-- From `s` to `t` the first `k` bytes went over the connection, and no others. -/
def Transferred (v : Version) (k : ℕ) (s t : Link) : Prop :=
  match v with
  | .read => t.peer.taken = s.peer.taken + k ∧
      t.memory = fun a => if a < k then s.peer.data (s.peer.taken + a) else s.memory a
  | .readBA => t.peer.taken = s.peer.taken + k ∧ t.ba.position = s.ba.position + k ∧
      t.ba.contents = overwrite s.ba.contents s.ba.position (s.peer.next k)
  | .write => t.peer.sent = s.peer.sent ++ (List.range k).map s.memory
  | .writeBA => t.ba.position = s.ba.position + k ∧ t.ba.contents = s.ba.contents ∧
      t.peer.sent = s.peer.sent ++ (s.ba.contents.drop s.ba.position).take k

/-- The result is positive when all was transferred and only then, after at most `length` calls. -/
def Exact (v : Version) (length : UInt64) (s : Link) : Prop :=
  ∃ ret t, fixSize v length s = .ok (ret, t) ∧ (0 < ret ↔ Transferred v length.toNat s t) ∧
    t.peer.calls ≤ s.peer.calls + length.toNat

/-- The results from the `i`-th on are positive until they add up to `n`. -/
def Delivers (results : ℕ → Int32) (i n : ℕ) : Prop :=
  ∃ m, (∀ j < m, 0 < (results (i + j)).toInt) ∧ n ≤ ∑ j ∈ Finset.range m, (results (i + j)).toInt.toNat

/-- The bytes that there are to write. -/
def Version.Stocked (v : Version) (length : ℕ) (s : Link) : Prop :=
  v = .writeBA → length ≤ s.ba.getReadSize

/-- A length that an `int` takes for positive when all its bytes come, and otherwise for no byte: beyond
`int64_t` the loop does not run. -/
def Judged (v : Version) (length : UInt64) (s : Link) : Prop :=
  if length.toNat < 2 ^ 63 then
    Delivers s.peer.results s.peer.calls length.toNat → v.Stocked length.toNat s → 0 < toInt length.toNat
  else toInt length.toNat ≤ 0

/-! ## The loop -/

section
variable {results : ℕ → Int32} {i n : ℕ}

theorem delivers_zero : Delivers results i 0 := ⟨0, by simp, Nat.zero_le _⟩

theorem sum_shift (m : ℕ) : ∑ j ∈ Finset.range m, (results (i + (j + 1))).toInt.toNat =
    ∑ j ∈ Finset.range m, (results (i + 1 + j)).toInt.toNat := by
  refine Finset.sum_congr rfl fun j _ => ?_
  rw [Nat.add_comm j, ← Nat.add_assoc]

theorem delivers_iff (results : ℕ → Int32) (i : ℕ) (hn : 0 < n) : Delivers results i n ↔
    0 < (results i).toInt ∧ Delivers results (i + 1) (n - (results i).toInt.toNat) := by
  constructor
  · rintro ⟨m, hpos, hsum⟩
    cases m with
    | zero =>
      simp at hsum
      omega
    | succ m =>
      have hfirst : 0 < (results i).toInt := hpos 0 (Nat.succ_pos m)
      simp only [Finset.sum_range_succ', sum_shift, Nat.add_zero] at hsum
      refine ⟨hfirst, m, fun j hj => ?_, by omega⟩
      have h := hpos (j + 1) (by omega)
      rwa [Nat.add_comm j, ← Nat.add_assoc] at h
  · rintro ⟨hfirst, m, hpos, hsum⟩
    refine ⟨m + 1, fun j hj => ?_, ?_⟩
    · cases j with
      | zero => exact hfirst
      | succ j =>
        rw [Nat.add_comm j, ← Nat.add_assoc]
        exact hpos j (by omega)
    · simp only [Finset.sum_range_succ', sum_shift, Nat.add_zero]
      omega

end

/-- One call when `k` of `length` bytes have been moved, of `stock` that there are. -/
def Steps {σ : Type} (call : ℕ → σ → Except Trap (ℤ × σ)) (peer : σ → Peer) (Moved : ℕ → σ → Prop)
    (length stock : ℕ) : Prop :=
  ∀ k s, Moved k s → k < length → k ≤ stock → ∃ s', ∃ r : ℤ,
    r = min ((peer s).results (peer s).calls).toInt (min (length - k) (stock - k) : ℕ) ∧
    call (length - k) s = .ok (r, s') ∧ Moved (k + r.toNat) s' ∧ (peer s').calls = (peer s).calls + 1 ∧
    (peer s').results = (peer s).results

/-- The loop moves all bytes when they are delivered and there are so many, and fewer otherwise. -/
theorem Steps.fixLoop {σ : Type} {call : ℕ → σ → Except Trap (ℤ × σ)} {peer : σ → Peer}
    {Moved : ℕ → σ → Prop} {length stock : ℕ} (h : Steps call peer Moved length stock) {k : ℕ} {s : σ}
    (hmoved : Moved k s) (hle : k ≤ length) (hstock : k ≤ stock) :
    ∃ o t k', FixSize.fixLoop call ((length - k : ℕ) : ℤ) s = .ok (o, t) ∧ Moved k' t ∧
      (peer t).calls ≤ (peer s).calls + (length - k) ∧
      ((o = none ∧ k' = length ∧ Delivers (peer s).results (peer s).calls (length - k) ∧ length ≤ stock) ∨
        ∃ r ≤ 0, o = some r ∧ k' < length ∧
          ¬ (Delivers (peer s).results (peer s).calls (length - k) ∧ length ≤ stock)) := by
  induction hleft : length - k using Nat.strong_induction_on generalizing k s with
  | _ left ih =>
    subst hleft
    rw [FixSize.fixLoop]
    by_cases hend : k = length
    · subst hend
      rw [Nat.sub_self, if_neg (by simp)]
      exact ⟨none, s, k, rfl, hmoved, Nat.le_add_right _ _, Or.inl ⟨rfl, rfl, delivers_zero, hstock⟩⟩
    · obtain ⟨s', r, hr, hcall, hmoved', hcalls, hresults⟩ := h k s hmoved (by omega) hstock
      rw [if_pos (by omega), Int.toNat_natCast, hcall]
      have hdelivers := delivers_iff (peer s).results (peer s).calls
        (show 0 < length - k by omega)
      dsimp only
      by_cases hstop : r ≤ 0
      · rw [if_pos hstop]
        refine ⟨some r, s', k, rfl, ?_, by omega, Or.inr ⟨r, hstop, rfl, by omega, ?_⟩⟩
        · rwa [Int.toNat_of_nonpos hstop, Nat.add_zero] at hmoved'
        · rintro ⟨hall, henough⟩
          have hfirst := (hdelivers.mp hall).1
          omega
      · rw [if_neg hstop]
        obtain ⟨j, rfl⟩ := Int.eq_ofNat_of_zero_le (show 0 ≤ r by omega)
        rw [Int.toNat_natCast] at hmoved'
        have hj : 0 < j := by omega
        have hjlength : k + j ≤ length := by omega
        have hjstock : k + j ≤ stock := by omega
        have hrest : length ≤ stock → 0 < ((peer s).results (peer s).calls).toInt ∧
            length - (k + j) = length - k - ((peer s).results (peer s).calls).toInt.toNat := by omega
        clear hr hstop
        obtain ⟨o, t, k', hrun, ht, hcount, hout⟩ :=
          ih (length - (k + j)) (by omega) hmoved' hjlength hjstock rfl
        rw [← Int.ofNat_sub (show j ≤ length - k by omega), Nat.sub_sub]
        refine ⟨o, t, k', hrun, ht, by omega, ?_⟩
        have hsame : (Delivers (peer s').results (peer s').calls (length - (k + j)) ∧ length ≤ stock) ↔
            (Delivers (peer s).results (peer s).calls (length - k) ∧ length ≤ stock) := by
          refine and_congr_left fun henough => ?_
          obtain ⟨hfirst, hsub⟩ := hrest henough
          rw [hresults, hcalls, hdelivers, hsub]
          exact (and_iff_right hfirst).symm
        rcases hout with ⟨ho, hk', hall⟩ | ⟨r, hr, ho, hk', hnot⟩
        · exact Or.inl ⟨ho, hk', hsame.mp hall⟩
        · exact Or.inr ⟨r, hr, ho, hk', fun hall => hnot (hsame.mpr hall)⟩

/-! ## The calls -/

theorem Peer.next_length (p : Peer) (k : ℕ) : (p.next k).length = k := by simp [next]

theorem Peer.next_add (p : Peer) (k j : ℕ) :
    p.next (k + j) = p.next k ++ { p with taken := p.taken + k }.next j := by
  simp only [next, List.range_add, List.map_append, List.map_map]
  congr 1
  refine List.map_congr_left fun i _ => ?_
  simp [Nat.add_assoc]

/-- What holds when `k` bytes have been moved since the function was called. -/
def Version.Moved (v : Version) (s : Link) (k : ℕ) (t : Link) : Prop :=
  match v with
  | .read => Transferred .read k s t ∧ t.peer.data = s.peer.data ∧ t.offset = k
  | .readBA => Transferred .readBA k s t ∧ t.peer.data = s.peer.data ∧ Inv t.ba
  | .write => Transferred .write k s t ∧ t.memory = s.memory ∧ t.offset = k
  | .writeBA => Transferred .writeBA k s t ∧ Inv t.ba ∧ k ≤ s.ba.getReadSize

section
variable {s : Link} {length : ℕ}

theorem steps_read : Steps read Link.peer (Version.read.Moved s) length length := by
  rintro k t ⟨⟨htaken, hmemory⟩, hdata, hoffset⟩ hk -
  refine ⟨_, t.peer.result (length - k), by simp [Peer.result], rfl, ⟨⟨?_, ?_⟩, hdata, ?_⟩, rfl, rfl⟩
  · simp only [Peer.recv]
    omega
  · funext a
    simp only [poke, hmemory, hoffset]
    by_cases hlt : a < k
    · rw [if_neg (Nat.not_le.mpr hlt), if_pos hlt, if_pos (by omega)]
    · have hle := Nat.le_of_not_lt hlt
      rw [if_pos hle, if_neg hlt]
      by_cases hin : a < k + (t.peer.result (length - k)).toNat
      · rw [if_pos hin, Peer.next, List.getElem?_map, List.getElem?_range (by omega)]
        simp [hdata, htaken, Nat.add_assoc, Nat.add_sub_cancel' hle]
      · rw [if_neg hin, List.getElem?_eq_none (by rw [Peer.next_length]; omega)]
        rfl
  · simp only [hoffset]

theorem steps_write : Steps write Link.peer (Version.write.Moved s) length length := by
  rintro k t ⟨hsent, hmemory, hoffset⟩ hk -
  refine ⟨_, t.peer.result (length - k), by simp [Peer.result], rfl, ⟨?_, hmemory, ?_⟩, rfl, rfl⟩
  · have hle : (t.peer.result (length - k)).toNat ≤ length - k := by
      have := Int.min_le_right (t.peer.results t.peer.calls).toInt (length - k : ℕ)
      unfold Peer.result
      omega
    simp only [Transferred, Peer.send, List.length_map, List.length_range, hoffset, hmemory] at hsent ⊢
    rw [hsent, List.append_assoc, List.range_add, List.map_append, List.map_map, ← List.map_take,
      List.take_range, Nat.min_eq_left hle]
    rfl
  · simp only [hoffset]

theorem Peer.result_le (p : Peer) (n : ℕ) : (p.result n).toNat ≤ n := by
  have hle := Int.min_le_right (p.results p.calls).toInt (n : ℤ)
  unfold result
  omega

/-- The bytes of the next call follow those that were taken. -/
theorem next_moved {p q : Peer} {k : ℕ} (htaken : q.taken = p.taken + k) (hdata : q.data = p.data) (j : ℕ) :
    p.next (k + j) = p.next k ++ q.next j := by
  rw [Peer.next_add]
  simp only [Peer.next, htaken, hdata]

theorem steps_readBA (h : Inv s.ba) : Steps readBA Link.peer (Version.readBA.Moved s) length length := by
  rintro k t ⟨⟨htaken, hposition, hcontents⟩, hdata, hinv⟩ hk -
  obtain ⟨ba, iovs, hbuffers, -, -, hsum, -⟩ := getWriteBuffers_spec hinv.represents (length - k)
  have hle := t.peer.result_le (length - k)
  have hlength := t.peer.next_length (t.peer.result (length - k)).toNat
  have hcall : t.peer.result (length - k) =
      min (t.peer.results t.peer.calls).toInt (min (length - k) (length - k) : ℕ) := by
    rw [Nat.min_self, Peer.result]
  have hflat : overwrite t.ba.contents t.ba.position (t.peer.next (t.peer.result (length - k)).toNat) =
      overwrite s.ba.contents s.ba.position (s.peer.next (k + (t.peer.result (length - k)).toNat)) := by
    have hp : s.ba.position ≤ s.ba.contents.length := by
      rw [h.contents_length]
      exact h.position_le
    rw [hcontents, hposition, next_moved htaken hdata, ← overwrite_overwrite hp, Peer.next_length]
  have htaken' : t.peer.taken + (t.peer.result (length - k)).toNat =
      s.peer.taken + (k + (t.peer.result (length - k)).toNat) := by omega
  by_cases hpos : t.peer.result (length - k) > 0
  · obtain ⟨nodes, ba', hfill, hset, hr⟩ := hinv.fill_setPosition hbuffers (hlength.trans_le hle)
    rw [hlength] at hset
    refine ⟨{ t with peer := t.peer.recv (length - k), ba := ba' }, _, hcall, ?_,
      ⟨⟨htaken', ?_, ?_⟩, hdata, hr.toInv⟩, rfl, rfl⟩
    · simp only [readBA, hbuffers, hsum, hfill, bind, Except.bind, if_pos hpos, hset]
    · have hmoved := hr.pos_eq
      simp only [Cursor.put, Inv.cursor, hlength, hposition] at hmoved
      dsimp only
      omega
    · exact hr.contents_eq.trans hflat
  · obtain ⟨nodes, hfill, hr, hinv', -, hcells⟩ := hinv.fill hbuffers (hlength.trans_le hle)
    have hnil : t.peer.next (t.peer.result (length - k)).toNat = [] :=
      List.eq_nil_of_length_eq_zero (by omega)
    rw [hnil, overwrite_nil] at hcells hflat
    refine ⟨{ t with peer := t.peer.recv (length - k), ba := { ba with nodes := nodes } }, _, hcall, ?_,
      ⟨⟨htaken', ?_, ?_⟩, hdata, hinv'⟩, rfl, rfl⟩
    · simp only [readBA, hbuffers, hsum, hfill, bind, Except.bind, if_neg hpos]
    · have hmoved := hr.pos_eq
      simp only [Inv.cursor, hposition] at hmoved
      dsimp only
      omega
    · rw [← hflat]
      change (cells nodes).take ba.size = _
      rw [hcells, ← hr.items_eq]
      rfl

theorem steps_writeBA (h : Inv s.ba) :
    Steps writeBA Link.peer (Version.writeBA.Moved s) length s.ba.getReadSize := by
  rintro k t ⟨⟨hposition, hcontents, hsent⟩, hinv, hle⟩ hk hstock
  have hsize : t.ba.size = s.ba.size := by rw [← hinv.contents_length, hcontents, h.contents_length]
  have hleft : t.ba.getReadSize = s.ba.getReadSize - k := by
    unfold getReadSize
    omega
  obtain ⟨iovs, hbuffers, -, hgather⟩ := hinv.getReadBuffers (length - k)
  rw [hleft] at hbuffers hgather
  set bytes := (t.ba.contents.drop t.ba.position).take (min (length - k) (s.ba.getReadSize - k)) with hbytes
  have hlength : bytes.length = min (length - k) (s.ba.getReadSize - k) := by
    rw [hbytes, List.length_take, List.length_drop, hinv.contents_length, ← hleft, getReadSize]
    omega
  have hr := t.peer.result_le bytes.length
  have hcall : t.peer.result bytes.length =
      min (t.peer.results t.peer.calls).toInt (min (length - k) (s.ba.getReadSize - k) : ℕ) := by
    rw [hlength, Peer.result]
  have hsent' : t.peer.sent ++ bytes.take (t.peer.result bytes.length).toNat = s.peer.sent ++
      (s.ba.contents.drop s.ba.position).take (k + (t.peer.result bytes.length).toNat) := by
    rw [hsent, List.append_assoc, List.take_add, List.drop_drop, ← hposition, ← hcontents, hbytes,
      List.take_take, Nat.min_eq_left (hr.trans hlength.le)]
  by_cases hpos : t.peer.result bytes.length > 0
  · have hin : (t.peer.result bytes.length).toNat ≤ hinv.cursor.rest.length := by
      rw [hinv.represents.rest_length]
      omega
    obtain ⟨ba, hset, hrep⟩ := hinv.setPosition_within hin
    refine ⟨{ t with peer := t.peer.send bytes, ba := ba }, _, hcall, ?_,
      ⟨⟨?_, hrep.contents_eq.trans hcontents, hsent'⟩, hrep.toInv, by omega⟩, rfl, rfl⟩
    · simp only [writeBA, hbuffers, hgather, bind, Except.bind, if_pos hpos, hset]
    · have hmoved := hrep.pos_eq
      simp only [Cursor.skip, Inv.cursor, hposition] at hmoved
      dsimp only
      omega
  · refine ⟨{ t with peer := t.peer.send bytes }, _, hcall, ?_,
      ⟨⟨?_, hcontents, hsent'⟩, hinv, by omega⟩, rfl, rfl⟩
    · simp only [writeBA, hbuffers, hgather, bind, Except.bind, if_neg hpos]
    · dsimp only
      omega

/-! ## The result -/

/-- How much there is to move. -/
def Version.stock (v : Version) (length : ℕ) (s : Link) : ℕ :=
  if v = .writeBA then s.ba.getReadSize else length

theorem stocked_iff {v : Version} : v.Stocked length s ↔ length ≤ v.stock length s := by
  cases v <;> simp [Version.Stocked, Version.stock]

theorem steps_call (v : Version) (length : ℕ) (h : Inv s.ba) :
    Steps v.call Link.peer (v.Moved s) length (v.stock length s) := by
  cases v with
  | read => exact steps_read
  | readBA => exact steps_readBA h
  | write => exact steps_write
  | writeBA => exact steps_writeBA h

theorem moved_start (v : Version) (h : Inv s.ba) : v.Moved s 0 { s with offset := 0 } := by
  cases v with
  | read => exact ⟨⟨rfl, by simp⟩, rfl, rfl⟩
  | readBA => exact ⟨⟨rfl, rfl, by simp [Peer.next]⟩, rfl, h⟩
  | write => exact ⟨by simp [Transferred], rfl, rfl⟩
  | writeBA => exact ⟨⟨rfl, rfl, by simp⟩, h, Nat.zero_le _⟩

/-- How many bytes were moved can be told from the outside. -/
theorem Version.Moved.transferred_iff {v : Version} {k : ℕ} {t : Link} (h : v.Moved s k t) :
    Transferred v length s t ↔ k = length := by
  constructor
  · intro htransferred
    cases v with
    | read =>
      have hk := h.1.1
      have hlength := htransferred.1
      omega
    | readBA =>
      have hk := h.1.1
      have hlength := htransferred.1
      omega
    | write =>
      have hk := congrArg List.length h.1
      have hlength := congrArg List.length htransferred
      simp only [List.length_append, List.length_map, List.length_range] at hk hlength
      omega
    | writeBA =>
      have hk := h.1.1
      have hlength := htransferred.1
      omega
  · rintro rfl
    cases v <;> exact h.1

theorem exact_iff_of_lt (v : Version) {length : UInt64} (hlt : length.toNat < 2 ^ 63) (h : Inv s.ba) :
    Exact v length s ↔
      (Delivers s.peer.results s.peer.calls length.toNat → v.Stocked length.toNat s → 0 < toInt length.toNat) := by
  obtain ⟨o, t, k, hrun, hmoved, hcalls, hout⟩ :=
    (steps_call v length.toNat h).fixLoop (moved_start v h) (Nat.zero_le _) (Nat.zero_le _)
  rw [Nat.sub_zero] at hrun hcalls hout
  have hfix : fixSize v length s = .ok (o.getD (toInt length.toNat), t) := by
    simp only [fixSize, toInt64_eq hlt, hrun]
    rfl
  have hexact : Exact v length s ↔ (0 < o.getD (toInt length.toNat) ↔ k = length.toNat) := by
    rw [← hmoved.transferred_iff]
    constructor
    · rintro ⟨ret, t', hrun', hlaw, -⟩
      rw [hfix] at hrun'
      cases hrun'
      exact hlaw
    · intro hlaw
      exact ⟨_, t, hfix, hlaw, hcalls⟩
  rw [hexact]
  rcases hout with ⟨rfl, hk, hall, hstock⟩ | ⟨r, hr, rfl, hk, hnot⟩
  · have hstocked : v.Stocked length.toNat s := stocked_iff.mpr hstock
    rw [Option.getD_none, iff_true_right hk]
    exact ⟨fun hret _ _ => hret, fun hlaw => hlaw hall hstocked⟩
  · rw [Option.getD_some]
    refine iff_of_true (iff_of_false (by omega) (by omega)) fun hall hstocked => ?_
    exact absurd ⟨hall, stocked_iff.mp hstocked⟩ hnot

theorem exact_iff_of_ge (v : Version) {length : UInt64} (hge : 2 ^ 63 ≤ length.toNat) (h : Inv s.ba) :
    Exact v length s ↔ toInt length.toNat ≤ 0 := by
  have hneg : ¬ toInt64 length.toNat > 0 := by
    have hlt := length.toNat_lt
    rw [toInt64, BitVec.toInt_ofInt, Int.bmod_def]
    omega
  have hfix : fixSize v length s = .ok (toInt length.toNat, { s with offset := 0 }) := by
    rw [fixSize, FixSize.fixLoop, if_neg hneg]
    rfl
  have hnone : ¬ Transferred v length.toNat s { s with offset := 0 } := by
    rw [(moved_start v h).transferred_iff]
    omega
  constructor
  · rintro ⟨ret, t, hrun, hlaw, -⟩
    rw [hfix] at hrun
    cases hrun
    exact Int.not_lt.mp fun hret => hnone (hlaw.mp hret)
  · intro hle
    exact ⟨_, _, hfix, iff_of_false (by omega) hnone, Nat.le_add_right _ _⟩

/-- The four functions do an exact transfer, and say so, exactly for the lengths that are judged right. -/
theorem exact_iff (v : Version) (length : UInt64) (s : Link)
    (h : ByteArray.Reachable s.ba) : Exact v length s ↔ Judged v length s := by
  unfold Judged
  split
  · rename_i hlt
    exact exact_iff_of_lt v hlt h.inv
  · rename_i hge
    exact exact_iff_of_ge v (Nat.le_of_not_lt hge) h.inv

end

/-- A connection on which every call is good for `r` bytes. -/
def steady (r : Int32) : Link where
  peer := ⟨fun _ => r, fun i => UInt8.ofNat i, 0, 0, []⟩
  memory := fun _ => 0
  offset := 0
  ba := ByteArray.new 2 (fun _ => 7)

/-- Three bytes come in twos. -/
theorem exact_iff_steady : Exact .readBA 3 (steady 2) ↔ Judged .readBA 3 (steady 2) :=
  exact_iff .readBA 3 (steady 2) (.new (by decide) _)

/-- `2 ^ 31` bytes come in two calls, and the result is below zero. -/
theorem not_always_exact : ¬ Exact .read (2 ^ 31) (steady Int32.maxValue) := by
  have hinv : Inv (steady Int32.maxValue).ba := (Reachable.new (by decide) _).inv
  rw [exact_iff_of_lt .read (by decide) hinv]
  intro hlaw
  have hneg := hlaw ⟨2, fun _ _ => (by decide : 0 < Int32.maxValue.toInt), by decide⟩ (by simp [Version.Stocked])
  exact absurd hneg (by decide)

end Flz.FixSize
