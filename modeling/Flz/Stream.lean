import Flz.Lib.Pieces
import Mathlib.Data.Int.Basic
import Mathlib.Tactic.Ring

/-! # Streams

`Stream` of `include/stream.h` over a connected socket. What the peer sends arrives in pieces
of any sizes; a read returns a part of the piece at hand, and `ending` once all are gone.
`takes` are the results of the coming writes, any number of bytes or a failure; when they are
used up a write takes everything. Both return an `int`.
-/
namespace Flz
open Lib

/-- The largest `int`. -/
def intMax : ℕ := 2 ^ 31 - 1

/-- The conversion of an integer to `int`. -/
def toInt (z : ℤ) : ℤ := (BitVec.ofInt 32 z).toInt

/-- The conversion of an integer to `int64_t`. -/
def toInt64 (z : ℤ) : ℤ := (BitVec.ofInt 64 z).toInt

theorem toInt_eq {n : ℕ} (h : n ≤ intMax) : toInt n = n := by
  unfold intMax at h
  rw [toInt, BitVec.toInt_ofInt, Int.bmod_def]
  omega

theorem toInt_le (n : ℕ) : toInt n ≤ n := by
  rw [toInt, BitVec.toInt_ofInt, Int.bmod_def]
  omega

theorem toInt64_eq {n : ℕ} (h : n < 2 ^ 63) : toInt64 n = n := by
  rw [toInt64, BitVec.toInt_ofInt, Int.bmod_def]
  omega

structure Stream where
  input : Pieces UInt8
  ending : ℤ
  ending_le : ending ≤ 0
  takes : List ℤ
  sent : List UInt8
  closed : Bool

namespace Stream

/-- A connection on which the given pieces come in, and nothing was sent yet. -/
def connected (input : Pieces UInt8) : Stream where
  input := input
  ending := 0
  ending_le := Int.le_refl 0
  takes := []
  sent := []
  closed := false

/-- What the peer sent and was not read yet. -/
def pending (s : Stream) : List UInt8 := s.input.flatten

theorem connected_whole (xs : List UInt8) : (connected (.whole xs)).pending = xs :=
  Pieces.flatten_whole xs

def read (length : ℕ) (s : Stream) : ℤ × List UInt8 × Stream :=
  if s.closed then (-1, [], s)
  else if s.input.parts = [] then (s.ending, [], s)
  else
    let (bytes, input) := s.input.next (min length intMax)
    (bytes.length, bytes, { s with input := input })

def write (buffer : List UInt8) (s : Stream) : ℤ × Stream :=
  if s.closed then (-1, s)
  else
    match s.takes with
    | [] => (min buffer.length intMax, { s with sent := s.sent ++ buffer.take intMax })
    | r :: takes =>
      if r ≤ 0 then (r, { s with takes := takes })
      else
        let n := min r.toNat (min buffer.length intMax)
        (n, { s with takes := takes, sent := s.sent ++ buffer.take n })

def close (s : Stream) : Stream := { s with closed := true }

/-- The loop of `readFixSize`: the result that ends it early, and the bytes put into the
buffer. Every turn takes at least one byte, so `left` turns are enough. -/
def readLoop : ℕ → ℤ → Stream → Option ℤ × List UInt8 × Stream
  | 0, _, s => (none, [], s)
  | fuel + 1, left, s =>
    if left > 0 then
      let (len, bytes, s) := s.read left.toNat
      if len ≤ 0 then (some len, bytes, s)
      else
        let (r, more, s) := readLoop fuel (left - len) s
        (r, bytes ++ more, s)
    else (none, [], s)

def readFixSize (length : ℕ) (s : Stream) : ℤ × List UInt8 × Stream :=
  let out := readLoop (toInt64 length).toNat (toInt64 length) s
  (out.1.getD (toInt length), out.2)

/-- The loop of `writeFixSize`; a buffer is shorter than `2 ^ 63`. -/
def writeLoop : ℕ → List UInt8 → Stream → Option ℤ × Stream
  | 0, _, s => (none, s)
  | fuel + 1, buffer, s =>
    if buffer.length > 0 then
      let (len, s) := s.write buffer
      if len ≤ 0 then (some len, s)
      else writeLoop fuel (buffer.drop len.toNat) s
    else (none, s)

def writeFixSize (buffer : List UInt8) (s : Stream) : ℤ × Stream :=
  let out := writeLoop buffer.length buffer s
  (out.1.getD (toInt buffer.length), out.2)

/-! ## What they do -/

/-- The stream with other pieces to come. -/
def withInput (s : Stream) (input : Pieces UInt8) : Stream := { s with input := input }

@[simp] theorem withInput_pending (s : Stream) (input : Pieces UInt8) :
    (s.withInput input).pending = input.flatten := rfl
@[simp] theorem withInput_closed (s : Stream) (input : Pieces UInt8) :
    (s.withInput input).closed = s.closed := rfl
@[simp] theorem withInput_takes (s : Stream) (input : Pieces UInt8) :
    (s.withInput input).takes = s.takes := rfl
@[simp] theorem withInput_ending (s : Stream) (input : Pieces UInt8) :
    (s.withInput input).ending = s.ending := rfl
@[simp] theorem withInput_withInput (s : Stream) (i j : Pieces UInt8) :
    (s.withInput i).withInput j = s.withInput j := rfl

section
variable {s : Stream} {xs ys : List UInt8}

theorem read_closed (h : s.closed = true) (n : ℕ) : s.read n = (-1, [], s) := if_pos h

theorem read_ended (h : s.closed = false) (hp : s.pending = []) (n : ℕ) :
    s.read n = (s.ending, [], s) := by
  rw [read, if_neg (by simp [h]), if_pos (Pieces.flatten_eq_nil.mp hp)]

/-- A read takes what the pieces give. -/
theorem read_next (h : s.closed = false) (hp : s.pending ≠ []) (n : ℕ) :
    s.read n = (((s.input.next (min n intMax)).1.length : ℤ), (s.input.next (min n intMax)).1,
      s.withInput (s.input.next (min n intMax)).2) := by
  have hparts : s.input.parts ≠ [] := fun h0 => hp (Pieces.flatten_eq_nil.mpr h0)
  rw [read, if_neg (by simp [h]), if_neg hparts]
  rfl

/-- A read of at least one byte takes some of the bytes there are. -/
theorem read_spec (h : s.closed = false) (hp : s.pending = xs ++ ys) (hxs : xs ≠ []) :
    ∃ k input, 0 < k ∧ k ≤ xs.length ∧ s.read xs.length = (↑k, xs.take k, s.withInput input) ∧
      input.flatten = xs.drop k ++ ys := by
  have hlen : 0 < xs.length := List.length_pos_iff.mpr hxs
  have hn : 0 < min xs.length intMax := lt_min hlen (by decide)
  have hle : min xs.length intMax ≤ xs.length := min_le_left _ _
  have hne : s.pending ≠ [] := by
    rw [hp]
    exact List.append_ne_nil_of_left_ne_nil hxs ys
  obtain ⟨htake, hdrop⟩ := Pieces.next_within hp hle
  refine ⟨(s.input.next (min xs.length intMax)).1.length, (s.input.next (min xs.length intMax)).2,
    List.length_pos_iff.mpr (Pieces.next_ne_nil hn hne),
    Nat.le_trans (Pieces.next_length_le _ _) hle, ?_, hdrop⟩
  rw [read_next h hne, ← htake]

theorem readLoop_enough (h : s.closed = false) (hp : s.pending = xs ++ ys) {fuel : ℕ}
    (hfuel : xs.length ≤ fuel) :
    ∃ input, readLoop fuel xs.length s = (none, xs, s.withInput input) ∧ input.flatten = ys := by
  induction fuel generalizing s xs with
  | zero =>
    obtain rfl : xs = [] := List.eq_nil_of_length_eq_zero (by omega)
    exact ⟨s.input, rfl, hp⟩
  | succ fuel ih =>
    by_cases hxs : xs = []
    · subst hxs
      exact ⟨s.input, rfl, hp⟩
    · obtain ⟨k, input, hk, hkle, hread, hflat⟩ := read_spec h hp hxs
      have hpos : (xs.length : ℤ) > 0 := by
        have := List.length_pos_iff.mpr hxs
        omega
      have hleft : (xs.length : ℤ) - k = ((xs.drop k).length : ℤ) := by
        rw [List.length_drop]
        omega
      obtain ⟨input', hloop, hrest⟩ := ih (s := s.withInput input) h hflat
        (by rw [List.length_drop]; omega)
      refine ⟨input', ?_, hrest⟩
      rw [readLoop, if_pos hpos, Int.toNat_natCast, hread]
      simp only [if_neg (show ¬ (k : ℤ) ≤ 0 by omega), hleft, hloop, List.take_append_drop,
        withInput_withInput]

theorem readLoop_short (h : s.closed = false) {left : ℕ} (hlt : s.pending.length < left) {fuel : ℕ}
    (hfuel : left ≤ fuel) :
    readLoop fuel left s = (some s.ending, s.pending, s.withInput Pieces.empty) := by
  induction fuel generalizing s left with
  | zero => omega
  | succ fuel ih =>
    have hpos : (left : ℤ) > 0 := by omega
    by_cases hnil : s.pending = []
    · have hin : s.withInput Pieces.empty = s := by
        have hparts := Pieces.flatten_eq_nil.mp hnil
        obtain ⟨⟨parts, hne⟩, ending, hle, takes, sent, closed⟩ := s
        dsimp only at hparts
        subst hparts
        rfl
      rw [readLoop, if_pos hpos, read_ended h hnil, hin, hnil]
      simp only [if_pos s.ending_le]
    · have hpp : s.pending = s.pending ++ [] := (List.append_nil _).symm
      have hn : 0 < min left intMax := lt_min (by omega) (by decide)
      have happ := Pieces.next_append (min left intMax) s.input
      have hk := List.length_pos_iff.mpr (Pieces.next_ne_nil hn hnil)
      have hread := read_next h hnil left
      have hlen := congrArg List.length happ
      rw [List.length_append] at hlen
      have hsp : s.pending.length = s.input.flatten.length := rfl
      have hleft : (left : ℤ) - ((s.input.next (min left intMax)).1.length : ℤ) =
          ((left - (s.input.next (min left intMax)).1.length : ℕ) : ℤ) := by omega
      have hless : (s.withInput (s.input.next (min left intMax)).2).pending.length <
          left - (s.input.next (min left intMax)).1.length := by
        rw [withInput_pending]
        omega
      have hopen : (s.withInput (s.input.next (min left intMax)).2).closed = false := h
      have hloop := ih hopen hless (by omega)
      rw [readLoop, if_pos hpos, Int.toNat_natCast, hread]
      simp only [if_neg (show ¬ ((s.input.next (min left intMax)).1.length : ℤ) ≤ 0 by omega),
        hleft, hloop, withInput_pending, happ, withInput_withInput, withInput_ending]
      rfl

end

/-! ## Nothing is lost -/

theorem read_pending (n : ℕ) (s : Stream) : (s.read n).2.1 ++ (s.read n).2.2.pending = s.pending := by
  unfold read
  split
  · exact List.nil_append _
  · split
    · exact List.nil_append _
    · exact Pieces.next_append _ _

theorem readLoop_pending (fuel : ℕ) (left : ℤ) (s : Stream) :
    (readLoop fuel left s).2.1 ++ (readLoop fuel left s).2.2.pending = s.pending := by
  induction fuel generalizing left s with
  | zero => exact List.nil_append _
  | succ fuel ih =>
    have hread := read_pending left.toNat s
    rw [readLoop]
    split
    · dsimp only
      split
      · exact hread
      · rw [List.append_assoc, ih, hread]
    · exact List.nil_append _

/-- The stream without the next `k` bytes. -/
def skip (k : ℕ) (s : Stream) : Stream := s.withInput (s.input.skip k)

theorem skip_zero (s : Stream) : s.skip 0 = s := by
  rw [skip, Pieces.skip_zero]
  rfl

@[simp] theorem skip_skip (i j : ℕ) (s : Stream) : (s.skip i).skip j = s.skip (i + j) :=
  congrArg s.withInput (Pieces.skip_skip i j s.input)

@[simp] theorem skip_pending (k : ℕ) (s : Stream) : (s.skip k).pending = s.pending.drop k :=
  Pieces.flatten_skip k s.input

@[simp] theorem skip_closed (k : ℕ) (s : Stream) : (s.skip k).closed = s.closed := rfl

/-- A read takes the bytes it delivers off the stream. -/
theorem read_skip (n : ℕ) (s : Stream) : (s.read n).2.2 = s.skip (s.read n).2.1.length := by
  unfold read
  split
  · exact (skip_zero s).symm
  · split
    · exact (skip_zero s).symm
    · exact congrArg s.withInput (Pieces.next_skip _ s.input)

theorem readLoop_skip (fuel : ℕ) (left : ℤ) (s : Stream) :
    (readLoop fuel left s).2.2 = s.skip (readLoop fuel left s).2.1.length := by
  induction fuel generalizing left s with
  | zero => exact (skip_zero s).symm
  | succ fuel ih =>
    have hread := read_skip left.toNat s
    rw [readLoop]
    split
    · dsimp only
      split
      · exact hread
      · rw [ih, hread, skip_skip, List.length_append]
    · exact (skip_zero s).symm

theorem readFixSize_skip (length : ℕ) (s : Stream) :
    (s.readFixSize length).2.2 = s.skip (s.readFixSize length).2.1.length :=
  readLoop_skip (toInt64 length).toNat (toInt64 length) s

/-- What a read returns: a failure, or the number of bytes it delivers. -/
theorem read_result (n : ℕ) (s : Stream) :
    (s.read n).1 ≤ 0 ∨ (s.read n).1 = ((s.read n).2.1.length : ℤ) ∧ (s.read n).2.1.length ≤ n := by
  unfold read
  split
  · exact Or.inl (show (-1 : ℤ) ≤ 0 by decide)
  · split
    · exact Or.inl s.ending_le
    · exact Or.inr ⟨rfl, Nat.le_trans (Pieces.next_length_le _ _) (min_le_left _ _)⟩

theorem read_failed (n : ℕ) (s : Stream) (h : (s.read n).1 ≤ 0) : (s.read n).2.1 = [] := by
  unfold read at h ⊢
  split
  · rfl
  · rename_i hc
    rw [if_neg hc] at h
    split
    · rfl
    · rename_i hp
      rw [if_neg hp] at h
      dsimp only at h ⊢
      apply List.eq_nil_of_length_eq_zero
      omega

/-- A loop that is not ended early has read everything it was asked for. -/
theorem readLoop_length {fuel : ℕ} {left : ℤ} {s : Stream} (hfuel : left.toNat ≤ fuel)
    (h : (readLoop fuel left s).1 = none) :
    (readLoop fuel left s).2.1.length = left.toNat := by
  induction fuel generalizing left s with
  | zero =>
    rw [readLoop, List.length_nil]
    omega
  | succ fuel ih =>
    have hres := read_result left.toNat s
    rw [readLoop] at h ⊢
    generalize s.read left.toNat = out at h hres ⊢
    obtain ⟨len, bytes, s'⟩ := out
    by_cases hpos : left > 0
    · rw [if_pos hpos] at h ⊢
      dsimp only at h hres ⊢
      by_cases hle : len ≤ 0
      · rw [if_pos hle] at h
        cases h
      · rw [if_neg hle] at h ⊢
        obtain ⟨heq, hlen⟩ := hres.resolve_left hle
        have hrec := ih (by omega) h
        rw [List.length_append, hrec]
        omega
    · rw [if_neg hpos, List.length_nil]
      omega

theorem readLoop_bound (fuel : ℕ) (left : ℤ) (s : Stream) :
    (readLoop fuel left s).2.1.length ≤ left.toNat := by
  induction fuel generalizing left s with
  | zero => exact Nat.zero_le _
  | succ fuel ih =>
    have hres := read_result left.toNat s
    have hfail := read_failed left.toNat s
    rw [readLoop]
    generalize s.read left.toNat = out at hres hfail ⊢
    obtain ⟨len, bytes, s'⟩ := out
    by_cases hpos : left > 0
    · rw [if_pos hpos]
      dsimp only at hres hfail ⊢
      by_cases hle : len ≤ 0
      · rw [if_pos hle, hfail hle, List.length_nil]
        exact Nat.zero_le _
      · rw [if_neg hle, List.length_append]
        obtain ⟨heq, hlen⟩ := hres.resolve_left hle
        have hrec := ih (left - len) s'
        generalize (readLoop fuel (left - len) s').2.1.length = k at hrec ⊢
        omega
    · rw [if_neg hpos, List.length_nil]
      exact Nat.zero_le _

theorem readLoop_some {fuel : ℕ} {left : ℤ} {s : Stream} {len : ℤ}
    (h : (readLoop fuel left s).1 = some len) : len ≤ 0 := by
  induction fuel generalizing left s with
  | zero => cases h
  | succ fuel ih =>
    rw [readLoop] at h
    split at h
    · dsimp only at h
      split at h
      · rename_i hle
        injection h with h
        rwa [h] at hle
      · exact ih h
    · cases h

theorem readFixSize_eq (length : ℕ) (s : Stream) :
    s.readFixSize length = ((readLoop (toInt64 length).toNat (toInt64 length) s).1.getD (toInt length),
      (readLoop (toInt64 length).toNat (toInt64 length) s).2) := rfl

theorem write_input (buffer : List UInt8) (s : Stream) : (s.write buffer).2.input = s.input := by
  unfold write
  split
  · rfl
  · split
    · rfl
    · split <;> rfl

theorem writeLoop_input (fuel : ℕ) (buffer : List UInt8) (s : Stream) :
    (writeLoop fuel buffer s).2.input = s.input := by
  induction fuel generalizing buffer s with
  | zero => rfl
  | succ fuel ih =>
    rw [writeLoop]
    split
    · dsimp only
      split
      · exact write_input buffer s
      · rw [ih, write_input]
    · rfl

theorem writeFixSize_eq (buffer : List UInt8) (s : Stream) :
    s.writeFixSize buffer = ((writeLoop buffer.length buffer s).1.getD (toInt buffer.length),
      (writeLoop buffer.length buffer s).2) := rfl

theorem writeFixSize_input (buffer : List UInt8) (s : Stream) :
    (s.writeFixSize buffer).2.input = s.input := writeLoop_input buffer.length buffer s

theorem readFixSize_pending (length : ℕ) (s : Stream) :
    (s.readFixSize length).2.1 ++ (s.readFixSize length).2.2.pending = s.pending := by
  rw [readFixSize_eq]
  dsimp only
  exact readLoop_pending _ _ s

theorem readFixSize_bound (length : ℕ) (s : Stream) : (s.readFixSize length).2.1.length ≤ length := by
  rw [readFixSize_eq]
  dsimp only
  refine Nat.le_trans (readLoop_bound _ _ s) ?_
  by_cases h : length < 2 ^ 63
  · rw [toInt64_eq h, Int.toNat_natCast]
  · have hle : toInt64 length ≤ length := by
      rw [toInt64, BitVec.toInt_ofInt, Int.bmod_def]
      omega
    omega

/-- A positive result means that the bytes asked for were read. -/
theorem readFixSize_length {length : ℕ} {s : Stream} (hlt : length < 2 ^ 63)
    (h : 0 < (s.readFixSize length).1) : (s.readFixSize length).2.1.length = length := by
  rw [readFixSize_eq] at h ⊢
  rw [toInt64_eq hlt, Int.toNat_natCast] at h ⊢
  cases hr : (readLoop length length s).1 with
  | none => exact readLoop_length (Nat.le_refl _) hr
  | some len =>
    have := readLoop_some hr
    rw [hr, Option.getD_some] at h
    omega

section
variable {s : Stream} {xs ys : List UInt8}

/-- A read of as many bytes as there are takes exactly these, however they arrive. -/
theorem readFixSize_enough (h : s.closed = false) (hp : s.pending = xs ++ ys)
    (hlt : xs.length < 2 ^ 63) :
    ∃ input, s.readFixSize xs.length = (toInt xs.length, xs, s.withInput input) ∧
      input.flatten = ys := by
  obtain ⟨input, hloop, hrest⟩ := readLoop_enough h hp (Nat.le_refl _)
  refine ⟨input, ?_, hrest⟩
  rw [readFixSize_eq, toInt64_eq hlt, Int.toNat_natCast, hloop, Option.getD_none]

/-- A read of more than there is takes all of it and reports the end. -/
theorem readFixSize_short (h : s.closed = false) {n : ℕ} (hlt : s.pending.length < n)
    (hn : n < 2 ^ 63) :
    s.readFixSize n = (s.ending, s.pending, s.withInput Pieces.empty) := by
  have hloop := readLoop_short h hlt (Nat.le_refl _)
  rw [readFixSize_eq, toInt64_eq hn, Int.toNat_natCast, hloop, Option.getD_some]

/-- A length that is negative as `int64_t` reads nothing. -/
theorem readFixSize_huge (s : Stream) {n : ℕ} (hn : 2 ^ 63 ≤ n) (hlt : n < 2 ^ 64) :
    s.readFixSize n = (toInt n, [], s) := by
  have hneg : toInt64 n ≤ 0 := by
    rw [toInt64, BitVec.toInt_ofInt, Int.bmod_def]
    omega
  rw [readFixSize_eq, Int.toNat_of_nonpos hneg, readLoop, Option.getD_none]

end

/-- A stream whose writes all succeed. -/
def Accepts (s : Stream) : Prop := s.closed = false ∧ ∀ r ∈ s.takes, 0 < r

theorem connected_accepts (input : Pieces UInt8) : (connected input).Accepts :=
  ⟨rfl, fun _ hr => nomatch hr⟩

/-- The stream after more bytes were sent. -/
def withSent (s : Stream) (takes : List ℤ) (bytes : List UInt8) : Stream :=
  { s with takes := takes, sent := s.sent ++ bytes }

/-- A write of at least one byte takes some of them. -/
theorem write_spec {s : Stream} (h : s.Accepts) {buffer : List UInt8} (hne : buffer ≠ []) :
    ∃ k takes, 0 < k ∧ k ≤ buffer.length ∧ s.write buffer = (↑k, s.withSent takes (buffer.take k)) ∧
      (s.withSent takes (buffer.take k)).Accepts := by
  have hlen : 0 < buffer.length := List.length_pos_iff.mpr hne
  have hmax : 0 < intMax := by decide
  obtain ⟨hc, ht⟩ := h
  cases hs : s.takes with
  | nil =>
    refine ⟨min buffer.length intMax, [], lt_min hlen hmax, min_le_left _ _, ?_, hc, by simp [withSent]⟩
    have htake : buffer.take (min buffer.length intMax) = buffer.take intMax := by
      rw [Nat.min_comm, ← List.take_eq_take_min]
    have hcast : ((min buffer.length intMax : ℕ) : ℤ) = min (buffer.length : ℤ) intMax := by omega
    rw [write, if_neg (by simp [hc]), hs, htake, hcast]
    simp only [withSent, ← hs]
  | cons r takes =>
    have hr : 0 < r := ht r (by simp [hs])
    refine ⟨min r.toNat (min buffer.length intMax), takes, lt_min (by omega) (lt_min hlen hmax),
      Nat.le_trans (min_le_right _ _) (min_le_left _ _), ?_, hc, ?_⟩
    · rw [write, if_neg (by simp [hc]), hs]
      simp only [if_neg (show ¬ r ≤ 0 by omega), withSent]
    · intro q hq
      exact ht q (by rw [hs]; exact List.mem_cons_of_mem _ hq)

theorem writeLoop_spec {s : Stream} (h : s.Accepts) {buffer : List UInt8} {fuel : ℕ}
    (hfuel : buffer.length ≤ fuel) :
    ∃ takes, writeLoop fuel buffer s = (none, s.withSent takes buffer) ∧
      (s.withSent takes buffer).Accepts := by
  have hnil : s.withSent s.takes [] = s := by simp [withSent]
  induction fuel generalizing s buffer with
  | zero =>
    obtain rfl : buffer = [] := List.eq_nil_of_length_eq_zero (by omega)
    exact ⟨s.takes, by rw [hnil]; rfl, by rwa [hnil]⟩
  | succ fuel ih =>
    by_cases hb : buffer = []
    · subst hb
      exact ⟨s.takes, by rw [hnil]; rfl, by rwa [hnil]⟩
    · obtain ⟨k, takes, hk, hkle, hwrite, hacc⟩ := write_spec h hb
      have hdrop : (buffer.drop k).length ≤ fuel := by
        rw [List.length_drop]
        omega
      obtain ⟨takes', hloop, hacc'⟩ := ih hacc hdrop (by simp [withSent])
      have hjoin : (s.withSent takes (buffer.take k)).withSent takes' (buffer.drop k) =
          s.withSent takes' buffer := by
        simp only [withSent, List.append_assoc, List.take_append_drop]
      rw [hjoin] at hloop hacc'
      refine ⟨takes', ?_, hacc'⟩
      rw [writeLoop, if_pos (List.length_pos_iff.mpr hb), hwrite]
      simp only [if_neg (show ¬ (k : ℤ) ≤ 0 by omega), Int.toNat_natCast, hloop]

/-- Everything is sent, in whatever parts. -/
theorem writeFixSize_spec {s : Stream} (h : s.Accepts) (buffer : List UInt8) :
    ∃ takes, s.writeFixSize buffer = (toInt buffer.length, s.withSent takes buffer) ∧
      (s.withSent takes buffer).Accepts := by
  obtain ⟨takes, hloop, hacc⟩ := writeLoop_spec h (Nat.le_refl _)
  exact ⟨takes, by rw [writeFixSize_eq, hloop, Option.getD_none], hacc⟩

theorem writeFixSize_closed {s : Stream} (h : s.closed = true) {buffer : List UInt8}
    (hne : buffer ≠ []) : s.writeFixSize buffer = (-1, s) := by
  obtain ⟨b, bs, rfl⟩ := List.exists_cons_of_ne_nil hne
  have hwrite : s.write (b :: bs) = (-1, s) := if_pos h
  rw [writeFixSize_eq, List.length_cons, writeLoop, List.length_cons, if_pos (Nat.succ_pos _), hwrite]
  rfl

end Stream
end Flz
