import Mathlib.Data.List.Basic
import Mathlib.Tactic.Cases

/-! # A sequence that arrives in pieces

A reader that asks for at most `n` elements gets a non-empty prefix of the piece at the front.
Whatever the pieces are, the elements come in order and none is lost.
-/
namespace Flz.Lib
variable {α : Type*}

/-- Pieces of a sequence, none of them empty. -/
structure Pieces (α : Type*) where
  parts : List (List α)
  parts_ne : ∀ p ∈ parts, p ≠ []

namespace Pieces

/-- The sequence itself. -/
def flatten (ps : Pieces α) : List α := ps.parts.flatten

def empty : Pieces α := ⟨[], by simp⟩

def tail (ps : Pieces α) : Pieces α := ⟨ps.parts.tail, fun p hp => ps.parts_ne p (List.mem_of_mem_tail hp)⟩

/-- The pieces with a non-empty one in front. -/
def cons (p : List α) (hp : p ≠ []) (ps : Pieces α) : Pieces α :=
  ⟨p :: ps.parts, List.forall_mem_cons.mpr ⟨hp, ps.parts_ne⟩⟩

/-- The whole sequence at once. -/
def whole (xs : List α) : Pieces α := if h : xs = [] then empty else cons xs h empty

/-- One element at a time. -/
def singly (xs : List α) : Pieces α := ⟨xs.map (fun x => [x]), by simp⟩

/-- What a reader gets that asks for at most `n` elements, and what is left. -/
def next (n : ℕ) (ps : Pieces α) : List α × Pieces α :=
  match ps.parts with
  | [] => ([], ps)
  | p :: _ =>
    if h : n < p.length then
      (p.take n, ps.tail.cons (p.drop n) (List.ne_nil_of_length_pos (by rw [List.length_drop]; omega)))
    else (p, ps.tail)

@[simp] theorem flatten_empty : (empty : Pieces α).flatten = [] := rfl
@[simp] theorem flatten_cons (p : List α) (hp : p ≠ []) (ps : Pieces α) :
    (ps.cons p hp).flatten = p ++ ps.flatten := rfl

@[simp] theorem flatten_whole (xs : List α) : (whole xs).flatten = xs := by
  unfold whole
  split
  · rename_i h
    rw [h]
    rfl
  · simp

@[simp] theorem flatten_singly (xs : List α) : (singly xs).flatten = xs := by
  induction xs with
  | nil => rfl
  | cons x xs ih => exact congrArg (x :: ·) ih

theorem flatten_eq_nil {ps : Pieces α} : ps.flatten = [] ↔ ps.parts = [] := by
  constructor
  · intro h
    cases hp : ps.parts with
    | nil => rfl
    | cons p rest =>
      have hne := ps.parts_ne p (by simp [hp])
      rw [flatten, hp, List.flatten_cons] at h
      exact absurd (List.append_eq_nil_iff.mp h).1 hne
  · intro h
    rw [flatten, h]
    rfl

/-- No element is lost. -/
theorem next_append (n : ℕ) (ps : Pieces α) : (ps.next n).1 ++ (ps.next n).2.flatten = ps.flatten := by
  unfold next
  split
  · exact List.nil_append _
  · rename_i p rest hp
    have hflat : ps.flatten = p ++ ps.tail.flatten := by
      change ps.parts.flatten = p ++ ps.parts.tail.flatten
      rw [hp]
      rfl
    split
    · rw [flatten_cons, ← List.append_assoc, List.take_append_drop, hflat]
    · exact hflat.symm

theorem next_length_le (n : ℕ) (ps : Pieces α) : (ps.next n).1.length ≤ n := by
  unfold next
  split
  · exact Nat.zero_le n
  · split
    · exact List.length_take_le n _
    · rename_i h
      exact Nat.le_of_not_lt h

theorem next_ne_nil {n : ℕ} (hn : 0 < n) {ps : Pieces α} (h : ps.flatten ≠ []) :
    (ps.next n).1 ≠ [] := by
  unfold next
  split
  · rename_i hp
    exact absurd (flatten_eq_nil.mpr hp) h
  · rename_i p rest hp
    have hne := ps.parts_ne p (by simp [hp])
    split
    · intro hnil
      rcases List.take_eq_nil_iff.mp hnil with h0 | h0
      · omega
      · exact hne h0
    · exact hne

/-- What is left of `xs ++ ys` after a read that takes only from `xs`. -/
theorem next_within {n : ℕ} {ps : Pieces α} {xs ys : List α} (h : ps.flatten = xs ++ ys)
    (hn : n ≤ xs.length) :
    (ps.next n).1 = xs.take (ps.next n).1.length ∧
      (ps.next n).2.flatten = xs.drop (ps.next n).1.length ++ ys := by
  have hle := Nat.le_trans (next_length_le n ps) hn
  have happ := next_append n ps
  rw [h] at happ
  have htake := congrArg (List.take (ps.next n).1.length) happ
  have hdrop := congrArg (List.drop (ps.next n).1.length) happ
  rw [List.take_left, List.take_append_of_le_length hle] at htake
  rw [List.drop_left, List.drop_append_of_le_length hle] at hdrop
  exact ⟨htake, hdrop⟩

/-! ## What is left -/

/-- The pieces without the first `k` elements. -/
def skipParts : ℕ → List (List α) → List (List α)
  | _, [] => []
  | k, p :: ps => if k < p.length then p.drop k :: ps else skipParts (k - p.length) ps

theorem skipParts_ne (k : ℕ) (ps : List (List α)) (h : ∀ p ∈ ps, p ≠ []) :
    ∀ p ∈ skipParts k ps, p ≠ [] := by
  induction ps generalizing k with
  | nil => exact h
  | cons p ps ih =>
    obtain ⟨hp, hps⟩ := List.forall_mem_cons.mp h
    rw [skipParts]
    split
    · rename_i hk
      refine List.forall_mem_cons.mpr ⟨List.ne_nil_of_length_pos ?_, hps⟩
      rw [List.length_drop]
      omega
    · exact ih _ hps

def skip (k : ℕ) (ps : Pieces α) : Pieces α :=
  ⟨skipParts k ps.parts, skipParts_ne k ps.parts ps.parts_ne⟩

theorem ext {ps qs : Pieces α} (h : ps.parts = qs.parts) : ps = qs := by
  cases ps
  cases qs
  cases h
  rfl

@[simp] theorem flatten_skip (k : ℕ) (ps : Pieces α) : (ps.skip k).flatten = ps.flatten.drop k := by
  have hparts : ∀ (k : ℕ) (ps : List (List α)), (skipParts k ps).flatten = ps.flatten.drop k := by
    intro k ps
    induction ps generalizing k with
    | nil => exact (List.drop_nil).symm
    | cons p ps ih =>
      rw [skipParts, List.flatten_cons]
      split
      · rename_i hk
        rw [List.flatten_cons, List.drop_append_of_le_length (Nat.le_of_lt hk)]
      · rename_i hk
        rw [ih, List.drop_append, List.drop_of_length_le (Nat.not_lt.mp hk), List.nil_append]
  exact hparts k ps.parts

@[simp] theorem skip_zero (ps : Pieces α) : ps.skip 0 = ps := by
  refine ext ?_
  change skipParts 0 ps.parts = ps.parts
  cases hp : ps.parts with
  | nil => rfl
  | cons p rest =>
    have hne := ps.parts_ne p (by simp [hp])
    rw [skipParts, if_pos (List.length_pos_iff.mpr hne), List.drop_zero]

@[simp] theorem skip_skip (i j : ℕ) (ps : Pieces α) : (ps.skip i).skip j = ps.skip (i + j) := by
  have hparts : ∀ (i : ℕ) (ps : List (List α)),
      skipParts j (skipParts i ps) = skipParts (i + j) ps := by
    intro i ps
    induction ps generalizing i with
    | nil => rfl
    | cons p ps ih =>
      by_cases hi : i < p.length
      · rw [skipParts, if_pos hi, skipParts, skipParts, List.length_drop, List.drop_drop]
        by_cases hj : j < p.length - i
        · rw [if_pos hj, if_pos (by omega)]
        · have hsub : j - (p.length - i) = i + j - p.length := by omega
          rw [if_neg hj, if_neg (by omega), hsub]
      · have hsub : i - p.length + j = i + j - p.length := by omega
        rw [skipParts, if_neg hi, ih, skipParts, if_neg (by omega), hsub]
  exact ext (hparts i ps.parts)

/-- A read takes `n` elements of the first piece, or all of it. -/
theorem next_cases (n : ℕ) {ps : Pieces α} (hps : ps.parts ≠ []) : ∃ p rest, ps.parts = p :: rest ∧
    (n < p.length ∧ (ps.next n).1.length = n ∧ (ps.next n).2.parts = p.drop n :: rest ∨
      p.length ≤ n ∧ (ps.next n).1.length = p.length ∧ (ps.next n).2.parts = rest) := by
  obtain ⟨p, rest, hp⟩ := List.exists_cons_of_ne_nil hps
  have htail : ps.tail.parts = rest := by
    change ps.parts.tail = rest
    rw [hp]
    rfl
  refine ⟨p, rest, hp, ?_⟩
  unfold next
  split
  · rename_i hnil
    exact absurd hnil hps
  · rename_i p' rest' hp'
    obtain ⟨rfl, rfl⟩ := List.cons.inj (hp'.symm.trans hp)
    split
    · rename_i hlt
      exact .inl ⟨hlt, List.length_take_of_le (Nat.le_of_lt hlt), congrArg (p'.drop n :: ·) htail⟩
    · rename_i hle
      exact .inr ⟨Nat.not_lt.mp hle, rfl, htail⟩

/-- A reader leaves what it does not take. -/
theorem next_skip (n : ℕ) (ps : Pieces α) : (ps.next n).2 = ps.skip (ps.next n).1.length := by
  refine ext ?_
  change _ = skipParts _ ps.parts
  by_cases hps : ps.parts = []
  · unfold next
    split
    · rw [hps]
      rfl
    · rename_i hp
      cases hps.symm.trans hp
  · obtain ⟨p, rest, hp, ⟨hlt, hlen, hparts⟩ | ⟨hle, hlen, hparts⟩⟩ := next_cases n hps
    · rw [hlen, hparts, hp, skipParts, if_pos hlt]
    · rw [hlen, hparts, hp, skipParts, if_neg (Nat.lt_irrefl _), Nat.sub_self]
      cases hr : rest with
      | nil => rfl
      | cons q qs =>
        have hne := ps.parts_ne q (by simp [hp, hr])
        rw [skipParts, if_pos (List.length_pos_iff.mpr hne), List.drop_zero]

/-! ## Where reads begin -/

/-- Where the read begins that takes the element at a place, when every read asks for at most
`n`. -/
def readStart (n : ℕ) : List (List α) → ℕ → ℕ
  | [], _ => 0
  | p :: ps, i => if i < p.length then i / n * n else p.length + readStart n ps (i - p.length)

theorem readStart_next {n : ℕ} {ps : Pieces α} {i : ℕ} (hi : i < (ps.next n).1.length) :
    readStart n ps.parts i = 0 := by
  have hn := Nat.lt_of_lt_of_le hi (next_length_le n ps)
  unfold next at hi
  split at hi
  · cases hi
  · rename_i p rest hp
    have hlt : i < p.length := by
      split at hi
      · exact Nat.lt_of_lt_of_le hi (List.length_take_le' n p)
      · exact hi
    rw [hp, readStart, if_pos hlt, Nat.div_eq_of_lt hn, Nat.zero_mul]

theorem readStart_add {n : ℕ} (hn : 0 < n) {ps : Pieces α} (hps : ps.parts ≠ []) (i : ℕ) :
    readStart n ps.parts ((ps.next n).1.length + i) =
      (ps.next n).1.length + readStart n (ps.next n).2.parts i := by
  obtain ⟨p, rest, hp, ⟨hlt, hlen, hparts⟩ | ⟨hle, hlen, hparts⟩⟩ := next_cases n hps
  · rw [hlen, hparts, hp, readStart, readStart, List.length_drop]
    by_cases hi : n + i < p.length
    · rw [if_pos hi, if_pos (by omega), Nat.add_div_left i hn, Nat.succ_mul, Nat.add_comm]
    · have hback : n + i - p.length = i - (p.length - n) := by omega
      rw [if_neg hi, if_neg (by omega), hback]
      omega
  · have hover : ¬ p.length + i < p.length := by omega
    rw [hlen, hparts, hp, readStart, if_neg hover, Nat.add_sub_cancel_left]

theorem readStart_le (n : ℕ) (ps : List (List α)) (i : ℕ) : readStart n ps i ≤ i := by
  induction ps generalizing i with
  | nil => exact Nat.zero_le i
  | cons p ps ih =>
    rw [readStart]
    split
    · exact Nat.div_mul_le_self i n
    · have := ih (i - p.length)
      omega

/-- What is taken after the start of a read is taken by the same read. -/
theorem readStart_eq {n : ℕ} {ps : List (List α)} {i j : ℕ} (h : readStart n ps j ≤ i)
    (hij : i ≤ j) : readStart n ps i = readStart n ps j := by
  induction ps generalizing i j with
  | nil => rfl
  | cons p ps ih =>
    rw [readStart] at h ⊢
    rw [readStart]
    by_cases hj : j < p.length
    · rw [if_pos hj] at h ⊢
      rw [if_pos (Nat.lt_of_le_of_lt hij hj)]
      rcases Nat.eq_zero_or_pos n with rfl | hn
      · rfl
      · have hle := Nat.div_le_div_right (c := n) hij
        have hge := (Nat.le_div_iff_mul_le hn).mpr h
        rw [Nat.le_antisymm hle hge]
    · rw [if_neg hj] at h ⊢
      rw [if_neg (by omega), @ih (i - p.length) (j - p.length) (by omega) (by omega)]

/-- Where the read ends that takes the element at a place. -/
def readEnd (n : ℕ) : List (List α) → ℕ → ℕ
  | [], _ => 0
  | p :: ps, i =>
    if i < p.length then min ((i / n + 1) * n) p.length else p.length + readEnd n ps (i - p.length)

theorem lt_readEnd {n : ℕ} (hn : 0 < n) {ps : List (List α)} {i : ℕ} (hi : i < ps.flatten.length) :
    i < readEnd n ps i ∧ readEnd n ps i ≤ ps.flatten.length := by
  induction ps generalizing i with
  | nil => cases hi
  | cons p ps ih =>
    rw [List.flatten_cons, List.length_append] at hi ⊢
    rw [readEnd]
    split
    · rename_i hlt
      have hnext := Nat.lt_mul_div_succ i hn
      rw [Nat.mul_comm] at hnext
      omega
    · have := @ih (i - p.length) (by omega)
      omega

/-- A later element is taken by the same read when that begins early enough. -/
theorem lt_readEnd_iff {n : ℕ} (hn : 0 < n) {ps : List (List α)} {i j : ℕ} (hij : i ≤ j)
    (hj : j < ps.flatten.length) : j < readEnd n ps i ↔ readStart n ps j ≤ i := by
  induction ps generalizing i j with
  | nil => cases hj
  | cons p ps ih =>
    rw [List.flatten_cons, List.length_append] at hj
    rw [readEnd, readStart]
    by_cases hi : i < p.length
    · rw [if_pos hi]
      by_cases hjp : j < p.length
      · rw [if_pos hjp, Nat.lt_min, ← Nat.div_lt_iff_lt_mul hn, Nat.lt_succ_iff]
        constructor
        · intro h
          exact Nat.le_trans (Nat.mul_le_mul_right n h.1) (Nat.div_mul_le_self i n)
        · intro h
          exact ⟨(Nat.le_div_iff_mul_le hn).mpr h, hjp⟩
      · rw [if_neg hjp]
        have hmin := Nat.min_le_right ((i / n + 1) * n) p.length
        omega
    · have hrec := @ih (i - p.length) (j - p.length) (by omega) (by omega)
      rw [if_neg hi, if_neg (by omega)]
      omega

theorem readEnd_le (n : ℕ) (ps : List (List α)) (i : ℕ) : readEnd n ps i ≤ readStart n ps i + n := by
  induction ps generalizing i with
  | nil => exact Nat.zero_le _
  | cons p ps ih =>
    rw [readEnd, readStart]
    split
    · rw [← Nat.succ_mul]
      exact Nat.min_le_left _ _
    · rw [Nat.add_assoc]
      exact Nat.add_le_add_left (ih _) _

theorem readEnd_add {n : ℕ} (hn : 0 < n) {ps : Pieces α} (hps : ps.parts ≠ []) (i : ℕ) :
    readEnd n ps.parts ((ps.next n).1.length + i) =
      (ps.next n).1.length + readEnd n (ps.next n).2.parts i := by
  obtain ⟨p, rest, hp, ⟨hlt, hlen, hparts⟩ | ⟨hle, hlen, hparts⟩⟩ := next_cases n hps
  · rw [hlen, hparts, hp, readEnd, readEnd, List.length_drop]
    by_cases hi : n + i < p.length
    · rw [if_pos hi, if_pos (by omega), Nat.add_div_left i hn, Nat.succ_mul]
      omega
    · have hback : n + i - p.length = i - (p.length - n) := by omega
      rw [if_neg hi, if_neg (by omega), hback]
      omega
  · have hover : ¬ p.length + i < p.length := by omega
    rw [hlen, hparts, hp, readEnd, if_neg hover, Nat.add_sub_cancel_left]

theorem readStart_whole {n : ℕ} {xs : List α} (hn : xs.length ≤ n) {i : ℕ} (hi : i < xs.length) :
    readStart n (whole xs).parts i = 0 := by
  have hne : xs ≠ [] := List.ne_nil_of_length_pos (Nat.lt_of_le_of_lt (Nat.zero_le i) hi)
  have hparts : (whole xs).parts = [xs] := by
    unfold whole
    rw [dif_neg hne]
    rfl
  rw [hparts, readStart, if_pos hi, Nat.div_eq_of_lt (Nat.lt_of_lt_of_le hi hn), Nat.zero_mul]

end Pieces
end Flz.Lib
