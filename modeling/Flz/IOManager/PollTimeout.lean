import Flz.IOManager.TimerTickle
import Flz.Timer.Calls

/-! # Timeouts of a poll

What `idle()` of `src/iomanager.cc` hands to `epoll_wait` for a timeout from `getNextTimer()`, in the first
round of its loop and in those behind an interrupt. The timeout is compared as an `int` and kept as a
`uint64_t`, and nobody reads the clock again.
-/
namespace Flz
open Lib
variable {κ : Type}

/-- `next_timeout` in round `k` of the loop. -/
def roundTimeout (next_timeout : ℕ) : ℕ → ℕ
  | 0 => nextTimeout next_timeout
  | k + 1 => nextTimeout (roundTimeout next_timeout k)

/-- The timeout of `epoll_wait` in round `k`. -/
def epollTimeout (next_timeout k : ℕ) : ℤ := toInt (roundTimeout next_timeout k)

namespace TimerManager

/-- At a clock reading, no timer is due within less than `n` milliseconds. -/
def Leaves (s : TimerManager κ) (clock n : ℕ) : Prop :=
  ∀ i ∈ s.timers, ∀ t, s.objects i = some t → n ≤ t.next - clock

/-- A timeout that ends, by the third second, and not behind the earliest deadline. -/
def WakesInTime (s : TimerManager κ) (clock : ℕ) (timeout : ℤ) : Prop :=
  0 ≤ timeout ∧ timeout ≤ 3000 ∧ s.Leaves clock timeout.toNat

end TimerManager

/-! ## Conversions -/

theorem toInt_mod (n : ℕ) :
    toInt n = if n % 2 ^ 32 < 2 ^ 31 then ((n % 2 ^ 32 : ℕ) : ℤ) else ((n % 2 ^ 32 : ℕ) : ℤ) - 2 ^ 32 := by
  rw [toInt, BitVec.toInt_ofInt, Int.bmod_def]
  split <;> split <;> omega

/-- The low half of the timeout, as far as the third second; a timer at the end of time is none. -/
def clamped (next_timeout : ℕ) : ℤ :=
  if next_timeout = 2 ^ 64 - 1 then 3000 else min (toInt next_timeout) 3000

theorem toInt_nextTimeout (n : ℕ) : toInt (nextTimeout n) = clamped n := by
  have h3000 : toInt (3000 : ℕ) = 3000 := toInt_eq (by decide)
  by_cases hend : n = 2 ^ 64 - 1
  · rw [nextTimeout, clamped, if_neg (not_not_intro hend), if_pos hend, h3000]
  · rw [nextTimeout, clamped, if_pos hend, if_neg hend]
    by_cases hgt : toInt n > 3000
    · rw [if_pos hgt, h3000, min_eq_right hgt.le]
    · rw [if_neg hgt, min_eq_left (not_lt.mp hgt)]

theorem nextTimeout_idem (n : ℕ) : nextTimeout (nextTimeout n) = nextTimeout n := by
  have h3000 : nextTimeout 3000 = 3000 := by decide
  by_cases hend : n = 2 ^ 64 - 1
  · rw [show nextTimeout n = 3000 from if_neg (not_not_intro hend), h3000]
  · by_cases hgt : toInt n > 3000
    · rw [show nextTimeout n = 3000 from (if_pos hend).trans (if_pos hgt), h3000]
    · rw [show nextTimeout n = n from (if_pos hend).trans (if_neg hgt)]
      exact (if_pos hend).trans (if_neg hgt)

theorem epollTimeout_eq (n k : ℕ) : epollTimeout n k = clamped n := by
  have hround : ∀ k, roundTimeout n k = nextTimeout n := by
    intro k
    induction k with
    | zero => rfl
    | succ k ih => rw [roundTimeout, ih, nextTimeout_idem]
  rw [epollTimeout, hround, toInt_nextTimeout]

namespace TimerManager
variable {s s' : TimerManager κ} {now clock D : ℕ}

/-- What is left until the first timer is left until any. -/
theorem Holds.leaves_next (h : Holds [] s) (hnext : s.getNextTimer now = some (D, s')) : s.Leaves now D := by
  intro j hj u hu
  rw [getNextTimer] at hnext
  split at hnext
  · rename_i htimers
    rw [htimers] at hj
    cases hj
  · rename_i i rest htimers
    obtain ⟨t, ht, hnext⟩ := Option.bind_eq_some_iff.mp hnext
    cases hnext
    have hle := next_le_of_sorted h.sorted htimers ht hj hu
    split <;> omega

theorem Leaves.mono {m n : ℕ} (h : s.Leaves clock n) (hle : m ≤ n) : s.Leaves clock m :=
  fun i hi t ht => hle.trans (h i hi t ht)

/-- What the code makes of a timeout is right for the end of time, and for one whose low half is no
negative `int`, as long as there is so much time left. -/
def Clampable (s : TimerManager κ) (clock D : ℕ) : Prop :=
  D = 2 ^ 64 - 1 ∧ s.Leaves clock 3000 ∨
    D ≠ 2 ^ 64 - 1 ∧ D % 2 ^ 32 < 2 ^ 31 ∧ s.Leaves clock (min (D % 2 ^ 32) 3000)

theorem wakesInTime_iff (s : TimerManager κ) (clock D : ℕ) :
    s.WakesInTime clock (clamped D) ↔ s.Clampable clock D := by
  by_cases hend : D = 2 ^ 64 - 1
  · rw [clamped, if_pos hend]
    simp [WakesInTime, Clampable, hend]
  · rw [clamped, if_neg hend, toInt_mod]
    by_cases hlow : D % 2 ^ 32 < 2 ^ 31
    · have hnat : (min ((D % 2 ^ 32 : ℕ) : ℤ) 3000).toNat = min (D % 2 ^ 32) 3000 := by omega
      rw [if_pos hlow, WakesInTime, hnat]
      constructor
      · rintro ⟨-, -, hleaves⟩
        exact Or.inr ⟨hend, hlow, hleaves⟩
      · rintro (⟨hend', -⟩ | ⟨-, -, hleaves⟩)
        · exact absurd hend' hend
        · exact ⟨by omega, by omega, hleaves⟩
    · rw [if_neg hlow]
      refine iff_of_false ?_ ?_
      · rintro ⟨hneg, -⟩
        have hlt := Nat.mod_lt D (Nat.two_pow_pos 32)
        omega
      · rintro (⟨hend', -⟩ | ⟨-, hlow', -⟩)
        · exact hend hend'
        · exact hlow hlow'

/-- Every round polls for a time that is right exactly when the timeout can be clamped and, behind an
interrupt, when so much time is left still. At the reading of `getNextTimer` there is. -/
theorem poll_wakesInTime_iff (h : Reached s) (hnext : s.getNextTimer now = some (D, s')) (k : ℕ) :
    (∀ clock, s.WakesInTime clock (epollTimeout D k) ↔ s.Clampable clock D) ∧
      (s.WakesInTime now (epollTimeout D k) ↔ D = 2 ^ 64 - 1 ∨ D % 2 ^ 32 < 2 ^ 31) := by
  have hleaves := h.holds.leaves_next hnext
  rw [epollTimeout_eq]
  refine ⟨fun clock => wakesInTime_iff s clock D, (wakesInTime_iff s now D).trans ?_⟩
  constructor
  · rintro (⟨hend, -⟩ | ⟨-, hlow, -⟩)
    · exact Or.inl hend
    · exact Or.inr hlow
  · intro hright
    by_cases hend : D = 2 ^ 64 - 1
    · exact Or.inl ⟨hend, hleaves.mono (by omega)⟩
    · have hlow := hright.resolve_left hend
      have hle := Nat.mod_le D (2 ^ 32)
      exact Or.inr ⟨hend, hlow, hleaves.mono (by omega)⟩

/-- A timer in five seconds. -/
theorem poll_wakesInTime_second : ∃ s s' : TimerManager ℕ, s.getNextTimer 10 = some (5000, s') ∧
    epollTimeout 5000 1 = 3000 ∧
    (s.WakesInTime 10 (epollTimeout 5000 1) ↔ 5000 = 2 ^ 64 - 1 ∨ 5000 % 2 ^ 32 < 2 ^ 31) := by
  have hadd := (Reached.new (κ := ℕ) 10).addTimer 2 5000 (some 8) false 10 (fun j u hj => by cases hj)
  exact ⟨_, _, rfl, by decide, (poll_wakesInTime_iff hadd rfl 1).2⟩

/-- A timer in 25 days: the poll has no end. -/
theorem poll_endless : ∃ s s' : TimerManager ℕ, Reached s ∧ s.getNextTimer 10 = some (2 ^ 31, s') ∧
    epollTimeout (2 ^ 31) 0 = -2 ^ 31 ∧ ¬ s.WakesInTime 10 (epollTimeout (2 ^ 31) 0) := by
  have hadd := (Reached.new (κ := ℕ) 10).addTimer 2 (2 ^ 31) (some 8) false 10 (fun j u hj => by cases hj)
  have hneg : epollTimeout (2 ^ 31) 0 = -2 ^ 31 := by decide
  refine ⟨_, _, hadd, rfl, hneg, ?_⟩
  rintro ⟨hge, -⟩
  rw [hneg] at hge
  omega

end TimerManager
end Flz
