import Flz.Hook.FdCtx
import Mathlib.Algebra.Ring.Int.Defs
import Mathlib.Algebra.Ring.Nat
import Mathlib.Tactic.Cases

/-! # Durations

The hooked `sleep`, `usleep`, `nanosleep` and `setsockopt` of `src/hook.cc`, with the milliseconds
that they make of a duration and the timeout of `do_io`.
-/
namespace Flz

structure Timespec where
  tv_sec : Int64
  tv_nsec : Int64
  deriving DecidableEq

structure Timeval where
  tv_sec : Int64
  tv_usec : Int64
  deriving DecidableEq

/-- A value of `long`, whose overflow has no meaning. -/
def long (x : ℤ) : Option ℤ := if -2 ^ 63 ≤ x ∧ x < 2 ^ 63 then some x else none

theorem long_nonneg {x : ℤ} (h : 0 ≤ x) : long x = if x < 2 ^ 63 then some x else none := by
  have hlow : -2 ^ 63 ≤ x := by omega
  simp only [long, hlow, true_and]

/-- A sum that is not negative overflows when it is out of range, wherever that shows. -/
theorem long_add {x y : ℤ} (hx : 0 ≤ x) (hy : 0 ≤ y) :
    ((long x).bind fun x => long (x + y)) = if x + y < 2 ^ 63 then some (x + y) else none := by
  rw [long_nonneg hx]
  split
  · exact long_nonneg (by omega)
  · rw [if_neg (by omega)]
    rfl

namespace Hook

def SOL_SOCKET : ℤ := 1

/-- The delay that `sleep` passes to `addTimer`. -/
def sleep (seconds : UInt32) : UInt64 := (seconds * 1000).toUInt64

/-- The delay that `usleep` passes to `addTimer`. -/
def usleep (usec : UInt32) : UInt64 := (usec / 1000).toUInt64

/-- The delay that `nanosleep` passes to `addTimer`, kept in an `int` before. -/
def nanosleep (req : Timespec) : Option UInt64 := do
  let sec ← long (req.tv_sec.toInt * 1000)
  let ms ← long (sec + (req.tv_nsec.toInt.tdiv 1000).tdiv 1000)
  let timeout_ms := Int32.ofInt ms
  return UInt64.ofInt timeout_ms.toInt

/-- What `setsockopt` makes of the context of the socket. -/
def setsockopt (c : FdCtx) (level optname : ℤ) (v : Timeval) : Option FdCtx :=
  if level = SOL_SOCKET then
    if optname = SO_RCVTIMEO ∨ optname = SO_SNDTIMEO then do
      let sec ← long (v.tv_sec.toInt * 1000)
      let ms ← long (sec + v.tv_usec.toInt.tdiv 1000)
      return c.setTimeout optname (UInt64.ofInt ms)
    else some c
  else some c

/-- The delay of the timer of `do_io`, if there is one. -/
def ioTimeout (c : FdCtx) (timeout_so : ℤ) : Option UInt64 :=
  let timeout := c.getTimeout timeout_so
  if timeout ≠ -1 then some timeout else none

end Hook

/-- A duration that is asked for. -/
inductive Wait
  | sleep (seconds : UInt32)
  | usleep (usec : UInt32)
  | nanosleep (req : Timespec)
  | setsockopt (c : FdCtx) (optname : ℤ) (v : Timeval)

/-- A delay in milliseconds is not less than some nanoseconds. -/
def Covers (ms : UInt64) (ns : ℤ) : Prop := ns ≤ ms.toNat * 1000000

/-- The milliseconds of a duration, rounded down. -/
def Timespec.ms (t : Timespec) : ℤ := t.tv_sec.toInt * 1000 + t.tv_nsec.toInt / 1000000

def Timeval.ms (t : Timeval) : ℤ := t.tv_sec.toInt * 1000 + t.tv_usec.toInt / 1000

namespace Wait

/-- What may be asked for. -/
def Proper : Wait → Prop
  | .sleep _ => True
  | .usleep _ => True
  | .nanosleep req => 0 ≤ req.tv_sec ∧ 0 ≤ req.tv_nsec ∧ req.tv_nsec < 1000000000
  | .setsockopt _ optname v =>
    (optname = SO_RCVTIMEO ∨ optname = SO_SNDTIMEO) ∧ 0 ≤ v.tv_sec ∧ 0 ≤ v.tv_usec

/-- The delay is not less than what is asked for; of a socket no duration means no timeout. -/
def Respected : Wait → Prop
  | .sleep seconds => Covers (Hook.sleep seconds) (seconds.toNat * 1000000000)
  | .usleep usec => Covers (Hook.usleep usec) (usec.toNat * 1000)
  | .nanosleep req => ∃ ms, Hook.nanosleep req = some ms ∧
      Covers ms (req.tv_sec.toInt * 1000000000 + req.tv_nsec.toInt)
  | .setsockopt c optname v => ∃ c', Hook.setsockopt c Hook.SOL_SOCKET optname v = some c' ∧
      ∀ ms, Hook.ioTimeout c' optname = some ms → ¬ (v.tv_sec = 0 ∧ v.tv_usec = 0) ∧
        Covers ms (v.tv_sec.toInt * 1000000000 + v.tv_usec.toInt * 1000)

/-- The durations that are converted without a loss. -/
def Exact : Wait → Prop
  | .sleep seconds => seconds ≤ 4294967
  | .usleep usec => 1000 ∣ usec.toNat
  | .nanosleep req => req.ms < 2 ^ 63 ∧
      (2 ^ 31 ≤ req.ms % 2 ^ 32 ∨ req.ms < 2 ^ 31 ∧ (1000000 : ℤ) ∣ req.tv_nsec.toInt)
  | .setsockopt _ _ v => v.ms < 2 ^ 63 ∧ (1000 : ℤ) ∣ v.tv_usec.toInt ∧
      ¬ (v.tv_sec = 0 ∧ v.tv_usec = 0)

theorem sleep_iff (seconds : UInt32) : (Wait.sleep seconds).Respected ↔ (Wait.sleep seconds).Exact := by
  have hlt := seconds.toNat_lt
  have hdelay : (Hook.sleep seconds).toNat = seconds.toNat * 1000 % 2 ^ 32 := by
    simp [Hook.sleep]
  simp only [Respected, Exact, Covers, hdelay, UInt32.le_iff_toNat_le, UInt32.reduceToNat]
  omega

theorem usleep_iff (usec : UInt32) : (Wait.usleep usec).Respected ↔ (Wait.usleep usec).Exact := by
  have hdelay : (Hook.usleep usec).toNat = usec.toNat / 1000 := by
    simp [Hook.usleep]
  simp only [Respected, Exact, Covers, hdelay]
  omega

theorem nanosleep_eq {req : Timespec} (h : (Wait.nanosleep req).Proper) : Hook.nanosleep req =
    if req.ms < 2 ^ 63 then some (UInt64.ofInt (Int32.ofInt req.ms).toInt) else none := by
  obtain ⟨hsec, hnsec, -⟩ := h
  rw [Int64.le_iff_toInt_le, Int64.toInt_zero] at hsec hnsec
  have hms : (req.tv_nsec.toInt.tdiv 1000).tdiv 1000 = req.tv_nsec.toInt / 1000000 := by
    rw [Int.tdiv_eq_ediv_of_nonneg hnsec, Int.tdiv_eq_ediv_of_nonneg (by omega)]
    omega
  have hsum := long_add (x := req.tv_sec.toInt * 1000) (y := req.tv_nsec.toInt / 1000000)
    (by omega) (by omega)
  calc
    Hook.nanosleep req = ((long (req.tv_sec.toInt * 1000)).bind fun sec =>
        long (sec + req.tv_nsec.toInt / 1000000)).map fun ms => UInt64.ofInt (Int32.ofInt ms).toInt := by
      rw [Hook.nanosleep, hms]
      cases long (req.tv_sec.toInt * 1000) with
      | none => rfl
      | some sec => cases h : long (sec + req.tv_nsec.toInt / 1000000) <;> simp [h]
    _ = _ := by
      rw [hsum, ← Timespec.ms]
      split <;> rfl

/-- An `int` that is made an `uint64_t`. -/
theorem toNat_narrowed (x : ℤ) : ((UInt64.ofInt (Int32.ofInt x).toInt).toNat : ℤ) =
    if x % 2 ^ 32 < 2 ^ 31 then x % 2 ^ 32 else 2 ^ 64 - 2 ^ 32 + x % 2 ^ 32 := by
  rw [Int32.toInt_ofInt, UInt64.ofInt, UInt64.toNat_ofNat']
  simp only [Int.bmod_def, Int32.size]
  omega

theorem nanosleep_iff {req : Timespec} (h : (Wait.nanosleep req).Proper) :
    (Wait.nanosleep req).Respected ↔ (Wait.nanosleep req).Exact := by
  simp only [Respected, Exact, nanosleep_eq h, Option.ite_none_right_eq_some, Option.some.injEq, Covers]
  obtain ⟨hsec, hnsec, hlt⟩ := h
  rw [Int64.le_iff_toInt_le, Int64.toInt_zero] at hsec hnsec
  rw [Int64.lt_iff_toInt_lt, show (1000000000 : Int64).toInt = 1000000000 from rfl] at hlt
  have hms : req.ms = req.tv_sec.toInt * 1000 + req.tv_nsec.toInt / 1000000 := rfl
  constructor
  · rintro ⟨_, ⟨hfits, rfl⟩, hcovers⟩
    refine ⟨hfits, ?_⟩
    rw [toNat_narrowed] at hcovers
    omega
  · rintro ⟨hfits, hexact⟩
    refine ⟨_, ⟨hfits, rfl⟩, ?_⟩
    rw [toNat_narrowed]
    omega

theorem setsockopt_eq {c : FdCtx} {optname : ℤ} {v : Timeval} (h : (Wait.setsockopt c optname v).Proper) :
    Hook.setsockopt c Hook.SOL_SOCKET optname v =
      if v.ms < 2 ^ 63 then some (c.setTimeout optname (UInt64.ofInt v.ms)) else none := by
  obtain ⟨hopt, hsec, husec⟩ := h
  rw [Int64.le_iff_toInt_le, Int64.toInt_zero] at hsec husec
  have hsum := long_add (x := v.tv_sec.toInt * 1000) (y := v.tv_usec.toInt / 1000) (by omega) (by omega)
  calc
    Hook.setsockopt c Hook.SOL_SOCKET optname v = ((long (v.tv_sec.toInt * 1000)).bind fun sec =>
        long (sec + v.tv_usec.toInt / 1000)).map fun ms => c.setTimeout optname (UInt64.ofInt ms) := by
      rw [Hook.setsockopt, if_pos rfl, if_pos hopt, Int.tdiv_eq_ediv_of_nonneg husec]
      cases long (v.tv_sec.toInt * 1000) with
      | none => rfl
      | some sec => cases h : long (sec + v.tv_usec.toInt / 1000) <;> simp [h]
    _ = _ := by
      rw [hsum, ← Timeval.ms]
      split <;> rfl

theorem toNat_ofInt {x : ℤ} (h : 0 ≤ x) (hlt : x < 2 ^ 63) : ((UInt64.ofInt x).toNat : ℤ) = x := by
  rw [UInt64.ofInt, UInt64.toNat_ofNat']
  omega

/-- A timeout that was set is the one that is used. -/
theorem ioTimeout_setTimeout (c : FdCtx) (optname : ℤ) {x : ℤ} (h : 0 ≤ x) (hlt : x < 2 ^ 63) :
    Hook.ioTimeout (c.setTimeout optname (UInt64.ofInt x)) optname = some (UInt64.ofInt x) := by
  rw [Hook.ioTimeout, FdCtx.getTimeout_setTimeout]
  refine if_pos fun hnone => ?_
  have hvalue := toNat_ofInt h hlt
  rw [hnone, show (-1 : UInt64).toNat = 2 ^ 64 - 1 from rfl] at hvalue
  omega

theorem setsockopt_iff {c : FdCtx} {optname : ℤ} {v : Timeval}
    (h : (Wait.setsockopt c optname v).Proper) :
    (Wait.setsockopt c optname v).Respected ↔ (Wait.setsockopt c optname v).Exact := by
  simp only [Respected, Exact, setsockopt_eq h, Option.ite_none_right_eq_some, Option.some.injEq, Covers]
  obtain ⟨-, hsec, husec⟩ := h
  rw [Int64.le_iff_toInt_le, Int64.toInt_zero] at hsec husec
  have hms : v.ms = v.tv_sec.toInt * 1000 + v.tv_usec.toInt / 1000 := rfl
  have hnonneg : 0 ≤ v.ms := by omega
  constructor
  · rintro ⟨_, ⟨hfits, rfl⟩, hcovers⟩
    obtain ⟨hzero, hcovers⟩ := hcovers _ (ioTimeout_setTimeout c optname hnonneg hfits)
    rw [toNat_ofInt hnonneg hfits] at hcovers
    exact ⟨hfits, by omega, hzero⟩
  · rintro ⟨hfits, hexact, hzero⟩
    refine ⟨_, ⟨hfits, rfl⟩, fun ms htimeout => ⟨hzero, ?_⟩⟩
    rw [ioTimeout_setTimeout c optname hnonneg hfits] at htimeout
    cases htimeout
    rw [toNat_ofInt hnonneg hfits]
    omega

/-- A duration is respected exactly when its conversion loses nothing. -/
theorem respected_iff {w : Wait} (h : w.Proper) : w.Respected ↔ w.Exact := by
  cases w with
  | sleep seconds => exact sleep_iff seconds
  | usleep usec => exact usleep_iff usec
  | nanosleep req => exact nanosleep_iff h
  | setsockopt c optname v => exact setsockopt_iff h

/-- One second and a half. -/
theorem respected_milliseconds : (Wait.nanosleep ⟨1, 500000000⟩).Respected :=
  (respected_iff (w := .nanosleep ⟨1, 500000000⟩) (by unfold Proper; decide)).mpr (by unfold Exact; decide)

/-- `usleep(999)` does not sleep. -/
theorem usleep_short : ¬ ∀ w : Wait, w.Proper → w.Respected := by
  intro h
  exact absurd (h (.usleep 999) trivial) (by unfold Respected Covers; decide)

end Wait
end Flz
