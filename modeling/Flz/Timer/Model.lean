import Flz.Lib.OrderedSet
import Mathlib.Algebra.Ring.Nat
import Mathlib.Logic.Function.Basic

/-! # Timers

`src/timer.cc`. A timer is known by its number in the order of construction; `objects` are the
timers that are still there. A section under the lock is one step, and a clock reading before it
is an argument. `none` stands for what has no meaning: an object that is not there, the erasure
of the end of the set, the change of a deadline in the set.
-/
namespace Flz
variable {κ : Type}

/-- Arithmetic of `uint64_t`. -/
def uint64 (n : ℕ) : ℕ := n % 2 ^ 64

def subUInt64 (m n : ℕ) : ℕ := uint64 (m + (2 ^ 64 - uint64 n))

structure Timer (κ : Type) where
  addr : ℕ
  recurring : Bool
  ms : ℕ
  next : ℕ
  cb : Option κ
  deriving DecidableEq, Repr

/-- `Timer::Comparator`. -/
def Timer.Comparator : Option (Timer κ) → Option (Timer κ) → Bool
  | none, none => false
  | none, some _ => true
  | some _, none => false
  | some lhs, some rhs =>
    if lhs.next < rhs.next then true
    else if rhs.next < lhs.next then false
    else lhs.addr < rhs.addr

structure TimerManager (κ : Type) where
  objects : ℕ → Option (Timer κ)
  count : ℕ
  timers : List ℕ
  tickled : Bool
  previouseTime : ℕ

namespace TimerManager
open Lib

/-- `TimerManager()` at a clock reading. -/
def new (now : ℕ) : TimerManager κ where
  objects _ := none
  count := 0
  timers := []
  tickled := false
  previouseTime := now

def less (s : TimerManager κ) (i j : ℕ) : Bool := Timer.Comparator (s.objects i) (s.objects j)

def put (s : TimerManager κ) (i : ℕ) (t : Timer κ) : TimerManager κ :=
  { s with objects := Function.update s.objects i (some t) }

/-- `t.m_next = next`. -/
def setNext (s : TimerManager κ) (i : ℕ) (t : Timer κ) (next : ℕ) : Option (TimerManager κ) :=
  if i ∈ s.timers then none else some (s.put i { t with next := next })

def insert (s : TimerManager κ) (i : ℕ) : TimerManager κ :=
  { s with timers := OrderedSet.insert s.less i s.timers }

/-- `m_timers.erase(m_timers.find(t))`. -/
def erase (s : TimerManager κ) (i : ℕ) : Option (TimerManager κ) :=
  (OrderedSet.erase s.less i s.timers).map (fun timers => { s with timers := timers })

/-- `addTimer(val, lock)`: whether `onTimerInsertedAtFront` is called then. -/
def insertTimer (s : TimerManager κ) (i : ℕ) : Bool × TimerManager κ :=
  let s := s.insert i
  let atFront := s.timers.head? == some i && !s.tickled
  (atFront, if atFront then { s with tickled := true } else s)

/-- `addTimer(ms, cb, recurring)` with a timer that is constructed at `addr` when the clock reads
`now`. -/
def addTimer (s : TimerManager κ) (addr ms : ℕ) (cb : Option κ) (recurring : Bool) (now : ℕ) :
    Bool × TimerManager κ :=
  let t : Timer κ := ⟨addr, recurring, ms, uint64 (now + ms), cb⟩
  insertTimer { s.put s.count t with count := s.count + 1 } s.count

/-- `Timer::cancel`. -/
def cancel (s : TimerManager κ) (i : ℕ) : Option (Bool × TimerManager κ) := do
  let t ← s.objects i
  if t.cb.isSome then
    let s ← (s.put i { t with cb := none }).erase i
    return (true, s)
  else return (false, s)

/-- `Timer::refresh`. -/
def refresh (s : TimerManager κ) (i now : ℕ) : Option (Bool × TimerManager κ) := do
  let t ← s.objects i
  if t.cb.isNone then return (false, s)
  else if (OrderedSet.find s.less i s.timers).isNone then return (false, s)
  else
    let s ← s.erase i
    let s ← s.setNext i t (uint64 (now + t.ms))
    return (true, s.insert i)

/-- `Timer::reset`; the second value is whether `onTimerInsertedAtFront` is called. -/
def reset (s : TimerManager κ) (i ms : ℕ) (fromNow : Bool) (now : ℕ) :
    Option (Bool × Bool × TimerManager κ) := do
  let t ← s.objects i
  if ms = t.ms ∧ fromNow = false then return (true, false, s)
  else if t.cb.isNone then return (false, false, s)
  else if (OrderedSet.find s.less i s.timers).isNone then return (false, false, s)
  else
    let s ← s.erase i
    let start := if fromNow then now else subUInt64 t.next t.ms
    let s ← s.setNext i { t with ms := ms } (uint64 (start + ms))
    return (true, s.insertTimer i)

/-- `getNextTimer`. -/
def getNextTimer (s : TimerManager κ) (now : ℕ) : Option (ℕ × TimerManager κ) :=
  match s.timers with
  | [] => some (2 ^ 64 - 1, { s with tickled := false })
  | i :: _ => do
    let t ← s.objects i
    return (if now ≥ t.next then 0 else t.next - now, { s with tickled := false })

def detectClockRollover (s : TimerManager κ) (now : ℕ) : Bool × TimerManager κ :=
  (now < s.previouseTime && now < subUInt64 s.previouseTime (60 * 60 * 1000),
    { s with previouseTime := now })

/-- The elements from the one on at which the scan for expired timers stops; the probe is at the
address `probe`. -/
def expiredEnd (s : TimerManager κ) (now probe : ℕ) (rollover : Bool) : List ℕ :=
  let it := if rollover then []
    else s.timers.dropWhile
      (fun i => Timer.Comparator (s.objects i) (some ⟨probe, false, 0, now, none⟩))
  it.dropWhile (fun i => (s.objects i).any (fun t => t.next == now))

/-- A timer that has expired is armed again, or its callback is dropped. -/
def rearm (s : TimerManager κ) (now i : ℕ) (t : Timer κ) : Option (TimerManager κ) :=
  if t.recurring then (s.setNext i t (uint64 (now + t.ms))).map (fun s => s.insert i)
  else some (s.put i { t with cb := none })

/-- The loop of `listExpiredCb` over the timers that have been taken out of the set. -/
def collect (now : ℕ) : List ℕ → TimerManager κ → Option (List (ℕ × Option κ) × TimerManager κ)
  | [], s => some ([], s)
  | i :: expired, s => do
    let t ← s.objects i
    let s ← s.rearm now i t
    let (cbs, s) ← collect now expired s
    return ((i, t.cb) :: cbs, s)

/-- `listExpiredCb`: the callbacks with the timers they are of. The two looks at an empty set do
the same. -/
def listExpiredCb (s : TimerManager κ) (now probe : ℕ) :
    Option (List (ℕ × Option κ) × TimerManager κ) :=
  match s.timers with
  | [] => some ([], s)
  | first :: _ => do
    let (rollover, s) := s.detectClockRollover now
    let t ← s.objects first
    if !rollover && t.next > now then return ([], s)
    else
      let rest := s.expiredEnd now probe rollover
      let expired := s.timers.take (s.timers.length - rest.length)
      collect now expired { s with timers := rest }

/-- The last pointer to a timer is gone; the set holds one to each of its elements. -/
def release (s : TimerManager κ) (i : ℕ) : Option (TimerManager κ) :=
  if i ∈ s.timers then none else some { s with objects := Function.update s.objects i none }

end TimerManager
end Flz
