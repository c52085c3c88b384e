import Flz.Fiber.Model
import Flz.Lib.Runs

/-! # The scheduler

`Scheduler` of `src/scheduler.cc` after `start()`: the threads in `run()`, and whoever schedules.
A section under the lock is one step, and so is every access to what threads share outside of it.
Threads, fibers and callbacks are numbers; a thread that is not among the workers may be named by
an entry. The wakeups of `tickle()`, which here writes a line into the log, are left out.
-/
namespace Flz
open Lib

/-- What a scheduler is given. -/
inductive Task
  | fiber (f : ℕ)
  | cb (c : ℕ)
  deriving DecidableEq, Repr

/-- `FiberAndThread`, with the number of the call that scheduled it; `thread` is `none` for -1. -/
structure Entry where
  serial : ℕ
  task : Task
  thread : Option ℕ
  deriving DecidableEq, Repr

/-- Between the choice of a fiber and the end of its round. -/
inductive Phase
  /-- Before `swapIn()`. -/
  | resuming
  /-- In the code of the fiber. -/
  | executing
  /-- In the code of the fiber, which has set its state and is about to swap out. -/
  | leaving
  /-- In the return of `swapIn()`, before `m_activeThreadCount` goes down. -/
  | returning
  /-- Before the state of the fiber is tested. -/
  | counted
  | rescheduling
  | holding
  deriving DecidableEq, Repr

/-- Where a worker is in `run()`. -/
inductive WorkerPoint
  | out
  | top
  /-- With an entry that it has removed. -/
  | chosen (e : Entry)
  | dropping
  /-- With fiber `f`, for an entry. -/
  | round (phase : Phase) (e : Entry) (f : ℕ)
  | nothing
  | idling
  | idled
  | done
  deriving DecidableEq, Repr

structure Scheduler where
  threadCount : ℕ
  useCaller : Bool
  stopping : Bool
  autoStop : Bool
  fibers : List Entry
  count : ℕ
  activeThreadCount : ℕ
  idleThreadCount : ℕ
  fiberCount : ℕ
  state : ℕ → FiberState
  cbFiber : ℕ → Option ℕ
  idleEnded : ℕ → Bool
  points : ℕ → WorkerPoint

def Task.isCb : Task → Bool
  | .fiber _ => false
  | .cb _ => true

namespace Scheduler

/-- `Scheduler(threads, use_caller)` after `start()`: the threads are in `run()`; the caller, worker
`threadCount`, is not. -/
def start (threadCount : ℕ) (useCaller : Bool) : Scheduler where
  threadCount := threadCount
  useCaller := useCaller
  stopping := false
  autoStop := false
  fibers := []
  count := 0
  activeThreadCount := 0
  idleThreadCount := 0
  fiberCount := 0
  state _ := .INIT
  cbFiber _ := none
  idleEnded _ := false
  points w := if w < threadCount then .top else .out

/-- How many workers there are. -/
def workers (s : Scheduler) : ℕ := s.threadCount + if s.useCaller then 1 else 0

def go (s : Scheduler) (w : ℕ) (p : WorkerPoint) : Scheduler :=
  { s with points := Function.update s.points w p }

theorem go_points_self {s : Scheduler} {w : ℕ} {p : WorkerPoint} : (s.go w p).points w = p :=
  Function.update_self ..

theorem go_points_of_ne {s : Scheduler} {v w : ℕ} {p : WorkerPoint} (h : v ≠ w) :
    (s.go w p).points v = s.points v := Function.update_of_ne h ..

def setState (s : Scheduler) (f : ℕ) (state : FiberState) : Scheduler :=
  { s with state := Function.update s.state f state }

def setCbFiber (s : Scheduler) (w : ℕ) (f : Option ℕ) : Scheduler :=
  { s with cbFiber := Function.update s.cbFiber w f }

/-- `Fiber(cb)`. -/
def newFiber (s : Scheduler) : Scheduler := { s with fiberCount := s.fiberCount + 1 }.setState s.fiberCount .INIT

/-- `scheduleNoLock`. -/
def schedule (s : Scheduler) (task : Task) (thread : Option ℕ) : Scheduler :=
  { s with fibers := s.fibers ++ [⟨s.count, task, thread⟩], count := s.count + 1 }

/-- `Scheduler::stopping()`. -/
def isStopping (s : Scheduler) : Bool :=
  s.stopping && s.autoStop && s.fibers.isEmpty && s.threadCount == 0

/-- What `stop()` sets. -/
def requestStop (s : Scheduler) : Scheduler := { s with autoStop := true, stopping := true }

/-- An entry that worker `w` does not pass over. -/
def suits (s : Scheduler) (w : ℕ) (e : Entry) : Bool :=
  (e.thread == none || e.thread == some w) &&
    match e.task with
    | .fiber f => s.state f != .RUNNING
    | .cb _ => true

/-- The scan of `m_fibers`: the entry that is chosen, and the others. -/
def scan (suits : Entry → Bool) : List Entry → Option (Entry × List Entry)
  | [] => none
  | e :: fibers =>
    if suits e then some (e, fibers)
    else (scan suits fibers).map fun (chosen, others) => (chosen, e :: others)

/-- The section of `run()`. -/
def pop (s : Scheduler) (w : ℕ) : Scheduler :=
  match scan (s.suits w) s.fibers with
  | some (e, fibers) =>
    { s with fibers := fibers, activeThreadCount := s.activeThreadCount + 1 }.go w (.chosen e)
  | none => s.go w .nothing

/-- What becomes of an entry: a fiber that has not ended is resumed, a callback in the worker's
own fiber. -/
def choose (s : Scheduler) (w : ℕ) (e : Entry) : Scheduler :=
  match e.task with
  | .fiber f =>
    if s.state f ≠ .END ∧ s.state f ≠ .EXCEPT then s.go w (.round .resuming e f) else s.go w .dropping
  | .cb _ =>
    match s.cbFiber w with
    | some f => (s.setState f .INIT).go w (.round .resuming e f)
    | none => (s.newFiber.setCbFiber w (some s.fiberCount)).go w (.round .resuming e s.fiberCount)

/-- `m_activeThreadCount--`. -/
def uncount (s : Scheduler) (w : ℕ) (p : WorkerPoint) : Scheduler :=
  { s with activeThreadCount := s.activeThreadCount - 1 }.go w p

/-- `Fiber::swapIn()`. -/
def swapIn (s : Scheduler) (w : ℕ) (e : Entry) (f : ℕ) : Scheduler :=
  if s.state f = .RUNNING then s.go w (.round .returning e f)
  else (s.setState f .RUNNING).go w (.round .executing e f)

/-- `Fiber::YieldToReady()` before it swaps out. -/
def YieldToReady (s : Scheduler) (w : ℕ) (e : Entry) (f : ℕ) : Scheduler :=
  if s.state f ≠ .RUNNING then s else (s.setState f .READY).go w (.round .leaving e f)

/-- `Fiber::YieldToHold()`. -/
def YieldToHold (s : Scheduler) (w : ℕ) (e : Entry) (f : ℕ) : Scheduler :=
  if s.state f ≠ .RUNNING then s else s.go w (.round .returning e f)

/-- `Fiber::MainFunc()` when the callback of the fiber has returned or thrown. -/
def finish (s : Scheduler) (w : ℕ) (e : Entry) (f : ℕ) (thrown : Bool) : Scheduler :=
  (s.setState f (if thrown then .EXCEPT else .END)).go w (.round .leaving e f)

/-- The tests of the state of a fiber that is back; the worker's own fiber is reset. -/
def settle (s : Scheduler) (w : ℕ) (e : Entry) (f : ℕ) : Scheduler :=
  if s.state f = .READY then s.go w (.round .rescheduling e f)
  else if s.state f ≠ .END ∧ s.state f ≠ .EXCEPT then s.go w (.round .holding e f)
  else if e.task.isCb then (s.setState f .INIT).go w .top
  else s.go w .top

/-- The worker gives up its own fiber. -/
def release (s : Scheduler) (w : ℕ) (e : Entry) : Scheduler :=
  (if e.task.isCb then s.setCbFiber w none else s).go w .top

def reschedule (s : Scheduler) (w : ℕ) (e : Entry) (f : ℕ) : Scheduler :=
  (s.schedule (.fiber f) none).release w e

def hold (s : Scheduler) (w : ℕ) (e : Entry) (f : ℕ) : Scheduler := (s.setState f .HOLD).release w e

/-- No entry is there; the idle fiber is resumed, unless it has ended. -/
def idleIn (s : Scheduler) (w : ℕ) : Scheduler :=
  if s.idleEnded w then s.go w .done
  else { s with idleThreadCount := s.idleThreadCount + 1 }.go w .idling

/-- A round of `idle()`. -/
def idle (s : Scheduler) (w : ℕ) : Scheduler :=
  if s.isStopping then { s with idleEnded := Function.update s.idleEnded w true }.go w .idled
  else s.go w .idled

def idleOut (s : Scheduler) (w : ℕ) : Scheduler :=
  { s with idleThreadCount := s.idleThreadCount - 1 }.go w .top

/-- Who does what: those outside of `run()`, or worker `w`. -/
inductive Action
  | newFiber
  | schedule (task : Task) (thread : Option ℕ)
  | requestStop
  /-- `stop()` calls the root fiber. -/
  | callRoot
  | pop (w : ℕ)
  | choose (w : ℕ)
  | drop (w : ℕ)
  | swapIn (w : ℕ)
  | YieldToReady (w : ℕ)
  | YieldToHold (w : ℕ)
  | finish (w : ℕ) (thrown : Bool)
  | swapOut (w : ℕ)
  | uncount (w : ℕ)
  | settle (w : ℕ)
  | reschedule (w : ℕ)
  | hold (w : ℕ)
  | idleIn (w : ℕ)
  | idle (w : ℕ)
  | idleOut (w : ℕ)
  deriving DecidableEq, Repr

/-- A step, of a worker from the point where it is. -/
inductive Step : Scheduler → Action → Scheduler → Prop
  | newFiber {s : Scheduler} : Step s .newFiber s.newFiber
  | schedule {s : Scheduler} (task : Task) (thread : Option ℕ) :
    Step s (.schedule task thread) (s.schedule task thread)
  | requestStop {s : Scheduler} : Step s .requestStop s.requestStop
  | callRoot {s : Scheduler} (hroot : s.useCaller = true) (hstop : s.stopping = true ∧ s.autoStop = true)
    (hout : s.points s.threadCount = .out) (hnot : s.isStopping = false) :
    Step s .callRoot (s.go s.threadCount .top)
  | pop {s : Scheduler} {w : ℕ} (h : s.points w = .top) : Step s (.pop w) (s.pop w)
  | choose {s : Scheduler} {w : ℕ} {e : Entry} (h : s.points w = .chosen e) :
    Step s (.choose w) (s.choose w e)
  | drop {s : Scheduler} {w : ℕ} (h : s.points w = .dropping) : Step s (.drop w) (s.uncount w .top)
  | swapIn {s : Scheduler} {w f : ℕ} {e : Entry} (h : s.points w = .round .resuming e f) :
    Step s (.swapIn w) (s.swapIn w e f)
  | YieldToReady {s : Scheduler} {w f : ℕ} {e : Entry} (h : s.points w = .round .executing e f) :
    Step s (.YieldToReady w) (s.YieldToReady w e f)
  | YieldToHold {s : Scheduler} {w f : ℕ} {e : Entry} (h : s.points w = .round .executing e f) :
    Step s (.YieldToHold w) (s.YieldToHold w e f)
  | finish {s : Scheduler} {w f : ℕ} {e : Entry} (thrown : Bool) (h : s.points w = .round .executing e f) :
    Step s (.finish w thrown) (s.finish w e f thrown)
  | swapOut {s : Scheduler} {w f : ℕ} {e : Entry} (h : s.points w = .round .leaving e f) :
    Step s (.swapOut w) (s.go w (.round .returning e f))
  | uncount {s : Scheduler} {w f : ℕ} {e : Entry} (h : s.points w = .round .returning e f) :
    Step s (.uncount w) (s.uncount w (.round .counted e f))
  | settle {s : Scheduler} {w f : ℕ} {e : Entry} (h : s.points w = .round .counted e f) :
    Step s (.settle w) (s.settle w e f)
  | reschedule {s : Scheduler} {w f : ℕ} {e : Entry} (h : s.points w = .round .rescheduling e f) :
    Step s (.reschedule w) (s.reschedule w e f)
  | hold {s : Scheduler} {w f : ℕ} {e : Entry} (h : s.points w = .round .holding e f) :
    Step s (.hold w) (s.hold w e f)
  | idleIn {s : Scheduler} {w : ℕ} (h : s.points w = .nothing) : Step s (.idleIn w) (s.idleIn w)
  | idle {s : Scheduler} {w : ℕ} (h : s.points w = .idling) : Step s (.idle w) (s.idle w)
  | idleOut {s : Scheduler} {w : ℕ} (h : s.points w = .idled) : Step s (.idleOut w) (s.idleOut w)

end Scheduler
end Flz
