import Mathlib.Data.Nat.Basic
import Mathlib.Logic.Function.Basic
import Mathlib.Tactic.Cases

/-! # Fibers of one thread

`src/fiber.cc`. All four switches save to and restore from the context of `t_thread_fiber`, the
fiber that `GetThis()` makes for the thread itself. A context is known by the stack it runs on
and by the number of the `swapcontext` call that saved it.
-/
namespace Flz

/-- `Fiber::State`. -/
inductive FiberState
  | INIT | HOLD | RUNNING | END | READY | EXCEPT
  deriving DecidableEq, Repr

/-- The fiber of the thread itself, and those with a callback and a stack of their own. -/
inductive Who
  | main
  | fiber (n : ℕ)
  deriving DecidableEq, Repr

/-- What a `ucontext_t` holds: the start of `MainFunc` or `CallerMainFunc` on the stack of a
fiber, or the point in `swapcontext` call number `label` on the stack of `who`. -/
inductive Context
  | entry (n : ℕ)
  | saved (who : Who) (label : ℕ)
  deriving DecidableEq, Repr

def Context.stack : Context → Who
  | .entry n => .fiber n
  | .saved who _ => who

/-- `running` is whose stack the processor is on and `resumedAt` the context that put it there;
`current` is `t_fiber`. -/
structure FiberThread where
  running : Who
  resumedAt : Context
  current : Who
  ctx : Who → Context
  state : Who → FiberState
  useCaller : ℕ → Bool
  clock : ℕ

namespace FiberThread

/-- A thread in its first `GetThis()`; `useCaller` tells for each fiber whether it was made to run
`CallerMainFunc`. -/
def start (useCaller : ℕ → Bool) : FiberThread where
  running := .main
  resumedAt := .saved .main 0
  current := .main
  ctx
    | .main => .saved .main 0
    | .fiber n => .entry n
  state
    | .main => .RUNNING
    | .fiber _ => .INIT
  useCaller := useCaller
  clock := 1

def swapcontext (save load : Who) (t : FiberThread) : FiberThread :=
  let ctx := Function.update t.ctx save (.saved t.running t.clock)
  { t with
    running := (ctx load).stack
    resumedAt := ctx load
    ctx := ctx
    clock := t.clock + 1 }

def SetThis (who : Who) (t : FiberThread) : FiberThread := { t with current := who }

def setState (who : Who) (state : FiberState) (t : FiberThread) : FiberThread :=
  { t with state := Function.update t.state who state }

def call (n : ℕ) (t : FiberThread) : FiberThread :=
  swapcontext .main (.fiber n) (setState (.fiber n) .RUNNING (SetThis (.fiber n) t))

def back (this : Who) (t : FiberThread) : FiberThread := swapcontext this .main (SetThis .main t)

/-- `t_fiber` is set also when the fiber is found running. -/
def swapIn (n : ℕ) (t : FiberThread) : FiberThread :=
  if t.state (.fiber n) = .RUNNING then SetThis (.fiber n) t
  else swapcontext .main (.fiber n) (setState (.fiber n) .RUNNING (SetThis (.fiber n) t))

def swapOut (this : Who) (t : FiberThread) : FiberThread := swapcontext this .main (SetThis .main t)

def YieldToReady (t : FiberThread) : FiberThread :=
  if t.state t.current ≠ .RUNNING then t else swapOut t.current (setState t.current .READY t)

/-- The state stays `RUNNING`. -/
def YieldToHold (t : FiberThread) : FiberThread :=
  if t.state t.current ≠ .RUNNING then t else swapOut t.current t

/-- The end of `CallerMainFunc` and `MainFunc`, once the callback returned or threw. -/
def terminate (n : ℕ) (state : FiberState) (t : FiberThread) : FiberThread :=
  if t.useCaller n then back (.fiber n) (setState (.fiber n) state t)
  else swapOut (.fiber n) (setState (.fiber n) state t)

/-- `reset` makes the context one of `MainFunc`. -/
def reset (n : ℕ) (t : FiberThread) : FiberThread :=
  { t with
    ctx := Function.update t.ctx (.fiber n) (.entry n)
    state := Function.update t.state (.fiber n) .INIT
    useCaller := Function.update t.useCaller n false }

/-- What the code on the running stack may do. -/
inductive Op
  | call (n : ℕ)
  | swapIn (n : ℕ)
  | swapOut
  | back
  | yieldToReady
  | yieldToHold
  | terminate (state : FiberState)
  | setState (n : ℕ) (state : FiberState)
  | reset (n : ℕ)
  deriving DecidableEq, Repr

/-- A fiber swaps itself out; the thread's own fiber does not terminate. -/
def exec (t : FiberThread) : Op → FiberThread
  | .call n => call n t
  | .swapIn n => swapIn n t
  | .swapOut => swapOut t.running t
  | .back => back t.running t
  | .yieldToReady => YieldToReady t
  | .yieldToHold => YieldToHold t
  | .terminate state =>
    match t.running with
    | .main => t
    | .fiber n => terminate n state t
  | .setState n state => setState (.fiber n) state t
  | .reset n => reset n t

section
variable (t : FiberThread) (w v : Who) (s : FiberState)

@[simp] theorem SetThis_running : (SetThis w t).running = t.running := rfl
@[simp] theorem SetThis_ctx : (SetThis w t).ctx = t.ctx := rfl
@[simp] theorem SetThis_clock : (SetThis w t).clock = t.clock := rfl
@[simp] theorem SetThis_current : (SetThis w t).current = w := rfl
@[simp] theorem setState_running : (setState w s t).running = t.running := rfl
@[simp] theorem setState_ctx : (setState w s t).ctx = t.ctx := rfl
@[simp] theorem setState_clock : (setState w s t).clock = t.clock := rfl
@[simp] theorem setState_current : (setState w s t).current = t.current := rfl
@[simp] theorem swapcontext_ctx :
    (swapcontext w v t).ctx = Function.update t.ctx w (.saved t.running t.clock) := rfl
@[simp] theorem swapcontext_clock : (swapcontext w v t).clock = t.clock + 1 := rfl
@[simp] theorem swapcontext_current : (swapcontext w v t).current = t.current := rfl
@[simp] theorem swapcontext_resumedAt : (swapcontext w v t).resumedAt =
    Function.update t.ctx w (.saved t.running t.clock) v := rfl
@[simp] theorem swapcontext_running : (swapcontext w v t).running =
    (Function.update t.ctx w (.saved t.running t.clock) v).stack := rfl

end

end FiberThread
end Flz
