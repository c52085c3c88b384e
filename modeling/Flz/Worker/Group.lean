import Flz.Fiber.Semaphore
import Flz.Lib.Runs
import Mathlib.Logic.Function.Basic

/-! # Groups of workers

`WorkerGroup` of `src/worker.cc`. The semaphore of a group is made without permits, so the first
call waits for a callback that nobody has submitted.
-/
namespace Flz
open Lib

/-- Where a fiber is that calls a group. -/
inductive WorkerCall
  | none
  | schedule (cb : ℕ)
  /-- In the round `i` of the loop of `waitAll`. -/
  | waitAll (i : ℕ)
  deriving DecidableEq, Repr

/-- `queued` and `running` are the callbacks that have been submitted and not finished, `woken` the
fibers that `notify` has scheduled, and `drained` how many callbacks were unfinished at the
returns of `waitAll`. -/
structure WorkerGroup where
  batchSize : ℕ
  finish : Bool
  sem : FiberSemaphore
  calls : ℕ → WorkerCall
  woken : List ℕ
  queued : List ℕ
  running : List ℕ
  drained : List ℕ

namespace WorkerGroup

/-- `WorkerGroup(batch_size, s)`: `m_sem` has its default, no permits. -/
def new (batchSize : ℕ) : WorkerGroup where
  batchSize := batchSize
  finish := false
  sem := .new 0
  calls _ := .none
  woken := []
  queued := []
  running := []
  drained := []

def unfinished (g : WorkerGroup) : ℕ := g.queued.length + g.running.length

def at_ (g : WorkerGroup) (f : ℕ) (c : WorkerCall) : WorkerGroup :=
  { g with calls := Function.update g.calls f c }

/-- The part of `schedule` behind the wait. -/
def submit (g : WorkerGroup) (f cb : ℕ) : WorkerGroup :=
  { g.at_ f .none with queued := g.queued ++ [cb] }

def schedule (g : WorkerGroup) (f cb : ℕ) : WorkerGroup :=
  let (ok, sem) := g.sem.wait 0 f
  if ok then { g with sem := sem }.submit f cb else { g with sem := sem }.at_ f (.schedule cb)

/-- The loop of `waitAll` with `n` rounds to go. -/
def waitLoop (g : WorkerGroup) (f : ℕ) : ℕ → WorkerGroup
  | 0 => { g.at_ f .none with drained := g.unfinished :: g.drained }
  | n + 1 =>
    let (ok, sem) := g.sem.wait 0 f
    if ok then waitLoop { g with sem := sem } f n
    else { g with sem := sem }.at_ f (.waitAll (g.batchSize - (n + 1)))

def waitAll (g : WorkerGroup) (f : ℕ) : WorkerGroup :=
  if g.finish then { g with drained := g.unfinished :: g.drained }
  else { g with finish := true }.waitLoop f g.batchSize

/-- A fiber that has been scheduled goes on behind its wait. -/
def resume (g : WorkerGroup) (f : ℕ) : WorkerGroup :=
  let g := { g with woken := g.woken.erase f }
  match g.calls f with
  | .none => g
  | .schedule cb => g.submit f cb
  | .waitAll i => g.waitLoop f (g.batchSize - (i + 1))

/-- `doWork` when the callback returns. -/
def finishWork (g : WorkerGroup) (cb : ℕ) : WorkerGroup :=
  let (next, sem) := g.sem.notify
  { g with running := g.running.erase cb, sem := sem, woken := g.woken ++ next.toList.map Prod.snd }

/-- `doWork` when the callback throws: `notify` is not called. -/
def throwWork (g : WorkerGroup) (cb : ℕ) : WorkerGroup := { g with running := g.running.erase cb }

inductive Action
  | schedule (f cb : ℕ)
  | waitAll (f : ℕ)
  | resume (f : ℕ)
  | start (cb : ℕ)
  | finish (cb : ℕ)
  | throw (cb : ℕ)
  deriving DecidableEq, Repr

inductive Step : WorkerGroup → Action → WorkerGroup → Prop
  | schedule {g : WorkerGroup} {f cb : ℕ} (h : g.calls f = .none) :
    Step g (.schedule f cb) (g.schedule f cb)
  | waitAll {g : WorkerGroup} {f : ℕ} (h : g.calls f = .none) : Step g (.waitAll f) (g.waitAll f)
  | resume {g : WorkerGroup} {f : ℕ} (h : f ∈ g.woken) : Step g (.resume f) (g.resume f)
  | start {g : WorkerGroup} {cb : ℕ} (h : cb ∈ g.queued) :
    Step g (.start cb) { g with queued := g.queued.erase cb, running := cb :: g.running }
  | finish {g : WorkerGroup} {cb : ℕ} (h : cb ∈ g.running) : Step g (.finish cb) (g.finishWork cb)
  | throw {g : WorkerGroup} {cb : ℕ} (h : cb ∈ g.running) : Step g (.throw cb) (g.throwWork cb)

/-- A fiber waits for the semaphore. -/
def Blocked (g : WorkerGroup) (f : ℕ) : Prop := (0, f) ∈ g.sem.waiters

/-- What a group promises. -/
structure Orderly (g : WorkerGroup) : Prop where
  bounded : g.unfinished ≤ g.batchSize
  full : ∀ f cb, g.calls f = .schedule cb → g.Blocked f → g.unfinished = g.batchSize
  busy : ∀ f i, g.calls f = .waitAll i → g.Blocked f → g.unfinished ≠ 0
  done : ∀ n ∈ g.drained, n = 0

/-- A call of `schedule` or `waitAll`. -/
def Action.calls : Action → Bool
  | .schedule .. | .waitAll .. => true
  | _ => false

/-- Nothing ever moves in a group: the callers wait for the semaphore, and nobody gives. -/
structure Stuck (batchSize : ℕ) (log : List Action) (g : WorkerGroup) : Prop where
  batch : g.batchSize = batchSize
  permits : g.sem.concurrency = 0
  queued : g.queued = []
  running : g.running = []
  woken : g.woken = []
  drained : ∀ n ∈ g.drained, n = 0
  blocked : ∀ f, g.calls f ≠ .none → g.Blocked f
  called : (∃ a ∈ log, a.calls = true) ↔ ∃ f, g.calls f ≠ .none
  finished : g.finish = true → ∃ f, g.calls f ≠ .none

variable {batchSize : ℕ} {log : List Action} {g g' : WorkerGroup} {a : Action} {f : ℕ}

theorem stuck_new (batchSize : ℕ) : Stuck batchSize [] (new batchSize) where
  batch := rfl
  permits := rfl
  queued := rfl
  running := rfl
  woken := rfl
  drained _ hn := by cases hn
  blocked _ h := absurd rfl h
  called := by simp [new]
  finished h := by cases h

/-- A caller is left waiting. -/
theorem Stuck.block (h : Stuck batchSize log g) (ha : a.calls = true) {c : WorkerCall} (hc : c ≠ .none)
    (finish : Bool) : Stuck batchSize (log ++ [a])
      ({ g with
        finish := finish
        sem := { g.sem with waiters := g.sem.waiters ++ [(0, f)] } }.at_ f c) where
  batch := h.batch
  permits := h.permits
  queued := h.queued
  running := h.running
  woken := h.woken
  drained := h.drained
  blocked := by
    intro k hk
    by_cases hkf : k = f
    · rw [hkf]
      exact List.mem_append_right _ List.mem_cons_self
    · have hcalls : Function.update g.calls f c k = g.calls k := Function.update_of_ne hkf _ _
      exact List.mem_append_left _ (h.blocked k (fun hnone => hk (hcalls.trans hnone)))
  called := by
    refine iff_of_true ⟨a, List.mem_append_right _ List.mem_cons_self, ha⟩ ⟨f, ?_⟩
    have hcalls : Function.update g.calls f c f = c := Function.update_self ..
    exact fun hnone => hc (hcalls.symm.trans hnone)
  finished := by
    intro _
    refine ⟨f, ?_⟩
    have hcalls : Function.update g.calls f c f = c := Function.update_self ..
    exact fun hnone => hc (hcalls.symm.trans hnone)

theorem Stuck.wait (h : Stuck batchSize log g) (f : ℕ) :
    g.sem.wait 0 f = (false, { g.sem with waiters := g.sem.waiters ++ [(0, f)] }) := by
  rw [FiberSemaphore.wait, if_neg (by rw [h.permits]; decide)]

theorem waitLoop_wait {sem : FiberSemaphore} (hwait : g.sem.wait 0 f = (false, sem)) (n : ℕ) :
    g.waitLoop f (n + 1) = { g with sem := sem }.at_ f (.waitAll (g.batchSize - (n + 1))) := by
  rw [waitLoop, hwait]
  rfl

theorem Stuck.step (hpos : 0 < batchSize) (h : Stuck batchSize log g) (hstep : Step g a g') :
    Stuck batchSize (log ++ [a]) g' := by
  cases hstep with
  | schedule hf =>
    rename_i f cb
    have hrun : g.schedule f cb =
        { g with sem := { g.sem with waiters := g.sem.waiters ++ [(0, f)] } }.at_ f (.schedule cb) := by
      rw [schedule, h.wait f]
      rfl
    rw [hrun]
    exact h.block rfl (fun hnone => by cases hnone) g.finish
  | waitAll hf =>
    rename_i f
    cases hfinish : g.finish with
    | true =>
      have hrun : g.waitAll f = { g with drained := g.unfinished :: g.drained } := by
        rw [waitAll, hfinish, if_pos rfl]
      rw [hrun]
      refine ⟨h.batch, h.permits, h.queued, h.running, h.woken, ?_, h.blocked, ?_, h.finished⟩
      · intro n hn
        rcases List.mem_cons.mp hn with rfl | hn
        · rw [unfinished, h.queued, h.running]
          rfl
        · exact h.drained n hn
      · exact iff_of_true ⟨_, List.mem_append_right _ List.mem_cons_self, rfl⟩ (h.finished hfinish)
    | false =>
      have hsize : g.batchSize - 1 + 1 = g.batchSize := by rw [h.batch]; omega
      have hrun : g.waitAll f = { g with
          finish := true
          sem := { g.sem with waiters := g.sem.waiters ++ [(0, f)] } }.at_ f
            (.waitAll (g.batchSize - (g.batchSize - 1 + 1))) := by
        have hloop := waitLoop_wait (g := { g with finish := true }) (h.wait f) (g.batchSize - 1)
        rw [hsize] at hloop ⊢
        rw [waitAll, hfinish, if_neg Bool.false_ne_true]
        exact hloop
      rw [hrun]
      exact h.block rfl (fun hnone => by cases hnone) true
  | resume hf =>
    rw [h.woken] at hf
    cases hf
  | start hcb =>
    rw [h.queued] at hcb
    cases hcb
  | finish hcb =>
    rw [h.running] at hcb
    cases hcb
  | throw hcb =>
    rw [h.running] at hcb
    cases hcb

/-- A group keeps its promise exactly as long as nobody calls it. -/
theorem orderly_iff (hpos : 0 < batchSize) (h : Run Step (new batchSize) log g) :
    g.Orderly ↔ ∀ a ∈ log, a.calls = false := by
  have hstuck : Stuck batchSize log g :=
    h.keeps_history (fun _ _ _ _ hs hstep => hs.step hpos hstep) (stuck_new batchSize)
  have hzero : g.unfinished = 0 := by rw [unfinished, hstuck.queued, hstuck.running]; rfl
  constructor
  · intro hord a ha
    refine Bool.eq_false_iff.mpr (fun hcalls => ?_)
    obtain ⟨f, hf⟩ := hstuck.called.mp ⟨a, ha, hcalls⟩
    have hblocked := hstuck.blocked f hf
    cases hcall : g.calls f with
    | none => exact hf hcall
    | schedule cb =>
      have hfull := hord.full f cb hcall hblocked
      rw [hzero, hstuck.batch] at hfull
      omega
    | waitAll i => exact hord.busy f i hcall hblocked hzero
  · intro hnone
    have hcalls : ∀ f, g.calls f = .none := by
      intro f
      by_contra hf
      obtain ⟨a, ha, hcall⟩ := hstuck.called.mpr ⟨f, hf⟩
      rw [hnone a ha] at hcall
      cases hcall
    refine ⟨by rw [hzero]; exact Nat.zero_le _, fun f cb hf => ?_, fun f i hf => ?_, hstuck.drained⟩
    · rw [hcalls f] at hf
      cases hf
    · rw [hcalls f] at hf
      cases hf

/-- The first call of `schedule` waits, and there is nothing to wait for. -/
theorem first_call_blocks : ∃ g, Run Step (new 1) [.schedule 0 7] g ∧ g.calls 0 = .schedule 7 ∧
    g.Blocked 0 ∧ g.unfinished = 0 ∧ ¬ g.Orderly := by
  refine ⟨_, Run.single (.schedule rfl), rfl, List.mem_cons_self, rfl, fun h => ?_⟩
  cases h.full 0 7 rfl List.mem_cons_self

theorem orderly_uncalled : ((new 3).Orderly ↔ ∀ a ∈ ([] : List Action), a.calls = false) :=
  orderly_iff (by decide) Run.nil

end WorkerGroup
end Flz
