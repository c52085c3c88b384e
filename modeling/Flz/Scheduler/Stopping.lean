import Flz.Scheduler.Entries

/-! # The end of a scheduler

`stopping()` asks whether there are threads, where it is to ask whether they are active. So it
tells the truth only by chance, and the threads of a scheduler never leave `run()`.
-/
namespace Flz
open Lib
namespace Scheduler

/-- No worker executes a task. -/
def Resting (s : Scheduler) : Prop := ∀ w, (s.points w).active = false

/-- No idle fiber has ended. -/
structure Lingers (s : Scheduler) : Prop where
  threads : s.threadCount ≠ 0
  idle : ∀ w, s.idleEnded w = false
  points : ∀ w, s.points w ≠ .done

section
variable {s s' : Scheduler} {w f : ℕ} {e : Entry} {a : Action} {log : List Action} {threadCount : ℕ}
  {useCaller : Bool}

theorem isStopping_iff (hstop : s.stopping = true ∧ s.autoStop = true) :
    s.isStopping = true ↔ s.fibers = [] ∧ s.threadCount = 0 := by
  rw [isStopping, hstop.1, hstop.2]
  simp only [Bool.true_and, Bool.and_eq_true, List.isEmpty_iff, beq_iff_eq]

theorem Counted.resting_iff (h : s.Counted) : s.Resting ↔ s.activeThreadCount = 0 := by
  rw [h.active, Scheduler.active, Finset.card_eq_zero, Finset.filter_eq_empty_iff]
  constructor
  · intro hrest w _ hactive
    rw [hrest w] at hactive
    cases hactive
  · intro hnone w
    by_cases hw : w < s.workers
    · exact Bool.eq_false_iff.mpr (hnone (Finset.mem_range.mpr hw))
    · rw [h.out w (Nat.le_of_not_lt hw)]
      rfl

theorem Lingers.turn (h : s.Lingers) (hturn : s.Turn w s') (hpoint : s'.points w ≠ .done)
    (hended : s'.idleEnded = s.idleEnded) : s'.Lingers where
  threads := by
    rw [hturn.threadCount]
    exact h.threads
  idle v := by
    rw [hended]
    exact h.idle v
  points v := by
    by_cases hvw : v = w
    · rw [hvw]
      exact hpoint
    · rw [hturn.others v hvw]
      exact h.points v

theorem Lingers.go {p : WorkerPoint} (h : s.Lingers) (hp : p ≠ .done := by rintro ⟨⟩) : (s.go w p).Lingers :=
  h.turn (turn_go rfl rfl rfl) (by rw [go_points_self]; exact hp) rfl

theorem Lingers.isStopping (h : s.Lingers) : s.isStopping = false := by
  rw [Scheduler.isStopping, Bool.and_eq_false_iff]
  exact .inr (beq_eq_false_iff_ne.mpr h.threads)

theorem Lingers.congr {t : Scheduler} (h : s.Lingers) (hthreads : t.threadCount = s.threadCount)
    (hended : t.idleEnded = s.idleEnded) (hpoints : t.points = s.points) : t.Lingers where
  threads := by
    rw [hthreads]
    exact h.threads
  idle := by
    rw [hended]
    exact h.idle
  points := by
    rw [hpoints]
    exact h.points

theorem Lingers.release (h : s.Lingers) : (s.release w e).Lingers := by
  rw [Scheduler.release]
  split
  · exact Lingers.go (h.congr rfl rfl rfl)
  · exact h.go

theorem Lingers.step (h : s.Lingers) (hstep : s.Step a s') : s'.Lingers := by
  cases hstep with
  | newFiber | schedule | requestStop => exact h.congr rfl rfl rfl
  | callRoot => exact h.go
  | pop hp =>
    rw [pop]
    split
    · exact Lingers.go (h.congr rfl rfl rfl)
    · exact h.go
  | choose hp =>
    rw [choose]
    split
    · split
      · exact h.go
      · exact h.go
    · split
      · exact Lingers.go (h.congr rfl rfl rfl)
      · exact Lingers.go (h.congr rfl rfl rfl)
  | drop hp => exact Lingers.go (s := { s with activeThreadCount := _ }) (h.congr rfl rfl rfl)
  | swapIn hp =>
    rw [swapIn]
    split
    · exact h.go
    · exact Lingers.go (h.congr rfl rfl rfl)
  | YieldToReady hp =>
    rw [YieldToReady]
    split
    · exact h
    · exact Lingers.go (h.congr rfl rfl rfl)
  | YieldToHold hp =>
    rw [YieldToHold]
    split
    · exact h
    · exact h.go
  | finish thrown hp =>
    rename_i w f e
    have hset : (s.setState f (if thrown then .EXCEPT else .END)).Lingers := h.congr rfl rfl rfl
    exact hset.go
  | swapOut hp => exact h.go
  | uncount hp => exact Lingers.go (s := { s with activeThreadCount := _ }) (h.congr rfl rfl rfl)
  | settle hp =>
    rw [settle]
    split
    · exact h.go
    split
    · exact h.go
    split
    · exact Lingers.go (h.congr rfl rfl rfl)
    · exact h.go
  | reschedule hp | hold hp => exact Lingers.release (h.congr rfl rfl rfl)
  | idleIn hp =>
    rw [idleIn, h.idle, if_neg Bool.false_ne_true]
    exact Lingers.go (h.congr rfl rfl rfl)
  | idle hp =>
    rw [Scheduler.idle, h.isStopping, if_neg Bool.false_ne_true]
    exact h.go
  | idleOut hp => exact Lingers.go (s := { s with idleThreadCount := _ }) (h.congr rfl rfl rfl)

theorem step_threadCount (h : s.Step a s') : s'.threadCount = s.threadCount := by
  cases h with
  | pop hp => exact turn_pop.threadCount
  | choose hp => exact turn_choose.threadCount
  | swapIn hp => exact turn_swapIn.threadCount
  | YieldToReady hp => exact turn_YieldToReady.threadCount
  | YieldToHold hp => exact turn_YieldToHold.threadCount
  | settle hp => exact turn_settle.threadCount
  | reschedule hp | hold hp => exact turn_release.threadCount
  | idleIn hp => exact turn_idleIn.threadCount
  | idle hp => exact turn_idle.threadCount
  | _ => rfl

theorem run_counted (h : Run Step (start threadCount useCaller) log s) : s.Counted :=
  h.keeps (fun _ _ _ hs hstep => hs.step hstep) (active_start threadCount useCaller)

theorem run_threadCount (h : Run Step (start threadCount useCaller) log s) : s.threadCount = threadCount :=
  h.keeps (P := fun s => s.threadCount = threadCount)
    (fun _ _ _ hs hstep => (step_threadCount hstep).trans hs) rfl

theorem run_lingers (h : Run Step (start threadCount useCaller) log s) (hthreads : threadCount ≠ 0) :
    s.Lingers := by
  refine h.keeps (fun _ _ _ hs hstep => hs.step hstep) ⟨hthreads, fun _ => rfl, fun w => ?_⟩
  rw [start]
  dsimp only
  split <;> rintro ⟨⟩

/-- After `stop()` was requested `stopping()` tells whether the queue is empty and no worker
executes a task, exactly where the queue is not empty or there are no threads if and only if no
worker executes one. Where there are threads, none ever leaves `run()` and no idle fiber ends;
where there are none, an idle fiber ends when the queue is empty. -/
theorem stopping_iff (h : Run Step (start threadCount useCaller) log s)
    (hstop : s.stopping = true ∧ s.autoStop = true) :
    ((s.isStopping = true ↔ s.fibers = [] ∧ s.Resting) ↔
      s.fibers ≠ [] ∨ (s.threadCount = 0 ↔ s.Resting)) ∧
    (s.Resting ↔ s.activeThreadCount = 0) ∧
    (s.threadCount ≠ 0 → ∀ w, s.points w ≠ .done ∧ s.idleEnded w = false) ∧
    (s.threadCount = 0 → s.fibers = [] → ∀ w, (s.idle w).idleEnded w = true) := by
  refine ⟨?_, (run_counted h).resting_iff, fun hthreads w => ?_, fun hthreads hfibers w => ?_⟩
  · rw [isStopping_iff hstop]
    tauto
  · rw [run_threadCount h] at hthreads
    have hlingers := run_lingers h hthreads
    exact ⟨hlingers.points w, hlingers.idle w⟩
  · rw [Scheduler.idle, if_pos ((isStopping_iff hstop).mpr ⟨hfibers, hthreads⟩)]
    exact Function.update_self ..

theorem stopping_iff_caller : ∃ s, Run Step (start 0 true) [.requestStop] s ∧
    (s.isStopping = true ↔ s.fibers = [] ∧ s.Resting) := by
  have hrun : Run Step (start 0 true) [.requestStop] (start 0 true).requestStop := .single .requestStop
  obtain ⟨hiff, hresting, -⟩ := stopping_iff hrun ⟨rfl, rfl⟩
  exact ⟨_, hrun, hiff.mpr (.inr (iff_of_true rfl (hresting.mpr rfl)))⟩

/-- One thread, nothing to do, and it is never told to end. -/
theorem resting_not_stopping : ∃ s, Run Step (start 1 false) [.requestStop, .pop 0, .idleIn 0] s ∧
    (s.stopping = true ∧ s.autoStop = true) ∧ s.fibers = [] ∧ s.Resting ∧ s.isStopping = false := by
  have hrun : ∃ s, Run Step (start 1 false) [.requestStop, .pop 0, .idleIn 0] s ∧
      (s.stopping = true ∧ s.autoStop = true) ∧ s.fibers = [] ∧ s.activeThreadCount = 0 ∧ s.isStopping = false :=
    ⟨_, .cons .requestStop (.cons (.pop rfl) (.cons (.idleIn rfl) .nil)), ⟨rfl, rfl⟩, rfl, rfl, rfl⟩
  obtain ⟨s, hs, hstop, hfibers, hactive, hnot⟩ := hrun
  exact ⟨s, hs, hstop, hfibers, (run_counted hs).resting_iff.mpr hactive, hnot⟩

end
end Scheduler
end Flz
