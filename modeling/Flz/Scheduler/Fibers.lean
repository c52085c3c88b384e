import Flz.Scheduler.Model
import Mathlib.Data.List.Count

/-! # Fibers and their holders

Every fiber is with one worker, or in the queue once, or neither, and which of these it is goes with
its state. This holds in all runs in which the suspensions of a fiber are matched by at most one
call of `schedule` each.
-/
namespace Flz
open Lib

/-- What has happened in a run: which fibers have something to do or to go on with, for which of
these the suspension, the present or the next one, has been matched, and which entries have been
removed and started, by whom. -/
structure Watch where
  alive : ℕ → Bool
  woken : ℕ → Bool
  removed : List (Entry × ℕ)
  started : List (Entry × ℕ)

namespace Scheduler

/-- The fiber in which worker `w` starts a callback. -/
def ownFiber (s : Scheduler) (w : ℕ) : ℕ := (s.cbFiber w).getD s.fiberCount

end Scheduler

namespace Watch

def start : Watch where
  alive _ := false
  woken _ := false
  removed := []
  started := []

def wake (k : Watch) (f : ℕ) : Watch := { k with woken := Function.update k.woken f true }

/-- A step is watched. -/
def after (k : Watch) (s : Scheduler) : Scheduler.Action → Watch
  | .newFiber => { k with alive := Function.update k.alive s.fiberCount true }
  | .schedule (.fiber f) _ => k.wake f
  | .pop w =>
    match Scheduler.scan (s.suits w) s.fibers with
    | some (e, _) => { k with removed := k.removed ++ [(e, w)] }
    | none => k
  | .choose w =>
    match s.points w with
    | .chosen ⟨_, .cb _, _⟩ => { k with alive := Function.update k.alive (s.ownFiber w) true }.wake (s.ownFiber w)
    | _ => k
  | .swapIn w =>
    match s.points w with
    | .round _ e f =>
      if s.state f = .RUNNING then k
      else { k with woken := Function.update k.woken f false, started := k.started ++ [(e, w)] }
    | _ => k
  | .YieldToReady w =>
    match s.points w with
    | .round _ _ f => k.wake f
    | _ => k
  | .finish w _ =>
    match s.points w with
    | .round _ _ f => { k with alive := Function.update k.alive f false }
    | _ => k
  | _ => k

end Watch

namespace Scheduler

/-- A suspension is matched by at most one call of `schedule`: a fiber is scheduled when it has
something to go on with, and its suspension has not been matched; a fiber of which the next
suspension has been matched does not end, and does not have itself scheduled. -/
def Matched (s : Scheduler) (k : Watch) : Action → Prop
  | .schedule (.fiber f) _ => k.alive f = true ∧ k.woken f = false
  | .YieldToReady w | .finish w _ => ∀ phase e f, s.points w = .round phase e f → k.woken f = false
  | _ => True

/-- A step of a scheduler that is watched. -/
structure WatchedStep (x : Scheduler × Watch) (a : Action) (y : Scheduler × Watch) : Prop where
  step : Step x.1 a y.1
  watch : y.2 = x.2.after x.1 a
  matched : x.1.Matched x.2 a

end Scheduler

/-! ## Standings -/

/-- What there is to say of a fiber: its state, how often it is in the queue, and what the watch
has noted. -/
structure Standing where
  state : FiberState
  queued : ℕ
  woken : Bool
  alive : Bool

namespace Standing

/-- The state of a fiber that may be resumed. -/
def Waits (x : Standing) : Prop := x.state = .INIT ∨ x.state = .READY ∨ x.state = .HOLD

/-- With nobody, and in the queue if somebody has scheduled it. -/
structure Parked (x : Standing) : Prop where
  waits : x.Waits
  queued : x.queued = x.woken.toNat
  alive : x.alive = true

/-- With nothing to do. -/
structure Dead (x : Standing) : Prop where
  queued : x.queued = 0
  woken : x.woken = false
  alive : x.alive = false

/-- Out of the queue, to be resumed. -/
structure Taken (x : Standing) : Prop where
  waits : x.Waits
  queued : x.queued = 0
  woken : x.woken = true
  alive : x.alive = true

/-- In its code, or on the way to being put on hold. -/
structure Runs (x : Standing) : Prop where
  state : x.state = .RUNNING
  queued : x.queued = x.woken.toNat
  alive : x.alive = true

/-- To be scheduled by the worker that has it. -/
structure Handed (x : Standing) : Prop where
  state : x.state = .READY
  queued : x.queued = 0
  woken : x.woken = true
  alive : x.alive = true

structure Over (x : Standing) : Prop extends x.Dead where
  state : x.state = .END ∨ x.state = .EXCEPT

variable {x y : Standing}

/-- A call of `schedule` that is the first for a suspension. -/
theorem Parked.schedule (h : x.Parked) (hwoken : x.woken = false) (hstate : y.state = x.state)
    (hqueued : y.queued = x.queued + 1) (hwoken' : y.woken = true) (halive : y.alive = x.alive) : y.Parked where
  waits := by
    rw [Waits, hstate]
    exact h.waits
  queued := by rw [hqueued, h.queued, hwoken, hwoken']; rfl
  alive := halive.trans h.alive

/-- The entry of a fiber leaves the queue. -/
theorem Parked.taken (h : x.Parked) (hstate : y.state = x.state) (hqueued : x.queued = y.queued + 1)
    (hwoken : y.woken = x.woken) (halive : y.alive = x.alive) : y.Taken := by
  have hq := h.queued
  cases hx : x.woken with
  | false =>
    rw [hx, hqueued] at hq
    cases hq
  | true =>
    rw [hx, hqueued] at hq
    refine ⟨?_, Nat.succ.inj hq, hwoken.trans hx, halive.trans h.alive⟩
    rw [Waits, hstate]
    exact h.waits

theorem Runs.schedule (h : x.Runs) (hwoken : x.woken = false) (hstate : y.state = x.state)
    (hqueued : y.queued = x.queued + 1) (hwoken' : y.woken = true) (halive : y.alive = x.alive) : y.Runs where
  state := hstate.trans h.state
  queued := by rw [hqueued, h.queued, hwoken, hwoken']; rfl
  alive := halive.trans h.alive

theorem Waits.ne_running (h : x.Waits) : x.state ≠ .RUNNING := by
  rcases h with h | h | h <;> rw [h] <;> decide

theorem Waits.not_ended (h : x.Waits) : x.state ≠ .END ∧ x.state ≠ .EXCEPT := by
  rcases h with h | h | h <;> rw [h] <;> decide

end Standing

/-- The fiber that a worker has. -/
def WorkerPoint.held : WorkerPoint → Option ℕ
  | .chosen ⟨_, .fiber f, _⟩ => some f
  | .round _ _ f => some f
  | _ => none

/-- How a fiber stands that a worker has. -/
def WorkerPoint.Allows (x : Standing) : WorkerPoint → Prop
  | .chosen _ | .round .resuming _ _ => x.Taken
  | .round .executing _ _ | .round .holding _ _ => x.Runs
  | .round .leaving _ _ => x.Handed ∨ x.Over
  | .round .returning _ _ | .round .counted _ _ => x.Runs ∨ x.Handed ∨ x.Over
  | .round .rescheduling _ _ => x.Handed
  | _ => True

namespace WorkerPoint
variable {p : WorkerPoint} {x y : Standing} {f : ℕ}

/-- A call of `schedule` that is the first for a suspension. -/
theorem Allows.schedule (h : p.Allows x) (hwoken : x.woken = false) (halive : x.alive = true)
    (hstate : y.state = x.state) (hqueued : y.queued = x.queued + 1) (hwoken' : y.woken = true)
    (halive' : y.alive = x.alive) : p.Allows y := by
  have htaken (ht : x.Taken) : False := Bool.false_ne_true (hwoken.symm.trans ht.woken)
  have hhanded (ht : x.Handed) : False := Bool.false_ne_true (hwoken.symm.trans ht.woken)
  have hover (ho : x.Over) : False := Bool.false_ne_true (ho.alive.symm.trans halive)
  have hruns (hr : x.Runs) : y.Runs := hr.schedule hwoken hstate hqueued hwoken' halive'
  cases p with
  | chosen e => exact (htaken h).elim
  | round phase e f =>
    cases phase with
    | resuming => exact (htaken h).elim
    | executing | holding => exact hruns h
    | leaving => exact h.elim (fun ht => (hhanded ht).elim) (fun ho => (hover ho).elim)
    | returning | counted => exact .inl (hruns (h.resolve_right (fun hor => hor.elim hhanded hover)))
    | rescheduling => exact (hhanded h).elim
  | _ => trivial

/-- A fiber that a worker has is in the queue only while it runs. -/
theorem Allows.queued (h : p.Allows x) (hheld : p.held = some f) (hstate : x.state ≠ .RUNNING) :
    x.queued = 0 := by
  have hruns (hr : x.Runs) : x.queued = 0 := absurd hr.state hstate
  cases p with
  | chosen e => exact Standing.Taken.queued h
  | round phase e f =>
    cases phase with
    | resuming => exact Standing.Taken.queued h
    | executing | holding => exact hruns h
    | leaving => exact h.elim (fun ht => ht.queued) (fun ho => ho.queued)
    | returning | counted =>
      exact h.elim hruns (fun hor => hor.elim (fun ht => ht.queued) (fun ho => ho.queued))
    | rescheduling => exact Standing.Handed.queued h
  | _ => cases hheld

end WorkerPoint

namespace Scheduler

def queued (s : Scheduler) (f : ℕ) : ℕ := s.fibers.countP fun e => e.task = .fiber f

def standing (s : Scheduler) (k : Watch) (f : ℕ) : Standing where
  state := s.state f
  queued := s.queued f
  woken := k.woken f
  alive := k.alive f

/-- Worker `w` has fiber `f`. -/
def Holds (s : Scheduler) (w f : ℕ) : Prop := (s.points w).held = some f

/-- Worker `w` has a callback in its own fiber `f`. -/
def InOwn (s : Scheduler) (w f : ℕ) : Prop :=
  ∃ phase e, s.points w = .round phase e f ∧ e.task.isCb = true

/-- All is well with fiber `f`. -/
structure SafeAt (s : Scheduler) (k : Watch) (f : ℕ) : Prop where
  unique : ∀ v w, s.Holds v f → s.Holds w f → v = w
  allows : ∀ w, s.Holds w f → (s.points w).Allows (s.standing k f)
  free : (∀ w, ¬ s.Holds w f) → (s.standing k f).Parked ∨ (s.standing k f).Dead
  entry : ∀ w phase e, s.points w = .round phase e f →
    e.task = .fiber f ∨ e.task.isCb = true ∧ s.cbFiber w = some f
  spare : ∀ w, s.cbFiber w = some f →
    s.InOwn w f ∨ (∀ v, ¬ s.Holds v f) ∧ (s.standing k f).Dead
  owner : ∀ v w, s.cbFiber v = some f → s.cbFiber w = some f → v = w
  fresh : s.fiberCount ≤ f → k.alive f = false ∧ (∀ w, ¬ s.Holds w f) ∧ ∀ w, s.cbFiber w ≠ some f

def Safe (s : Scheduler) (k : Watch) : Prop := ∀ f, s.SafeAt k f

/-- A step leaves fiber `f` alone. -/
structure Spares (s : Scheduler) (k : Watch) (s' : Scheduler) (k' : Watch) (f : ℕ) : Prop where
  points : ∀ v, s.Holds v f ∨ s'.Holds v f → s'.points v = s.points v
  cbFiber : ∀ v, s'.cbFiber v = some f ↔ s.cbFiber v = some f
  standing : s'.standing k' f = s.standing k f
  fiberCount : s.fiberCount ≤ s'.fiberCount

/-- Nobody but worker `w` has anything to do with fiber `f`. -/
structure Alone (s : Scheduler) (w f : ℕ) : Prop where
  holds : ∀ v, v ≠ w → ¬ s.Holds v f
  cbFiber : ∀ v, v ≠ w → s.cbFiber v ≠ some f

section
variable {s s' : Scheduler} {k k' : Watch} {v w f g : ℕ} {e : Entry} {p : WorkerPoint} {a : Action}

theorem InOwn.holds (h : s.InOwn w f) : s.Holds w f := by
  obtain ⟨phase, e, hp, -⟩ := h
  rw [Holds, hp]
  rfl

theorem Spares.holds (h : s.Spares k s' k' f) : s'.Holds v f ↔ s.Holds v f := by
  constructor
  · intro hv
    rw [Holds, ← h.points v (.inr hv)]
    exact hv
  · intro hv
    rw [Holds, h.points v (.inl hv)]
    exact hv

theorem Spares.safeAt (h : s.Spares k s' k' f) (hsafe : s.SafeAt k f) : s'.SafeAt k' f where
  unique u v hu hv := hsafe.unique u v (h.holds.mp hu) (h.holds.mp hv)
  allows v hv := by
    rw [h.points v (.inr hv), h.standing]
    exact hsafe.allows v (h.holds.mp hv)
  free hfree := by
    rw [h.standing]
    exact hsafe.free (fun v hv => hfree v (h.holds.mpr hv))
  entry v phase e hp := by
    have hholds : s'.Holds v f := by rw [Holds, hp]; rfl
    rw [h.points v (.inr hholds)] at hp
    exact (hsafe.entry v phase e hp).imp id (And.imp id (h.cbFiber v).mpr)
  spare v hv := by
    refine (hsafe.spare v ((h.cbFiber v).mp hv)).imp (fun hown => ?_) (fun hdead => ?_)
    · obtain ⟨phase, e, hp, hcb⟩ := hown
      refine ⟨phase, e, ?_, hcb⟩
      rw [h.points v (.inl (InOwn.holds ⟨phase, e, hp, hcb⟩))]
      exact hp
    · rw [h.standing]
      exact ⟨fun u hu => hdead.1 u (h.holds.mp hu), hdead.2⟩
  owner u v hu hv := hsafe.owner u v ((h.cbFiber u).mp hu) ((h.cbFiber v).mp hv)
  fresh hcount := by
    obtain ⟨halive, hholds, hcb⟩ := hsafe.fresh (Nat.le_trans h.fiberCount hcount)
    have hsame : k'.alive f = k.alive f := congrArg Standing.alive h.standing
    exact ⟨hsame.trans halive, fun v hv => hholds v (h.holds.mp hv), fun v hv => hcb v ((h.cbFiber v).mp hv)⟩

theorem SafeAt.alone (h : s.SafeAt k f) (hw : s.Holds w f) : s.Alone w f where
  holds v hvw hv := hvw (h.unique v w hv hw)
  cbFiber v hvw hv := by
    rcases h.spare v hv with hown | ⟨hfree, -⟩
    · exact hvw (h.unique v w hown.holds hw)
    · exact hfree w hw

theorem Alone.step (h : s.Alone w f) (hpoints : ∀ v, v ≠ w → s'.points v = s.points v)
    (hcb : ∀ v, v ≠ w → s'.cbFiber v = s.cbFiber v) : s'.Alone w f where
  holds v hvw hv := by
    rw [Holds, hpoints v hvw] at hv
    exact h.holds v hvw hv
  cbFiber v hvw hv := h.cbFiber v hvw ((hcb v hvw).symm.trans hv)

/-- A fiber that worker `w` has. -/
theorem Alone.held (h : s.Alone w f) (hlt : f < s.fiberCount) (hw : s.Holds w f)
    (hallows : (s.points w).Allows (s.standing k f))
    (hentry : ∀ phase e, s.points w = .round phase e f →
      e.task = .fiber f ∨ e.task.isCb = true ∧ s.cbFiber w = some f)
    (hspare : s.cbFiber w = some f → s.InOwn w f) : s.SafeAt k f where
  unique u v hu hv := by
    have heq (x : ℕ) (hx : s.Holds x f) : x = w := by
      by_contra hxw
      exact h.holds x hxw hx
    exact (heq u hu).trans (heq v hv).symm
  allows v hv := by
    by_cases hvw : v = w
    · rw [hvw]
      exact hallows
    · exact absurd hv (h.holds v hvw)
  free hfree := absurd hw (hfree w)
  entry v phase e hp := by
    by_cases hvw : v = w
    · subst hvw
      exact hentry phase e hp
    · exact absurd (by rw [Holds, hp]; rfl) (h.holds v hvw)
  spare v hv := by
    by_cases hvw : v = w
    · subst hvw
      exact .inl (hspare hv)
    · exact absurd hv (h.cbFiber v hvw)
  owner u v hu hv := by
    have heq (x : ℕ) (hx : s.cbFiber x = some f) : x = w := by
      by_contra hxw
      exact h.cbFiber x hxw hx
    exact (heq u hu).trans (heq v hv).symm
  fresh hcount := absurd hcount (Nat.not_le_of_lt hlt)

/-- A fiber that nobody has. -/
theorem Alone.freed (h : s.Alone w f) (hlt : f < s.fiberCount) (hw : ¬ s.Holds w f)
    (hfree : (s.standing k f).Parked ∨ (s.standing k f).Dead)
    (hspare : s.cbFiber w = some f → (s.standing k f).Dead) : s.SafeAt k f := by
  have hnobody (v : ℕ) : ¬ s.Holds v f := by
    by_cases hvw : v = w
    · rw [hvw]
      exact hw
    · exact h.holds v hvw
  refine ⟨fun u v hu => absurd hu (hnobody u), fun v hv => absurd hv (hnobody v), fun _ => hfree, ?_, ?_, ?_,
    fun hcount => absurd hcount (Nat.not_le_of_lt hlt)⟩
  · intro v phase e hp
    exact absurd (by rw [Holds, hp]; rfl) (hnobody v)
  · intro v hv
    by_cases hvw : v = w
    · subst hvw
      exact .inr ⟨hnobody, hspare hv⟩
    · exact absurd hv (h.cbFiber v hvw)
  · intro u v hu hv
    have heq (x : ℕ) (hx : s.cbFiber x = some f) : x = w := by
      by_contra hxw
      exact h.cbFiber x hxw hx
    exact (heq u hu).trans (heq v hv).symm

end
end Scheduler
end Flz
