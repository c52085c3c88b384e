import Flz.Lib.Runs
import Flz.Timer.Model

/-! # Timeouts of hooked calls

`do_io` of `src/hook.cc`, on a socket that the hook takes over and that has a timeout, with the
events of the socket, the expiry of the timers and the callbacks that run later. All waits of a
call share one `timer_info`, so that a callback that comes late speaks for another wait.
-/
namespace Flz
open Lib

/-- The values of `errno` that `do_io` and its caller tell from others. -/
inductive Errno
  | EINTR | EAGAIN | ETIMEDOUT
  | other (e : ℕ)
  deriving DecidableEq, Repr

/-- What a call of the system returns: a number, or -1. -/
inductive CallResult
  | value (n : ℕ)
  | error (e : Errno)
  deriving DecidableEq, Repr

/-- Where the fiber is in `do_io`. -/
inductive CallPoint
  /-- Before a call of `fun`. -/
  | retry
  /-- Behind `EAGAIN`. -/
  | arming
  /-- With its timer, before `addEvent`. -/
  | adding
  /-- In `YieldToHold`, or on the way to it. -/
  | waiting
  /-- Behind `YieldToHold`, before `timer->cancel()`. -/
  | resumed
  /-- Before the test of `tinfo->cancelled`. -/
  | testing
  | returned (r : CallResult)
  /-- `addEvent` has failed; `errno` is that of `epoll_ctl`. -/
  | failed
  deriving DecidableEq, Repr

/-- What has become of the timer of a wait, and of its callback. -/
inductive TimerStage
  | armed
  | cancelled
  /-- The callback was collected by `listExpiredCb`, and is in the queue. -/
  | collected
  /-- Behind the test of `t->cancelled`. -/
  | tested
  /-- Behind the assignment of `t->cancelled`. -/
  | assigned
  | over
  deriving DecidableEq, Repr

/-- A wait is in progress: its timer is there, and `tinfo->cancelled` has not been tested. -/
def CallPoint.waits : CallPoint → Bool
  | .adding | .waiting | .resumed | .testing => true
  | _ => false

/-- The callback of the timer has been collected. -/
def TimerStage.expired : TimerStage → Bool
  | .armed | .cancelled => false
  | _ => true

structure WaitTimer where
  next : ℕ
  stage : TimerStage
  deriving DecidableEq, Repr

/-- A call of `do_io`. The timers are those of its waits, the last one that of the wait in
progress; `triggered` is when the event of this wait was triggered. -/
structure HookedCall where
  timeout : ℕ
  now : ℕ
  point : CallPoint
  cancelled : Bool
  registered : Bool
  triggered : Option ℕ
  timers : List WaitTimer
  deriving DecidableEq, Repr

namespace HookedCall

/-- A call begins. -/
def start (timeout now : ℕ) : HookedCall where
  timeout := timeout
  now := now
  point := .retry
  cancelled := false
  registered := false
  triggered := none
  timers := []

def goto (c : HookedCall) (p : CallPoint) : HookedCall := { c with point := p }

def setStage (c : HookedCall) (k : ℕ) (t : WaitTimer) (stage : TimerStage) : HookedCall :=
  { c with timers := c.timers.set k { t with stage := stage } }

/-- `fun(fd, ...)` returns. -/
def call (c : HookedCall) (r : CallResult) : HookedCall :=
  match r with
  | .error .EINTR => c
  | .error .EAGAIN => c.goto .arming
  | r => c.goto (.returned r)

/-- `addConditionTimer`. -/
def arm (c : HookedCall) : HookedCall where
  timeout := c.timeout
  now := c.now
  point := .adding
  cancelled := c.cancelled
  registered := c.registered
  triggered := none
  timers := c.timers ++ [⟨uint64 (c.now + c.timeout), .armed⟩]

/-- `timer->cancel()`, for the timer of the wait in progress. -/
def stopTimer (c : HookedCall) : HookedCall :=
  match c.timers.getLast? with
  | some ⟨next, .armed⟩ => c.setStage (c.timers.length - 1) ⟨next, .armed⟩ .cancelled
  | _ => c

def addEvent (c : HookedCall) (ok : Bool) : HookedCall :=
  if ok then { c with registered := true }.goto .waiting else c.stopTimer.goto .failed

/-- The event of the socket is triggered, if it is registered. -/
def trigger (c : HookedCall) : HookedCall :=
  if c.registered then { c with registered := false, triggered := some c.now } else c

def cancelTimer (c : HookedCall) : HookedCall := c.stopTimer.goto .testing

def test (c : HookedCall) : HookedCall :=
  if c.cancelled then c.goto (.returned (.error .ETIMEDOUT)) else c.goto .retry

/-- When the timer of the wait in progress is due. -/
def due (c : HookedCall) : Option ℕ := (c.timers.map WaitTimer.next).getLast?

/-- Whether `winfo.lock()` still finds the `timer_info`. -/
def alive (c : HookedCall) : Bool :=
  match c.point with
  | .returned _ | .failed => false
  | _ => true

/-- The callback of timer `k` tests `t->cancelled`. -/
def callbackTest (c : HookedCall) (k : ℕ) (t : WaitTimer) : HookedCall :=
  if c.alive && !c.cancelled then c.setStage k t .tested else c.setStage k t .over

/-- `t->cancelled = ETIMEDOUT`. -/
def callbackAssign (c : HookedCall) (k : ℕ) (t : WaitTimer) : HookedCall :=
  { c with cancelled := true }.setStage k t .assigned

/-- `iom->cancelEvent(fd, event)`. -/
def callbackCancel (c : HookedCall) (k : ℕ) (t : WaitTimer) : HookedCall := c.trigger.setStage k t .over

inductive Action
  | call (r : CallResult)
  | arm
  | addEvent (ok : Bool)
  /-- `idle` or another thread triggers the event. -/
  | trigger
  | resume
  | cancelTimer
  | test
  | tick (ms : ℕ)
  | collect (k : ℕ)
  | callbackTest (k : ℕ)
  | callbackAssign (k : ℕ)
  | callbackCancel (k : ℕ)
  deriving DecidableEq, Repr

inductive Step : HookedCall → Action → HookedCall → Prop
  | call {c : HookedCall} (r : CallResult) (h : c.point = .retry) : Step c (.call r) (c.call r)
  | arm {c : HookedCall} (h : c.point = .arming) : Step c .arm c.arm
  | addEvent {c : HookedCall} (ok : Bool) (h : c.point = .adding) : Step c (.addEvent ok) (c.addEvent ok)
  | trigger {c : HookedCall} : Step c .trigger c.trigger
  | resume {c : HookedCall} (h : c.point = .waiting) (htriggered : c.triggered ≠ none) :
    Step c .resume (c.goto .resumed)
  | cancelTimer {c : HookedCall} (h : c.point = .resumed) : Step c .cancelTimer c.cancelTimer
  | test {c : HookedCall} (h : c.point = .testing) : Step c .test c.test
  | tick {c : HookedCall} (ms : ℕ) : Step c (.tick ms) { c with now := c.now + ms }
  | collect {c : HookedCall} {k next : ℕ} (h : c.timers[k]? = some ⟨next, .armed⟩) (hdue : next ≤ c.now) :
    Step c (.collect k) (c.setStage k ⟨next, .armed⟩ .collected)
  | callbackTest {c : HookedCall} {k next : ℕ} (h : c.timers[k]? = some ⟨next, .collected⟩) :
    Step c (.callbackTest k) (c.callbackTest k ⟨next, .collected⟩)
  | callbackAssign {c : HookedCall} {k next : ℕ} (h : c.timers[k]? = some ⟨next, .tested⟩) :
    Step c (.callbackAssign k) (c.callbackAssign k ⟨next, .tested⟩)
  | callbackCancel {c : HookedCall} {k next : ℕ} (h : c.timers[k]? = some ⟨next, .assigned⟩) :
    Step c (.callbackCancel k) (c.callbackCancel k ⟨next, .assigned⟩)

/-- A wait is in progress: its timer is there, and `tinfo->cancelled` has not been tested. -/
def CallPoint.waits : CallPoint → Bool
  | .adding | .waiting | .resumed | .testing => true
  | _ => false

/-- The call itself does not fail with `ETIMEDOUT`; and a callback speaks for the wait in progress,
whose event, if it has been triggered, was not triggered before the timer was due. -/
def Genuine (c : HookedCall) : Action → Prop
  | .call r => r ≠ .error .ETIMEDOUT
  | .callbackAssign k => c.alive = true → k + 1 = c.timers.length ∧ c.point.waits = true ∧
      ∀ next time, c.due = some next → c.triggered = some time → next ≤ time
  | _ => True

def GenuineStep (c : HookedCall) (a : Action) (c' : HookedCall) : Prop := c.Genuine a ∧ Step c a c'

/-- The timer of the wait in progress expired before the event of this wait was triggered. -/
def Expired (c : HookedCall) : Prop := ∃ next time, c.due = some next ∧ c.triggered = some time ∧ next ≤ time

/-- What holds in runs in which the callbacks speak for their own waits. -/
structure Faithful (c : HookedCall) : Prop where
  elapsed : ∀ t ∈ c.timers, TimerStage.expired t.stage = true → t.next ≤ c.now
  triggered : ∀ time, c.triggered = some time → time ≤ c.now
  registered : c.registered = true → c.point = .waiting ∧ c.triggered = none
  adding : c.point = .adding → c.triggered = none
  resumed : c.point = .resumed ∨ c.point = .testing → c.triggered ≠ none
  cancelled : c.cancelled = true → c.alive = true → c.point.waits = true ∧
    ∃ next, c.due = some next ∧ next ≤ c.now ∧ ∀ time, c.triggered = some time → next ≤ time
  returned : c.point = .returned (.error .ETIMEDOUT) → c.Expired

section
variable {c c' : HookedCall} {k next : ℕ} {t : WaitTimer} {stage : TimerStage} {r : CallResult} {a : Action}
  {log : List Action}

theorem due_setStage (h : c.timers[k]? = some t) : (c.setStage k t stage).due = c.due := by
  have hmap : (c.timers.set k { t with stage := stage }).map WaitTimer.next = c.timers.map WaitTimer.next := by
    rw [List.map_set]
    refine List.ext_getElem? (fun i => ?_)
    by_cases hik : i = k
    · subst hik
      rw [List.getElem?_set_self (by rw [List.length_map]; exact (List.getElem?_eq_some_iff.mp h).1),
        List.getElem?_map, h]
      rfl
    · rw [List.getElem?_set_ne (Ne.symm hik)]
  rw [due, due, setStage, hmap]

/-- A timer gets on, and its clock has. -/
theorem Faithful.setStage (h : c.Faithful) (hk : c.timers[k]? = some t)
    (hnext : TimerStage.expired stage = true → t.next ≤ c.now) : (c.setStage k t stage).Faithful where
  elapsed x hx hstage := by
    rcases List.mem_or_eq_of_mem_set hx with hold | rfl
    · exact h.elapsed x hold hstage
    · exact hnext hstage
  triggered := h.triggered
  registered := h.registered
  adding := h.adding
  resumed := h.resumed
  cancelled hc halive := by
    rw [due_setStage hk]
    exact h.cancelled hc halive
  returned hp := by
    rw [Expired, due_setStage hk]
    exact h.returned hp

theorem Faithful.elapsed_at (h : c.Faithful) (hk : c.timers[k]? = some ⟨next, stage⟩)
    (hstage : TimerStage.expired stage = true) : next ≤ c.now :=
  h.elapsed _ (List.mem_of_getElem? hk) hstage

theorem Faithful.trigger (h : c.Faithful) : c.trigger.Faithful := by
  rw [HookedCall.trigger]
  split
  · rename_i hreg
    obtain ⟨hpoint, -⟩ := h.registered hreg
    refine ⟨h.elapsed, fun time ht => ?_, nofun, fun hp => ?_, fun _ => nofun, fun hc halive => ?_, fun hp => ?_⟩
    · obtain rfl := Option.some.inj ht
      exact Nat.le_refl _
    · rw [hpoint] at hp
      cases hp
    · obtain ⟨hwaits, next, hdue, hnow, -⟩ := h.cancelled hc halive
      refine ⟨hwaits, next, hdue, hnow, fun time ht => ?_⟩
      obtain rfl := Option.some.inj ht
      exact hnow
    · rw [hpoint] at hp
      cases hp
  · exact h

theorem Faithful.stopTimer (h : c.Faithful) : c.stopTimer.Faithful := by
  rw [HookedCall.stopTimer]
  split
  · rename_i next hlast
    rw [List.getLast?_eq_getElem?] at hlast
    exact h.setStage hlast nofun
  · exact h

theorem Faithful.stale (h : c.Faithful) (halive : c.alive = true) (hwaits : c.point.waits = false) :
    c.cancelled = false := by
  refine Bool.eq_false_iff.mpr (fun hc => ?_)
  rw [(h.cancelled hc halive).1] at hwaits
  cases hwaits

/-- The fiber gets on to a point outside of a wait, with nothing registered. -/
theorem Faithful.goto {p : CallPoint} (h : c.Faithful) (hcancelled : c.cancelled = false)
    (hreg : c.registered = false) (hp : p = .retry ∨ p = .arming ∨ p = .failed ∨
      ∃ r, p = .returned r ∧ r ≠ .error .ETIMEDOUT) : (c.goto p).Faithful := by
  refine ⟨h.elapsed, h.triggered, fun hr => ?_, fun ha => ?_, fun hr => ?_, fun hc => ?_, fun hr => ?_⟩
  · rw [HookedCall.goto, hreg] at hr
    cases hr
  · change p = .adding at ha
    rcases hp with rfl | rfl | rfl | ⟨r, rfl, -⟩ <;> cases ha
  · change p = .resumed ∨ p = .testing at hr
    rcases hp with rfl | rfl | rfl | ⟨r, rfl, -⟩ <;> rcases hr with hr | hr <;> cases hr
  · rw [HookedCall.goto, hcancelled] at hc
    cases hc
  · change p = .returned (.error .ETIMEDOUT) at hr
    rcases hp with rfl | rfl | rfl | ⟨r, rfl, hne⟩
    · cases hr
    · cases hr
    · cases hr
    · exact absurd (CallPoint.returned.inj hr) hne

theorem Faithful.unregistered (h : c.Faithful) (hp : c.point ≠ .waiting) : c.registered = false :=
  Bool.eq_false_iff.mpr (fun hreg => hp (h.registered hreg).1)

theorem Faithful.call (h : c.Faithful) (hp : c.point = .retry) (hr : r ≠ .error .ETIMEDOUT) :
    (c.call r).Faithful := by
  have hreg := h.unregistered (by rw [hp]; decide)
  have hcancelled : c.cancelled = false :=
    h.stale (by rw [alive, hp]) (by rw [hp]; rfl)
  have hreturned : (c.goto (.returned r)).Faithful :=
    h.goto hcancelled hreg (.inr (.inr (.inr ⟨r, rfl, hr⟩)))
  cases r with
  | value n => exact hreturned
  | error e =>
    cases e with
    | EINTR => exact h
    | EAGAIN => exact h.goto hcancelled hreg (.inr (.inl rfl))
    | ETIMEDOUT | other => exact hreturned

theorem Faithful.arm (h : c.Faithful) (hp : c.point = .arming) : c.arm.Faithful := by
  have hreg := h.unregistered (by rw [hp]; decide)
  have hcancelled : c.cancelled = false :=
    h.stale (by rw [alive, hp]) (by rw [hp]; rfl)
  refine ⟨fun t ht hstage => ?_, nofun, fun hr => ?_, fun _ => rfl, fun hr => ?_, fun hc => ?_, nofun⟩
  · rcases List.mem_append.mp ht with hold | hnew
    · exact h.elapsed t hold hstage
    · obtain rfl := List.mem_singleton.mp hnew
      cases hstage
  · rw [HookedCall.arm, hreg] at hr
    cases hr
  · rcases hr with hr | hr <;> cases hr
  · rw [HookedCall.arm, hcancelled] at hc
    cases hc

theorem stopTimer_point : c.stopTimer.point = c.point := by
  rw [stopTimer]
  split <;> rfl

theorem stopTimer_fields : c.stopTimer.cancelled = c.cancelled ∧ c.stopTimer.registered = c.registered ∧
    c.stopTimer.triggered = c.triggered := by
  rw [stopTimer]
  split <;> exact ⟨rfl, rfl, rfl⟩

theorem Faithful.addEvent (h : c.Faithful) (hp : c.point = .adding) (ok : Bool) : (c.addEvent ok).Faithful := by
  rw [HookedCall.addEvent]
  cases ok with
  | true =>
    rw [if_pos rfl]
    have htriggered := h.adding hp
    refine ⟨h.elapsed, h.triggered, fun _ => ⟨rfl, htriggered⟩, nofun, fun hr => ?_, fun hc _ => ⟨rfl, ?_⟩, nofun⟩
    · rcases hr with hr | hr <;> cases hr
    · exact (h.cancelled hc (by rw [alive, hp])).2
  | false =>
    rw [if_neg Bool.false_ne_true]
    have hstop := h.stopTimer
    have hpoint : c.stopTimer.point = .adding := stopTimer_point.trans hp
    refine ⟨hstop.elapsed, hstop.triggered, fun hr => ?_, nofun, fun hr => ?_, fun _ => nofun, nofun⟩
    · have hcontra := (hstop.registered hr).1
      rw [hpoint] at hcontra
      cases hcontra
    · rcases hr with hr | hr <;> cases hr

/-- The fiber gets on within a wait whose event has been triggered. -/
theorem Faithful.advance {p : CallPoint} (h : c.Faithful) (hwaits : c.point.waits = true)
    (htriggered : c.triggered ≠ none) (hp : p = .resumed ∨ p = .testing) : (c.goto p).Faithful := by
  have halive : c.alive = true := by
    rw [alive]
    cases hpoint : c.point with
    | returned r | failed =>
      rw [hpoint] at hwaits
      cases hwaits
    | _ => rfl
  refine ⟨h.elapsed, h.triggered, fun hr => absurd (h.registered hr).2 htriggered, fun ha => ?_,
    fun _ => htriggered, fun hc _ => ⟨?_, (h.cancelled hc halive).2⟩, fun hr => ?_⟩
  · change p = .adding at ha
    rcases hp with rfl | rfl <;> cases ha
  · change p.waits = true
    rcases hp with rfl | rfl <;> rfl
  · change p = .returned (.error .ETIMEDOUT) at hr
    rcases hp with rfl | rfl <;> cases hr

theorem Faithful.cancelTimer (h : c.Faithful) (hp : c.point = .resumed) : c.cancelTimer.Faithful := by
  refine h.stopTimer.advance ?_ ?_ (.inr rfl)
  · rw [stopTimer_point, hp]
    rfl
  · rw [stopTimer_fields.2.2]
    exact h.resumed (.inl hp)

theorem Faithful.test (h : c.Faithful) (hp : c.point = .testing) : c.test.Faithful := by
  have hreg := h.unregistered (by rw [hp]; decide)
  rw [HookedCall.test]
  split
  · rename_i hc
    obtain ⟨-, next, hdue, -, htime⟩ := h.cancelled hc (by rw [alive, hp])
    obtain ⟨time, htriggered⟩ := Option.ne_none_iff_exists'.mp (h.resumed (.inr hp))
    refine ⟨h.elapsed, h.triggered, fun hr => ?_, nofun, fun hr => ?_, fun _ => nofun, fun _ => ?_⟩
    · rw [HookedCall.goto, hreg] at hr
      cases hr
    · rcases hr with hr | hr <;> cases hr
    · exact ⟨next, time, hdue, htriggered, htime time htriggered⟩
  · rename_i hc
    exact h.goto (Bool.eq_false_iff.mpr hc) hreg (.inl rfl)

theorem Faithful.tick (h : c.Faithful) (ms : ℕ) : ({ c with now := c.now + ms } : HookedCall).Faithful where
  elapsed t ht hstage := Nat.le_add_right_of_le (h.elapsed t ht hstage)
  triggered time ht := Nat.le_add_right_of_le (h.triggered time ht)
  registered := h.registered
  adding := h.adding
  resumed := h.resumed
  cancelled hc halive := by
    obtain ⟨hwaits, next, hdue, hnow, htime⟩ := h.cancelled hc halive
    exact ⟨hwaits, next, hdue, Nat.le_add_right_of_le hnow, htime⟩
  returned := h.returned

theorem Faithful.callbackAssign (h : c.Faithful) (hk : c.timers[k]? = some ⟨next, .tested⟩)
    (hgenuine : c.Genuine (.callbackAssign k)) : (c.callbackAssign k ⟨next, .tested⟩).Faithful := by
  have hnow := h.elapsed_at hk rfl
  have hassigned : ({ c with cancelled := true } : HookedCall).Faithful := by
    refine ⟨h.elapsed, h.triggered, h.registered, h.adding, h.resumed, fun _ halive => ?_, h.returned⟩
    obtain ⟨hlast, hwaits, htime⟩ := hgenuine halive
    have hdue : c.due = some next := by
      have hindex : c.timers.length - 1 = k := by omega
      rw [due, List.getLast?_eq_getElem?, List.length_map, hindex, List.getElem?_map, hk]
      rfl
    exact ⟨hwaits, next, hdue, hnow, fun time ht => htime next time hdue ht⟩
  exact hassigned.setStage hk (fun _ => hnow)

theorem Faithful.step (h : c.Faithful) (hstep : GenuineStep c a c') : c'.Faithful := by
  obtain ⟨hgenuine, hstep⟩ := hstep
  cases hstep with
  | call r hp => exact h.call hp hgenuine
  | arm hp => exact h.arm hp
  | addEvent ok hp => exact h.addEvent hp ok
  | trigger => exact h.trigger
  | resume hp htriggered => exact h.advance (by rw [hp]; rfl) htriggered (.inl rfl)
  | cancelTimer hp => exact h.cancelTimer hp
  | test hp => exact h.test hp
  | tick ms => exact h.tick ms
  | collect hk hdue => exact h.setStage hk (fun _ => hdue)
  | callbackTest hk =>
    rw [callbackTest]
    split
    · exact h.setStage hk (fun _ => h.elapsed_at hk rfl)
    · exact h.setStage hk (fun _ => h.elapsed_at hk rfl)
  | callbackAssign hk => exact h.callbackAssign hk hgenuine
  | callbackCancel hk =>
    have hnow := h.elapsed_at hk rfl
    rw [callbackCancel]
    have htimers : c.trigger.timers = c.timers ∧ c.trigger.now = c.now := by
      rw [HookedCall.trigger]
      split <;> exact ⟨rfl, rfl⟩
    refine h.trigger.setStage (by rw [htimers.1]; exact hk) (fun _ => ?_)
    rw [htimers.2]
    exact hnow

theorem faithful_start (timeout now : ℕ) : (start timeout now).Faithful where
  elapsed _ ht := by cases ht
  triggered _ ht := by cases ht
  registered h := by cases h
  adding h := by cases h
  resumed h := by rcases h with h | h <;> cases h
  cancelled h := by cases h
  returned h := by cases h

/-- A call fails with `ETIMEDOUT` only where its wait has timed out, if no callback speaks for
another wait or too late, and the call itself does not. -/
theorem timeout_expired {timeout now : ℕ} (h : Run GenuineStep (start timeout now) log c)
    (hret : c.point = .returned (.error .ETIMEDOUT)) : c.Expired :=
  (h.keeps (fun _ _ _ hc hstep => hc.step hstep) (faithful_start timeout now)).returned hret

theorem timeout_expired_once : ∃ c, Run GenuineStep (start 10 0) [.call (.error .EAGAIN), .arm, .addEvent true,
      .tick 10, .collect 0, .callbackTest 0, .callbackAssign 0, .callbackCancel 0, .resume, .cancelTimer,
      .test] c ∧ c.Expired := by
  have hassign : Genuine ⟨10, 10, .waiting, false, true, none, [⟨10, .tested⟩]⟩ (.callbackAssign 0) :=
    fun _ => ⟨rfl, rfl, nofun⟩
  have hrun : ∃ c, Run GenuineStep (start 10 0) [.call (.error .EAGAIN), .arm, .addEvent true,
      .tick 10, .collect 0, .callbackTest 0, .callbackAssign 0, .callbackCancel 0, .resume, .cancelTimer,
      .test] c ∧ c.point = .returned (.error .ETIMEDOUT) :=
    ⟨_, .cons ⟨nofun, .call _ rfl⟩ (.cons ⟨trivial, .arm rfl⟩ (.cons ⟨trivial, .addEvent _ rfl⟩
      (.cons ⟨trivial, .tick 10⟩ (.cons ⟨trivial, .collect rfl (by decide)⟩
        (.cons ⟨trivial, .callbackTest rfl⟩ (.cons ⟨hassign, .callbackAssign rfl⟩
          (.cons ⟨trivial, .callbackCancel rfl⟩ (.cons ⟨trivial, .resume rfl nofun⟩
            (.cons ⟨trivial, .cancelTimer rfl⟩ (.cons ⟨trivial, .test rfl⟩ .nil)))))))))), rfl⟩
  obtain ⟨c, hc, hret⟩ := hrun
  exact ⟨c, hc, timeout_expired hc hret⟩

/-- The callback of the first wait, which has ended in time, ends the second one at once. -/
theorem late_callback : ∃ c, Run Step (start 10 0) [.call (.error .EAGAIN), .arm, .addEvent true,
      .tick 10, .collect 0, .trigger, .resume, .cancelTimer, .test, .call (.error .EAGAIN), .arm,
      .addEvent true, .callbackTest 0, .callbackAssign 0, .callbackCancel 0, .resume, .cancelTimer, .test] c ∧
    c.point = .returned (.error .ETIMEDOUT) ∧ c.due = some 20 ∧ c.triggered = some 10 ∧ ¬ c.Expired := by
  have hrun : ∃ c, Run Step (start 10 0) [.call (.error .EAGAIN), .arm, .addEvent true,
      .tick 10, .collect 0, .trigger, .resume, .cancelTimer, .test, .call (.error .EAGAIN), .arm,
      .addEvent true, .callbackTest 0, .callbackAssign 0, .callbackCancel 0, .resume, .cancelTimer, .test] c ∧
      c.point = .returned (.error .ETIMEDOUT) ∧ c.due = some 20 ∧ c.triggered = some 10 :=
    ⟨_, .cons (.call _ rfl) (.cons (.arm rfl) (.cons (.addEvent _ rfl) (.cons (.tick 10)
      (.cons (.collect rfl (by decide)) (.cons .trigger (.cons (.resume rfl nofun) (.cons (.cancelTimer rfl)
        (.cons (.test rfl) (.cons (.call _ rfl) (.cons (.arm rfl) (.cons (.addEvent _ rfl)
          (.cons (.callbackTest rfl) (.cons (.callbackAssign rfl) (.cons (.callbackCancel rfl)
            (.cons (.resume rfl nofun) (.cons (.cancelTimer rfl) (.cons (.test rfl) .nil))))))))))))))))),
      rfl, rfl, rfl⟩
  obtain ⟨c, hc, hret, hdue, htriggered⟩ := hrun
  refine ⟨c, hc, hret, hdue, htriggered, ?_⟩
  rintro ⟨next, time, hnext, htime, hle⟩
  rw [hdue] at hnext
  rw [htriggered] at htime
  cases hnext
  cases htime
  omega

end
end HookedCall
end Flz
