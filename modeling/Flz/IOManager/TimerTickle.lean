import Flz.Lib.Runs
import Flz.Lib.Tally
import Flz.Stream
import Flz.Timer.Front

/-! # Wakeups for timers

How the workers of an `IOManager` wait for the earliest timer: `addTimer` and `reset` of
`src/timer.cc` with `tickle()`, `idle()` and `onTimerInsertedAtFront()` of `src/iomanager.cc`. A
section under the lock is one step, and so is every access to what threads share outside of it.
Tasks come and go by themselves. Nobody calls `stop()`, so that `stopping()` says no.
-/
namespace Flz
open Lib
variable {κ : Type}

/-- What `idle()` makes of the next timeout. -/
def nextTimeout (next_timeout : ℕ) : ℕ :=
  if next_timeout ≠ 2 ^ 64 - 1 then if toInt next_timeout > 3000 then 3000 else next_timeout
  else 3000

/-- Where a worker is. -/
inductive PollPoint
  | top
  | executing
  /-- Behind a scan in vain, before `++m_idleThreadCount`. -/
  | nothing
  /-- In `idle()`, before `stopping()`. -/
  | idling
  /-- Before `epoll_wait`. -/
  | polling (next_timeout : ℕ)
  /-- In `epoll_wait`, since when. -/
  | blocked (since next_timeout : ℕ)
  /-- Behind `epoll_wait`. -/
  | woken
  /-- In `listExpiredCb()`, behind the clock reading. -/
  | expiring (now_ms : ℕ)
  /-- Behind `listExpiredCb()`, up to `--m_idleThreadCount`. -/
  | expired
  deriving DecidableEq, Repr

namespace PollPoint

def counted : PollPoint → ℕ
  | .top | .executing | .nothing => 0
  | _ => 1

/-- Since when, and for how long, the worker sleeps when the clock reads `now`; a negative time has
no end. -/
def sleeps (now : ℕ) : PollPoint → Option (ℕ × ℤ)
  | .polling next_timeout => if toInt next_timeout = 0 then none else some (now, toInt next_timeout)
  | .blocked since next_timeout => some (since, toInt next_timeout)
  | _ => none

/-- The worker goes on, and takes the timers as they are before it sleeps. -/
def awake : PollPoint → Bool
  | .executing | .blocked _ _ => false
  | .polling next_timeout => toInt next_timeout = 0
  | _ => true

/-- The sleep, if it is one, is over by `d`. -/
def EndsBy (p : PollPoint) (now d : ℕ) : Prop :=
  ∀ since timeout, p.sleeps now = some (since, timeout) → since + timeout ≤ d

end PollPoint

/-- Where a call of `addTimer` or `reset` is. -/
inductive InsertPoint (κ : Type)
  /-- The timer is constructed, at a clock reading. -/
  | inserting (addr ms : ℕ) (cb : κ) (recurring : Bool) (now_ms : ℕ)
  /-- In `tickle()`, before the idle threads are looked at. -/
  | tickling
  /-- In `tickle()`, before the byte is written. -/
  | writing
  | ended
  deriving DecidableEq, Repr

def InsertPoint.wakes : InsertPoint κ → Bool
  | .tickling | .writing => true
  | _ => false

/-- `pipe` counts the bytes that are unread. -/
structure TimerTickler (κ : Type) where
  timers : TimerManager κ
  now : ℕ
  idleThreadCount : ℕ
  pipe : ℕ
  workers : List PollPoint
  calls : List (InsertPoint κ)

/-- Steps, of call `i`, of worker `w`, or of others. -/
inductive TimerTickleAction (κ : Type)
  | addTimer (addr ms : ℕ) (cb : κ) (recurring : Bool)
  | insert (i : ℕ)
  | reset (j ms : ℕ) (fromNow : Bool)
  | test (i : ℕ)
  | write (i : ℕ)
  /-- Another `tickle()` writes its byte. -/
  | byte
  /-- Another call of `stopping()`. -/
  | stopping
  | release (j : ℕ)
  | tick (now : ℕ)
  | take (w : ℕ)
  | finish (w : ℕ)
  | findNothing (w : ℕ)
  | count (w : ℕ)
  | getNextTimer (w : ℕ)
  | epollWait (w : ℕ)
  | interrupt (w : ℕ)
  | wake (w : ℕ)
  | readClock (w : ℕ)
  | listExpiredCb (w probe : ℕ)
  | drain (w : ℕ)
  | uncount (w : ℕ)
  deriving DecidableEq, Repr

namespace TimerTickler

/-- `n` workers that enter `run()`. -/
def start (n now : ℕ) : TimerTickler κ where
  timers := .new now
  now := now
  idleThreadCount := 0
  pipe := 0
  workers := List.replicate n .top
  calls := []

def go (g : TimerTickler κ) (w : ℕ) (p : PollPoint) : TimerTickler κ :=
  { g with workers := g.workers.set w p }

def goCall (g : TimerTickler κ) (i : ℕ) (c : InsertPoint κ) : TimerTickler κ :=
  { g with calls := g.calls.set i c }

def setTimers (g : TimerTickler κ) (timers : TimerManager κ) : TimerTickler κ :=
  { g with timers := timers }

/-- What is left to do behind the section in `addTimer`. -/
def behind (atFront : Bool) : InsertPoint κ := if atFront then .tickling else .ended

def insert (g : TimerTickler κ) (i addr ms : ℕ) (cb : κ) (recurring : Bool) (now_ms : ℕ) :
    TimerTickler κ :=
  let (atFront, timers) := g.timers.addTimer addr ms (some cb) recurring now_ms
  (g.setTimers timers).goCall i (behind atFront)

/-- `hasIdleThreads()` in `tickle()`. -/
def test (g : TimerTickler κ) (i : ℕ) : TimerTickler κ :=
  if g.idleThreadCount > 0 then g.goCall i .writing else g.goCall i .ended

/-- `epoll_wait` returns at once when the timeout is zero. -/
def epollWait (g : TimerTickler κ) (w next_timeout : ℕ) : TimerTickler κ :=
  if toInt next_timeout = 0 then g.go w .woken else g.go w (.blocked g.now next_timeout)

/-- A step. A new timer lies where none is; a worker that is blocked may be woken by any event, and
starts again when it is interrupted by a signal. -/
inductive Step : TimerTickler κ → TimerTickleAction κ → TimerTickler κ → Prop
  | addTimer {g : TimerTickler κ} (addr ms : ℕ) (cb : κ) (recurring : Bool) :
    Step g (.addTimer addr ms cb recurring)
      { g with calls := g.calls ++ [.inserting addr ms cb recurring g.now] }
  | insert {g : TimerTickler κ} {i addr ms now_ms : ℕ} {cb : κ} {recurring : Bool}
    (h : g.calls[i]? = some (.inserting addr ms cb recurring now_ms))
    (haddr : ∀ j t, g.timers.objects j = some t → t.addr ≠ addr) :
    Step g (.insert i) (g.insert i addr ms cb recurring now_ms)
  | reset {g : TimerTickler κ} {j ms : ℕ} {fromNow done atFront : Bool} {timers : TimerManager κ}
    (h : g.timers.reset j ms fromNow g.now = some (done, atFront, timers)) :
    Step g (.reset j ms fromNow) { g.setTimers timers with calls := g.calls ++ [behind atFront] }
  | test {g : TimerTickler κ} {i : ℕ} (h : g.calls[i]? = some .tickling) : Step g (.test i) (g.test i)
  | write {g : TimerTickler κ} {i : ℕ} (h : g.calls[i]? = some .writing) :
    Step g (.write i) ({ g with pipe := g.pipe + 1 }.goCall i .ended)
  | byte {g : TimerTickler κ} : Step g .byte { g with pipe := g.pipe + 1 }
  | stopping {g : TimerTickler κ} {ms : ℕ} {timers : TimerManager κ}
    (h : g.timers.getNextTimer g.now = some (ms, timers)) : Step g .stopping (g.setTimers timers)
  | release {g : TimerTickler κ} {j : ℕ} {timers : TimerManager κ} (h : g.timers.release j = some timers) :
    Step g (.release j) (g.setTimers timers)
  | tick {g : TimerTickler κ} {now : ℕ} (h : g.now ≤ now) : Step g (.tick now) { g with now := now }
  | take {g : TimerTickler κ} {w : ℕ} (h : g.workers[w]? = some .top) :
    Step g (.take w) (g.go w .executing)
  | finish {g : TimerTickler κ} {w : ℕ} (h : g.workers[w]? = some .executing) :
    Step g (.finish w) (g.go w .top)
  | findNothing {g : TimerTickler κ} {w : ℕ} (h : g.workers[w]? = some .top) :
    Step g (.findNothing w) (g.go w .nothing)
  | count {g : TimerTickler κ} {w : ℕ} (h : g.workers[w]? = some .nothing) :
    Step g (.count w) ({ g with idleThreadCount := g.idleThreadCount + 1 }.go w .idling)
  | getNextTimer {g : TimerTickler κ} {w ms : ℕ} {timers : TimerManager κ}
    (h : g.workers[w]? = some .idling) (hnext : g.timers.getNextTimer g.now = some (ms, timers)) :
    Step g (.getNextTimer w) ((g.setTimers timers).go w (.polling (nextTimeout ms)))
  | epollWait {g : TimerTickler κ} {w next_timeout : ℕ} (h : g.workers[w]? = some (.polling next_timeout)) :
    Step g (.epollWait w) (g.epollWait w next_timeout)
  | interrupt {g : TimerTickler κ} {w since next_timeout : ℕ}
    (h : g.workers[w]? = some (.blocked since next_timeout)) :
    Step g (.interrupt w) (g.go w (.polling (nextTimeout next_timeout)))
  | wake {g : TimerTickler κ} {w since next_timeout : ℕ}
    (h : g.workers[w]? = some (.blocked since next_timeout)) : Step g (.wake w) (g.go w .woken)
  | readClock {g : TimerTickler κ} {w : ℕ} (h : g.workers[w]? = some .woken) :
    Step g (.readClock w) (g.go w (.expiring g.now))
  | listExpiredCb {g : TimerTickler κ} {w probe now_ms : ℕ} {cbs : List (ℕ × Option κ)}
    {timers : TimerManager κ} (h : g.workers[w]? = some (.expiring now_ms))
    (hexpired : g.timers.listExpiredCb now_ms probe = some (cbs, timers)) :
    Step g (.listExpiredCb w probe) ((g.setTimers timers).go w .expired)
  | drain {g : TimerTickler κ} {w : ℕ} (h : g.workers[w]? = some .expired) :
    Step g (.drain w) { g with pipe := 0 }
  | uncount {g : TimerTickler κ} {w : ℕ} (h : g.workers[w]? = some .expired) :
    Step g (.uncount w) ({ g with idleThreadCount := g.idleThreadCount - 1 }.go w .top)

/-- The sleep is over in time for the earliest timer, and within the cap. -/
def InTime (g : TimerTickler κ) (p : PollPoint) : Prop :=
  ∃ (since : ℕ) (timeout : ℤ), p.sleeps g.now = some (since, timeout) ∧ 0 ≤ timeout ∧ timeout ≤ 3000 ∧
    ∀ d, g.timers.HasDeadline d → since + timeout ≤ d

/-- Between the calls, with each worker blocked or executing a task, somebody who is blocked wakes
up in time for the earliest timer, unless there is a byte to wake one before. -/
def Attended (g : TimerTickler κ) : Prop :=
  (∀ p ∈ g.workers, p = .executing ∨ ∃ since next_timeout, p = .blocked since next_timeout) →
    (∀ c ∈ g.calls, c = .ended) → (∃ since next_timeout, .blocked since next_timeout ∈ g.workers) →
      0 < g.pipe ∨ ∃ (since next_timeout : ℕ), .blocked since next_timeout ∈ g.workers ∧
        0 ≤ toInt next_timeout ∧ toInt next_timeout ≤ 3000 ∧
        ∀ d, g.timers.HasDeadline d → since + toInt next_timeout ≤ d

def Sleeps (g : TimerTickler κ) : Prop := ∃ p ∈ g.workers, (p.sleeps g.now).isSome = true

/-- Someone is on his way to look at the timers, or wakes up in time, and he is of the kind `ok`. -/
def Guarded (g : TimerTickler κ) (ok : ℕ → PollPoint → Prop) : Prop :=
  0 < g.pipe ∨ (∃ c ∈ g.calls, c.wakes = true) ∨
    ∃ v p, g.workers[v]? = some p ∧ (p.awake = true ∨ g.InTime p) ∧ ok v p

/-- Nobody is lost on whom those who sleep rely: by taking a task, by an earlier timer while
`m_tickled` is set, by time that passes before `epoll_wait`, by a timeout that is negative as an
`int`, or by a signal. -/
def Spared (g : TimerTickler κ) : TimerTickleAction κ → Prop
  | .insert i => ∀ addr ms cb recurring now_ms,
    g.calls[i]? = some (.inserting addr ms cb recurring now_ms) → g.timers.tickled = true → g.Sleeps →
      g.Guarded (fun _ p => p.EndsBy g.now (uint64 (now_ms + ms)))
  | .reset j ms fromNow => ∀ t, g.timers.objects j = some t → t.cb ≠ none →
    ¬ (ms = t.ms ∧ fromNow = false) → g.timers.tickled = true → g.Sleeps →
      g.Guarded (fun _ p => p.EndsBy g.now
        (uint64 ((if fromNow then g.now else subUInt64 t.next t.ms) + ms)))
  | .tick now => g.Sleeps → g.Guarded (fun _ p => ∀ d, g.timers.HasDeadline d → p.EndsBy now d)
  | .take w => g.Sleeps → g.Guarded (fun v _ => v ≠ w)
  | .getNextTimer w => ∀ ms timers, g.timers.getNextTimer g.now = some (ms, timers) →
    toInt (nextTimeout ms) < 0 → g.Guarded (fun v _ => v ≠ w)
  | .interrupt w => ∀ since next_timeout, g.workers[w]? = some (.blocked since next_timeout) →
    g.Guarded (fun v _ => v ≠ w) ∨ g.InTime (.polling (nextTimeout next_timeout))
  | _ => True

/-- The invariant. -/
structure Watched (g : TimerTickler κ) : Prop where
  keeps : g.timers.Keeps []
  counted : g.idleThreadCount = tally PollPoint.counted g.workers
  guarded : g.Sleeps → g.Guarded (fun _ _ => True)

variable {g g' : TimerTickler κ} {a : TimerTickleAction κ} {i w ms : ℕ} {p q : PollPoint}
  {c d : InsertPoint κ} {timers : TimerManager κ} {ok : ℕ → PollPoint → Prop}

theorem Watched.attended (h : g.Watched) : g.Attended := by
  rintro hworkers hcalls ⟨since, next_timeout, hmem⟩
  rcases h.guarded ⟨_, hmem, rfl⟩ with hpipe | ⟨c, hc, hwakes⟩ | ⟨v, p, hv, hp, -⟩
  · exact Or.inl hpipe
  · rw [hcalls c hc] at hwakes
    cases hwakes
  · have hmem' := List.mem_of_getElem? hv
    rcases hworkers p hmem' with rfl | ⟨since', next', rfl⟩
    · rcases hp with hawake | ⟨_, _, hsleeps, -⟩
      · cases hawake
      · cases hsleeps
    · rcases hp with hawake | ⟨_, _, hsleeps, hpos, hcap, hd⟩
      · cases hawake
      · cases hsleeps
        exact Or.inr ⟨since', next', hmem', hpos, hcap, hd⟩

theorem counted_of_sleeps {now : ℕ} (h : (p.sleeps now).isSome = true) : p.counted = 1 := by
  cases p <;> first | rfl | cases h

/-- Who sleeps is counted, so that `tickle()` sees him. -/
theorem Watched.not_sleeps (h : g.Watched) (hidle : ¬ g.idleThreadCount > 0) : ¬ g.Sleeps := by
  rintro ⟨p, hp, hsleeps⟩
  have hle := le_tally PollPoint.counted hp
  rw [counted_of_sleeps hsleeps, ← h.counted] at hle
  exact hidle hle

/-! ## Guards -/

theorem guarded_go (hp : g.workers[w]? = some p) (hq : q.awake = true) :
    (g.go w q).Guarded (fun _ _ => True) := by
  have hlt := (List.getElem?_eq_some_iff.mp hp).1
  exact Or.inr (Or.inr ⟨w, q, List.getElem?_set_self hlt, Or.inl hq, trivial⟩)

theorem guarded_goCall (hc : g.calls[i]? = some c) (hd : d.wakes = true) :
    (g.goCall i d).Guarded (fun _ _ => True) := by
  have hlt := (List.getElem?_eq_some_iff.mp hc).1
  exact Or.inr (Or.inl ⟨d, List.mem_set hlt d, hd⟩)

theorem Guarded.mono (h : g.Guarded ok) {ok' : ℕ → PollPoint → Prop}
    (hok : ∀ v p, ok v p → g.InTime p → ok' v p) (hawake : ∀ v p, ok v p → p.awake = true → ok' v p) :
    g.Guarded ok' := by
  rcases h with hpipe | hcall | ⟨v, p, hv, hp, hvp⟩
  · exact Or.inl hpipe
  · exact Or.inr (Or.inl hcall)
  · refine Or.inr (Or.inr ⟨v, p, hv, hp, ?_⟩)
    rcases hp with hp | hp
    · exact hawake v p hvp hp
    · exact hok v p hvp hp

/-- Another worker goes on. -/
theorem Guarded.go (h : g.Guarded (fun v _ => v ≠ w)) : (g.go w q).Guarded (fun _ _ => True) := by
  rcases h with hpipe | hcall | ⟨v, p, hv, hp, hvw⟩
  · exact Or.inl hpipe
  · exact Or.inr (Or.inl hcall)
  · exact Or.inr (Or.inr ⟨v, p, (List.getElem?_set_ne hvw.symm).trans hv, hp, trivial⟩)

/-- The guards are still there when the timers change, or the clock, or the calls. -/
theorem Guarded.transfer (h : g.Guarded ok) (hworkers : g'.workers = g.workers) (hpipe : g.pipe ≤ g'.pipe)
    (hcalls : ∀ c ∈ g.calls, c.wakes = true → ∃ c ∈ g'.calls, c.wakes = true)
    (htime : ∀ v p, ok v p → g.InTime p → g'.InTime p) : g'.Guarded (fun _ _ => True) := by
  rcases h with hpos | ⟨c, hc, hwakes⟩ | ⟨v, p, hv, hp, hvp⟩
  · exact Or.inl (Nat.lt_of_lt_of_le hpos hpipe)
  · exact Or.inr (Or.inl (hcalls c hc hwakes))
  · refine Or.inr (Or.inr ⟨v, p, hworkers ▸ hv, ?_, trivial⟩)
    exact hp.imp_right (htime v p hvp)

theorem wakes_goCall (hc : g.calls[i]? = some c) (hwakes : c.wakes = false) :
    ∀ e ∈ g.calls, e.wakes = true → ∃ e ∈ (g.goCall i d).calls, e.wakes = true := by
  intro e he hewakes
  refine ⟨e, mem_set_of_ne hc he ?_, hewakes⟩
  rintro rfl
  rw [hwakes] at hewakes
  cases hewakes

theorem wakes_append : ∀ e ∈ g.calls, e.wakes = true → ∃ e ∈ g.calls ++ [d], e.wakes = true :=
  fun e he hwakes => ⟨e, List.mem_append_left _ he, hwakes⟩

theorem sleeps_of_go (hq : q.sleeps g.now = none) (h : (g.go w q).Sleeps) : g.Sleeps := by
  obtain ⟨p, hp, hsleeps⟩ := h
  rcases List.mem_or_eq_of_mem_set hp with hp | rfl
  · exact ⟨p, hp, hsleeps⟩
  · have hsleeps' : (p.sleeps g.now).isSome = true := hsleeps
    rw [hq] at hsleeps'
    cases hsleeps'

/-! ## The steps -/

theorem Watched.go (h : g.Watched) (hp : g.workers[w]? = some p) (hcounted : q.counted = p.counted)
    (hguard : (g.go w q).Sleeps → (g.go w q).Guarded (fun _ _ => True)) : (g.go w q).Watched where
  keeps := h.keeps
  counted := by
    have hset := tally_set PollPoint.counted hp q
    have hcount := h.counted
    change g.idleThreadCount = tally PollPoint.counted (g.workers.set w q)
    omega
  guarded := hguard

/-- A worker comes to a point where he is awake. -/
theorem Watched.go_awake (h : g.Watched) (hp : g.workers[w]? = some p) (hcounted : q.counted = p.counted)
    (hq : q.awake = true) : (g.go w q).Watched :=
  h.go hp hcounted fun _ => guarded_go hp hq

/-- The timers change, and it is still somebody in time for them. -/
theorem Watched.setTimers (h : g.Watched) (hkeeps : timers.Keeps [])
    (hsub : ∀ e, timers.HasDeadline e → g.timers.HasDeadline e) : (g.setTimers timers).Watched where
  keeps := hkeeps
  counted := h.counted
  guarded := fun hs => (h.guarded hs).transfer rfl (Nat.le_refl _) (fun e he hwakes => ⟨e, he, hwakes⟩)
    fun _ _ _ ⟨since, timeout, hsleeps, hpos, hcap, hd⟩ =>
      ⟨since, timeout, hsleeps, hpos, hcap, fun e he => hd e (hsub e he)⟩

/-- Who is in time for the timers there are, and for a new deadline. -/
theorem InTime.insert (h : g.InTime p) {e : ℕ} (hsub : ∀ d, timers.HasDeadline d →
    g.timers.HasDeadline d ∨ d = e) (he : p.EndsBy g.now e) : (g.setTimers timers).InTime p := by
  obtain ⟨since, timeout, hsleeps, hpos, hcap, hd⟩ := h
  refine ⟨since, timeout, hsleeps, hpos, hcap, fun d hdead => ?_⟩
  rcases hsub d hdead with hold | rfl
  · exact hd d hold
  · exact he since timeout hsleeps

/-- What is in time for an earlier deadline is in time for a later one. -/
theorem InTime.endsBy (h : g.InTime p) {e : ℕ} (he : ∃ d, g.timers.HasDeadline d ∧ d ≤ e) :
    p.EndsBy g.now e := by
  obtain ⟨since, timeout, hsleeps, -, -, hd⟩ := h
  obtain ⟨d, hdead, hle⟩ := he
  intro since' timeout' hsleeps'
  rw [hsleeps] at hsleeps'
  cases hsleeps'
  exact le_trans (hd d hdead) (by exact_mod_cast hle)

/-- A timer is inserted; if it comes first, a call goes on to wake somebody, unless `m_tickled` is
set. -/
theorem Watched.insertion (h : g.Watched) {atFront : Bool} {e : ℕ} {calls : List (InsertPoint κ)}
    (hkeeps : timers.Keeps [])
    (hsub : ∀ d, timers.HasDeadline d → g.timers.HasDeadline d ∨ d = e)
    (hbehind : g.timers.tickled = false → atFront = false → ∃ d, g.timers.HasDeadline d ∧ d ≤ e)
    (hspared : g.timers.tickled = true → g.Sleeps → g.Guarded (fun _ p => p.EndsBy g.now e))
    (hfront : atFront = true → ∃ c ∈ calls, c.wakes = true)
    (hcalls : ∀ c ∈ g.calls, c.wakes = true → ∃ c ∈ calls, c.wakes = true) :
    ({ g.setTimers timers with calls := calls }).Watched where
  keeps := hkeeps
  counted := h.counted
  guarded := by
    intro hs
    cases hatFront : atFront with
    | true => exact Or.inr (Or.inl (hfront hatFront))
    | false =>
      cases htickled : g.timers.tickled with
      | true =>
        exact (hspared htickled hs).transfer rfl (Nat.le_refl _) hcalls
          fun _ _ hends hin => hin.insert hsub hends
      | false =>
        exact (h.guarded hs).transfer rfl (Nat.le_refl _) hcalls
          fun _ _ _ hin => hin.insert hsub (hin.endsBy (hbehind htickled hatFront))

theorem wakes_behind {atFront : Bool} (h : atFront = true) :
    (behind (κ := κ) atFront).wakes = true := by
  rw [h]
  rfl

theorem Watched.insert (h : g.Watched) {addr now_ms : ℕ} {cb : κ} {recurring : Bool}
    (hc : g.calls[i]? = some (.inserting addr ms cb recurring now_ms))
    (haddr : ∀ j t, g.timers.objects j = some t → t.addr ≠ addr) (hspared : g.Spared (.insert i)) :
    (g.insert i addr ms cb recurring now_ms).Watched := by
  obtain ⟨hkeeps, hobj, -⟩ := TimerManager.addTimer_spec h.keeps ms now_ms recurring cb haddr
  have hlt := (List.getElem?_eq_some_iff.mp hc).1
  exact h.insertion hkeeps (fun d hd => h.keeps.hasDeadline_update hkeeps hobj hd)
    (TimerManager.addTimer_behind h.keeps haddr) (hspared addr ms cb recurring now_ms hc)
    (fun hfront => ⟨_, List.mem_set hlt _, wakes_behind hfront⟩) (wakes_goCall hc rfl)

theorem Watched.reset (h : g.Watched) {j : ℕ} {fromNow done atFront : Bool}
    (hc : g.timers.reset j ms fromNow g.now = some (done, atFront, timers))
    (hspared : g.Spared (.reset j ms fromNow)) :
    ({ g.setTimers timers with calls := g.calls ++ [behind atFront] }).Watched := by
  rcases TimerManager.reset_cases h.keeps hc with ⟨rfl, rfl⟩ |
    ⟨t, e, ht, hcb, hchange, rfl, hkeeps, hsub, hbehind⟩
  · exact ⟨h.keeps, h.counted, fun hs => (h.guarded hs).transfer rfl (Nat.le_refl _) wakes_append
      fun _ _ _ hin => hin⟩
  · exact h.insertion hkeeps hsub hbehind (hspared t ht hcb hchange)
      (fun hfront => ⟨_, List.mem_append_right _ List.mem_cons_self, wakes_behind hfront⟩) wakes_append

theorem Watched.test (h : g.Watched) (hc : g.calls[i]? = some .tickling) : (g.test i).Watched := by
  rw [TimerTickler.test]
  split
  · exact ⟨h.keeps, h.counted, fun _ => guarded_goCall hc rfl⟩
  · rename_i hidle
    exact ⟨h.keeps, h.counted, fun hs => absurd hs (h.not_sleeps hidle)⟩

/-- A worker counts himself in or out, and is awake. -/
theorem Watched.recount (h : g.Watched) (hp : g.workers[w]? = some p) (hq : q.awake = true) {n : ℕ}
    (hn : n + p.counted = g.idleThreadCount + q.counted) :
    ({ g with idleThreadCount := n }.go w q).Watched where
  keeps := h.keeps
  counted := by
    have hset := tally_set PollPoint.counted hp q
    have hcount := h.counted
    change n = tally PollPoint.counted (g.workers.set w q)
    omega
  guarded := fun _ => guarded_go (g := { g with idleThreadCount := n }) hp hq

/-- The worker that goes on is as good a guard as before. -/
theorem Guarded.go_same (h : g.Guarded ok) (hp : g.workers[w]? = some p)
    (hq : p.awake = true ∨ g.InTime p → q.awake = true ∨ g.InTime q) :
    (g.go w q).Guarded (fun _ _ => True) := by
  rcases h with hpipe | hcall | ⟨v, r, hv, hr, -⟩
  · exact Or.inl hpipe
  · exact Or.inr (Or.inl hcall)
  · by_cases hvw : v = w
    · subst hvw
      have hlt := (List.getElem?_eq_some_iff.mp hp).1
      rw [hp] at hv
      cases hv
      exact Or.inr (Or.inr ⟨v, q, List.getElem?_set_self hlt, hq hr, trivial⟩)
    · exact Or.inr (Or.inr ⟨v, r, (List.getElem?_set_ne (Ne.symm hvw)).trans hv, hr, trivial⟩)

theorem guarded_inTime (hp : g.workers[w]? = some p) (hq : g.InTime q) :
    (g.go w q).Guarded (fun _ _ => True) := by
  have hlt := (List.getElem?_eq_some_iff.mp hp).1
  exact Or.inr (Or.inr ⟨w, q, List.getElem?_set_self hlt, Or.inr hq, trivial⟩)

/-- `epoll_wait` is called for no longer than the next timer takes, and than the cap. -/
theorem nextTimeout_le (ms : ℕ) :
    toInt (nextTimeout ms) ≤ 3000 ∧ toInt (nextTimeout ms) ≤ ms := by
  have hcap : toInt 3000 = 3000 := toInt_eq (n := 3000) (by decide)
  have hle := toInt_le ms
  rw [nextTimeout]
  split
  · split
    · rw [Nat.cast_ofNat, hcap]
      omega
    · omega
  · rw [Nat.cast_ofNat, hcap]
    omega

theorem Watched.getNextTimer (h : g.Watched) (hp : g.workers[w]? = some .idling)
    (hnext : g.timers.getNextTimer g.now = some (ms, timers)) (hspared : g.Spared (.getNextTimer w)) :
    ((g.setTimers timers).go w (.polling (nextTimeout ms))).Watched := by
  obtain ⟨rfl, hdead⟩ := TimerManager.getNextTimer_spec h.keeps hnext
  have hkeeps : TimerManager.Keeps [] { g.timers with tickled := false } :=
    ⟨h.keeps.sorted, h.keeps.member, h.keeps.distinct, h.keeps.fresh⟩
  have hset := h.setTimers hkeeps (fun e he => he)
  refine hset.go hp rfl fun _ => ?_
  rcases lt_trichotomy (toInt (nextTimeout ms)) 0 with hneg | hzero | hpos
  · exact (hspared ms _ hnext hneg).go.transfer rfl (Nat.le_refl _)
      (fun c hc hwakes => ⟨c, hc, hwakes⟩) (fun _ _ _ hin => hin)
  · exact guarded_go (g := g.setTimers _) hp (decide_eq_true hzero)
  · have hne : ms ≠ 0 := by
      rintro rfl
      exact absurd hpos (by decide)
    obtain ⟨hcap, hle⟩ := nextTimeout_le ms
    refine guarded_inTime (g := g.setTimers _) hp
      ⟨g.now, toInt (nextTimeout ms), if_neg (ne_of_gt hpos), le_of_lt hpos, hcap, fun d hd => ?_⟩
    have hend := hdead.resolve_left hne d hd
    omega

theorem Watched.epollWait (h : g.Watched) {next_timeout : ℕ}
    (hp : g.workers[w]? = some (.polling next_timeout)) : (g.epollWait w next_timeout).Watched := by
  rw [TimerTickler.epollWait]
  split
  · exact h.go_awake hp rfl rfl
  · rename_i htimeout
    have hsleeps : (PollPoint.polling next_timeout).sleeps g.now = some (g.now, toInt next_timeout) :=
      if_neg htimeout
    refine h.go hp rfl fun _ => ?_
    refine (h.guarded ⟨_, List.mem_of_getElem? hp, by rw [hsleeps]; rfl⟩).go_same hp ?_
    rintro (hawake | ⟨since, timeout, hsleeps', hin⟩)
    · exact absurd (of_decide_eq_true hawake) htimeout
    · rw [hsleeps] at hsleeps'
      cases hsleeps'
      exact Or.inr ⟨g.now, toInt next_timeout, rfl, hin⟩

theorem Watched.interrupt (h : g.Watched) {since next_timeout : ℕ}
    (hp : g.workers[w]? = some (.blocked since next_timeout)) (hspared : g.Spared (.interrupt w)) :
    (g.go w (.polling (nextTimeout next_timeout))).Watched := by
  refine h.go hp rfl fun _ => ?_
  rcases hspared since next_timeout hp with hothers | hin
  · exact hothers.go
  · exact guarded_inTime hp hin

theorem sleeps_tick {now since : ℕ} {timeout : ℤ} (h : p.sleeps now = some (since, timeout)) (now' : ℕ) :
    ∃ since', p.sleeps now' = some (since', timeout) := by
  cases p with
  | polling next_timeout =>
    rw [PollPoint.sleeps] at h ⊢
    split at h
    · cases h
    · rename_i htimeout
      cases h
      exact ⟨now', if_neg htimeout⟩
  | blocked _ _ =>
    cases h
    exact ⟨since, rfl⟩
  | _ => cases h

theorem Watched.tick (h : g.Watched) {now : ℕ} (hspared : g.Spared (.tick now)) :
    ({ g with now := now }).Watched where
  keeps := h.keeps
  counted := h.counted
  guarded := by
    rintro ⟨p, hp, hsome⟩
    obtain ⟨⟨since, timeout⟩, hsleeps⟩ := Option.isSome_iff_exists.mp hsome
    obtain ⟨since', hsleeps'⟩ := sleeps_tick hsleeps g.now
    have hs : g.Sleeps := ⟨p, hp, by rw [hsleeps']; rfl⟩
    refine (hspared hs).transfer rfl (Nat.le_refl _) (fun c hc hwakes => ⟨c, hc, hwakes⟩) ?_
    rintro v q hends ⟨since, timeout, hsleeps, hpos, hcap, -⟩
    obtain ⟨since', hsleeps'⟩ := sleeps_tick hsleeps now
    exact ⟨since', timeout, hsleeps', hpos, hcap, fun d hd => hends d hd since' timeout hsleeps'⟩

theorem Watched.release (h : g.Watched) {j : ℕ} (hc : g.timers.release j = some timers) :
    (g.setTimers timers).Watched := by
  rw [TimerManager.release] at hc
  split at hc
  · cases hc
  · rename_i hnot
    cases hc
    refine h.setTimers (h.keeps.release hnot) ?_
    rintro e ⟨k, hk, t, ht, hnext⟩
    have hkj : k ≠ j := fun heq => hnot (heq ▸ hk)
    exact ⟨k, hk, t, (Function.update_of_ne hkj ..).symm.trans ht, hnext⟩

theorem Watched.step (h : g.Watched) (hs : Step g a g') (hspared : g.Spared a) : g'.Watched := by
  cases hs with
  | addTimer addr ms cb recurring =>
    exact ⟨h.keeps, h.counted, fun hs => (h.guarded hs).transfer rfl (Nat.le_refl _) wakes_append
      fun _ _ _ hin => hin⟩
  | insert hc haddr => exact h.insert hc haddr hspared
  | reset hc => exact h.reset hc hspared
  | test hc => exact h.test hc
  | write hc => exact ⟨h.keeps, h.counted, fun _ => Or.inl (Nat.succ_pos _)⟩
  | byte => exact ⟨h.keeps, h.counted, fun _ => Or.inl (Nat.succ_pos _)⟩
  | stopping hnext =>
    obtain ⟨rfl, -⟩ := TimerManager.getNextTimer_spec h.keeps hnext
    exact h.setTimers ⟨h.keeps.sorted, h.keeps.member, h.keeps.distinct, h.keeps.fresh⟩ (fun e he => he)
  | release hc => exact h.release hc
  | tick hle => exact h.tick hspared
  | take hp => exact h.go hp rfl fun hs => (hspared (sleeps_of_go rfl hs)).go
  | finish hp => exact h.go_awake hp rfl rfl
  | findNothing hp => exact h.go_awake hp rfl rfl
  | count hp => exact h.recount hp rfl rfl
  | getNextTimer hp hnext => exact h.getNextTimer hp hnext hspared
  | epollWait hp => exact h.epollWait hp
  | interrupt hp => exact h.interrupt hp hspared
  | wake hp => exact h.go_awake hp rfl rfl
  | readClock hp => exact h.go_awake hp rfl rfl
  | listExpiredCb hp hexpired =>
    exact ⟨h.keeps.listExpiredCb hexpired, (h.go_awake (q := .expired) hp rfl rfl).counted,
      fun _ => guarded_go (g := g.setTimers _) hp rfl⟩
  | drain hp =>
    exact ⟨h.keeps, h.counted, fun _ => Or.inr (Or.inr ⟨_, _, hp, Or.inl rfl, trivial⟩)⟩
  | uncount hp =>
    have hle := le_tally PollPoint.counted (List.mem_of_getElem? hp)
    have hcount := h.counted
    refine h.recount hp rfl ?_
    change 1 ≤ _ at hle
    change g.idleThreadCount - 1 + 1 = g.idleThreadCount + 0
    omega

theorem watched_start (n now : ℕ) : (start (κ := κ) n now).Watched where
  keeps := TimerManager.keeps_new now
  counted := by
    simp [start, tally, PollPoint.counted]
  guarded := by
    rintro ⟨p, hp, hsleeps⟩
    rw [List.eq_of_mem_replicate hp] at hsleeps
    cases hsleeps

/-- In a run that loses nobody, somebody wakes up in time for the earliest timer. -/
theorem timers_attended {n now : ℕ} {as : List (TimerTickleAction κ)}
    (h : Run (fun g a g' => Step g a g' ∧ g.Spared a) (start n now) as g) : g.Attended := by
  have hwatched : g.Watched :=
    h.keeps (P := Watched) (fun _ _ _ ht hs => ht.step hs.1 hs.2) (watched_start n now)
  exact hwatched.attended

/-- A timer is added while the only worker is blocked, and he waits for it. -/
theorem added_attended : ∃ as g, Run Step (start (κ := ℕ) 1 0) as g ∧ g.workers = [.blocked 0 100] ∧
    g.timers.HasDeadline 100 ∧ g.Attended := by
  have hrun : Run (fun g a g' => Step g a g' ∧ g.Spared a) (start (κ := ℕ) 1 0) [] (start 1 0) := .nil
  have hrun := hrun.snoc ⟨.findNothing (w := 0) rfl, trivial⟩
  have hrun := hrun.snoc ⟨.count (w := 0) rfl, trivial⟩
  have hrun := hrun.snoc ⟨.getNextTimer (w := 0) rfl rfl, fun _ _ hnext hneg => by
    cases hnext
    exact absurd hneg (by decide)⟩
  have hrun := hrun.snoc ⟨.epollWait (w := 0) rfl, trivial⟩
  have hrun := hrun.snoc ⟨.addTimer 1 100 7 false, trivial⟩
  have hrun := hrun.snoc ⟨.insert (i := 0) rfl (fun _ _ ht => by cases ht),
    fun _ _ _ _ _ _ htickled => by cases htickled⟩
  have hrun := hrun.snoc ⟨.test (i := 0) rfl, trivial⟩
  have hrun := hrun.snoc ⟨.write (i := 0) rfl, trivial⟩
  have hrun := hrun.snoc ⟨.wake (w := 0) rfl, trivial⟩
  have hrun := hrun.snoc ⟨.readClock (w := 0) rfl, trivial⟩
  have hrun := hrun.snoc ⟨@Step.listExpiredCb _ _ 0 2 _ _ _ rfl rfl, trivial⟩
  have hrun := hrun.snoc ⟨.drain (w := 0) rfl, trivial⟩
  have hrun := hrun.snoc ⟨.uncount (w := 0) rfl, trivial⟩
  have hrun := hrun.snoc ⟨.findNothing (w := 0) rfl, trivial⟩
  have hrun := hrun.snoc ⟨.count (w := 0) rfl, trivial⟩
  have hrun := hrun.snoc ⟨.getNextTimer (w := 0) rfl rfl, fun _ _ hnext hneg => by
    cases hnext
    exact absurd hneg (by decide)⟩
  have hrun := hrun.snoc ⟨.epollWait (w := 0) rfl, trivial⟩
  have hsteps := hrun.keeps_history (P := fun as g => Run Step (start 1 0) as g)
    (fun _ _ _ _ ht hs => ht.snoc hs.1) .nil
  exact ⟨_, _, hsteps, rfl, ⟨0, List.mem_cons_self, _, rfl, rfl⟩, timers_attended hrun⟩

/-- The worker that is woken for a timer takes a task, and the other one sleeps on. -/
theorem overslept : ¬ ∀ n now as (g : TimerTickler ℕ), Run Step (start n now) as g → g.Attended := by
  intro hall
  have hrun := Run.nil.snoc (s := start (κ := ℕ) 2 0) (Step.findNothing (w := 0) rfl)
  have hrun := hrun.snoc (.count (w := 0) rfl)
  have hrun := hrun.snoc (.getNextTimer (w := 0) rfl rfl)
  have hrun := hrun.snoc (.epollWait (w := 0) rfl)
  have hrun := hrun.snoc (.findNothing (w := 1) rfl)
  have hrun := hrun.snoc (.count (w := 1) rfl)
  have hrun := hrun.snoc (.getNextTimer (w := 1) rfl rfl)
  have hrun := hrun.snoc (.epollWait (w := 1) rfl)
  have hrun := hrun.snoc (.addTimer 1 100 7 false)
  have hrun := hrun.snoc (.insert (i := 0) rfl (fun _ _ ht => by cases ht))
  have hrun := hrun.snoc (.test (i := 0) rfl)
  have hrun := hrun.snoc (.write (i := 0) rfl)
  have hrun := hrun.snoc (.wake (w := 0) rfl)
  have hrun := hrun.snoc (.readClock (w := 0) rfl)
  have hrun := hrun.snoc (@Step.listExpiredCb _ _ 0 2 _ _ _ rfl rfl)
  have hrun := hrun.snoc (.drain (w := 0) rfl)
  have hrun := hrun.snoc (.uncount (w := 0) rfl)
  have hrun := hrun.snoc (.take (w := 0) rfl)
  have hworkers : ∀ p ∈ [PollPoint.executing, .blocked 0 3000],
      p = .executing ∨ ∃ since next_timeout, p = .blocked since next_timeout := by
    intro p hp
    rcases List.mem_pair.mp hp with rfl | rfl
    · exact Or.inl rfl
    · exact Or.inr ⟨0, 3000, rfl⟩
  rcases hall 2 0 _ _ hrun hworkers (fun c hc => List.mem_singleton.mp hc)
    ⟨0, 3000, List.mem_cons_of_mem _ List.mem_cons_self⟩ with hpipe | ⟨since, next, hmem, -, -, hd⟩
  · exact absurd hpipe (by decide)
  · have hblocked : PollPoint.blocked since next = .blocked 0 3000 :=
      (List.mem_pair.mp hmem).resolve_left (by rintro ⟨⟩)
    cases hblocked
    have hend := hd 100 ⟨0, List.mem_cons_self, _, rfl, rfl⟩
    exact absurd hend (by decide)

end TimerTickler
end Flz
