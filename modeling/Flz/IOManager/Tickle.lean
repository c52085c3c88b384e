import Flz.Lib.Tally
import Flz.Scheduler.Model

/-! # Wakeups for tasks

How `schedule()` wakes the workers of an `IOManager`: `Scheduler::run` of `src/scheduler.cc` with
`tickle()` and `idle()` of `src/iomanager.cc`. A section under the lock is one step, and so is every
access to what threads share outside of it. Workers are threads by number. Nobody calls `stop()`,
so that `stopping()` says no.
-/
namespace Flz
open Lib

/-- Where a worker is. -/
inductive WakePoint
  | top
  /-- In `tickle()`, behind a scan that has found an entry or not, before the idle threads are
  looked at. -/
  | tickling (found : Option Entry)
  /-- In `tickle()`, before the byte is written. -/
  | writing (found : Option Entry)
  | chosen (e : Entry)
  /-- In the code of a fiber. -/
  | executing (f : ℕ)
  /-- Behind `swapIn()`. -/
  | returning (f : ℕ)
  /-- Behind a scan in vain, before `++m_idleThreadCount`. -/
  | nothing
  /-- In `idle()`, before `stopping()`. -/
  | idling
  /-- Before `epoll_wait`. -/
  | polling
  | blocked
  /-- Behind `epoll_wait`, up to `--m_idleThreadCount`. -/
  | woken
  deriving DecidableEq, Repr

/-- From its scan in vain on a worker waits for a wakeup. -/
def WakePoint.waits : WakePoint → Bool
  | .nothing | .idling | .polling | .blocked => true
  | _ => false

/-- The worker is about to scan the queue, or to wake another. -/
def WakePoint.awake : WakePoint → Bool
  | .top | .tickling _ | .writing _ | .returning _ | .woken => true
  | _ => false

def WakePoint.settled : WakePoint → Bool
  | .executing _ | .blocked => true
  | _ => false

/-- Behind a scan. -/
def WakePoint.behind : Option Entry → WakePoint
  | some e => .chosen e
  | none => .nothing

/-- Where a call of `schedule()` is. -/
inductive SchedulePoint
  | pushing (es : List Entry)
  /-- In `tickle()`, before the idle threads are looked at. -/
  | tickling
  /-- In `tickle()`, before the byte is written. -/
  | writing
  | ended
  deriving DecidableEq, Repr

def SchedulePoint.wakes : SchedulePoint → Bool
  | .tickling | .writing => true
  | _ => false

/-- `running` tells the fibers that are `RUNNING`, and `pipe` counts the bytes that are unread. -/
structure Tickler where
  fibers : List Entry
  running : ℕ → Bool
  idleThreadCount : ℕ
  pipe : ℕ
  workers : List WakePoint
  calls : List SchedulePoint

/-- Steps, of call `i` or worker `w`. -/
inductive TickleAction
  | schedule (es : List Entry)
  | push (i : ℕ)
  | test (i : ℕ)
  | write (i : ℕ)
  | scan (w : ℕ)
  | testIdle (w : ℕ)
  | writeByte (w : ℕ)
  | drop (w : ℕ)
  | swapIn (w f : ℕ)
  | leave (w : ℕ) (ready : Bool)
  | settle (w : ℕ)
  | count (w : ℕ)
  | stopping (w : ℕ)
  | epollWait (w : ℕ)
  | wake (w : ℕ)
  | drain (w : ℕ)
  | uncount (w : ℕ)
  deriving DecidableEq, Repr

namespace Tickler

/-- `n` workers that enter `run()`. -/
def start (n : ℕ) : Tickler where
  fibers := []
  running _ := false
  idleThreadCount := 0
  pipe := 0
  workers := List.replicate n .top
  calls := []

def go (g : Tickler) (w : ℕ) (p : WakePoint) : Tickler := { g with workers := g.workers.set w p }

def goCall (g : Tickler) (i : ℕ) (p : SchedulePoint) : Tickler := { g with calls := g.calls.set i p }

def setRunning (g : Tickler) (f : ℕ) (b : Bool) : Tickler :=
  { g with running := Function.update g.running f b }

/-- The task is a fiber that is running. -/
def busy (g : Tickler) (e : Entry) : Bool :=
  match e.task with
  | .fiber f => g.running f
  | .cb _ => false

/-- Worker `w` may run an entry. -/
def suits (g : Tickler) (w : ℕ) (e : Entry) : Bool :=
  (e.thread == none || e.thread == some w) && !g.busy e

/-- The scan of `m_fibers`: `tickle_me`, and the entry that is chosen with the others. -/
def scan (busy : Entry → Bool) (w : ℕ) : List Entry → Bool × Option (Entry × List Entry)
  | [] => (false, none)
  | e :: fibers =>
    if e.thread ≠ none ∧ e.thread ≠ some w then
      let (_, found) := scan busy w fibers
      (true, found.map fun (chosen, others) => (chosen, e :: others))
    else if busy e then
      let (tickleMe, found) := scan busy w fibers
      (tickleMe, found.map fun (chosen, others) => (chosen, e :: others))
    else (!fibers.isEmpty, some (e, fibers))

/-- The section of `run()`. -/
def pop (g : Tickler) (w : ℕ) : Tickler :=
  let (tickleMe, found) := scan g.busy w g.fibers
  let next := found.map Prod.fst
  { g with fibers := (found.map Prod.snd).getD g.fibers }.go w
    (if tickleMe then .tickling next else .behind next)

/-- The section of `schedule()`; `need_tickle` is set by the first entry of an empty queue. -/
def push (g : Tickler) (i : ℕ) (es : List Entry) : Tickler :=
  { g with fibers := g.fibers ++ es }.goCall i
    (if g.fibers.isEmpty && !es.isEmpty then .tickling else .ended)

/-- `hasIdleThreads()` in `tickle()`. -/
def test (g : Tickler) (i : ℕ) : Tickler :=
  if g.idleThreadCount > 0 then g.goCall i .writing else g.goCall i .ended

def write (g : Tickler) (i : ℕ) : Tickler := { g with pipe := g.pipe + 1 }.goCall i .ended

def testIdle (g : Tickler) (w : ℕ) (found : Option Entry) : Tickler :=
  if g.idleThreadCount > 0 then g.go w (.writing found) else g.go w (.behind found)

def writeByte (g : Tickler) (w : ℕ) (found : Option Entry) : Tickler :=
  { g with pipe := g.pipe + 1 }.go w (.behind found)

/-- `Fiber::swapIn()`. -/
def swapIn (g : Tickler) (w f : ℕ) : Tickler :=
  if g.running f then g.go w (.returning f) else (g.setRunning f true).go w (.executing f)

/-- The fiber swaps out; a fiber that is ready or has ended is not running any more. -/
def leave (g : Tickler) (w f : ℕ) (ready : Bool) : Tickler :=
  (if ready then g.setRunning f false else g).go w (.returning f)

/-- The state of the fiber is tested, and set. -/
def settle (g : Tickler) (w f : ℕ) : Tickler := (g.setRunning f false).go w .top

def count (g : Tickler) (w : ℕ) : Tickler :=
  { g with idleThreadCount := g.idleThreadCount + 1 }.go w .idling

def uncount (g : Tickler) (w : ℕ) : Tickler :=
  { g with idleThreadCount := g.idleThreadCount - 1 }.go w .top

/-- A step, of a call or a worker from the point where it is; a fiber that has ended is dropped, and
a callback runs in a fiber of the worker. -/
inductive Step : Tickler → TickleAction → Tickler → Prop
  | schedule {g : Tickler} (es : List Entry) :
    Step g (.schedule es) { g with calls := g.calls ++ [.pushing es] }
  | push {g : Tickler} {i : ℕ} {es : List Entry} (h : g.calls[i]? = some (.pushing es)) :
    Step g (.push i) (g.push i es)
  | test {g : Tickler} {i : ℕ} (h : g.calls[i]? = some .tickling) : Step g (.test i) (g.test i)
  | write {g : Tickler} {i : ℕ} (h : g.calls[i]? = some .writing) : Step g (.write i) (g.write i)
  | scan {g : Tickler} {w : ℕ} (h : g.workers[w]? = some .top) : Step g (.scan w) (g.pop w)
  | testIdle {g : Tickler} {w : ℕ} {found : Option Entry} (h : g.workers[w]? = some (.tickling found)) :
    Step g (.testIdle w) (g.testIdle w found)
  | writeByte {g : Tickler} {w : ℕ} {found : Option Entry} (h : g.workers[w]? = some (.writing found)) :
    Step g (.writeByte w) (g.writeByte w found)
  | drop {g : Tickler} {w : ℕ} {e : Entry} (h : g.workers[w]? = some (.chosen e)) :
    Step g (.drop w) (g.go w .top)
  | swapIn {g : Tickler} {w f : ℕ} {e : Entry} (h : g.workers[w]? = some (.chosen e))
    (hf : ∀ k, e.task = .fiber k → f = k) : Step g (.swapIn w f) (g.swapIn w f)
  | leave {g : Tickler} {w f : ℕ} (ready : Bool) (h : g.workers[w]? = some (.executing f)) :
    Step g (.leave w ready) (g.leave w f ready)
  | settle {g : Tickler} {w f : ℕ} (h : g.workers[w]? = some (.returning f)) :
    Step g (.settle w) (g.settle w f)
  | count {g : Tickler} {w : ℕ} (h : g.workers[w]? = some .nothing) : Step g (.count w) (g.count w)
  | stopping {g : Tickler} {w : ℕ} (h : g.workers[w]? = some .idling) :
    Step g (.stopping w) (g.go w .polling)
  | epollWait {g : Tickler} {w : ℕ} (h : g.workers[w]? = some .polling) :
    Step g (.epollWait w) (g.go w .blocked)
  | wake {g : Tickler} {w : ℕ} (h : g.workers[w]? = some .blocked) : Step g (.wake w) (g.go w .woken)
  | drain {g : Tickler} {w : ℕ} (h : g.workers[w]? = some .woken) : Step g (.drain w) { g with pipe := 0 }
  | uncount {g : Tickler} {w : ℕ} (h : g.workers[w]? = some .woken) : Step g (.uncount w) (g.uncount w)

/-- Between the calls, with each worker blocked or executing a task, nobody is blocked who may run
an entry, unless there is a byte to wake him. -/
def Awakened (g : Tickler) : Prop :=
  (∀ p ∈ g.workers, p.settled = true) → (∀ c ∈ g.calls, c = .ended) →
    ∀ w, g.workers[w]? = some .blocked → ∀ e ∈ g.fibers, g.suits w e = true → 0 < g.pipe

/-- A wakeup is on its way: a byte, a `tickle()`, or a worker that will scan the queue. -/
def OnItsWay (g : Tickler) : Prop :=
  0 < g.pipe ∨ (∃ c ∈ g.calls, c.wakes = true) ∨ ∃ p ∈ g.workers, p.awake = true

/-- Worker `w` waits although it may run an entry. -/
def Starves (g : Tickler) (w : ℕ) : Prop :=
  (∃ p, g.workers[w]? = some p ∧ p.waits = true) ∧ ∃ e ∈ g.fibers, g.suits w e = true

/-- Nobody is overlooked: `tickle()` does not find no idle thread while a worker is about to wait
that may run an entry, and what comes behind other entries may not be run by a worker that waits,
unless a wakeup is on its way besides. -/
def Spared (g : Tickler) : TickleAction → Prop
  | .push i => ∀ es, g.calls[i]? = some (.pushing es) → g.fibers ≠ [] →
    ∀ (w : ℕ) p, g.workers[w]? = some p → p.waits = true → ∀ e ∈ es, g.suits w e = true → g.OnItsWay
  | .test i => g.idleThreadCount = 0 → ∀ w, g.Starves w → (g.goCall i .ended).OnItsWay
  | .testIdle v => g.idleThreadCount = 0 → ∀ found, g.workers[v]? = some (.tickling found) →
    ∀ w, (g.go v (.behind found)).Starves w → (g.go v (.behind found)).OnItsWay
  | _ => True

/-- The invariant: for everybody who waits and may run an entry a wakeup is on its way. -/
def Covered (g : Tickler) : Prop := ∀ w, g.Starves w → g.OnItsWay

variable {g g' : Tickler} {a : TickleAction} {i w f : ℕ} {p q : WakePoint} {c d : SchedulePoint}
  {e : Entry} {es : List Entry} {found : Option Entry}

theorem awake_eq_false (h : p.settled = true) : p.awake = false := by
  cases p <;> simp_all [WakePoint.settled, WakePoint.awake]

theorem Covered.awakened (h : g.Covered) : g.Awakened := by
  intro hworkers hcalls w hw e he hsuits
  rcases h w ⟨⟨.blocked, hw, rfl⟩, e, he, hsuits⟩ with hpipe | ⟨c, hc, hwakes⟩ | ⟨p, hp, hawake⟩
  · exact hpipe
  · rw [hcalls c hc] at hwakes
    cases hwakes
  · rw [awake_eq_false (hworkers p hp)] at hawake
    cases hawake

/-! ## Wakeups -/

theorem onItsWay_go (hp : g.workers[w]? = some p) (hq : q.awake = true) : (g.go w q).OnItsWay := by
  have hlt := (List.getElem?_eq_some_iff.mp hp).1
  exact Or.inr (Or.inr ⟨q, List.mem_set hlt q, hq⟩)

theorem onItsWay_goCall (hc : g.calls[i]? = some c) (hd : d.wakes = true) : (g.goCall i d).OnItsWay := by
  have hlt := (List.getElem?_eq_some_iff.mp hc).1
  exact Or.inr (Or.inl ⟨d, List.mem_set hlt d, hd⟩)

/-- A worker that has not been awake is not missed as one. -/
theorem OnItsWay.go (h : g.OnItsWay) (hp : g.workers[w]? = some p) (hawake : p.awake = false) :
    (g.go w q).OnItsWay := by
  rcases h with hpipe | hcall | ⟨r, hr, hrawake⟩
  · exact Or.inl hpipe
  · exact Or.inr (Or.inl hcall)
  · refine Or.inr (Or.inr ⟨r, mem_set_of_ne hp hr ?_, hrawake⟩)
    rintro rfl
    rw [hawake] at hrawake
    cases hrawake

theorem OnItsWay.goCall (h : g.OnItsWay) (hc : g.calls[i]? = some c) (hwakes : c.wakes = false) :
    (g.goCall i d).OnItsWay := by
  rcases h with hpipe | ⟨r, hr, hrwakes⟩ | hworker
  · exact Or.inl hpipe
  · refine Or.inr (Or.inl ⟨r, mem_set_of_ne hc hr ?_, hrwakes⟩)
    rintro rfl
    rw [hwakes] at hrwakes
    cases hrwakes
  · exact Or.inr (Or.inr hworker)

theorem Covered.of_onItsWay (h : g.OnItsWay) : g.Covered := fun _ _ => h

/-! ## The steps -/

/-- A worker goes from one point where it waits, or runs a task, to another. -/
theorem Covered.go (h : g.Covered) (hp : g.workers[w]? = some p) (hawake : p.awake = false)
    (hwaits : q.waits = true → p.waits = true) : (g.go w q).Covered := by
  rintro v ⟨⟨r, hr, hrwaits⟩, hentry⟩
  refine (h v ⟨?_, hentry⟩).go hp hawake
  rw [Tickler.go, List.getElem?_set] at hr
  split at hr
  · rename_i hvw
    split at hr
    · obtain rfl := Option.some.inj hr
      exact ⟨p, hvw ▸ hp, hwaits hrwaits⟩
    · cases hr
  · exact ⟨r, hr, hrwaits⟩

/-- A worker may run no more entries when more fibers are running. -/
theorem Covered.setRunning (h : g.Covered) (f : ℕ) : (g.setRunning f true).Covered := by
  rintro v ⟨hv, e, he, hsuits⟩
  refine h v ⟨hv, e, he, ?_⟩
  simp only [suits, busy, Tickler.setRunning] at hsuits ⊢
  cases htask : e.task with
  | cb c =>
    rw [htask] at hsuits
    exact hsuits
  | fiber k =>
    rw [htask] at hsuits
    by_cases hk : k = f
    · rw [hk] at hsuits
      simp at hsuits
    · simpa only [Function.update_of_ne hk] using hsuits

/-- What a scan that does not tickle leaves behind are fibers that are running. -/
theorem scan_busy {busy : Entry → Bool} {fibers : List Entry} (h : (scan busy w fibers).1 = false) :
    ∀ e ∈ ((scan busy w fibers).2.map Prod.snd).getD fibers, busy e = true := by
  induction fibers with
  | nil =>
    intro e he
    cases he
  | cons e fibers ih =>
    rw [scan] at h ⊢
    split at h
    · cases h
    · rename_i hthread
      rw [if_neg hthread]
      split at h
      · rename_i hbusy
        rw [if_pos hbusy]
        have hrest := ih h
        cases hfound : (scan busy w fibers).2 with
        | none =>
          rw [hfound] at hrest
          simp only [hfound]
          intro d hd
          rcases List.mem_cons.mp hd with rfl | hd
          · exact hbusy
          · exact hrest d hd
        | some x =>
          rw [hfound] at hrest
          simp only [hfound]
          intro d hd
          rcases List.mem_cons.mp hd with rfl | hd
          · exact hbusy
          · exact hrest d hd
      · rename_i hbusy
        rw [if_neg hbusy]
        intro d hd
        have hempty : fibers = [] := by simpa using h
        rw [hempty] at hd
        cases hd

theorem covered_pop (hp : g.workers[w]? = some .top) : (g.pop w).Covered := by
  rw [pop]
  cases htickle : (scan g.busy w g.fibers).1 with
  | true =>
    simp only [htickle, if_true]
    exact .of_onItsWay (onItsWay_go hp rfl)
  | false =>
    have hbusy := scan_busy htickle
    simp only [htickle]
    rintro v ⟨-, e, he, hsuits⟩
    have hsuits' : g.suits v e = true := hsuits
    rw [suits, hbusy e he] at hsuits'
    simp at hsuits'

theorem Covered.push (h : g.Covered) (hc : g.calls[i]? = some (.pushing es))
    (hspared : g.Spared (.push i)) : (g.push i es).Covered := by
  rw [Tickler.push]
  by_cases hneed : (g.fibers.isEmpty && !es.isEmpty) = true
  · rw [if_pos hneed]
    exact .of_onItsWay (onItsWay_goCall hc rfl)
  · rw [if_neg hneed]
    rintro v ⟨⟨p, hp, hwaits⟩, e, he, hsuits⟩
    have hway : g.OnItsWay := by
      rcases List.mem_append.mp he with he | he
      · exact h v ⟨⟨p, hp, hwaits⟩, e, he, hsuits⟩
      · refine hspared es hc (fun hempty => hneed ?_) v p hp hwaits e he hsuits
        rw [hempty]
        cases es with
        | nil => cases he
        | cons _ _ => rfl
    exact hway.goCall hc rfl

theorem Covered.test (hc : g.calls[i]? = some .tickling) (hspared : g.Spared (.test i)) :
    (g.test i).Covered := by
  rw [Tickler.test]
  split
  · exact .of_onItsWay (onItsWay_goCall hc rfl)
  · rename_i hidle
    exact fun v hv => hspared (Nat.eq_zero_of_not_pos hidle) v hv

theorem Covered.testIdle (hp : g.workers[w]? = some (.tickling found)) (hspared : g.Spared (.testIdle w)) :
    (g.testIdle w found).Covered := by
  rw [Tickler.testIdle]
  split
  · exact .of_onItsWay (onItsWay_go hp rfl)
  · rename_i hidle
    exact fun v hv => hspared (Nat.eq_zero_of_not_pos hidle) found hp v hv

theorem Covered.swapIn (h : g.Covered) (hp : g.workers[w]? = some (.chosen e)) (f : ℕ) :
    (g.swapIn w f).Covered := by
  rw [Tickler.swapIn]
  split
  · exact .of_onItsWay (onItsWay_go hp rfl)
  · exact (h.setRunning f).go hp rfl (fun hwaits => by cases hwaits)

theorem Covered.step (h : g.Covered) (hs : Step g a g') (hspared : g.Spared a) : g'.Covered := by
  cases hs with
  | schedule es =>
    intro v hv
    rcases h v hv with hpipe | ⟨c, hc, hwakes⟩ | hworker
    · exact Or.inl hpipe
    · exact Or.inr (Or.inl ⟨c, List.mem_append_left _ hc, hwakes⟩)
    · exact Or.inr (Or.inr hworker)
  | push hc => exact h.push hc hspared
  | test hc => exact .test hc hspared
  | write hc => exact .of_onItsWay (Or.inl (Nat.succ_pos _))
  | scan hp => exact covered_pop hp
  | testIdle hp => exact .testIdle hp hspared
  | writeByte hp => exact .of_onItsWay (Or.inl (Nat.succ_pos _))
  | drop hp => exact .of_onItsWay (onItsWay_go hp rfl)
  | swapIn hp hf => exact h.swapIn hp _
  | leave ready hp =>
    rw [leave]
    cases ready <;> exact .of_onItsWay (onItsWay_go hp rfl)
  | settle hp => exact .of_onItsWay (onItsWay_go hp rfl)
  | count hp => exact h.go hp rfl (fun _ => rfl)
  | stopping hp => exact h.go hp rfl (fun _ => rfl)
  | epollWait hp => exact h.go hp rfl (fun _ => rfl)
  | wake hp => exact .of_onItsWay (onItsWay_go hp rfl)
  | drain hp => exact .of_onItsWay (Or.inr (Or.inr ⟨_, List.mem_of_getElem? hp, rfl⟩))
  | uncount hp => exact .of_onItsWay (onItsWay_go hp rfl)

theorem covered_start (n : ℕ) : (start n).Covered := by
  rintro w ⟨-, e, he, -⟩
  cases he

/-- In a run that overlooks nobody, no worker is left blocked that may run an entry. -/
theorem workers_awakened {n : ℕ} {as : List TickleAction}
    (h : Run (fun g a g' => Step g a g' ∧ g.Spared a) (start n) as g) : g.Awakened := by
  have hcovered : g.Covered :=
    h.keeps (P := Covered) (fun _ _ _ ht hs => ht.step hs.1 hs.2) (covered_start n)
  exact hcovered.awakened

/-- A task is scheduled for a worker that is blocked. -/
theorem blocked_awakened : ∃ as g, Run Step (start 1) as g ∧ g.workers = [.blocked] ∧
    g.fibers = [⟨0, .cb 0, none⟩] ∧ g.Awakened := by
  have hrun : Run (fun g a g' => Step g a g' ∧ g.Spared a) (start 1) [] (start 1) := .nil
  have hrun := hrun.snoc ⟨.scan (w := 0) rfl, trivial⟩
  have hrun := hrun.snoc ⟨.count (w := 0) rfl, trivial⟩
  have hrun := hrun.snoc ⟨.stopping (w := 0) rfl, trivial⟩
  have hrun := hrun.snoc ⟨.epollWait (w := 0) rfl, trivial⟩
  have hrun := hrun.snoc ⟨Step.schedule [⟨0, .cb 0, none⟩], trivial⟩
  have hrun := hrun.snoc ⟨.push (i := 0) rfl, fun _ _ hne => absurd rfl hne⟩
  have hrun := hrun.snoc ⟨.test (i := 0) rfl, fun hidle => absurd hidle (by decide)⟩
  have hrun := hrun.snoc ⟨.write (i := 0) rfl, trivial⟩
  have hsteps := hrun.keeps_history (P := fun as g => Run Step (start 1) as g)
    (fun _ _ _ _ ht hs => ht.snoc hs.1) .nil
  exact ⟨_, _, hsteps, rfl, rfl, workers_awakened hrun⟩

/-- A task is scheduled while the only worker goes from its scan to its sleep. -/
theorem overlooked : ¬ ∀ n as g, Run Step (start n) as g → g.Awakened := by
  intro hall
  have hrun := Run.nil.snoc (s := start 1) (Step.scan (w := 0) rfl)
  have hrun := hrun.snoc (Step.schedule [⟨0, .cb 0, none⟩])
  have hrun := hrun.snoc (.push (i := 0) rfl)
  have hrun := hrun.snoc (.test (i := 0) rfl)
  have hrun := hrun.snoc (.count (w := 0) rfl)
  have hrun := hrun.snoc (.stopping (w := 0) rfl)
  have hrun := hrun.snoc (.epollWait (w := 0) rfl)
  have hpipe := hall 1 _ _ hrun (by decide) (by decide) 0 rfl ⟨0, .cb 0, none⟩ (by decide) rfl
  exact absurd hpipe (by decide)

end Tickler
end Flz
