import Flz.Lib.Runs
import Flz.Lib.Tally

/-! # Thread pools

`ThreadPool` of `src/threadpool.cc`. A section under the lock is one step, and so is every access
to the semaphore or to the state outside of it. A task is the number of the call that enqueues it.
-/
namespace Flz
open Lib

inductive PoolState
  | STOP | RUNNING | STOPPING
  deriving DecidableEq, Repr

/-- Where a thread is in `m_loop`. -/
inductive LoopPoint
  /-- Before `m_sem.wait()` is over. -/
  | waiting
  /-- Before the lock is taken. -/
  | woken
  | executing (task : ℕ)
  | returned
  deriving DecidableEq, Repr

/-- Where a call of `enqueue` is. -/
inductive EnqueuePoint
  /-- Before the lock is taken. -/
  | pushing
  /-- Before `m_sem.notify()`. -/
  | notifying
  | ended
  deriving DecidableEq, Repr

/-- How many steps a thread takes by itself. -/
def LoopPoint.cost : LoopPoint → ℕ
  | .woken | .executing _ => 1
  | .waiting | .returned => 0

/-- How many steps may come of a call. -/
def EnqueuePoint.cost : EnqueuePoint → ℕ
  | .pushing => 5
  | .notifying => 3
  | .ended => 0

/-- Where the destructor is. -/
inductive DestructorPoint
  | alive
  /-- With as many calls of `m_sem.notify()` to go. -/
  | notifying (left : ℕ)
  /-- Before thread `i` is joined. -/
  | joining (i : ℕ)
  | ended
  deriving DecidableEq, Repr

/-- The tasks that have been pushed before the pool was stopped are `early`, and those that have
been executed are in `executed`. -/
structure ThreadPool where
  threadNums : ℕ
  state : PoolState
  threads : List LoopPoint
  tasks : List ℕ
  sem : ℕ
  enqueues : List EnqueuePoint
  destructor : DestructorPoint
  early : List ℕ
  executed : List ℕ
  deriving DecidableEq, Repr

/-- The front of an empty queue is taken. -/
inductive PoolFault
  | emptyFront
  deriving DecidableEq, Repr

/-- Steps, of thread or call `i` where it is named. -/
inductive ThreadPoolAction
  | enqueue
  | push (i : ℕ)
  | notify (i : ℕ)
  | wait (i : ℕ)
  | take (i : ℕ)
  | execute (i : ℕ)
  | destroy
  | notifyThread
  | join
  deriving DecidableEq, Repr

namespace ThreadPool

/-- `ThreadPool(threadNums)`. -/
def new (threadNums : ℕ) : ThreadPool where
  threadNums := threadNums
  state := .STOP
  threads := []
  tasks := []
  sem := 0
  enqueues := []
  destructor := .alive
  early := []
  executed := []

def init (g : ThreadPool) : Bool × ThreadPool :=
  if g.state ≠ .STOP then (false, g)
  else (true, { g with state := .RUNNING, threads := List.replicate g.threadNums .waiting })

/-- A pool whose threads are in `m_loop`. -/
def start (threadNums : ℕ) : ThreadPool := (new threadNums).init.2

def goThread (g : ThreadPool) (i : ℕ) (p : LoopPoint) : ThreadPool := { g with threads := g.threads.set i p }

def goEnqueue (g : ThreadPool) (i : ℕ) (p : EnqueuePoint) : ThreadPool :=
  { g with enqueues := g.enqueues.set i p }

/-- `enqueue` up to the section. -/
def enqueue (g : ThreadPool) : ThreadPool :=
  if g.state ≠ .RUNNING then { g with enqueues := g.enqueues ++ [.ended] }
  else { g with enqueues := g.enqueues ++ [.pushing] }

def push (g : ThreadPool) (i : ℕ) : ThreadPool :=
  let early := if g.state = .RUNNING then g.early ++ [i] else g.early
  { g with tasks := g.tasks ++ [i], early := early }.goEnqueue i .notifying

def notify (g : ThreadPool) (i : ℕ) : ThreadPool := { g with sem := g.sem + 1 }.goEnqueue i .ended

def wait (g : ThreadPool) (i : ℕ) : ThreadPool := { g with sem := g.sem - 1 }.goThread i .woken

/-- The section of `m_loop`: whether the thread returns, or the task that it takes. -/
def front (g : ThreadPool) : Except PoolFault (Option (ℕ × List ℕ)) :=
  if g.state = .STOPPING ∧ g.tasks.isEmpty then .ok none
  else if g.state = .STOP then .ok none
  else
    match g.tasks with
    | [] => .error .emptyFront
    | task :: tasks => .ok (some (task, tasks))

def take (g : ThreadPool) (i : ℕ) : Except PoolFault ThreadPool := do
  match ← g.front with
  | none => return g.goThread i .returned
  | some (task, tasks) => return { g with tasks := tasks }.goThread i (.executing task)

def execute (g : ThreadPool) (i task : ℕ) : ThreadPool :=
  { g with executed := g.executed ++ [task] }.goThread i .waiting

/-- `~ThreadPool()` up to the end of its section. -/
def destroy (g : ThreadPool) : ThreadPool :=
  if g.state ≠ .RUNNING then { g with destructor := .ended }
  else { g with state := .STOPPING, destructor := .notifying g.threads.length }

def notifyThread (g : ThreadPool) (left : ℕ) : ThreadPool :=
  { g with sem := g.sem + 1, destructor := .notifying left }

/-- The loop of `~ThreadPool()` over the threads, and what follows it. -/
def join (g : ThreadPool) (i : ℕ) : ThreadPool :=
  if i < g.threads.length then { g with destructor := .joining (i + 1) }
  else { g with state := .STOP, destructor := .ended }

/-- A step, of a thread or a call from the point where it is. -/
inductive Step : ThreadPool → ThreadPoolAction → ThreadPool → Prop
  | enqueue {g : ThreadPool} : Step g .enqueue g.enqueue
  | push {g : ThreadPool} {i : ℕ} (h : g.enqueues[i]? = some .pushing) : Step g (.push i) (g.push i)
  | notify {g : ThreadPool} {i : ℕ} (h : g.enqueues[i]? = some .notifying) :
    Step g (.notify i) (g.notify i)
  | wait {g : ThreadPool} {i : ℕ} (h : g.threads[i]? = some .waiting) (hsem : 0 < g.sem) :
    Step g (.wait i) (g.wait i)
  | take {g g' : ThreadPool} {i : ℕ} (h : g.threads[i]? = some .woken) (htake : g.take i = .ok g') :
    Step g (.take i) g'
  | execute {g : ThreadPool} {i task : ℕ} (h : g.threads[i]? = some (.executing task)) :
    Step g (.execute i) (g.execute i task)
  | destroy {g : ThreadPool} (h : g.destructor = .alive) : Step g .destroy g.destroy
  | notifyThread {g : ThreadPool} {left : ℕ} (h : g.destructor = .notifying (left + 1)) :
    Step g .notifyThread (g.notifyThread left)
  | joinFirst {g : ThreadPool} (h : g.destructor = .notifying 0) :
    Step g .join { g with destructor := .joining 0 }
  | join {g : ThreadPool} {i : ℕ} (h : g.destructor = .joining i)
    (hreturned : ∀ p, g.threads[i]? = some p → p = .returned) : Step g .join (g.join i)

/-- How often a task is in the queue, with a thread or executed. -/
def copies (g : ThreadPool) (task : ℕ) : ℕ :=
  g.tasks.count task + g.threads.count (.executing task) + g.executed.count task

/-- How many permits the destructor has given. -/
def stops (g : ThreadPool) : ℕ :=
  match g.destructor with
  | .alive => 0
  | .notifying left => g.threads.length - left
  | .joining _ | .ended => g.threads.length

/-- The state of the pool is that of its destructor. -/
def InPhase (g : ThreadPool) : Prop :=
  match g.destructor with
  | .alive => g.state = .RUNNING ∧ g.threads.count .returned = 0
  | .notifying left => g.state = .STOPPING ∧ left ≤ g.threads.length
  | .joining i => g.state = .STOPPING ∧ ∀ k p, k < i → g.threads[k]? = some p → p = .returned
  | .ended => g.state = .STOP ∧ ∀ p ∈ g.threads, p = .returned

/-- The permits are those for the tasks that are there and for the threads that have not returned. -/
structure Accounted (g : ThreadPool) : Prop where
  phase : g.InPhase
  permits : g.sem + g.threads.count .woken + g.enqueues.count .notifying + g.threads.count .returned =
    g.tasks.length + g.stops
  drained : 0 < g.threads.count .returned → ∀ t ∈ g.early, t ∉ g.tasks
  once : ∀ t, g.copies t ≤ 1
  unpushed : ∀ t, (∀ p, g.enqueues[t]? = some p → p = .pushing) → g.copies t = 0
  early : ∀ t ∈ g.early, g.copies t = 1

variable {g g' : ThreadPool} {a : ThreadPoolAction} {i task left n : ℕ}

theorem accounted_start (n : ℕ) : (start n).Accounted where
  phase := ⟨rfl, List.count_eq_zero_of_not_mem fun h => by cases List.eq_of_mem_replicate h⟩
  permits := by
    have hcount (p : LoopPoint) (hp : p ≠ .waiting) : (List.replicate n LoopPoint.waiting).count p = 0 :=
      List.count_eq_zero_of_not_mem fun h => hp (List.eq_of_mem_replicate h)
    simp [start, new, init, stops, hcount]
  drained _ t ht := by cases ht
  once t := by simp [start, new, init, copies, List.count_replicate]
  unpushed t _ := by simp [start, new, init, copies, List.count_replicate]
  early t ht := by cases ht

/-! ## The steps of the callers -/

theorem Accounted.enqueue (h : g.Accounted) : g.enqueue.Accounted := by
  have hcall (p : EnqueuePoint) (hp : p ≠ .notifying) :
      ({ g with enqueues := g.enqueues ++ [p] } : ThreadPool).Accounted := by
    refine ⟨h.phase, ?_, h.drained, h.once, fun t ht => h.unpushed t fun q hq => ht q ?_, h.early⟩
    · have hpermits := h.permits
      simp only [List.count_append, List.count_singleton, beq_iff_eq, if_neg hp]
      exact hpermits
    · have hlt := (List.getElem?_eq_some_iff.mp hq).1
      dsimp only
      rw [List.getElem?_append_left hlt]
      exact hq
  rw [ThreadPool.enqueue]
  split
  · exact hcall .ended (by decide)
  · exact hcall .pushing (by decide)

/-- The state is `RUNNING` as long as the destructor has not begun. -/
theorem Accounted.running_iff (h : g.Accounted) : g.state = .RUNNING ↔ g.destructor = .alive := by
  have hphase := h.phase
  rw [InPhase] at hphase
  split at hphase
  · rename_i hd
    exact iff_of_true hphase.1 hd
  all_goals
    rename_i hd
    rw [hphase.1, hd]
    simp

/-- The threads do not return before the destructor has begun. -/
theorem Accounted.not_running (h : g.Accounted) (hpos : 0 < g.threads.count .returned) :
    g.state ≠ .RUNNING := by
  intro hstate
  have hphase := h.phase
  rw [InPhase, h.running_iff.mp hstate] at hphase
  omega

theorem Accounted.push (h : g.Accounted) (hc : g.enqueues[i]? = some .pushing) : (g.push i).Accounted := by
  have hnone := h.unpushed i (fun p hp => Option.some.inj (hp.symm.trans hc))
  have hcopies (t : ℕ) : (g.push i).copies t = g.copies t + if i = t then 1 else 0 := by
    simp only [copies, ThreadPool.push, goEnqueue, List.count_append, List.count_singleton, beq_iff_eq]
    omega
  have hearly {t : ℕ} (ht : t ∈ g.early) : i ≠ t := by
    rintro rfl
    have hone := h.early i ht
    omega
  refine ⟨h.phase, ?_, fun hpos t ht => ?_, fun t => ?_, fun t ht => ?_, fun t ht => ?_⟩
  · have hpermits := h.permits
    have hset := count_set_add hc .notifying .notifying
    simp only [ThreadPool.push, goEnqueue, List.length_append, List.length_singleton, stops] at hpermits hset ⊢
    simp at hset
    omega
  · have hstate := h.not_running hpos
    simp only [ThreadPool.push, goEnqueue, if_neg hstate] at ht ⊢
    rw [List.mem_append, List.mem_singleton]
    exact not_or.mpr ⟨h.drained hpos t ht, (hearly ht).symm⟩
  · rw [hcopies]
    split
    · rename_i hit
      subst hit
      omega
    · exact h.once t
  · have hit : i ≠ t := by
      rintro rfl
      have hlt := (List.getElem?_eq_some_iff.mp hc).1
      have hself := ht .notifying (by simp [ThreadPool.push, goEnqueue, hlt])
      cases hself
    rw [hcopies, if_neg hit, Nat.add_zero]
    refine h.unpushed t fun p hp => ht p ?_
    simp only [ThreadPool.push, goEnqueue]
    rw [List.getElem?_set_ne hit]
    exact hp
  · rw [hcopies]
    by_cases hit : i = t
    · rw [if_pos hit, ← hit, hnone]
    · rw [if_neg hit, Nat.add_zero]
      simp only [ThreadPool.push, goEnqueue] at ht
      split at ht
      · exact h.early t ((List.mem_append.mp ht).resolve_right fun hmem => hit (List.mem_singleton.mp hmem).symm)
      · exact h.early t ht

theorem Accounted.notify (h : g.Accounted) (hc : g.enqueues[i]? = some .notifying) :
    (g.notify i).Accounted := by
  refine ⟨h.phase, ?_, h.drained, h.once, fun t ht => ?_, h.early⟩
  · have hpermits := h.permits
    have hset := count_set_add hc .ended .notifying
    simp only [ThreadPool.notify, goEnqueue, stops] at hpermits hset ⊢
    simp at hset
    omega
  · have hit : i ≠ t := by
      rintro rfl
      have hlt := (List.getElem?_eq_some_iff.mp hc).1
      have hself := ht .ended (by simp [ThreadPool.notify, goEnqueue, hlt])
      cases hself
    refine h.unpushed t fun p hp => ht p ?_
    simp only [ThreadPool.notify, goEnqueue]
    rw [List.getElem?_set_ne hit]
    exact hp

/-! ## The steps of the threads -/

/-- A thread that has not returned goes on, with what happens to the queue and the semaphore. -/
theorem Accounted.moveThread (h : g.Accounted) {p : LoopPoint} (q : LoopPoint) (tasks : List ℕ)
    {executed : List ℕ} {sem : ℕ} (hp : g.threads[i]? = some p) (hreturned : p ≠ .returned)
    (hphase : q = .returned → g.state = .STOPPING ∧ tasks = [])
    (htasks : ∀ t ∈ tasks, t ∈ g.tasks)
    (hcopies : ∀ t, tasks.count t + (if q = .executing t then 1 else 0) + executed.count t =
      g.tasks.count t + (if p = .executing t then 1 else 0) + g.executed.count t)
    (hpermits : sem + (if q = .woken then 1 else 0) + (if q = .returned then 1 else 0) + g.tasks.length =
      g.sem + (if p = .woken then 1 else 0) + tasks.length) :
    ({ g with
      tasks := tasks
      executed := executed
      sem := sem
      threads := g.threads.set i q } : ThreadPool).Accounted := by
  have hset := count_set_add hp q
  have hback := hset .returned
  rw [if_neg hreturned] at hback
  have hwhole (t : ℕ) : ({ g with
      tasks := tasks
      executed := executed
      sem := sem
      threads := g.threads.set i q } : ThreadPool).copies t = g.copies t := by
    have ht := hset (.executing t)
    have hct := hcopies t
    simp only [copies]
    omega
  refine ⟨?_, ?_, fun hpos t ht hmem => ?_, fun t => ?_, fun t ht => ?_, fun t ht => ?_⟩
  · have hold := h.phase
    rw [InPhase] at hold ⊢
    dsimp only
    split at hold
    · refine ⟨hold.1, ?_⟩
      have hq : q ≠ .returned := by
        intro hq
        have hstopping := (hphase hq).1
        rw [hold.1] at hstopping
        cases hstopping
      rw [if_neg hq] at hback
      omega
    · rw [List.length_set]
      exact hold
    · refine ⟨hold.1, fun k r hk hr => ?_⟩
      rw [List.getElem?_set] at hr
      split at hr
      · rename_i hik
        exact absurd (hold.2 k p hk (hik ▸ hp)) hreturned
      · exact hold.2 k r hk hr
    · exact absurd (hold.2 p (List.mem_of_getElem? hp)) hreturned
  · have hold := h.permits
    have hwoken := hset .woken
    simp only [stops, List.length_set] at hold ⊢
    omega
  · by_cases hq : q = .returned
    · rw [(hphase hq).2] at hmem
      cases hmem
    · rw [if_neg hq] at hback
      dsimp only at hpos
      exact h.drained (by omega) t ht (htasks t hmem)
  · rw [hwhole]
    exact h.once t
  · rw [hwhole]
    exact h.unpushed t ht
  · rw [hwhole]
    exact h.early t ht

theorem Accounted.wait (h : g.Accounted) (hp : g.threads[i]? = some .waiting) (hsem : 0 < g.sem) :
    (g.wait i).Accounted := by
  refine h.moveThread .woken g.tasks hp (by decide) (fun hq => by cases hq) (fun _ ht => ht) (fun t => ?_) ?_
  · simp
  · simp
    omega

/-- A thread that has been woken finds a task, unless the pool is stopping. -/
theorem Accounted.front_ok (h : g.Accounted) (hp : g.threads[i]? = some .woken) :
    g.front = .ok none ∧ g.state = .STOPPING ∧ g.tasks = [] ∨
      ∃ task tasks, g.front = .ok (some (task, tasks)) ∧ g.tasks = task :: tasks := by
  have hpermits := h.permits
  have hphase := h.phase
  have hwoken : 0 < g.threads.count .woken := List.count_pos_iff.mpr (List.mem_of_getElem? hp)
  rw [InPhase] at hphase
  cases htasks : g.tasks with
  | nil =>
    left
    have hstate : g.state = .STOPPING := by
      split at hphase
      · rename_i hd
        rw [htasks, stops, hd] at hpermits
        simp at hpermits
        omega
      · exact hphase.1
      · exact hphase.1
      · have hmem := hphase.2 .woken (List.mem_of_getElem? hp)
        cases hmem
    exact ⟨by rw [front, if_pos ⟨hstate, by rw [htasks]; rfl⟩], hstate, rfl⟩
  | cons task tasks =>
    right
    refine ⟨task, tasks, ?_, rfl⟩
    have hstate : g.state ≠ .STOP := by
      intro hstop
      split at hphase
      · exact absurd (hstop.symm.trans hphase.1) (by decide)
      · exact absurd (hstop.symm.trans hphase.1) (by decide)
      · exact absurd (hstop.symm.trans hphase.1) (by decide)
      · have hmem := hphase.2 .woken (List.mem_of_getElem? hp)
        cases hmem
    rw [front, if_neg (by rw [htasks]; simp), if_neg hstate, htasks]

theorem Accounted.take (h : g.Accounted) (hp : g.threads[i]? = some .woken) (htake : g.take i = .ok g') :
    g'.Accounted := by
  rcases h.front_ok hp with ⟨hfront, hstate, htasks⟩ | ⟨task, tasks, hfront, htasks⟩
  · rw [ThreadPool.take, hfront] at htake
    obtain rfl := Except.ok.inj htake
    refine h.moveThread .returned g.tasks hp (by decide) (fun _ => ⟨hstate, htasks⟩)
      (fun _ ht => ht) (fun t => ?_) ?_ <;> simp
  · rw [ThreadPool.take, hfront] at htake
    obtain rfl := Except.ok.inj htake
    refine h.moveThread (.executing task) tasks hp (by decide) (fun hq => by cases hq)
      (fun t ht => htasks ▸ List.mem_cons_of_mem task ht) (fun t => ?_) ?_
    · rw [htasks, List.count_cons]
      simp
    · rw [htasks]
      simp
      omega

theorem Accounted.execute (h : g.Accounted) (hp : g.threads[i]? = some (.executing task)) :
    (g.execute i task).Accounted := by
  refine h.moveThread .waiting g.tasks hp (by simp) (fun hq => by cases hq) (fun _ ht => ht)
    (fun t => ?_) (by simp)
  rw [List.count_append, List.count_singleton]
  simp
  omega

/-! ## The steps of the destructor -/

/-- The destructor goes on, with the permits that it has given. -/
theorem Accounted.moveDestructor (h : g.Accounted) {state : PoolState} {destructor : DestructorPoint}
    {sem : ℕ} (hphase : ({ g with
      state := state
      destructor := destructor
      sem := sem } : ThreadPool).InPhase)
    (hpermits : sem + g.stops = g.sem + ({ g with
      state := state
      destructor := destructor
      sem := sem } : ThreadPool).stops) :
    ({ g with
      state := state
      destructor := destructor
      sem := sem } : ThreadPool).Accounted := by
  refine ⟨hphase, ?_, h.drained, h.once, h.unpushed, h.early⟩
  have hold := h.permits
  dsimp only at hpermits ⊢
  omega

theorem Accounted.destroy (h : g.Accounted) (hd : g.destructor = .alive) : g.destroy.Accounted := by
  have hstate := h.running_iff.mpr hd
  have hstops : g.stops = 0 := by rw [stops, hd]
  rw [ThreadPool.destroy, if_neg (by simpa using hstate)]
  refine h.moveDestructor ⟨rfl, Nat.le_refl _⟩ ?_
  rw [hstops]
  simp [stops]

theorem Accounted.notifyThread (h : g.Accounted) (hd : g.destructor = .notifying (left + 1)) :
    (g.notifyThread left).Accounted := by
  have hphase := h.phase
  rw [InPhase, hd] at hphase
  have hstops : g.stops = g.threads.length - (left + 1) := by rw [stops, hd]
  refine h.moveDestructor ⟨hphase.1, Nat.le_of_succ_le hphase.2⟩ ?_
  rw [hstops]
  simp only [stops]
  have hle := hphase.2
  omega

theorem Accounted.joinFirst (h : g.Accounted) (hd : g.destructor = .notifying 0) :
    ({ g with destructor := .joining 0 } : ThreadPool).Accounted := by
  have hphase := h.phase
  rw [InPhase, hd] at hphase
  have hstops : g.stops = g.threads.length := by
    rw [stops, hd]
    rfl
  refine h.moveDestructor ⟨hphase.1, fun k _ hk => absurd hk (Nat.not_lt_zero k)⟩ ?_
  rw [hstops]
  rfl

theorem Accounted.join (h : g.Accounted) (hd : g.destructor = .joining i)
    (hreturned : ∀ p, g.threads[i]? = some p → p = .returned) : (g.join i).Accounted := by
  have hphase := h.phase
  rw [InPhase, hd] at hphase
  have hstops : g.stops = g.threads.length := by rw [stops, hd]
  rw [ThreadPool.join]
  split
  · refine h.moveDestructor ⟨hphase.1, fun k p hk hp => ?_⟩ ?_
    · rcases Nat.lt_succ_iff_lt_or_eq.mp hk with hk | rfl
      · exact hphase.2 k p hk hp
      · exact hreturned p hp
    · rw [hstops]
      rfl
  · rename_i hall
    refine h.moveDestructor ⟨rfl, fun p hp => ?_⟩ ?_
    · obtain ⟨k, hk, rfl⟩ := List.mem_iff_getElem.mp hp
      have hki : k < i := Nat.lt_of_lt_of_le hk (Nat.le_of_not_lt hall)
      exact hphase.2 k _ hki (List.getElem?_eq_getElem hk)
    · rw [hstops]
      rfl

theorem Accounted.step (h : g.Accounted) (hs : Step g a g') : g'.Accounted := by
  cases hs with
  | enqueue => exact h.enqueue
  | push hc => exact h.push hc
  | notify hc => exact h.notify hc
  | wait hp hsem => exact h.wait hp hsem
  | take hp htake => exact h.take hp htake
  | execute hp => exact h.execute hp
  | destroy hd => exact h.destroy hd
  | notifyThread hd => exact h.notifyThread hd
  | joinFirst hd => exact h.joinFirst hd
  | join hd hreturned => exact h.join hd hreturned

/-- What a thread does in its section. -/
theorem take_cases (h : g.take i = .ok g') : g' = g.goThread i .returned ∨
    ∃ task tasks, g.tasks = task :: tasks ∧
      g' = ({ g with tasks := tasks } : ThreadPool).goThread i (.executing task) := by
  rw [take, front] at h
  split at h
  · exact Or.inl (Except.ok.inj h).symm
  · split at h
    · exact Or.inl (Except.ok.inj h).symm
    · cases htasks : g.tasks with
      | nil =>
        rw [htasks] at h
        cases h
      | cons task tasks =>
        rw [htasks] at h
        exact Or.inr ⟨task, tasks, rfl, (Except.ok.inj h).symm⟩

theorem Step.length_threads (hs : Step g a g') : g'.threads.length = g.threads.length := by
  cases hs with
  | enqueue =>
    rw [ThreadPool.enqueue]
    split <;> rfl
  | push hc => rfl
  | notify hc => rfl
  | wait hp hsem => exact List.length_set
  | take hp htake =>
    rcases take_cases htake with rfl | ⟨task, tasks, -, rfl⟩ <;> exact List.length_set
  | execute hp => exact List.length_set
  | destroy hd =>
    rw [ThreadPool.destroy]
    split <;> rfl
  | notifyThread hd => rfl
  | joinFirst hd => rfl
  | join hd hreturned =>
    rw [ThreadPool.join]
    split <;> rfl

/-! ## The end of the threads -/

/-- The destructor has given its permits. -/
def Notified (g : ThreadPool) : Prop :=
  match g.destructor with
  | .alive | .notifying (_ + 1) => False
  | .notifying 0 | .joining _ | .ended => True

/-- A step of those that are there already. -/
def Goes (g : ThreadPool) (a : ThreadPoolAction) (g' : ThreadPool) : Prop := Step g a g' ∧ a ≠ .enqueue

def AllReturned (g : ThreadPool) : Prop := ∀ p ∈ g.threads, p = .returned

/-- What is left to do before a pool is at rest whose destructor has given its permits. -/
def work (g : ThreadPool) : ℕ :=
  tally EnqueuePoint.cost g.enqueues + tally LoopPoint.cost g.threads + g.tasks.length + 2 * g.sem +
    match g.destructor with
    | .alive | .ended => 0
    | .notifying _ => g.threads.length + 2
    | .joining i => g.threads.length - i + 1

theorem Notified.goes (h : g.Notified) (hs : Goes g a g') : g'.Notified ∧ g'.work < g.work := by
  obtain ⟨hs, hcall⟩ := hs
  cases hs with
  | enqueue => exact absurd rfl hcall
  | push hc =>
    have hset := tally_set EnqueuePoint.cost hc .notifying
    refine ⟨h, ?_⟩
    simp only [work, ThreadPool.push, goEnqueue, List.length_append, List.length_singleton]
    simp only [EnqueuePoint.cost] at hset
    omega
  | notify hc =>
    have hset := tally_set EnqueuePoint.cost hc .ended
    refine ⟨h, ?_⟩
    simp only [work, ThreadPool.notify, goEnqueue]
    simp only [EnqueuePoint.cost] at hset
    omega
  | wait hp hsem =>
    have hset := tally_set LoopPoint.cost hp .woken
    refine ⟨h, ?_⟩
    simp only [work, ThreadPool.wait, goThread, List.length_set]
    simp only [LoopPoint.cost] at hset
    omega
  | take hp htake =>
    rcases take_cases htake with rfl | ⟨task, tasks, htasks, rfl⟩
    · have hset := tally_set LoopPoint.cost hp .returned
      refine ⟨h, ?_⟩
      simp only [work, goThread, List.length_set]
      simp only [LoopPoint.cost] at hset
      omega
    · have hset := tally_set LoopPoint.cost hp (.executing task)
      refine ⟨h, ?_⟩
      simp only [work, goThread, List.length_set, htasks, List.length_cons]
      simp only [LoopPoint.cost] at hset
      omega
  | execute hp =>
    have hset := tally_set LoopPoint.cost hp .waiting
    refine ⟨h, ?_⟩
    simp only [work, ThreadPool.execute, goThread, List.length_set]
    simp only [LoopPoint.cost] at hset
    omega
  | destroy hd =>
    rw [Notified, hd] at h
    exact h.elim
  | notifyThread hd =>
    rw [Notified, hd] at h
    exact h.elim
  | joinFirst hd =>
    refine ⟨trivial, ?_⟩
    simp only [work, hd]
    omega
  | join hd hreturned =>
    rw [ThreadPool.join]
    split
    · refine ⟨trivial, ?_⟩
      simp only [work, hd]
      omega
    · refine ⟨trivial, ?_⟩
      simp only [work, hd]
      omega

/-- A pool is only at rest when all threads have returned. -/
theorem Accounted.returned_of_stuck (h : g.Accounted) (hn : g.Notified)
    (hstuck : ∀ a g', ¬ Goes g a g') : g.AllReturned := by
  have hpermits := h.permits
  have hstops : g.stops = g.threads.length := by
    rw [Notified] at hn
    rw [stops]
    split at hn
    · exact hn.elim
    · exact hn.elim
    all_goals
      rename_i hd
      simp only [hd, Nat.sub_zero]
  have hwoken : g.threads.count .woken = 0 := by
    refine List.count_eq_zero_of_not_mem fun hmem => ?_
    obtain ⟨i, hi, hp⟩ := List.mem_iff_getElem.mp hmem
    have hp' : g.threads[i]? = some .woken := List.getElem?_eq_some_iff.mpr ⟨hi, hp⟩
    rcases h.front_ok hp' with ⟨hfront, -⟩ | ⟨task, tasks, hfront, -⟩
    · exact hstuck (.take i) _ ⟨.take hp' (by rw [ThreadPool.take, hfront]; rfl), by simp⟩
    · exact hstuck (.take i) _ ⟨.take hp' (by rw [ThreadPool.take, hfront]; rfl), by simp⟩
  have hnotifying : g.enqueues.count .notifying = 0 := by
    refine List.count_eq_zero_of_not_mem fun hmem => ?_
    obtain ⟨i, hi, hp⟩ := List.mem_iff_getElem.mp hmem
    exact hstuck (.notify i) _ ⟨.notify (List.getElem?_eq_some_iff.mpr ⟨hi, hp⟩), by simp⟩
  have hall : g.threads.length ≤ g.threads.count .returned := by
    by_contra hlt
    have hsem : 0 < g.sem := by omega
    obtain ⟨p, hp, hne⟩ : ∃ p ∈ g.threads, p ≠ .returned := by
      by_contra hnone
      refine hlt (Nat.le_of_eq (List.count_eq_length.mpr fun p hp => ?_).symm)
      by_contra hne
      exact hnone ⟨p, hp, fun heq => hne heq.symm⟩
    obtain ⟨i, hi, rfl⟩ := List.mem_iff_getElem.mp hp
    cases hpoint : g.threads[i] with
    | waiting =>
      exact hstuck (.wait i) _ ⟨.wait (List.getElem?_eq_some_iff.mpr ⟨hi, hpoint⟩) hsem, by simp⟩
    | woken =>
      rw [hpoint] at hp
      exact absurd hp (List.count_eq_zero.mp hwoken)
    | executing task =>
      exact hstuck (.execute i) _ ⟨.execute (List.getElem?_eq_some_iff.mpr ⟨hi, hpoint⟩), by simp⟩
    | returned => exact hne hpoint
  intro p hp
  have hlength := Nat.le_antisymm hall (List.count_le_length (a := LoopPoint.returned))
  exact (List.count_eq_length.mp hlength.symm p hp).symm

/-- When all threads of a pool have returned, every task that came in time has been executed. -/
theorem Accounted.executed (h : g.Accounted) (hpos : g.threads ≠ []) (hall : g.AllReturned) :
    ∀ t ∈ g.early, g.executed.count t = 1 := by
  intro t ht
  obtain ⟨p, threads, hthreads⟩ := List.exists_cons_of_ne_nil hpos
  have hreturned : 0 < g.threads.count .returned := by
    have hp : p = .returned := hall p (by rw [hthreads]; exact List.mem_cons_self)
    exact List.count_pos_iff.mpr (by rw [hthreads, hp]; exact List.mem_cons_self)
  have hone := h.early t ht
  have hqueue : g.tasks.count t = 0 := List.count_eq_zero_of_not_mem (h.drained hreturned t ht)
  have hthread : g.threads.count (.executing t) = 0 :=
    List.count_eq_zero_of_not_mem fun hmem => by cases hall _ hmem
  rw [copies] at hone
  omega

/-- The destructor has joined all threads. -/
def Joined (g : ThreadPool) : Prop :=
  match g.destructor with
  | .joining i => g.threads.length ≤ i
  | .ended => True
  | .alive | .notifying _ => False

theorem Accounted.allReturned (h : g.Accounted) (hjoined : g.Joined) : g.AllReturned := by
  have hphase := h.phase
  rw [InPhase] at hphase
  rw [Joined] at hjoined
  split at hphase <;> rename_i hd <;> rw [hd] at hjoined
  · exact hjoined.elim
  · exact hjoined.elim
  · intro p hp
    obtain ⟨k, hk, rfl⟩ := List.mem_iff_getElem.mp hp
    exact hphase.2 k _ (Nat.lt_of_lt_of_le hk hjoined) (List.getElem?_eq_getElem hk)
  · exact hphase.2

/-- What a pool promises in a state. -/
structure Drains (g : ThreadPool) : Prop where
  front : ∀ (i : ℕ) (f : PoolFault), g.threads[i]? = some .woken → g.front ≠ .error f
  atMostOnce : ∀ t, g.executed.count t ≤ 1
  executed : g.Joined → ∀ t ∈ g.early, g.executed.count t = 1
  bounded : g.Notified → ∀ as g', Run Goes g as g' → as.length ≤ g.work ∧
    ((∀ a g'', ¬ Goes g' a g'') → g'.AllReturned)
  returns : g.Notified → ∃ as g', Run Goes g as g' ∧ g'.AllReturned

/-- A pool executes what it has been given, and all of its threads return. -/
theorem threadPool_drains {as : List ThreadPoolAction} (hn : 1 ≤ n) (h : Run Step (start n) as g) :
    g.Drains := by
  obtain ⟨haccounted, hlength⟩ : g.Accounted ∧ g.threads.length = n := by
    refine h.keeps (P := fun g => g.Accounted ∧ g.threads.length = n) (fun t a u ht hs => ?_)
      ⟨accounted_start n, List.length_replicate⟩
    exact ⟨ht.1.step hs, hs.length_threads.trans ht.2⟩
  have hne : g.threads ≠ [] := by
    intro hnil
    rw [hnil] at hlength
    exact absurd hlength.symm (Nat.ne_of_gt hn)
  have hgoes (t : ThreadPool) (a : ThreadPoolAction) (u : ThreadPool) (ht : t.Accounted ∧ t.Notified)
      (hs : Goes t a u) : (u.Accounted ∧ u.Notified) ∧ u.work < t.work :=
    ⟨⟨ht.1.step hs.1, (ht.2.goes hs).1⟩, (ht.2.goes hs).2⟩
  refine ⟨fun i f hp => ?_, fun t => ?_, fun hjoined => ?_, fun hnotified as' g' hrun => ?_,
    fun hnotified => ?_⟩
  · rcases haccounted.front_ok hp with ⟨hfront, -⟩ | ⟨task, tasks, hfront, -⟩ <;> rw [hfront] <;> simp
  · have honce := haccounted.once t
    rw [copies] at honce
    omega
  · exact haccounted.executed hne (haccounted.allReturned hjoined)
  · obtain ⟨⟨hg', hn'⟩, hle⟩ := hrun.length_le hgoes ⟨haccounted, hnotified⟩
    exact ⟨Nat.le_trans (Nat.le_add_right _ _) hle, fun hstuck => hg'.returned_of_stuck hn' hstuck⟩
  · obtain ⟨as', g', hrun, ⟨hg', hn'⟩, hstuck⟩ := Run.exists_stuck hgoes g ⟨haccounted, hnotified⟩
    exact ⟨as', g', hrun, hg'.returned_of_stuck hn' hstuck⟩

/-- The destructor begins before a thread has been woken for the task. -/
theorem late_task_executed : ∃ as g, Run Step (start 1) as g ∧ g.destructor = .ended ∧
    g.early = [0] ∧ g.executed = [0] ∧ g.Drains := by
  have hrun := Run.nil.snoc (s := start 1) Step.enqueue
  have hrun := hrun.snoc (.push (i := 0) rfl)
  have hrun := hrun.snoc (.destroy rfl)
  have hrun := hrun.snoc (.notifyThread rfl)
  have hrun := hrun.snoc (.joinFirst rfl)
  have hrun := hrun.snoc (.wait (i := 0) rfl (by decide))
  have hrun := hrun.snoc (.take (i := 0) rfl rfl)
  have hrun := hrun.snoc (.execute (i := 0) rfl)
  have hrun := hrun.snoc (.notify (i := 0) rfl)
  have hrun := hrun.snoc (.wait (i := 0) rfl (by decide))
  have hrun := hrun.snoc (.take (i := 0) rfl rfl)
  have hrun := hrun.snoc (.join rfl (by decide))
  have hrun := hrun.snoc (.join rfl (by decide))
  exact ⟨_, _, hrun, rfl, rfl, rfl, threadPool_drains (Nat.le_refl 1) hrun⟩

end ThreadPool
end Flz
