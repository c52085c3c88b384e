import Flz.IOManager.Events

/-! # The life of an event

What waits for the events of a file descriptor, from `addEvent` on until `delEvent` drops it or
`cancelEvent`, `cancelAll` or `idle` schedules it. Here a call is one step: no other thread goes on
between its sections.
-/
namespace Flz
open Lib

def Registration.task (r : Registration) : Task :=
  match r.cb with
  | some cb => .cb cb
  | none => .fiber r.fiber

/-- A scheduler, and either a callback or a fiber. -/
def EventContext.InUse (x : EventContext) : Prop :=
  x.scheduler ≠ none ∧ x.cb.isSome ≠ x.fiber.isSome

/-- The task, with its scheduler. -/
def EventContext.task (x : EventContext) : Option (ℕ × Task) :=
  match x.scheduler, x.cb, x.fiber with
  | some s, some cb, _ => some (s, .cb cb)
  | some s, none, some f => some (s, .fiber f)
  | _, _, _ => none

namespace FdContext

/-- What waits for an event. -/
def waiting (c : FdContext) (e : Event) : Option (ℕ × Task) := (c.getContext e).task

/-- What waits for some of the events. -/
def tasksOf (c : FdContext) (events : Finset Event) : List (ℕ × Task) :=
  [.READ, .WRITE].flatMap fun e => if e ∈ events then (c.waiting e).toList else []

/-- Everything that waits. -/
def allTasks (c : FdContext) : List (ℕ × Task) := c.tasksOf {.READ, .WRITE}

/-- What a section makes of those who wait for the events `events`: `x` instead of them. -/
structure Gives (c : FdContext) (events : Finset Event) (x : Option (ℕ × Task)) (tasks : List (ℕ × Task))
    (o : Outcome) : Prop where
  keeps : Keeps c o
  waiting : ∀ e, o.ctx.waiting e = if e ∈ events then x else c.waiting e
  tasks : o.tasks = tasks

section
variable {c : FdContext} {e e' : Event} {o : Outcome} {r : Registration} {R R' : Finset Event} {ok : Bool}
  {tasks : List (ℕ × Task)} {x : ℕ × Task} {s : ℕ}

@[simp] theorem task_context (s : ℕ) (t : Task) : (t.context (some s)).task = some (s, t) := by
  cases t <;> rfl

theorem inUse_context (s : ℕ) (t : Task) : (t.context (some s)).InUse := by
  cases t <;> exact ⟨Option.some_ne_none s, by simp [Task.context]⟩

theorem Wired.inUse_iff (h : c.Wired) : e ∈ c.events ↔ (c.getContext e).InUse := by
  constructor
  · intro he
    obtain ⟨s, t, hctx⟩ := h.waits e he
    rw [hctx]
    exact inUse_context s t
  · intro huse
    by_contra he
    rw [h.idle e he] at huse
    exact huse.1 rfl

theorem Wired.waiting_eq_none (h : c.Wired) (he : e ∉ c.events) : c.waiting e = none := by
  rw [FdContext.waiting, h.idle e he]
  rfl

theorem Wired.waiting_isSome (h : c.Wired) (he : e ∈ c.events) : ∃ x, c.waiting e = some x := by
  obtain ⟨s, t, hctx⟩ := h.waits e he
  exact ⟨(s, t), by rw [FdContext.waiting, hctx, task_context]⟩

theorem waiting_removed : (c.removed e).waiting e' = if e' = e then none else c.waiting e' := by
  rw [waiting, removed]
  split
  · rename_i heq
    rw [heq, getContext_setContext_self]
    rfl
  · rename_i hne
    rw [getContext_setContext_of_ne hne, getContext_events]
    rfl

/-- Only the events that are registered matter. -/
theorem Wired.tasksOf_congr (h : c.Wired) (hR : ∀ e ∈ c.events, e ∈ R ↔ e ∈ R') :
    c.tasksOf R = c.tasksOf R' := by
  refine congrArg (List.flatMap · _) (funext fun e => ?_)
  by_cases he : e ∈ c.events
  · simp only [hR e he]
  · rw [h.waiting_eq_none he]
    simp

theorem Gives.congr (h : Gives c R none (c.tasksOf R) o) (hwired : c.Wired)
    (hR : ∀ e ∈ c.events, e ∈ R ↔ e ∈ R') : Gives c R' none (c.tasksOf R') o where
  keeps := h.keeps
  waiting := by
    intro e
    rw [h.waiting e]
    by_cases he : e ∈ c.events
    · simp only [hR e he]
    · rw [hwired.waiting_eq_none he]
      simp
  tasks := h.tasks.trans (hwired.tasksOf_congr hR)

theorem Wired.gives_kept (h : c.Wired) (done : Bool) {x : Option (ℕ × Task)} :
    Gives c ∅ x [] (c.kept done) where
  keeps := h.keeps_kept done
  waiting _ := rfl
  tasks := rfl

/-- Nothing of what a call names is registered. -/
theorem Wired.gives_missing (h : c.Wired) (done : Bool) (hR : ∀ e ∈ c.events, e ∉ R) :
    Gives c R none (c.tasksOf R) (c.kept done) :=
  Gives.congr (h.gives_kept done) h fun e he => by simp [hR e he]

theorem Gives.trigger (h : Gives c R none tasks o) (he : e ∈ o.ctx.events) :
    ∃ o', FdContext.trigger o e = .ok o' ∧ Gives c (insert e R) none (tasks ++ (c.waiting e).toList) o' ∧
      o'.ctx.events = o.ctx.events.erase e := by
  obtain ⟨o', ho', hkeeps, hevents⟩ := h.keeps.trigger he
  obtain ⟨s, t, htrigger⟩ := h.keeps.wired.triggerEvent he
  obtain ⟨s', t', hctx⟩ := h.keeps.wired.waits e he
  have htask : (s, t) = (s', t') := by
    have hrun := htrigger
    rw [FdContext.triggerEvent, if_neg (not_not.mpr he)] at hrun
    simp only [getContext_events, hctx] at hrun
    cases t' <;> exact (List.singleton_inj.mp (Prod.mk.inj (Except.ok.inj hrun)).2).symm
  have hwaiting : o.ctx.waiting e = some (s, t) := by
    rw [htask, FdContext.waiting, hctx, task_context]
  have hnew : e ∉ R := by
    intro hmem
    have hnone := h.waiting e
    rw [if_pos hmem, hwaiting] at hnone
    cases hnone
  have hold := h.waiting e
  rw [if_neg hnew, hwaiting] at hold
  have hrun : FdContext.trigger o e = .ok
      { o with ctx := o.ctx.removed e, pending := o.pending - 1, tasks := o.tasks ++ [(s, t)] } := by
    rw [FdContext.trigger, htrigger]
    rfl
  rw [hrun] at ho'
  obtain rfl := Except.ok.inj ho'
  refine ⟨_, hrun, ⟨hkeeps, fun e' => ?_, ?_⟩, hevents⟩
  · rw [waiting_removed, h.waiting e']
    simp only [Finset.mem_insert]
    split <;> simp_all
  · rw [h.tasks, ← hold]
    rfl

theorem Gives.triggerIf (h : Gives c R none tasks o) {p : Prop} [Decidable p]
    (hp : p → e ∈ o.ctx.events) : ∃ o', FdContext.triggerIf p o e = .ok o' ∧
      Gives c (if p then insert e R else R) none (tasks ++ if p then (c.waiting e).toList else []) o' ∧
      o'.ctx.events = if p then o.ctx.events.erase e else o.ctx.events := by
  rw [FdContext.triggerIf]
  by_cases hcase : p
  · simp only [if_pos hcase]
    exact h.trigger (hp hcase)
  · simp only [if_neg hcase, List.append_nil]
    exact ⟨o, rfl, h, rfl⟩

/-- Reading is triggered, and then writing. -/
theorem Wired.gives_both (h : c.Wired) (hR : R ⊆ c.events) : ∃ o o',
    triggerIf (.READ ∈ R) (c.kept true) .READ = .ok o ∧ triggerIf (.WRITE ∈ R) o .WRITE = .ok o' ∧
      (Event.WRITE ∈ o.ctx.events ↔ .WRITE ∈ c.events) ∧ o'.ctx.events = c.events \ R ∧
      Gives c R none (c.tasksOf R) o' := by
  obtain ⟨o, ho, hgives, hevents⟩ :=
    (h.gives_kept true).triggerIf (p := .READ ∈ R) (fun hread => hR hread)
  have hwrite : Event.WRITE ∈ o.ctx.events ↔ .WRITE ∈ c.events := by
    rw [hevents]
    split
    · simp [kept]
    · rfl
  obtain ⟨o', ho', hgives', hevents'⟩ := hgives.triggerIf (e := .WRITE) (p := .WRITE ∈ R)
    (fun hmem => hwrite.mpr (hR hmem))
  have hset : (if Event.WRITE ∈ R then insert .WRITE (if Event.READ ∈ R then insert .READ ∅ else ∅)
      else if Event.READ ∈ R then insert .READ ∅ else ∅) = R := by
    ext e
    cases e <;> split <;> split <;> simp_all
  refine ⟨o, o', ho, ho', hwrite, ?_, ?_⟩
  · rw [hevents', hevents]
    ext e
    cases e <;> split <;> split <;> simp_all [kept]
  · rw [hset] at hgives'
    refine ⟨hgives'.keeps, hgives'.waiting, hgives'.tasks.trans ?_⟩
    simp [tasksOf]

/-! ## The sections -/

/-- The events that a section takes, when `epoll_ctl` succeeds. -/
def taken (ok : Bool) (R : Finset Event) : Finset Event := if ok then R else ∅

theorem Wired.gives_delEvent (h : c.Wired) : Gives c (taken ok {e}) none [] (c.delEvent e ok) := by
  rw [FdContext.delEvent]
  split
  · rename_i he
    refine ⟨h.keeps_kept false, fun e' => ?_, rfl⟩
    split
    · rename_i hmem
      rw [taken] at hmem
      split at hmem
      · rw [Finset.mem_singleton.mp hmem]
        exact h.waiting_eq_none he
      · cases hmem
    · rfl
  · rename_i he
    cases ok with
    | false => exact h.gives_kept false
    | true =>
      refine ⟨?_, fun e' => ?_, rfl⟩
      · have hkeeps := h.delEvent e true
        rwa [FdContext.delEvent, if_neg he] at hkeeps
      · refine waiting_removed.trans ?_
        simp [taken]

theorem Wired.gives_cancelEvent (h : c.Wired) (e : Event) (ok : Bool) :
    ∃ o, c.cancelEvent e ok = .ok o ∧ Gives c (taken ok {e}) none (c.tasksOf (taken ok {e})) o := by
  rw [FdContext.cancelEvent]
  split
  · rename_i he
    refine ⟨_, rfl, h.gives_missing false fun e' he' hmem => ?_⟩
    rw [taken] at hmem
    split at hmem
    · exact he (Finset.mem_singleton.mp hmem ▸ he')
    · cases hmem
  · rename_i he
    cases ok with
    | false => exact ⟨_, rfl, h.gives_missing false fun _ _ => Finset.notMem_empty _⟩
    | true =>
      obtain ⟨o, ho, hgives, -⟩ := (h.gives_kept true).trigger (e := e) (not_not.mp he)
      refine ⟨o, ho, hgives.keeps, hgives.waiting, hgives.tasks.trans ?_⟩
      cases e <;> simp [tasksOf, taken]

theorem Wired.gives_cancelAll (h : c.Wired) (ok : Bool) : ∃ o, c.cancelAll ok = .ok o ∧
    Gives c (taken ok {.READ, .WRITE}) none (c.tasksOf (taken ok {.READ, .WRITE})) o := by
  rw [FdContext.cancelAll]
  split
  · rename_i hempty
    refine ⟨_, rfl, h.gives_missing false fun e he => ?_⟩
    rw [hempty] at he
    cases he
  · cases ok with
    | false => exact ⟨_, rfl, h.gives_missing false fun _ _ => Finset.notMem_empty _⟩
    | true =>
      obtain ⟨o, o', ho, ho', hwrite, hevents, hgives⟩ := h.gives_both (Finset.Subset.refl c.events)
      have hempty : o'.ctx.events = ∅ := by rw [hevents, Finset.sdiff_self]
      refine ⟨o', ?_, hgives.congr h fun e he => ?_⟩
      · have hsecond : FdContext.triggerIf (.WRITE ∈ o.ctx.events) o .WRITE = .ok o' := by
          rw [FdContext.triggerIf] at ho' ⊢
          simpa only [hwrite] using ho'
        simp only [ho, hsecond, bind, Except.bind, hempty, if_true, not_true_eq_false, if_false]
      · cases e <;> simp [taken, he]

theorem Wired.gives_dispatch (h : c.Wired) (hR : R ⊆ c.events) (ok : Bool) :
    ∃ o, c.dispatch R ok = .ok o ∧ Gives c (taken ok R) none (c.tasksOf (taken ok R)) o := by
  rw [FdContext.dispatch, Finset.inter_eq_right.mpr hR]
  split
  · rename_i hempty
    refine ⟨_, rfl, h.gives_missing true fun e he hmem => ?_⟩
    rw [taken, hempty] at hmem
    simp at hmem
  · cases ok with
    | false => exact ⟨_, rfl, h.gives_missing true fun _ _ => Finset.notMem_empty _⟩
    | true =>
      obtain ⟨o, o', ho, ho', -, -, hgives⟩ := h.gives_both hR
      refine ⟨o', ?_, hgives⟩
      simp only [ho, ho', bind, Except.bind, not_true_eq_false, if_false]

theorem Wired.addEvent_ne_error (h : c.Wired) (he : e ∉ c.events) (hrunning : r.running = true)
    {f : FdFault} : c.addEvent e r ok ≠ .error f := by
  rw [FdContext.addEvent, if_neg he, if_neg (not_not.mpr (h.idle e he))]
  dsimp only
  split
  · rintro ⟨⟩
  · split
    · rintro ⟨⟩
    · rintro ⟨⟩

/-- Who calls is running, and belongs to a scheduler. -/
theorem Wired.gives_addEvent (h : c.Wired) (he : e ∉ c.events) (hr : r.scheduler = some s)
    (hrunning : r.running = true) (ok : Bool) :
    ∃ o, c.addEvent e r ok = .ok o ∧ Gives c (taken ok {e}) (some (s, r.task)) [] o := by
  have hscheduler : r.scheduler ≠ none := by
    rw [hr]
    exact Option.some_ne_none s
  have hadd : (∃ o, c.addEvent e r ok = .ok o ∧ Keeps c o) ∨ c.addEvent e r ok = .error .addEvent ∨
      c.addEvent e r ok = .error .notRunning := h.addEvent hscheduler
  rcases hadd with ⟨o, ho, hkeeps⟩ | hfault | hfault
  · refine ⟨o, ho, ?_⟩
    rw [FdContext.addEvent, if_neg he] at ho
    cases ok with
    | false =>
      obtain rfl := Except.ok.inj ho
      exact h.gives_kept false
    | true =>
      rw [if_neg (not_not.mpr rfl), if_neg (not_not.mpr (h.idle e he)), hr] at ho
      have hwaiting (t : Task) (e' : Event) :
          ({ c with events := insert e c.events }.setContext e (t.context (some s))).waiting e' =
            if e' ∈ taken true {e} then some (s, t) else c.waiting e' := by
        rw [FdContext.waiting]
        by_cases hee : e' = e
        · rw [hee, getContext_setContext_self, task_context]
          simp [taken]
        · rw [getContext_setContext_of_ne hee, getContext_events]
          simp [taken, hee, FdContext.waiting]
      cases hcb : r.cb with
      | some cb =>
        rw [hcb] at ho
        obtain rfl := Except.ok.inj ho
        refine ⟨hkeeps, fun e' => (hwaiting (.cb cb) e').trans ?_, rfl⟩
        rw [Registration.task, hcb]
      | none =>
        rw [hcb] at ho
        dsimp only at ho
        rw [if_pos hrunning] at ho
        obtain rfl := Except.ok.inj ho
        refine ⟨hkeeps, fun e' => (hwaiting (.fiber r.fiber) e').trans ?_, rfl⟩
        rw [Registration.task, hcb]
  · exact absurd hfault (h.addEvent_ne_error he hrunning)
  · exact absurd hfault (h.addEvent_ne_error he hrunning)

/-! ## How many wait -/

theorem count_allTasks (c : FdContext) (y : ℕ × Task) : c.allTasks.count y =
    (c.waiting .READ).toList.count y + (c.waiting .WRITE).toList.count y := by
  simp [allTasks, tasksOf]

/-- What is taken does not wait any more. -/
theorem Gives.count (h : Gives c R none tasks o) (y : ℕ × Task) :
    o.ctx.allTasks.count y + (c.tasksOf R).count y = c.allTasks.count y := by
  rw [count_allTasks, count_allTasks, h.waiting, h.waiting]
  by_cases hread : Event.READ ∈ R <;> by_cases hwrite : Event.WRITE ∈ R <;>
    (simp [tasksOf, hread, hwrite]; try omega)

/-- What is registered waits. -/
theorem Gives.count_add (h : Gives c (taken ok {e}) (some x) tasks o) (hnone : c.waiting e = none)
    (y : ℕ × Task) : o.ctx.allTasks.count y = c.allTasks.count y + (if ok then [x] else []).count y := by
  rw [count_allTasks, count_allTasks, h.waiting, h.waiting]
  cases ok with
  | false => simp [taken]
  | true =>
    cases e with
    | READ =>
      simp [taken, hnone]
      omega
    | WRITE => simp [taken, hnone]

end
end FdContext

/-- A call, or what `idle` does about a report. -/
inductive IOCall
  | addEvent (fd : ℕ) (event : Event) (r : Registration)
  | delEvent (fd : ℕ) (event : Event)
  | cancelEvent (fd : ℕ) (event : Event)
  | cancelAll (fd : ℕ)
  | dispatch (report : Report)

namespace IOCall

/-- What waits after `addEvent`. -/
def task : IOCall → Option (ℕ × Task)
  | .addEvent _ _ r => r.scheduler.map fun s => (s, r.task)
  | _ => none

def schedules : IOCall → Bool
  | .cancelEvent .. | .cancelAll _ | .dispatch _ => true
  | _ => false

def deletes : IOCall → Bool
  | .delEvent .. => true
  | _ => false

/-- The section of the context. -/
def locked (ctx : FdContext) (ok : Bool) : IOCall → Except FdFault Outcome
  | .addEvent _ event r => ctx.addEvent event r ok
  | .delEvent _ event => .ok (ctx.delEvent event ok)
  | .cancelEvent _ event => ctx.cancelEvent event ok
  | .cancelAll _ => ctx.cancelAll ok
  | .dispatch report => ctx.dispatch (report.real ctx) ok

/-- The events of a context that a call is about. -/
def named (ctx : FdContext) : IOCall → Finset Event
  | .addEvent _ event _ | .delEvent _ event | .cancelEvent _ event => {event}
  | .cancelAll _ => {.READ, .WRITE}
  | .dispatch report => report.real ctx

end IOCall

namespace IOManager

/-- The section of thread `t` that looks into the table. -/
def enter (s : IOManager) (t : ℕ) : IOCall → Except IOFault IOManager
  | .addEvent fd event r => s.addEvent t fd event r
  | .delEvent fd event => s.delEvent t fd event
  | .cancelEvent fd event => s.cancelEvent t fd event
  | .cancelAll fd => s.cancelAll t fd
  | .dispatch report => .ok (s.go t (.idle [report]))

/-- The section in which the table grows, if there is one. -/
def grow (s : IOManager) (t : ℕ) : Except IOFault IOManager :=
  match s.points t with
  | .resizing fd event r => s.resize t fd event r
  | _ => .ok s

/-- The section of the context, if there is one. -/
def lock (s : IOManager) (t : ℕ) (ok : Bool) : Except IOFault IOManager :=
  match target (s.points t) with
  | some c => s.context t c ok
  | none => .ok s

/-- A call in one step. -/
def perform (s : IOManager) (t : ℕ) (call : IOCall) (ok : Bool) : Except IOFault IOManager := do
  let s ← s.enter t call
  let s ← s.grow t
  s.lock t ok

/-- The table in which a call looks for the context. -/
def grown (s : IOManager) : IOCall → IOManager
  | .addEvent fd _ _ => if toInt s.fdContexts.length > fd then s else s.contextResize (fd * 3 / 2)
  | _ => s

/-- The context that a call finds. -/
def finds (s : IOManager) : IOCall → Option ℕ
  | .addEvent fd event r => (s.grown (.addEvent fd event r)).fdContexts[fd]?
  | .delEvent fd _ => s.fdContexts[fd]?
  | .cancelEvent fd _ | .cancelAll fd =>
    if toInt s.fdContexts.length ≤ fd then none else s.fdContexts[fd]?
  | .dispatch report => some report.ctx

/-- What waits for an event of a context. -/
def waiting (s : IOManager) (c : ℕ) (e : Event) : Option (ℕ × Task) :=
  s.contexts[c]?.bind fun ctx => ctx.waiting e

/-- The events of context `c` that a call takes. -/
def takes (s : IOManager) (call : IOCall) (ok : Bool) (c : ℕ) : Finset Event :=
  if s.finds call = some c then
    (s.grown call).contexts[c]?.elim ∅ fun ctx => FdContext.taken ok (call.named ctx)
  else ∅

/-- What waits for the events that a call takes. -/
def taken (s : IOManager) (call : IOCall) (ok : Bool) : List (ℕ × Task) :=
  ((s.finds call).bind fun c => s.contexts[c]?).elim [] fun ctx =>
    ctx.tasksOf (FdContext.taken ok (call.named ctx))

/-- Events are added from a fiber that is running, by a scheduler, where they are not registered, and
a report is fresh. -/
def Proper (s : IOManager) : IOCall → Prop
  | .addEvent fd event r => r.scheduler ≠ none ∧ r.running = true ∧ ∀ c ctx,
    s.finds (.addEvent fd event r) = some c →
      (s.grown (.addEvent fd event r)).contexts[c]? = some ctx → event ∉ ctx.events
  | .dispatch report => s.reports [report] = true
  | _ => True

/-- What a call does: it takes the events that it is about from those who wait, and schedules them or
not, or it lets one wait. No other event is touched, and none at all when `epoll_ctl` fails. -/
structure Lawful (s : IOManager) (call : IOCall) (ok : Bool) (s' : IOManager) : Prop where
  waiting : ∀ c e, s'.waiting c e = if e ∈ s.takes call ok c then call.task else s.waiting c e
  scheduled : s'.scheduled = s.scheduled ++ if call.schedules then s.taken call ok else []
  failed : ok = false → s'.pendingEventCount = s.pendingEventCount

/-- Everything that waits. -/
def waitingTasks (s : IOManager) : List (ℕ × Task) := s.contexts.flatMap FdContext.allTasks

/-- What a call may come to. -/
inductive Performs (s : IOManager) (t : ℕ) (call : IOCall) (ok : Bool) : Except IOFault IOManager → Prop
  | absent (hfinds : s.finds call = none) (hcall : call.task = none) :
    Performs s t call ok (.ok (s.go t (.ready false)))
  | outOfRange (hsize : toInt s.fdContexts.length ≤ 1) : Performs s t call ok (.error .outOfRange)
  | dangling {c : ℕ} (hfinds : s.finds call = some c) (hc : (s.grown call).contexts[c]? = none) :
    Performs s t call ok (.error .dangling)
  | fault {c : ℕ} {ctx : FdContext} {f : FdFault} (hfinds : s.finds call = some c)
    (hc : (s.grown call).contexts[c]? = some ctx) (ho : call.locked ctx ok = .error f) :
    Performs s t call ok (.error (.context f))
  | done {c : ℕ} {ctx : FdContext} {o : Outcome} (returned : Bool) (hfinds : s.finds call = some c)
    (hc : (s.grown call).contexts[c]? = some ctx) (ho : call.locked ctx ok = .ok o) :
    Performs s t call ok (.ok (((s.grown call).commit t c o).go t (.ready returned)))

section
variable {s s' : IOManager} {t c : ℕ} {call : IOCall} {ok : Bool} {p : Point} {ctx : FdContext}
  {o : Outcome} {f : IOFault}

/-- The section of the context, when a call has come to it. -/
theorem lock_performs (ok : Bool) (hp : target p = some c) (hnext : ∀ done, ∃ returned, p.next done = .ready returned)
    (hlocked : ∀ ctx, locked ctx ok p = call.locked ctx ok) (hfinds : s.finds call = some c) :
    s.Performs t call ok (((s.grown call).go t p).lock t ok) := by
  have hcontexts : ((s.grown call).go t p).contexts = (s.grown call).contexts := rfl
  rw [lock, go_points_self, hp]
  dsimp only
  rw [context, hcontexts]
  cases hc : (s.grown call).contexts[c]? with
  | none => exact .dangling hfinds hc
  | some ctx =>
    rw [go_points_self]
    dsimp only
    rw [hlocked]
    cases ho : call.locked ctx ok with
    | error f => exact .fault hfinds hc ho
    | ok o =>
      obtain ⟨returned, hreturned⟩ := hnext o.done
      have hcommit : ((s.grown call).go t p).commit t c o =
          ((s.grown call).commit t c o).go t (.ready returned) := by
        rw [commit, go_points_self, hreturned]
        simp only [go, commit, Function.update_idem]
      dsimp only
      rw [hcommit]
      exact .done returned hfinds hc ho

/-- A call that looks into the table before it locks a context. -/
theorem look_performs {fd : ℕ} {p : ℕ → Point} (hfd : fd < s.fdContexts.length) (hgrown : s.grown call = s)
    (hfinds : s.finds call = s.fdContexts[fd]?) (hp : ∀ c, target (p c) = some c)
    (hpoint : ∀ c done, (p c).next done = .ready done) (hgrow : ∀ c, (s.go t (p c)).grow t = .ok (s.go t (p c)))
    (hlocked : ∀ c ctx, locked ctx ok (p c) = call.locked ctx ok) :
    s.Performs t call ok (do
      let s ← (do let c ← s.fdContext fd; return s.go t (p c))
      let s ← s.grow t
      s.lock t ok) := by
  have hc := List.getElem?_eq_getElem hfd
  rw [fdContext_eq hc]
  change s.Performs t call ok ((s.go t (p _)).grow t >>= fun s => s.lock t ok)
  rw [hgrow]
  have hperforms := lock_performs (t := t) ok (hp _) (fun done => ⟨done, hpoint _ done⟩) (hlocked _)
    (hfinds.trans hc)
  rw [hgrown] at hperforms
  exact hperforms

theorem length_contextResize (s : IOManager) (size : ℕ) :
    (s.contextResize size).fdContexts.length = size := by
  rw [IOManager.contextResize, List.length_append, List.length_take, List.length_range']
  omega

/-- The table grows, and the call goes on to the context. -/
theorem resize_performs {fd : ℕ} {event : Event} {r : Registration}
    (hsize : ¬ toInt s.fdContexts.length > fd) : s.Performs t (.addEvent fd event r) ok (do
      let s ← (s.go t (.resizing fd event r)).grow t
      s.lock t ok) := by
  have hgrown : s.grown (.addEvent fd event r) = s.contextResize (fd * 3 / 2) := if_neg hsize
  have htable : ((s.go t (.resizing fd event r)).contextResize (fd * 3 / 2)).fdContexts =
      (s.contextResize (fd * 3 / 2)).fdContexts := rfl
  have hgo (p : Point) : ((s.go t (.resizing fd event r)).contextResize (fd * 3 / 2)).go t p =
      (s.contextResize (fd * 3 / 2)).go t p := by
    simp only [go, IOManager.contextResize, Function.update_idem]
  rw [grow, go_points_self]
  dsimp only
  rw [resize]
  cases hc : (s.contextResize (fd * 3 / 2)).fdContexts[fd]? with
  | none =>
    rw [fdContext_out (htable ▸ hc)]
    have hlength := List.getElem?_eq_none_iff.mp hc
    rw [length_contextResize] at hlength
    exact .outOfRange (by omega)
  | some c =>
    rw [fdContext_eq (htable ▸ hc)]
    change s.Performs t (.addEvent fd event r) ok
      ((((s.go t (.resizing fd event r)).contextResize (fd * 3 / 2)).go t (.addEvent fd c event r)).lock t ok)
    have hfinds : s.finds (.addEvent fd event r) = some c := by rw [finds, hgrown, hc]
    have hperforms := lock_performs (t := t) (p := .addEvent fd c event r) ok rfl
      (fun done => ⟨done, rfl⟩) (fun _ => rfl) hfinds
    rwa [hgrown, ← hgo] at hperforms

theorem grow_eq {p : Point} (hp : ∀ fd event r, p ≠ .resizing fd event r) :
    (s.go t p).grow t = .ok (s.go t p) := by
  rw [grow, go_points_self]
  split
  · exact absurd rfl (hp _ _ _)
  · rfl

/-- A call that finds no context. -/
theorem absent_performs (hfinds : s.finds call = none) (hcall : call.task = none) :
    s.Performs t call ok (do
      let s ← (s.go t (.ready false)).grow t
      s.lock t ok) := by
  have habsent : (s.go t (.ready false)).lock t ok = .ok (s.go t (.ready false)) := by
    rw [lock, go_points_self]
    rfl
  rw [grow_eq (p := .ready false) nofun]
  change s.Performs t call ok ((s.go t (.ready false)).lock t ok)
  rw [habsent]
  exact .absent hfinds hcall

theorem perform_performs (s : IOManager) (t : ℕ) (call : IOCall) (ok : Bool) :
    s.Performs t call ok (s.perform t call ok) := by
  rw [perform]
  cases call with
  | addEvent fd event r =>
    rw [enter, IOManager.addEvent]
    split
    · rename_i hsize
      have hgrown : s.grown (.addEvent fd event r) = s := if_pos hsize
      have hle := toInt_le s.fdContexts.length
      exact look_performs (p := fun c => .addEvent fd c event r) (by omega) hgrown (by rw [finds, hgrown])
        (fun _ => rfl) (fun _ _ => rfl) (fun _ => grow_eq (by rintro _ _ _ ⟨⟩)) (fun _ _ => rfl)
    · rename_i hsize
      exact resize_performs hsize
  | delEvent fd event =>
    rw [enter, IOManager.delEvent]
    split
    · rename_i hsize
      exact absent_performs (List.getElem?_eq_none_iff.mpr hsize) rfl
    · rename_i hsize
      exact look_performs (p := fun c => .delEvent fd c event) (Nat.lt_of_not_le hsize) rfl rfl
        (fun _ => rfl) (fun _ _ => rfl) (fun _ => grow_eq (by rintro _ _ _ ⟨⟩)) (fun _ _ => rfl)
  | cancelEvent fd event =>
    rw [enter, IOManager.cancelEvent]
    split
    · rename_i hsize
      exact absent_performs (if_pos hsize) rfl
    · rename_i hsize
      have hle := toInt_le s.fdContexts.length
      exact look_performs (p := fun c => .cancelEvent fd c event) (by omega) rfl (if_neg hsize)
        (fun _ => rfl) (fun _ _ => rfl) (fun _ => grow_eq (by rintro _ _ _ ⟨⟩)) (fun _ _ => rfl)
  | cancelAll fd =>
    rw [enter, IOManager.cancelAll]
    split
    · rename_i hsize
      exact absent_performs (if_pos hsize) rfl
    · rename_i hsize
      have hle := toInt_le s.fdContexts.length
      exact look_performs (p := fun c => .cancelAll fd c) (by omega) rfl (if_neg hsize)
        (fun _ => rfl) (fun _ _ => rfl) (fun _ => grow_eq (by rintro _ _ _ ⟨⟩)) (fun _ _ => rfl)
  | dispatch report =>
    change s.Performs t _ ok (do let s ← (s.go t (.dispatch report [])).grow t; s.lock t ok)
    rw [grow_eq (p := .dispatch report []) (by rintro _ _ _ ⟨⟩)]
    exact lock_performs (p := .dispatch report []) ok rfl (fun _ => ⟨true, rfl⟩) (fun _ => rfl) rfl

/-! ## The law of a step -/

theorem Sound.grown (h : s.Sound) (call : IOCall) : (s.grown call).Sound := by
  cases call with
  | addEvent fd event r =>
    rw [IOManager.grown]
    split
    · exact h
    · exact h.contextResize _
  | _ => exact h

theorem waiting_contextResize (size : ℕ) (c : ℕ) (e : Event) :
    (s.contextResize size).waiting c e = s.waiting c e := by
  rw [waiting, waiting, IOManager.contextResize]
  dsimp only
  by_cases hc : c < s.contexts.length
  · rw [List.getElem?_append_left hc]
  · have hold : s.contexts[c]? = none := List.getElem?_eq_none_iff.mpr (Nat.not_lt.mp hc)
    rw [List.getElem?_append_right (Nat.not_lt.mp hc), hold, List.getElem?_map]
    cases (List.range' s.fdContexts.length (size - s.fdContexts.length))[c - s.contexts.length]? with
    | none => rfl
    | some fd => cases e <;> rfl

theorem waiting_grown (call : IOCall) (c : ℕ) (e : Event) : (s.grown call).waiting c e = s.waiting c e := by
  cases call with
  | addEvent fd event r =>
    rw [grown]
    split
    · rfl
    · exact waiting_contextResize _ c e
  | _ => rfl

theorem grown_scheduled (call : IOCall) : (s.grown call).scheduled = s.scheduled ∧
    (s.grown call).pendingEventCount = s.pendingEventCount := by
  cases call with
  | addEvent fd event r =>
    rw [grown]
    split <;> exact ⟨rfl, rfl⟩
  | _ => exact ⟨rfl, rfl⟩

/-- The section of a call that is proper. -/
theorem Proper.locked (ok : Bool) (h : s.Proper call) (hsound : s.Sound) (hfinds : s.finds call = some c)
    (hc : (s.grown call).contexts[c]? = some ctx) : ∃ o, call.locked ctx ok = .ok o ∧
      ctx.Gives (FdContext.taken ok (call.named ctx)) call.task
        (if call.schedules then ctx.tasksOf (FdContext.taken ok (call.named ctx)) else []) o ∧
      (call.task ≠ none → ∀ e ∈ call.named ctx, ctx.waiting e = none) := by
  have hwired : ctx.Wired := (hsound.grown call).wired ctx (List.mem_of_getElem? hc)
  cases call with
  | addEvent fd event r =>
    obtain ⟨hscheduler, hrunning, hnew⟩ := h
    have he := hnew c ctx hfinds hc
    obtain ⟨sch, hsch⟩ := Option.ne_none_iff_exists'.mp hscheduler
    obtain ⟨o, ho, hgives⟩ := hwired.gives_addEvent he hsch hrunning ok
    refine ⟨o, ho, ?_, fun _ e' he' => ?_⟩
    · rw [IOCall.task, hsch]
      exact hgives
    · obtain rfl := Finset.mem_singleton.mp he'
      exact hwired.waiting_eq_none he
  | delEvent fd event => exact ⟨_, rfl, hwired.gives_delEvent, fun hne => absurd rfl hne⟩
  | cancelEvent fd event =>
    obtain ⟨o, ho, hgives⟩ := hwired.gives_cancelEvent event ok
    exact ⟨o, ho, hgives, fun hne => absurd rfl hne⟩
  | cancelAll fd =>
    obtain ⟨o, ho, hgives⟩ := hwired.gives_cancelAll ok
    exact ⟨o, ho, hgives, fun hne => absurd rfl hne⟩
  | dispatch report =>
    have hfresh : report.events ⊆ ctx.events := by
      obtain rfl := Option.some.inj hfinds
      have hall := List.all_eq_true.mp h report List.mem_cons_self
      have hc' : s.contexts[report.ctx]? = some ctx := hc
      rw [hc'] at hall
      exact of_decide_eq_true hall
    have hreal : report.real ctx ⊆ ctx.events := by
      rw [Report.real]
      split
      · exact Finset.union_subset hfresh (Finset.Subset.refl _)
      · exact hfresh
    obtain ⟨o, ho, hgives⟩ := hwired.gives_dispatch hreal ok
    exact ⟨o, ho, hgives, fun hne => absurd rfl hne⟩

theorem waiting_commit (hc : s.contexts[c]? = some ctx) (k : ℕ) (e : Event) :
    (s.commit t c o).waiting k e = if k = c then o.ctx.waiting e else s.waiting k e := by
  have hlt := (List.getElem?_eq_some_iff.mp hc).1
  rw [waiting, waiting, commit]
  dsimp only
  split
  · rename_i hkc
    rw [hkc, List.getElem?_set_self hlt]
    rfl
  · rename_i hkc
    rw [List.getElem?_set_ne (Ne.symm hkc)]

/-- Nothing changes in number when nothing is taken. -/
theorem pending_of_waiting (hwired : ctx.Wired) (hkeeps : ctx.Keeps o)
    (hsame : ∀ e, o.ctx.waiting e = ctx.waiting e) : o.pending = 0 := by
  have hevents : o.ctx.events = ctx.events := by
    ext e
    constructor
    · intro he
      by_contra hnot
      obtain ⟨x, hx⟩ := hkeeps.wired.waiting_isSome he
      rw [hsame, hwired.waiting_eq_none hnot] at hx
      cases hx
    · intro he
      by_contra hnot
      obtain ⟨x, hx⟩ := hwired.waiting_isSome he
      rw [← hsame, hkeeps.wired.waiting_eq_none hnot] at hx
      cases hx
  have hpending := hkeeps.pending
  rw [hevents] at hpending
  omega

/-- A call that takes something does not make the table grow. -/
theorem taken_eq (hcall : call.schedules = true ∨ call.deletes = true) (hfinds : s.finds call = some c)
    (hc : (s.grown call).contexts[c]? = some ctx) :
    s.taken call ok = ctx.tasksOf (FdContext.taken ok (call.named ctx)) := by
  have hgrown : s.grown call = s := by
    cases call with
    | addEvent => simp [IOCall.schedules, IOCall.deletes] at hcall
    | _ => rfl
  rw [hgrown] at hc
  rw [taken, hfinds, Option.bind_some, hc]
  rfl

/-- The section of the context does what the law says. -/
theorem Sound.lawful_done (h : s.Sound) (hfinds : s.finds call = some c)
    (hc : (s.grown call).contexts[c]? = some ctx) (returned : Bool)
    (hgives : ctx.Gives (FdContext.taken ok (call.named ctx)) call.task
      (if call.schedules then ctx.tasksOf (FdContext.taken ok (call.named ctx)) else []) o) :
    s.Lawful call ok (((s.grown call).commit t c o).go t (.ready returned)) where
  waiting := by
    intro k e
    change ((s.grown call).commit t c o).waiting k e = _
    rw [waiting_commit hc, waiting_grown, takes, hfinds]
    by_cases hkc : k = c
    · subst hkc
      have hctx : s.waiting k e = ctx.waiting e := by
        rw [← waiting_grown call, waiting, hc]
        rfl
      rw [if_pos rfl, if_pos rfl, hc, hgives.waiting e, hctx]
      rfl
    · rw [if_neg hkc, if_neg (fun heq => hkc (Option.some.inj heq).symm), if_neg (Finset.notMem_empty e)]
  scheduled := by
    change (s.grown call).scheduled ++ o.tasks = _
    rw [(grown_scheduled call).1, hgives.tasks]
    cases hcall : call.schedules with
    | false => rfl
    | true => rw [taken_eq (Or.inl hcall) hfinds hc]
  failed := by
    rintro rfl
    have hwired := (h.grown call).wired ctx (List.mem_of_getElem? hc)
    have hzero := pending_of_waiting hwired hgives.keeps hgives.waiting
    change (s.grown call).pendingEventCount + o.pending = _
    rw [(grown_scheduled call).2, hzero, Int.add_zero]

theorem Sound.lawful_absent (hfinds : s.finds call = none) (returned : Bool) :
    s.Lawful call ok (s.go t (.ready returned)) where
  waiting := by
    intro k e
    have htakes : s.takes call ok k = ∅ := by
      rw [takes, hfinds]
      exact if_neg nofun
    rw [htakes, if_neg (Finset.notMem_empty e)]
    rfl
  scheduled := by
    rw [taken, hfinds]
    cases call.schedules <;> exact (List.append_nil _).symm
  failed _ := rfl

/-! ## Runs -/


theorem count_waitingTasks (s : IOManager) (y : ℕ × Task) :
    s.waitingTasks.count y = (s.contexts.map fun ctx => ctx.allTasks.count y).sum := by
  rw [waitingTasks, List.count_flatMap]
  rfl

theorem count_waitingTasks_commit (hc : s.contexts[c]? = some ctx) (y : ℕ × Task) :
    (s.commit t c o).waitingTasks.count y + ctx.allTasks.count y =
      s.waitingTasks.count y + o.ctx.allTasks.count y := by
  rw [count_waitingTasks, count_waitingTasks]
  exact sum_map_set (fun ctx => ctx.allTasks.count y) s.contexts c hc

theorem waitingTasks_grown (call : IOCall) : (s.grown call).waitingTasks = s.waitingTasks := by
  have hnew (size : ℕ) : (s.contextResize size).waitingTasks = s.waitingTasks := by
    rw [waitingTasks, IOManager.contextResize, List.flatMap_append, List.flatMap_map]
    have hempty : (fun fd => (FdContext.new fd).allTasks) = fun _ => [] := rfl
    rw [hempty]
    simp [waitingTasks]
  cases call with
  | addEvent fd event r =>
    rw [grown]
    split
    · rfl
    · exact hnew _
  | _ => rfl

theorem large_grown (h : 2 ≤ s.fdContexts.length) (hfinds : s.finds call = some c) :
    2 ≤ (s.grown call).fdContexts.length := by
  cases call with
  | addEvent fd event r =>
    have hlt := (List.getElem?_eq_some_iff.mp hfinds).1
    rw [grown] at hlt ⊢
    split at hlt
    · rename_i hsize
      rw [if_pos hsize]
      exact h
    · rename_i hsize
      rw [if_neg hsize]
      rw [length_contextResize] at hlt ⊢
      omega
  | _ => exact h

/-- A call finds a context that is there. -/
theorem Sound.finds_lt (h : s.Sound) (hproper : s.Proper call) (hfinds : s.finds call = some c) :
    c < (s.grown call).contexts.length := by
  cases call with
  | addEvent fd event r => exact (h.grown _).table c (List.mem_of_getElem? hfinds)
  | delEvent fd event => exact h.table c (List.mem_of_getElem? hfinds)
  | cancelEvent fd event | cancelAll fd =>
    rw [finds] at hfinds
    split at hfinds
    · cases hfinds
    · exact h.table c (List.mem_of_getElem? hfinds)
  | dispatch report =>
    obtain rfl := Option.some.inj hfinds
    have hany := List.all_eq_true.mp hproper report List.mem_cons_self
    change report.ctx < s.contexts.length
    by_contra hge
    rw [List.getElem?_eq_none_iff.mpr (Nat.not_lt.mp hge)] at hany
    cases hany

/-- Among those who wait, what is taken is missing, and what was registered is there. -/
theorem Sound.count_done (h : s.Sound) (hfinds : s.finds call = some c)
    (hc : (s.grown call).contexts[c]? = some ctx) (returned : Bool) (hcall : s.Proper call)
    (ho : call.locked ctx ok = .ok o) (y : ℕ × Task) :
    (((s.grown call).commit t c o).go t (.ready returned)).waitingTasks.count y +
        (if call.schedules || call.deletes then s.taken call ok else []).count y =
      s.waitingTasks.count y + (if ok then call.task.toList else []).count y := by
  obtain ⟨o', ho', hgives, hnew⟩ := hcall.locked ok h hfinds hc
  rw [ho] at ho'
  obtain rfl := Except.ok.inj ho'
  have hcommit := count_waitingTasks_commit (t := t) (o := o) hc y
  rw [waitingTasks_grown] at hcommit
  change ((s.grown call).commit t c o).waitingTasks.count y + _ = _
  cases htask : call.task with
  | none =>
    rw [htask] at hgives
    have hcount := hgives.count y
    cases hkind : call.schedules || call.deletes with
    | false =>
      cases call with
      | addEvent fd event r =>
        obtain ⟨sch, hsch⟩ := Option.ne_none_iff_exists'.mp hcall.1
        rw [IOCall.task, hsch] at htask
        cases htask
      | _ => cases hkind
    | true =>
      rw [taken_eq (by simpa using hkind) hfinds hc]
      simp only [if_true, Option.toList_none, ite_self, List.count_nil]
      omega
  | some x =>
    cases call with
    | addEvent fd event r =>
      rw [htask] at hgives
      have hcount := hgives.count_add (hnew (by rw [htask]; exact Option.some_ne_none x) event
        (Finset.mem_singleton_self event)) y
      simp only [IOCall.schedules, IOCall.deletes, Bool.or_self, Bool.false_eq_true, if_false,
        List.count_nil, Option.toList_some]
      omega
    | _ => cases htask

end
end IOManager

/-- The manager, with what has been registered and what has been deleted. -/
structure Ledger where
  io : IOManager
  registered : List (ℕ × Task)
  deleted : List (ℕ × Task)

namespace Ledger
open IOManager

def new : Ledger := ⟨.new, [], []⟩

/-- A call is entered. -/
def after (l : Ledger) (call : IOCall) (ok : Bool) (io : IOManager) : Ledger where
  io := io
  registered := l.registered ++ if ok then call.task.toList else []
  deleted := l.deleted ++ if call.deletes then l.io.taken call ok else []

/-- A call of thread `t`, for which `epoll_ctl` succeeds or not. -/
def Step (l : Ledger) (a : ℕ × IOCall × Bool) (l' : Ledger) : Prop :=
  l.io.Proper a.2.1 ∧ ∃ io, l.io.perform a.1 a.2.1 a.2.2 = .ok io ∧ l' = l.after a.2.1 a.2.2 io

/-- Events are registered exactly for those who wait, and counted; what was registered has been
scheduled, has been deleted, or waits; and the next call obeys the law. It fails only where the size
of the table is no `int`. -/
structure Lifecycle (l : Ledger) : Prop where
  inUse : ∀ ctx ∈ l.io.contexts, ∀ e, e ∈ ctx.events ↔ (ctx.getContext e).InUse
  pending : l.io.pendingEventCount = l.io.total
  once : ∀ y, l.registered.count y =
    l.io.scheduled.count y + l.deleted.count y + l.io.waitingTasks.count y
  next : ∀ t call ok, l.io.Proper call →
    (∀ f, l.io.perform t call ok = .error f → intMax < l.io.fdContexts.length) ∧
      ∀ io, l.io.perform t call ok = .ok io → l.io.Lawful call ok io

structure Balanced (l : Ledger) : Prop where
  sound : l.io.Sound
  large : 2 ≤ l.io.fdContexts.length
  once : ∀ y, l.registered.count y =
    l.io.scheduled.count y + l.deleted.count y + l.io.waitingTasks.count y

variable {l l' : Ledger} {a : ℕ × IOCall × Bool} {log : List (ℕ × IOCall × Bool)} {call : IOCall} {ok : Bool}
  {io : IOManager} {t : ℕ}

theorem Balanced.perform (h : l.Balanced) (hproper : l.io.Proper call)
    (hio : l.io.perform t call ok = .ok io) : l.io.Lawful call ok io ∧ (l.after call ok io).Balanced := by
  have hperforms := l.io.perform_performs t call ok
  rw [hio] at hperforms
  have hready (returned : Bool) (s : IOManager) : s.Valid (.ready returned) :=
    ⟨fun c hc => (by cases hc), fun r hr => (by cases hr)⟩
  have hdisjoint : call.deletes = true → call.schedules = false := by
    cases call <;> first | exact fun _ => rfl | exact nofun
  cases hperforms with
  | absent hfinds htask =>
    refine ⟨Sound.lawful_absent hfinds false, h.sound.go (hready false _) t, h.large, fun y => ?_⟩
    have honce := h.once y
    have htaken : l.io.taken call ok = [] := by rw [taken, hfinds]; rfl
    simp only [after, htask, htaken, Option.toList_none, ite_self, List.append_nil]
    exact honce
  | done returned hfinds hc ho =>
    obtain ⟨o, ho', hgives, -⟩ := hproper.locked ok h.sound hfinds hc
    rw [ho] at ho'
    obtain rfl := Except.ok.inj ho'
    have hlawful := h.sound.lawful_done (t := t) hfinds hc returned hgives
    refine ⟨hlawful, ((h.sound.grown call).commit hc hgives.keeps).go (hready returned _) t,
      large_grown h.large hfinds, fun y => ?_⟩
    have honce := h.once y
    have hcount := h.sound.count_done (t := t) hfinds hc returned hproper ho y
    have hscheduled := hlawful.scheduled
    simp only [after, hscheduled, List.count_append]
    cases hdeletes : call.deletes with
    | false =>
      rw [hdeletes, Bool.or_false] at hcount
      simp only [Bool.false_eq_true, if_false, List.count_nil]
      omega
    | true =>
      rw [hdeletes, Bool.or_true, if_pos rfl] at hcount
      simp only [hdisjoint hdeletes, Bool.false_eq_true, if_false, if_true, List.count_nil]
      omega

theorem Balanced.step (h : l.Balanced) (hs : l.Step a l') : l'.Balanced := by
  obtain ⟨hproper, io, hio, rfl⟩ := hs
  exact (h.perform hproper hio).2

theorem balanced_new : new.Balanced := by
  refine ⟨sound_new, by decide, fun y => ?_⟩
  have hempty : IOManager.new.waitingTasks = [] := rfl
  change ([] : List (ℕ × Task)).count y = ([] : List (ℕ × Task)).count y + ([] : List (ℕ × Task)).count y +
    IOManager.new.waitingTasks.count y
  rw [hempty]
  rfl

/-- A call that is proper fails in no assertion. -/
theorem Balanced.fault (h : l.Balanced) (hproper : l.io.Proper call) {f : IOFault}
    (hf : l.io.perform t call ok = .error f) : intMax < l.io.fdContexts.length := by
  have hperforms := l.io.perform_performs t call ok
  rw [hf] at hperforms
  cases hperforms with
  | outOfRange hsize =>
    by_contra hle
    have hlarge := h.large
    rw [toInt_eq (Nat.not_lt.mp hle)] at hsize
    omega
  | dangling hfinds hc =>
    have hlt := h.sound.finds_lt hproper hfinds
    exact absurd (List.getElem?_eq_none_iff.mp hc) (Nat.not_le.mpr hlt)
  | fault hfinds hc ho =>
    obtain ⟨o, ho', -⟩ := hproper.locked ok h.sound hfinds hc
    rw [ho] at ho'
    cases ho'

/-- Every event lives from its registration until it is scheduled once, or deleted. -/
theorem lifecycle (h : Run Step new log l) : l.Lifecycle := by
  have hbalanced : l.Balanced := h.keeps (fun _ _ _ hb hs => hb.step hs) balanced_new
  refine ⟨fun ctx hctx e => (hbalanced.sound.wired ctx hctx).inUse_iff, hbalanced.sound.pending,
    hbalanced.once, fun t call ok hproper => ⟨fun f hf => hbalanced.fault hproper hf, fun io hio => ?_⟩⟩
  exact (hbalanced.perform hproper hio).1

/-- A callback waits for reading and is canceled, a fiber waits for writing and is deleted. -/
theorem lifecycle_canceled : ∃ l, Run Step new
    [(1, .addEvent 5 .READ ⟨some 0, 1, true, some 7⟩, true), (1, .addEvent 5 .WRITE ⟨some 0, 1, true, none⟩, true),
      (2, .cancelEvent 5 .READ, false), (2, .cancelEvent 5 .READ, true), (2, .delEvent 5 .WRITE, true)] l ∧
    l.Lifecycle ∧ l.io.scheduled = [(0, .cb 7)] ∧ l.deleted = [(0, .fiber 1)] := by
  have hcanceled : ∃ l, Run Step new
      [(1, .addEvent 5 .READ ⟨some 0, 1, true, some 7⟩, true), (1, .addEvent 5 .WRITE ⟨some 0, 1, true, none⟩, true),
        (2, .cancelEvent 5 .READ, false), (2, .cancelEvent 5 .READ, true), (2, .delEvent 5 .WRITE, true)] l ∧
      l.io.scheduled = [(0, .cb 7)] ∧ l.deleted = [(0, .fiber 1)] := by
    refine ⟨_, .cons ⟨⟨Option.some_ne_none 0, rfl, fun c ctx hc hctx => ?_⟩, _, rfl, rfl⟩
      (.cons ⟨⟨Option.some_ne_none 0, rfl, fun c ctx hc hctx => ?_⟩, _, rfl, rfl⟩
        (.cons ⟨trivial, _, rfl, rfl⟩ (.cons ⟨trivial, _, rfl, rfl⟩ (.cons ⟨trivial, _, rfl, rfl⟩ .nil)))),
      rfl, rfl⟩
    · cases hc
      cases hctx
      decide
    · cases hc
      cases hctx
      decide
  obtain ⟨l, hrun, hscheduled, hdeleted⟩ := hcanceled
  exact ⟨l, hrun, lifecycle hrun, hscheduled, hdeleted⟩

end Ledger
end Flz
