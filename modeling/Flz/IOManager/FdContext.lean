import Flz.Scheduler.Model
import Mathlib.Data.Finset.Card
import Mathlib.Data.Finset.Lattice.Basic
import Mathlib.Data.Int.Basic
import Mathlib.Tactic.Cases

/-! # The contexts of file descriptors

`IOManager::FdContext` of `src/iomanager.cc`, with what `addEvent`, `delEvent`, `cancelEvent`,
`cancelAll` and `idle` do to one of them under its lock. Fibers, callbacks and schedulers are
numbers, and `ok` tells whether `epoll_ctl` succeeds.
-/
namespace Flz

/-- `IOManager::Event`; `NONE` is the empty set of them. -/
inductive Event
  | READ | WRITE
  deriving DecidableEq, Repr

structure EventContext where
  scheduler : Option ℕ
  fiber : Option ℕ
  cb : Option ℕ
  deriving DecidableEq, Repr

def EventContext.empty : EventContext := ⟨none, none, none⟩

/-- The context of an event for which a task waits. -/
def Task.context (scheduler : Option ℕ) : Task → EventContext
  | .fiber f => ⟨scheduler, some f, none⟩
  | .cb c => ⟨scheduler, none, some c⟩

structure FdContext where
  fd : ℕ
  events : Finset Event
  read : EventContext
  write : EventContext
  deriving DecidableEq

/-- The assertions that can fail, and a call through the null pointer. -/
inductive FdFault
  | addEvent | occupied | notRunning | triggerEvent | nullScheduler | cancelAll
  deriving DecidableEq, Repr

/-- Who calls `addEvent`, with which callback; `running` tells whether the state of the fiber is
`RUNNING`. -/
structure Registration where
  scheduler : Option ℕ
  fiber : ℕ
  running : Bool
  cb : Option ℕ
  deriving DecidableEq, Repr

/-- The context after a section, what the call returns, the change of `m_pendingEventCount` and
the tasks that were scheduled. -/
structure Outcome where
  ctx : FdContext
  done : Bool
  pending : ℤ
  tasks : List (ℕ × Task)
  deriving DecidableEq

namespace FdContext

def new (fd : ℕ) : FdContext where
  fd := fd
  events := ∅
  read := .empty
  write := .empty

def getContext (c : FdContext) : Event → EventContext
  | .READ => c.read
  | .WRITE => c.write

def setContext (c : FdContext) (e : Event) (ctx : EventContext) : FdContext :=
  match e with
  | .READ => { c with read := ctx }
  | .WRITE => { c with write := ctx }

def triggerEvent (c : FdContext) (event : Event) : Except FdFault (FdContext × List (ℕ × Task)) :=
  if event ∉ c.events then .error .triggerEvent
  else
    let c := { c with events := c.events.erase event }
    let ctx := c.getContext event
    match ctx.scheduler, ctx.cb with
    | none, _ => .error .nullScheduler
    | some s, some cb =>
      .ok (c.setContext event { ctx with cb := none, scheduler := none }, [(s, .cb cb)])
    | some s, none =>
      .ok (c.setContext event { ctx with fiber := none, scheduler := none },
        (ctx.fiber.map fun f => (s, .fiber f)).toList)

/-- Nothing is done. -/
def kept (c : FdContext) (done : Bool) : Outcome := ⟨c, done, 0, []⟩

/-- The section of `addEvent`. -/
def addEvent (c : FdContext) (event : Event) (r : Registration) (ok : Bool) : Except FdFault Outcome :=
  if event ∈ c.events then .error .addEvent
  else if ¬ ok then .ok (c.kept false)
  else if c.getContext event ≠ .empty then .error .occupied
  else
    let c := { c with events := insert event c.events }
    match r.cb with
    | some cb => .ok ⟨c.setContext event ((Task.cb cb).context r.scheduler), true, 1, []⟩
    | none =>
      if r.running then .ok ⟨c.setContext event ((Task.fiber r.fiber).context r.scheduler), true, 1, []⟩
      else .error .notRunning

/-- The section of `delEvent`. -/
def delEvent (c : FdContext) (event : Event) (ok : Bool) : Outcome :=
  if event ∉ c.events then c.kept false
  else if ¬ ok then c.kept false
  else ⟨{ c with events := c.events.erase event }.setContext event .empty, true, -1, []⟩

/-- `triggerEvent` and the decrement of `m_pendingEventCount`. -/
def trigger (o : Outcome) (event : Event) : Except FdFault Outcome := do
  let (ctx, tasks) ← o.ctx.triggerEvent event
  return { o with ctx := ctx, pending := o.pending - 1, tasks := o.tasks ++ tasks }

/-- A test of the events before it. -/
def triggerIf (p : Prop) [Decidable p] (o : Outcome) (event : Event) : Except FdFault Outcome :=
  if p then trigger o event else .ok o

/-- The section of `cancelEvent`. -/
def cancelEvent (c : FdContext) (event : Event) (ok : Bool) : Except FdFault Outcome :=
  if event ∉ c.events then .ok (c.kept false)
  else if ¬ ok then .ok (c.kept false)
  else trigger (c.kept true) event

/-- The section of `cancelAll`. -/
def cancelAll (c : FdContext) (ok : Bool) : Except FdFault Outcome :=
  if c.events = ∅ then .ok (c.kept false)
  else if ¬ ok then .ok (c.kept false)
  else do
    let o ← triggerIf (.READ ∈ c.events) (c.kept true) .READ
    let o ← triggerIf (.WRITE ∈ o.ctx.events) o .WRITE
    if o.ctx.events = ∅ then .ok o else .error .cancelAll

/-- The section of `idle`, for the events that count as reported. -/
def dispatch (c : FdContext) (real : Finset Event) (ok : Bool) : Except FdFault Outcome :=
  if c.events ∩ real = ∅ then .ok (c.kept true)
  else if ¬ ok then .ok (c.kept true)
  else do
    let o ← triggerIf (.READ ∈ real) (c.kept true) .READ
    triggerIf (.WRITE ∈ real) o .WRITE

/-- An event is gone, with what waited for it. -/
def removed (c : FdContext) (event : Event) : FdContext :=
  { c with events := c.events.erase event }.setContext event .empty

/-- Events are registered exactly for the tasks that wait. -/
structure Wired (c : FdContext) : Prop where
  idle : ∀ e, e ∉ c.events → c.getContext e = .empty
  waits : ∀ e, e ∈ c.events → ∃ s t, c.getContext e = Task.context (some s) t

/-- What a section keeps: the events that are left are those that count. -/
structure Keeps (c : FdContext) (o : Outcome) : Prop where
  wired : o.ctx.Wired
  fd : o.ctx.fd = c.fd
  pending : o.pending + c.events.card = o.ctx.events.card

section
variable {c : FdContext} {e e' : Event} {ctx : EventContext} {o o' : Outcome} {r : Registration}
  {real : Finset Event} {ok : Bool} {f : FdFault}

@[simp] theorem setContext_fd : (c.setContext e ctx).fd = c.fd := by
  cases e <;> rfl

@[simp] theorem setContext_events : (c.setContext e ctx).events = c.events := by
  cases e <;> rfl

theorem getContext_setContext_self : (c.setContext e ctx).getContext e = ctx := by
  cases e <;> rfl

theorem getContext_setContext_of_ne (h : e' ≠ e) : (c.setContext e ctx).getContext e' = c.getContext e' := by
  cases e <;> cases e' <;> first | rfl | exact absurd rfl h

@[simp] theorem getContext_events {events : Finset Event} :
    { c with events := events }.getContext e = c.getContext e := by
  cases e <;> rfl

theorem Wired.new (fd : ℕ) : (new fd).Wired where
  idle e _ := by cases e <;> rfl
  waits e he := absurd he (Finset.notMem_empty e)

theorem Wired.removed (h : c.Wired) : (c.removed e).Wired := by
  constructor
  · intro k hk
    rw [FdContext.removed, setContext_events] at hk
    by_cases hke : k = e
    · rw [hke]
      exact getContext_setContext_self
    · rw [FdContext.removed, getContext_setContext_of_ne hke, getContext_events]
      exact h.idle k (fun hmem => hk (Finset.mem_erase.mpr ⟨hke, hmem⟩))
  · intro k hk
    rw [FdContext.removed, setContext_events] at hk
    obtain ⟨hke, hmem⟩ := Finset.mem_erase.mp hk
    rw [FdContext.removed, getContext_setContext_of_ne hke, getContext_events]
    exact h.waits k hmem

theorem Wired.added (h : c.Wired) {s : ℕ} {t : Task} :
    ({ c with events := insert e c.events }.setContext e (t.context (some s))).Wired := by
  constructor
  · intro k hk
    rw [setContext_events] at hk
    obtain ⟨hke, hmem⟩ := not_or.mp (fun hor => hk (Finset.mem_insert.mpr hor))
    rw [getContext_setContext_of_ne hke, getContext_events]
    exact h.idle k hmem
  · intro k hk
    rw [setContext_events] at hk
    by_cases hke : k = e
    · rw [hke]
      exact ⟨s, t, getContext_setContext_self⟩
    · rw [getContext_setContext_of_ne hke, getContext_events]
      exact h.waits k (Finset.mem_of_mem_insert_of_ne hk hke)

theorem Wired.keeps_kept (h : c.Wired) (done : Bool) : Keeps c (c.kept done) where
  wired := h
  fd := rfl
  pending := Int.zero_add _

/-- A registered event is triggered for the task that waits. -/
theorem Wired.triggerEvent (h : c.Wired) (he : e ∈ c.events) :
    ∃ s t, c.triggerEvent e = .ok (c.removed e, [(s, t)]) := by
  obtain ⟨s, t, hctx⟩ := h.waits e he
  refine ⟨s, t, ?_⟩
  rw [FdContext.triggerEvent, if_neg (not_not.mpr he)]
  simp only [getContext_events, hctx]
  cases t <;> rfl

theorem Keeps.trigger (h : Keeps c o) (he : e ∈ o.ctx.events) :
    ∃ o', trigger o e = .ok o' ∧ Keeps c o' ∧ o'.ctx.events = o.ctx.events.erase e := by
  obtain ⟨s, t, htrigger⟩ := h.wired.triggerEvent he
  refine ⟨{ o with ctx := o.ctx.removed e, pending := o.pending - 1, tasks := o.tasks ++ [(s, t)] }, ?_,
    ⟨h.wired.removed, ?_, ?_⟩, ?_⟩
  · rw [FdContext.trigger, htrigger]
    rfl
  · exact (setContext_fd).trans h.fd
  · have hcard := Finset.card_erase_add_one he
    have hpending := h.pending
    rw [FdContext.removed, setContext_events]
    dsimp only
    omega
  · exact setContext_events

theorem trigger_missing (he : e ∉ o.ctx.events) : trigger o e = .error .triggerEvent := by
  rw [trigger, FdContext.triggerEvent, if_pos he]
  rfl

theorem Wired.delEvent (h : c.Wired) (e : Event) (ok : Bool) : Keeps c (c.delEvent e ok) := by
  rw [FdContext.delEvent]
  split
  · exact h.keeps_kept false
  · rename_i he
    split
    · exact h.keeps_kept false
    · refine ⟨h.removed, setContext_fd, ?_⟩
      have hcard := Finset.card_erase_add_one (not_not.mp he)
      rw [setContext_events]
      dsimp only
      omega

theorem Wired.cancelEvent (h : c.Wired) (e : Event) (ok : Bool) :
    ∃ o, c.cancelEvent e ok = .ok o ∧ Keeps c o := by
  rw [FdContext.cancelEvent]
  split
  · exact ⟨_, rfl, h.keeps_kept false⟩
  · rename_i he
    split
    · exact ⟨_, rfl, h.keeps_kept false⟩
    · obtain ⟨o, ho, hkeeps, -⟩ := (h.keeps_kept true).trigger (not_not.mp he)
      exact ⟨o, ho, hkeeps⟩

theorem Keeps.triggerIf (h : Keeps c o) {p : Prop} [Decidable p] (hp : p → e ∈ o.ctx.events) :
    ∃ o', triggerIf p o e = .ok o' ∧ Keeps c o' ∧
      o'.ctx.events = if p then o.ctx.events.erase e else o.ctx.events := by
  rw [FdContext.triggerIf]
  by_cases hcase : p
  · rw [if_pos hcase, if_pos hcase]
    exact h.trigger (hp hcase)
  · rw [if_neg hcase, if_neg hcase]
    exact ⟨o, rfl, h, rfl⟩

theorem Wired.cancelAll (h : c.Wired) (ok : Bool) : ∃ o, c.cancelAll ok = .ok o ∧ Keeps c o := by
  rw [FdContext.cancelAll]
  split
  · exact ⟨_, rfl, h.keeps_kept false⟩
  split
  · exact ⟨_, rfl, h.keeps_kept false⟩
  obtain ⟨o, ho, hkeeps, hevents⟩ := (h.keeps_kept true).triggerIf (p := .READ ∈ c.events) id
  obtain ⟨o', ho', hkeeps', hevents'⟩ := hkeeps.triggerIf (p := .WRITE ∈ o.ctx.events) id
  have hempty : o'.ctx.events = ∅ := by
    refine Finset.eq_empty_of_forall_notMem (fun k hk => ?_)
    have hread : Event.READ ∉ o.ctx.events := by
      rw [hevents]
      split
      · exact Finset.notMem_erase _ _
      · assumption
    rw [hevents'] at hk
    cases k with
    | READ =>
      split at hk
      · exact hread (Finset.mem_of_mem_erase hk)
      · exact hread hk
    | WRITE =>
      split at hk
      · exact Finset.notMem_erase _ _ hk
      · rename_i hwrite
        exact hwrite hk
  refine ⟨o', ?_, hkeeps'⟩
  simp only [ho, ho', bind, Except.bind, hempty, if_true]

/-- The events that count as reported are not registered, or they are all registered. -/
def Fresh (c : FdContext) (real : Finset Event) : Prop := c.events ∩ real = ∅ ∨ real ⊆ c.events

instance : Decidable (c.Fresh real) := inferInstanceAs (Decidable (_ ∨ _))

theorem Wired.dispatch (h : c.Wired) (hfresh : ok = true → c.Fresh real) :
    ∃ o, c.dispatch real ok = .ok o ∧ Keeps c o := by
  rw [FdContext.dispatch]
  split
  · exact ⟨_, rfl, h.keeps_kept true⟩
  rename_i hsome
  split
  · exact ⟨_, rfl, h.keeps_kept true⟩
  rename_i hok
  have hsub : real ⊆ c.events := (hfresh (not_not.mp hok)).resolve_left hsome
  obtain ⟨o, ho, hkeeps, hevents⟩ :=
    (h.keeps_kept true).triggerIf (p := .READ ∈ real) (fun hread => hsub hread)
  obtain ⟨o', ho', hkeeps', -⟩ := hkeeps.triggerIf (e := .WRITE) (p := .WRITE ∈ real) (by
    intro hwrite
    rw [hevents]
    split
    · exact Finset.mem_erase.mpr ⟨by decide, hsub hwrite⟩
    · exact hsub hwrite)
  refine ⟨o', ?_, hkeeps'⟩
  simp only [ho, ho', bind, Except.bind]

/-- Where one of two reported events is registered, the assertion of `triggerEvent` fails. -/
theorem Wired.dispatch_stale (h : c.Wired) (hstale : ¬ c.Fresh real) :
    c.dispatch real true = .error .triggerEvent := by
  obtain ⟨hsome, hsub⟩ := not_or.mp hstale
  rw [FdContext.dispatch, if_neg hsome, if_neg (not_not.mpr rfl)]
  obtain ⟨e, hreal, he⟩ := Finset.not_subset.mp hsub
  by_cases hread : .READ ∈ real ∧ .READ ∉ c.events
  · rw [triggerIf, if_pos hread.1, trigger_missing hread.2]
    rfl
  · obtain ⟨o, ho, hkeeps, hevents⟩ := (h.keeps_kept true).triggerIf (e := .READ) (p := .READ ∈ real)
      (fun hmem => not_not.mp fun hmiss => hread ⟨hmem, hmiss⟩)
    have hwrite : e = .WRITE := by
      cases e with
      | READ => exact absurd ⟨hreal, he⟩ hread
      | WRITE => rfl
    subst hwrite
    simp only [ho, bind, Except.bind]
    rw [triggerIf, if_pos hreal]
    refine trigger_missing (fun hmem => he ?_)
    rw [hevents] at hmem
    split at hmem
    · exact Finset.mem_of_mem_erase hmem
    · exact hmem

theorem Wired.addEvent (h : c.Wired) (hr : r.scheduler ≠ none) :
    (∃ o, c.addEvent e r ok = .ok o ∧ Keeps c o) ∨ c.addEvent e r ok = .error .addEvent ∨
      c.addEvent e r ok = .error .notRunning := by
  rw [FdContext.addEvent]
  split
  · exact .inr (.inl rfl)
  rename_i he
  split
  · exact .inl ⟨_, rfl, h.keeps_kept false⟩
  rw [if_neg (not_not.mpr (h.idle e he))]
  obtain ⟨s, hs⟩ := Option.ne_none_iff_exists'.mp hr
  have hcard := Finset.card_insert_of_notMem he
  have hkeeps (t : Task) : Keeps c
      ⟨{ c with events := insert e c.events }.setContext e (t.context r.scheduler), true, 1, []⟩ := by
    rw [hs]
    refine ⟨h.added, setContext_fd, ?_⟩
    rw [setContext_events]
    dsimp only
    omega
  dsimp only
  split
  · exact .inl ⟨_, rfl, hkeeps _⟩
  · split
    · exact .inl ⟨_, rfl, hkeeps _⟩
    · exact .inr (.inr rfl)

/-! ## The file descriptor stays -/

theorem triggerEvent_fd {tasks : List (ℕ × Task)} {c' : FdContext}
    (h : c.triggerEvent e = .ok (c', tasks)) : c'.fd = c.fd := by
  rw [triggerEvent] at h
  split at h
  · cases h
  · dsimp only at h
    split at h
    · cases h
    · obtain ⟨rfl, -⟩ := Prod.mk.inj (Except.ok.inj h)
      exact setContext_fd
    · obtain ⟨rfl, -⟩ := Prod.mk.inj (Except.ok.inj h)
      exact setContext_fd

theorem triggerIf_fd {p : Prop} [Decidable p] (h : triggerIf p o e = .ok o') : o'.ctx.fd = o.ctx.fd := by
  rw [triggerIf] at h
  split at h
  · rw [trigger] at h
    cases hx : o.ctx.triggerEvent e with
    | error f =>
      rw [hx] at h
      cases h
    | ok x =>
      obtain ⟨c', tasks⟩ := x
      rw [hx] at h
      obtain rfl := Except.ok.inj h
      exact triggerEvent_fd hx
  · obtain rfl := Except.ok.inj h
    rfl

theorem addEvent_fd (h : c.addEvent e r ok = .ok o) : o.ctx.fd = c.fd := by
  rw [addEvent] at h
  split at h
  · cases h
  split at h
  · obtain rfl := Except.ok.inj h
    rfl
  split at h
  · cases h
  dsimp only at h
  split at h
  · obtain rfl := Except.ok.inj h
    exact setContext_fd
  split at h
  · obtain rfl := Except.ok.inj h
    exact setContext_fd
  · cases h

theorem delEvent_fd : (c.delEvent e ok).ctx.fd = c.fd := by
  rw [delEvent]
  split
  · rfl
  split
  · rfl
  · exact setContext_fd

theorem cancelEvent_fd (h : c.cancelEvent e ok = .ok o) : o.ctx.fd = c.fd := by
  rw [cancelEvent] at h
  split at h
  · obtain rfl := Except.ok.inj h
    rfl
  split at h
  · obtain rfl := Except.ok.inj h
    rfl
  · exact triggerIf_fd (p := True) ((if_pos trivial).trans h)

theorem cancelAll_fd (h : c.cancelAll ok = .ok o) : o.ctx.fd = c.fd := by
  rw [cancelAll] at h
  split at h
  · obtain rfl := Except.ok.inj h
    rfl
  split at h
  · obtain rfl := Except.ok.inj h
    rfl
  cases hread : triggerIf (.READ ∈ c.events) (c.kept true) .READ with
  | error f =>
    rw [hread] at h
    cases h
  | ok o1 =>
    rw [hread] at h
    change (triggerIf (.WRITE ∈ o1.ctx.events) o1 .WRITE >>= _) = _ at h
    cases hwrite : triggerIf (.WRITE ∈ o1.ctx.events) o1 .WRITE with
    | error f =>
      rw [hwrite] at h
      cases h
    | ok o2 =>
      rw [hwrite] at h
      obtain ⟨-, ho⟩ := (ite_eq_iff.mp h).resolve_right (fun hne => by cases hne.2)
      obtain rfl := Except.ok.inj ho
      exact (triggerIf_fd hwrite).trans (triggerIf_fd hread)

theorem dispatch_fd (h : c.dispatch real ok = .ok o) : o.ctx.fd = c.fd := by
  rw [dispatch] at h
  split at h
  · obtain rfl := Except.ok.inj h
    rfl
  split at h
  · obtain rfl := Except.ok.inj h
    rfl
  cases hread : triggerIf (.READ ∈ real) (c.kept true) .READ with
  | error f =>
    rw [hread] at h
    cases h
  | ok o1 =>
    rw [hread] at h
    exact (triggerIf_fd h).trans (triggerIf_fd hread)

end
end FdContext
end Flz
