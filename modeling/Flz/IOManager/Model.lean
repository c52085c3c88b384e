import Flz.IOManager.FdContext
import Flz.Lib.Runs
import Flz.Stream
import Mathlib.Logic.Function.Basic

/-! # Events of file descriptors

`IOManager` of `src/iomanager.cc`: the table of contexts, and the calls that threads make. A
section under a lock is one step; between two sections of a call other threads may go on. A
context is known by its number in the order of construction, and is never deleted before the end.
-/
namespace Flz
open Lib

/-- What `epoll_wait` reports of a context: the events, and whether `EPOLLERR` or `EPOLLHUP` is
among them. -/
structure Report where
  ctx : ℕ
  events : Finset Event
  hangup : Bool
  deriving DecidableEq

/-- The events that `idle` takes a report for. -/
def Report.real (r : Report) (c : FdContext) : Finset Event :=
  if r.hangup then r.events ∪ c.events else r.events

/-- What fails in the section of a context, and what has no meaning: an index out of range, an
object that is not there. -/
inductive IOFault
  | context (f : FdFault)
  | outOfRange
  | dangling
  deriving DecidableEq, Repr

/-- Where a thread is; `ready` tells what its last call returned. -/
inductive Point
  | ready (done : Bool)
  /-- In `addEvent`, before the lock for the table is taken for writing. -/
  | resizing (fd : ℕ) (event : Event) (r : Registration)
  /-- Behind the table, before the lock of the context is taken. -/
  | addEvent (fd ctx : ℕ) (event : Event) (r : Registration)
  | delEvent (fd ctx : ℕ) (event : Event)
  | cancelEvent (fd ctx : ℕ) (event : Event)
  | cancelAll (fd ctx : ℕ)
  | dispatch (report : Report) (reports : List Report)

/-- In `idle`, with the reports that are left. -/
def Point.idle : List Report → Point
  | [] => .ready true
  | report :: reports => .dispatch report reports

/-- Where a thread is after the section of a context. -/
def Point.next (done : Bool) : Point → Point
  | .dispatch _ reports => .idle reports
  | _ => .ready done

structure IOManager where
  contexts : List FdContext
  fdContexts : List ℕ
  pendingEventCount : ℤ
  scheduled : List (ℕ × Task)
  points : ℕ → Point

/-- The steps of thread `t`; a call of the API starts with the section that looks into the table. -/
inductive IOAction
  | addEvent (t fd : ℕ) (event : Event) (r : Registration)
  | delEvent (t fd : ℕ) (event : Event)
  | cancelEvent (t fd : ℕ) (event : Event)
  | cancelAll (t fd : ℕ)
  | epollWait (t : ℕ) (reports : List Report)
  | resize (t : ℕ)
  /-- The section of the context at hand. -/
  | context (t : ℕ) (ok : Bool)

namespace IOManager

/-- `contextResize`. -/
def contextResize (s : IOManager) (size : ℕ) : IOManager :=
  { s with
    contexts := s.contexts ++ (List.range' s.fdContexts.length (size - s.fdContexts.length)).map .new
    fdContexts := s.fdContexts.take size ++
      List.range' s.contexts.length (size - s.fdContexts.length) }

/-- `IOManager()`. -/
def new : IOManager :=
  contextResize
    { contexts := []
      fdContexts := []
      pendingEventCount := 0
      scheduled := []
      points := fun _ => .ready true } 32

def go (s : IOManager) (t : ℕ) (p : Point) : IOManager :=
  { s with points := Function.update s.points t p }

/-- `m_fdContexts[fd]`. -/
def fdContext (s : IOManager) (fd : ℕ) : Except IOFault ℕ :=
  match s.fdContexts[fd]? with
  | some c => .ok c
  | none => .error .outOfRange

/-- The section of `addEvent` for reading; a double that is converted is cut off. -/
def addEvent (s : IOManager) (t fd : ℕ) (event : Event) (r : Registration) : Except IOFault IOManager :=
  if toInt s.fdContexts.length > fd then do
    let c ← s.fdContext fd
    return s.go t (.addEvent fd c event r)
  else .ok (s.go t (.resizing fd event r))

/-- The section of `addEvent` for writing. -/
def resize (s : IOManager) (t fd : ℕ) (event : Event) (r : Registration) : Except IOFault IOManager := do
  let s := s.contextResize (fd * 3 / 2)
  let c ← s.fdContext fd
  return s.go t (.addEvent fd c event r)

def delEvent (s : IOManager) (t fd : ℕ) (event : Event) : Except IOFault IOManager :=
  if s.fdContexts.length ≤ fd then .ok (s.go t (.ready false))
  else do
    let c ← s.fdContext fd
    return s.go t (.delEvent fd c event)

def cancelEvent (s : IOManager) (t fd : ℕ) (event : Event) : Except IOFault IOManager :=
  if toInt s.fdContexts.length ≤ fd then .ok (s.go t (.ready false))
  else do
    let c ← s.fdContext fd
    return s.go t (.cancelEvent fd c event)

def cancelAll (s : IOManager) (t fd : ℕ) : Except IOFault IOManager :=
  if toInt s.fdContexts.length ≤ fd then .ok (s.go t (.ready false))
  else do
    let c ← s.fdContext fd
    return s.go t (.cancelAll fd c)

/-- What a thread does to a context under its lock. -/
def locked (ctx : FdContext) (ok : Bool) : Point → Except FdFault Outcome
  | .addEvent _ _ event r => ctx.addEvent event r ok
  | .delEvent _ _ event => .ok (ctx.delEvent event ok)
  | .cancelEvent _ _ event => ctx.cancelEvent event ok
  | .cancelAll _ _ => ctx.cancelAll ok
  | .dispatch report _ => ctx.dispatch (report.real ctx) ok
  | _ => .ok (ctx.kept true)

/-- The context that a thread is about to lock. -/
def target : Point → Option ℕ
  | .addEvent _ c _ _ | .delEvent _ c _ | .cancelEvent _ c _ | .cancelAll _ c => some c
  | .dispatch report _ => some report.ctx
  | _ => none

/-- A section of context `c` is over. -/
def commit (s : IOManager) (t c : ℕ) (o : Outcome) : IOManager where
  contexts := s.contexts.set c o.ctx
  fdContexts := s.fdContexts
  pendingEventCount := s.pendingEventCount + o.pending
  scheduled := s.scheduled ++ o.tasks
  points := Function.update s.points t ((s.points t).next o.done)

/-- The section of a context. -/
def context (s : IOManager) (t c : ℕ) (ok : Bool) : Except IOFault IOManager :=
  match s.contexts[c]? with
  | none => .error .dangling
  | some ctx =>
    match locked ctx ok (s.points t) with
    | .error f => .error (.context f)
    | .ok o => .ok (s.commit t c o)

/-- What `epoll_wait` may report: of each context events that are registered at that time. -/
def reports (s : IOManager) (reports : List Report) : Bool :=
  reports.all fun r => s.contexts[r.ctx]?.any fun c => decide (r.events ⊆ c.events)

/-- A thread that is not in a call. -/
def free (s : IOManager) (t : ℕ) : Bool :=
  match s.points t with
  | .ready _ => true
  | _ => false

/-- A step, where the thread is ready for it. -/
def exec (s : IOManager) : IOAction → Option (Except IOFault IOManager)
  | .addEvent t fd event r => if s.free t then some (s.addEvent t fd event r) else none
  | .delEvent t fd event => if s.free t then some (s.delEvent t fd event) else none
  | .cancelEvent t fd event => if s.free t then some (s.cancelEvent t fd event) else none
  | .cancelAll t fd => if s.free t then some (s.cancelAll t fd) else none
  | .epollWait t reports =>
    if s.free t && s.reports reports then some (.ok (s.go t (.idle reports))) else none
  | .resize t =>
    match s.points t with
    | .resizing fd event r => some (s.resize t fd event r)
    | _ => none
  | .context t ok =>
    match target (s.points t) with
    | some c => some (s.context t c ok)
    | none => none

def Step (s : IOManager) (a : IOAction) (s' : IOManager) : Prop := s.exec a = some (.ok s')

/-- How many events are registered. -/
def total (s : IOManager) : ℕ := (s.contexts.map fun c => c.events.card).sum

/-! ## What a step can do -/

/-- The points that a thread enters from outside of a call. -/
inductive Enters (s : IOManager) : IOAction → Point → Prop
  | ready {a : IOAction} (done : Bool) : Enters s a (.ready done)
  | resizing (t fd : ℕ) (event : Event) (r : Registration) :
    Enters s (.addEvent t fd event r) (.resizing fd event r)
  | addEvent (t : ℕ) {fd c : ℕ} (event : Event) (r : Registration) (hc : s.fdContexts[fd]? = some c) :
    Enters s (.addEvent t fd event r) (.addEvent fd c event r)
  | delEvent (t : ℕ) {fd c : ℕ} (event : Event) (hc : s.fdContexts[fd]? = some c) :
    Enters s (.delEvent t fd event) (.delEvent fd c event)
  | cancelEvent (t : ℕ) {fd c : ℕ} (event : Event) (hc : s.fdContexts[fd]? = some c) :
    Enters s (.cancelEvent t fd event) (.cancelEvent fd c event)
  | cancelAll (t : ℕ) {fd c : ℕ} (hc : s.fdContexts[fd]? = some c) :
    Enters s (.cancelAll t fd) (.cancelAll fd c)
  | idle (t : ℕ) {rs : List Report} (hrs : s.reports rs = true) : Enters s (.epollWait t rs) (.idle rs)

section
variable {s s' : IOManager} {a : IOAction} {t fd c : ℕ} {event : Event} {r : Registration} {ok : Bool}

theorem fdContext_eq (h : s.fdContexts[fd]? = some c) : s.fdContext fd = .ok c := by
  rw [fdContext, h]

theorem fdContext_out (h : s.fdContexts[fd]? = none) : s.fdContext fd = .error .outOfRange := by
  rw [fdContext, h]

/-- Everything that a step can do. -/
inductive Does (s : IOManager) : IOAction → Except IOFault IOManager → Prop
  | enter {a : IOAction} {p : Point} (t : ℕ) (hp : s.Enters a p) : Does s a (.ok (s.go t p))
  | outOfRange {a : IOAction} {fd : ℕ} (hc : s.fdContexts[fd]? = none)
    (hfd : fd < toInt s.fdContexts.length ∨ fd < s.fdContexts.length) : Does s a (.error .outOfRange)
  | outOfRangeResized {t fd : ℕ} {event : Event} {r : Registration}
    (hpoint : s.points t = .resizing fd event r)
    (hc : (s.contextResize (fd * 3 / 2)).fdContexts[fd]? = none) : Does s (.resize t) (.error .outOfRange)
  | resize {t fd c : ℕ} {event : Event} {r : Registration} (hpoint : s.points t = .resizing fd event r)
    (hc : (s.contextResize (fd * 3 / 2)).fdContexts[fd]? = some c) :
    Does s (.resize t) (.ok ((s.contextResize (fd * 3 / 2)).go t (.addEvent fd c event r)))
  | dangling {t c : ℕ} {ok : Bool} (htarget : target (s.points t) = some c)
    (hc : s.contexts[c]? = none) : Does s (.context t ok) (.error .dangling)
  | context {t c : ℕ} {ok : Bool} {ctx : FdContext} {o : Outcome} (htarget : target (s.points t) = some c)
    (hc : s.contexts[c]? = some ctx) (ho : locked ctx ok (s.points t) = .ok o) :
    Does s (.context t ok) (.ok (s.commit t c o))
  | fault {t c : ℕ} {ok : Bool} {ctx : FdContext} {f : FdFault} (htarget : target (s.points t) = some c)
    (hc : s.contexts[c]? = some ctx) (ho : locked ctx ok (s.points t) = .error f) :
    Does s (.context t ok) (.error (.context f))

theorem look_does {p : ℕ → Point} (t : ℕ) (hfd : fd < toInt s.fdContexts.length ∨ fd < s.fdContexts.length)
    (hp : ∀ c, s.fdContexts[fd]? = some c → s.Enters a (p c)) :
    s.Does a (do let c ← s.fdContext fd; return s.go t (p c)) := by
  cases hc : s.fdContexts[fd]? with
  | none =>
    rw [fdContext_out hc]
    exact .outOfRange hc hfd
  | some c =>
    rw [fdContext_eq hc]
    exact .enter t (hp c hc)

theorem exec_does {x : Except IOFault IOManager} (h : s.exec a = some x) : s.Does a x := by
  cases a with
  | addEvent t fd event r =>
    obtain ⟨-, hx⟩ := Option.ite_none_right_eq_some.mp h
    obtain rfl := Option.some.inj hx
    rw [addEvent]
    split
    · rename_i hfd
      exact look_does t (.inl hfd) (fun c hc => .addEvent t event r hc)
    · exact .enter t (.resizing t fd event r)
  | delEvent t fd event =>
    obtain ⟨-, hx⟩ := Option.ite_none_right_eq_some.mp h
    obtain rfl := Option.some.inj hx
    rw [delEvent]
    split
    · exact .enter t (.ready false)
    · rename_i hfd
      exact look_does t (.inr (Nat.lt_of_not_le hfd)) (fun c hc => .delEvent t event hc)
  | cancelEvent t fd event =>
    obtain ⟨-, hx⟩ := Option.ite_none_right_eq_some.mp h
    obtain rfl := Option.some.inj hx
    rw [cancelEvent]
    split
    · exact .enter t (.ready false)
    · rename_i hfd
      exact look_does t (.inl (Int.lt_of_not_ge hfd)) (fun c hc => .cancelEvent t event hc)
  | cancelAll t fd =>
    obtain ⟨-, hx⟩ := Option.ite_none_right_eq_some.mp h
    obtain rfl := Option.some.inj hx
    rw [cancelAll]
    split
    · exact .enter t (.ready false)
    · rename_i hfd
      exact look_does t (.inl (Int.lt_of_not_ge hfd)) (fun c hc => .cancelAll t hc)
  | epollWait t reports =>
    obtain ⟨hready, hx⟩ := Option.ite_none_right_eq_some.mp h
    obtain rfl := Option.some.inj hx
    exact .enter t (.idle t (Bool.and_eq_true_iff.mp hready).2)
  | resize t =>
    rw [exec] at h
    split at h
    · rename_i fd event r hpoint
      obtain rfl := Option.some.inj h
      rw [resize]
      cases hc : (s.contextResize (fd * 3 / 2)).fdContexts[fd]? with
      | none =>
        simp only [fdContext_out hc]
        exact .outOfRangeResized hpoint hc
      | some c =>
        simp only [fdContext_eq hc]
        exact .resize hpoint hc
    · cases h
  | context t ok =>
    rw [exec] at h
    split at h
    · rename_i c htarget
      obtain rfl := Option.some.inj h
      rw [context]
      split
      · rename_i hc
        exact .dangling htarget hc
      · rename_i ctx hc
        split
        · rename_i f ho
          exact .fault htarget hc ho
        · rename_i o ho
          exact .context htarget hc ho
    · cases h

end
end IOManager
end Flz
