import Flz.Hook.Timeout
import Flz.IOManager.FdContext

/-! # Closing under a hooked call

`close` of `src/hook.cc` on a socket while fibers are in `do_io` on the same number, which the
system may give to another socket afterwards. The contexts of `src/fd_manager.cc` and of
`src/iomanager.cc` are known by this number. Each look at what threads share is one step.
-/
namespace Flz
open Lib

/-- A call of `do_io`, for the event that it waits for; `reached` are the connections to which its
system calls went. -/
structure SocketCall where
  event : Event
  call : HookedCall
  reached : List (Option ℕ)
  deriving DecidableEq, Repr

/-- Where a call of `close` is, with the calls that were suspended when it began. In the end these
are the calls that are still in `do_io`, with what they have reached until then. -/
inductive ClosePoint
  /-- Before the lookup of the `FdCtx`. -/
  | looking (suspended : List ℕ)
  /-- Before `cancelAll`. -/
  | cancelling (suspended : List ℕ)
  /-- Before `FdMgr::del`. -/
  | deleting (suspended : List ℕ)
  /-- Before `close_f`. -/
  | closing (suspended : List ℕ)
  | done (still : List (ℕ × List (Option ℕ)))
  deriving DecidableEq, Repr

namespace ClosePoint

def calls : ClosePoint → List ℕ
  | .looking calls | .cancelling calls | .deleting calls | .closing calls => calls
  | .done calls => calls.map Prod.fst

/-- The calls that have to end, once `cancelAll` has been passed. -/
def ends : ClosePoint → List ℕ
  | .looking _ | .cancelling _ => []
  | p => p.calls

end ClosePoint

/-- A number: the connection it names, if any, out of `made` connections; whether `FdMgr` has a
context for it; and the calls on it. -/
structure HookedFd where
  conn : Option ℕ
  made : ℕ
  ctx : Bool
  now : ℕ
  calls : List SocketCall
  closes : List ClosePoint
  deriving DecidableEq, Repr

namespace HookedCall

/-- The timer, if there is a timeout. -/
def armIf (c : HookedCall) : HookedCall :=
  if c.timeout ≠ 2 ^ 64 - 1 then c.arm else { c with triggered := none }.goto .adding

/-- Steps that concern nobody else. -/
def Action.own : Action → Bool
  | .arm | .trigger | .tick _ | .callbackCancel _ => false
  | _ => true

/-- `do_io` has been woken, and goes on to the test of `tinfo->cancelled`. -/
def Leaving (c : HookedCall) : Prop :=
  c.point = .waiting ∧ c.triggered ≠ none ∨ c.point = .resumed ∨ c.point = .testing

instance (c : HookedCall) : Decidable c.Leaving := inferInstanceAs (Decidable (_ ∨ _ ∨ _))

/-- `do_io` has returned -1. -/
def Failed (c : HookedCall) : Prop := c.point = .failed ∨ ∃ e, c.point = .returned (.error e)

/-- Who waits is registered, or has been woken. -/
def Waits (c : HookedCall) : Prop := c.point = .waiting → c.registered = true ∨ c.triggered ≠ none

end HookedCall

namespace SocketCall

def set (c : SocketCall) (call : HookedCall) : SocketCall := { c with call := call }

def trigger (c : SocketCall) : SocketCall := c.set c.call.trigger

/-- A system call reaches the connection that the number names. -/
def reach (c : SocketCall) (conn : Option ℕ) : HookedCall.Action → SocketCall
  | .call _ => { c with reached := c.reached ++ [conn] }
  | _ => c

end SocketCall

/-- Steps, of call `i`, of a call `k` of `close`, or of others. -/
inductive FdAction
  /-- The system gives the number to a new connection. -/
  | socket
  /-- `FdMgr::get(fd, true)`, behind `socket` or `accept`. -/
  | create
  | enter (event : Event) (timeout : ℕ)
  | own (i : ℕ) (a : HookedCall.Action)
  | arm (i : ℕ)
  /-- `idle` or another thread triggers an event. -/
  | trigger (event : Event)
  | callbackCancel (i k : ℕ)
  | tick (ms : ℕ)
  | close
  | look (k : ℕ)
  | cancelAll (k : ℕ) (iom ok : Bool)
  | del (k : ℕ)
  | closeF (k : ℕ)
  deriving DecidableEq, Repr

namespace HookedFd

/-- A connection that is open, with its context. -/
def start : HookedFd where
  conn := some 0
  made := 1
  ctx := true
  now := 0
  calls := []
  closes := []

def setCall (g : HookedFd) (i : ℕ) (c : SocketCall) : HookedFd := { g with calls := g.calls.set i c }

def setClose (g : HookedFd) (k : ℕ) (p : ClosePoint) : HookedFd := { g with closes := g.closes.set k p }

/-- The event is triggered, if it is registered. -/
def trigger (g : HookedFd) (event : Event) : HookedFd :=
  { g with calls := g.calls.map fun c => if c.event = event then c.trigger else c }

/-- `cancelAll`; only an `IOManager` does it, and `epoll_ctl` may fail. -/
def cancelAll (g : HookedFd) (iom ok : Bool) : HookedFd :=
  if iom && ok then { g with calls := g.calls.map SocketCall.trigger } else g

/-- The calls that are suspended. -/
def suspended (g : HookedFd) : List ℕ :=
  (List.range g.calls.length).filter fun i => g.calls[i]?.any fun c => c.call.point = .waiting

/-- Of some calls those that are still in `do_io`. -/
def still (g : HookedFd) (calls : List ℕ) : List (ℕ × List (Option ℕ)) :=
  calls.filterMap fun i => (g.calls[i]?.filter fun c => c.call.alive).map fun c => (i, c.reached)

/-- No other call waits for this event, so that the assertion in `addEvent` holds. -/
def Free (g : HookedFd) (event : Event) : Prop :=
  ∀ c ∈ g.calls, c.event = event → c.call.registered = false

inductive Step : HookedFd → FdAction → HookedFd → Prop
  | socket {g : HookedFd} (h : g.conn = none) :
    Step g .socket { g with conn := some g.made, made := g.made + 1 }
  | create {g : HookedFd} (h : g.conn ≠ none) : Step g .create { g with ctx := true }
  | enter {g : HookedFd} (event : Event) (timeout : ℕ) (h : g.ctx = true) :
    Step g (.enter event timeout) { g with calls := g.calls ++ [⟨event, .start timeout g.now, []⟩] }
  | own {g : HookedFd} {i : ℕ} {c : SocketCall} {a : HookedCall.Action} {call : HookedCall}
    (h : g.calls[i]? = some c) (ha : a.own = true) (hs : HookedCall.Step c.call a call)
    (hfree : ∀ ok, a = .addEvent ok → g.Free c.event) :
    Step g (.own i a) (g.setCall i ((c.reach g.conn a).set call))
  | arm {g : HookedFd} {i : ℕ} {c : SocketCall} (h : g.calls[i]? = some c)
    (harming : c.call.point = .arming) : Step g (.arm i) (g.setCall i (c.set c.call.armIf))
  | trigger {g : HookedFd} (event : Event) : Step g (.trigger event) (g.trigger event)
  | callbackCancel {g : HookedFd} {i k next : ℕ} {c : SocketCall} (h : g.calls[i]? = some c)
    (hk : c.call.timers[k]? = some ⟨next, .assigned⟩) : Step g (.callbackCancel i k)
      ((g.setCall i (c.set (c.call.setStage k ⟨next, .assigned⟩ .over))).trigger c.event)
  | tick {g : HookedFd} (ms : ℕ) : Step g (.tick ms) { g with
      now := g.now + ms, calls := g.calls.map fun c => c.set { c.call with now := c.call.now + ms } }
  | close {g : HookedFd} : Step g .close { g with closes := g.closes ++ [.looking g.suspended] }
  | look {g : HookedFd} {k : ℕ} {calls : List ℕ} (h : g.closes[k]? = some (.looking calls)) :
    Step g (.look k) (g.setClose k (if g.ctx then .cancelling calls else .closing calls))
  | cancelAll {g : HookedFd} {k : ℕ} {calls : List ℕ} (iom ok : Bool)
    (h : g.closes[k]? = some (.cancelling calls)) :
    Step g (.cancelAll k iom ok) ((g.cancelAll iom ok).setClose k (.deleting calls))
  | del {g : HookedFd} {k : ℕ} {calls : List ℕ} (h : g.closes[k]? = some (.deleting calls)) :
    Step g (.del k) ({ g with ctx := false }.setClose k (.closing calls))
  | closeF {g : HookedFd} {k : ℕ} {calls : List ℕ} (h : g.closes[k]? = some (.closing calls)) :
    Step g (.closeF k) ({ g with conn := none }.setClose k (.done (g.still calls)))

/-- When `close` has run, a call that it has found suspended reaches no connection any more, and it
is about to return, or has returned -1. -/
def Ended (g : HookedFd) : Prop :=
  ∀ calls, .done calls ∈ g.closes → ∀ i reached, (i, reached) ∈ calls → ∀ c, g.calls[i]? = some c →
    c.reached = reached ∧ (c.call.Leaving ∨ c.call.Failed)

/-- `close` finds the context, and `cancelAll` works, with nobody who has gone back to `retry` meanwhile;
and who comes to the test of `tinfo->cancelled` afterwards has timed out. -/
def Spared (g : HookedFd) : FdAction → Prop
  | .look k => ∀ calls, g.closes[k]? = some (.looking calls) → g.ctx = true ∨ ∀ i ∈ calls, ∀ c,
    g.calls[i]? = some c → c.call.alive = false
  | .cancelAll k iom ok => ∀ calls, g.closes[k]? = some (.cancelling calls) → ∀ i ∈ calls, ∀ c,
    g.calls[i]? = some c → c.call.alive = true → (c.call.registered = true → (iom && ok) = true) ∧
      (c.call.point = .waiting ∨ c.call.point = .resumed ∨ c.call.point = .testing)
  | .own i .test => ∀ p ∈ g.closes, i ∈ p.ends → ∀ c, g.calls[i]? = some c → c.call.cancelled = true
  | _ => True

/-- The invariant. -/
structure Closes (g : HookedFd) : Prop where
  waits : ∀ c ∈ g.calls, c.call.Waits
  bound : ∀ p ∈ g.closes, ∀ i ∈ p.calls, i < g.calls.length
  ends : ∀ p ∈ g.closes, ∀ i ∈ p.ends, ∀ c, g.calls[i]? = some c → c.call.Leaving ∨ c.call.alive = false
  ended : g.Ended

end HookedFd

/-- What a step makes of a call that `close` has to end. -/
structure SocketCall.Follows (c c' : SocketCall) : Prop where
  ended : c.call.alive = false → c'.call.point = c.call.point ∧ c'.reached = c.reached
  leaving : c.call.Leaving → c'.reached = c.reached ∧ (c'.call.Leaving ∨ c'.call.Failed)

namespace HookedCall
variable {c c' : HookedCall} {a : Action}

theorem Failed.not_alive (h : c.Failed) : c.alive = false := by
  rcases h with hp | ⟨e, hp⟩ <;> rw [alive, hp]

theorem Leaving.alive (h : c.Leaving) : c.alive = true := by
  rcases h with ⟨hp, -⟩ | hp | hp <;> rw [HookedCall.alive, hp]

theorem alive_of_point (hp : c'.point = c.point) : c'.alive = c.alive := by
  rw [alive, alive, hp]

theorem Leaving.of_point (h : c.Leaving) (hp : c'.point = c.point)
    (htriggered : c.triggered ≠ none → c'.triggered ≠ none) : c'.Leaving := by
  rw [Leaving, hp]
  exact h.imp_left fun hw => ⟨hw.1, htriggered hw.2⟩

theorem trigger_point : c.trigger.point = c.point := by
  rw [trigger]
  split <;> rfl

theorem trigger_triggered (h : c.triggered ≠ none) : c.trigger.triggered ≠ none := by
  rw [trigger]
  split
  · exact Option.some_ne_none _
  · exact h

/-- Who waits has been woken, once his event is triggered. -/
theorem Waits.trigger (h : c.Waits) (hp : c.point = .waiting) : c.trigger.triggered ≠ none := by
  rw [HookedCall.trigger]
  split
  · exact Option.some_ne_none _
  · rename_i hreg
    exact (h hp).resolve_left hreg

theorem Waits.trigger_waits (h : c.Waits) : c.trigger.Waits := fun hp =>
  Or.inr (h.trigger (trigger_point.symm.trans hp))

/-- A step of the call itself while it is on its way to the test, or over. -/
theorem Step.leaving (hs : Step c a c') (ha : a.own = true) (h : c.Leaving)
    (htest : a = .test → c.cancelled = true) :
    (∀ r, a ≠ .call r) ∧ (c'.Leaving ∨ c'.Failed) := by
  have hpoint : c.point = .waiting ∨ c.point = .resumed ∨ c.point = .testing :=
    h.imp_left And.left
  have hcall : ∀ r, a ≠ .call r := by
    rintro r rfl
    cases hs with
    | call _ hp => simp [hp] at hpoint
  refine ⟨hcall, ?_⟩
  cases hs with
  | call r hp => exact absurd rfl (hcall r)
  | addEvent ok hp => simp [hp] at hpoint
  | resume hp htriggered => exact Or.inl (Or.inr (Or.inl rfl))
  | cancelTimer hp => exact Or.inl (Or.inr (Or.inr rfl))
  | test hp =>
    refine Or.inr (Or.inr ⟨.ETIMEDOUT, ?_⟩)
    rw [HookedCall.test, if_pos (htest rfl)]
    rfl
  | collect hk hdue => exact Or.inl (h.of_point rfl id)
  | callbackTest hk =>
    rw [HookedCall.callbackTest]
    split <;> exact Or.inl (h.of_point rfl id)
  | callbackAssign hk => exact Or.inl (h.of_point rfl id)
  | arm | trigger | tick | callbackCancel => cases ha

theorem Step.over (hs : Step c a c') (ha : a.own = true) (h : c.alive = false) :
    (∀ r, a ≠ .call r) ∧ c'.point = c.point := by
  have hcall : ∀ r, a ≠ .call r := by
    rintro r rfl
    cases hs with
    | call _ hp =>
      rw [alive, hp] at h
      cases h
  refine ⟨hcall, ?_⟩
  cases hs with
  | call r hp | addEvent r hp | resume hp htriggered | cancelTimer hp | test hp =>
    rw [alive, hp] at h
    cases h
  | collect hk hdue => rfl
  | callbackTest hk =>
    rw [HookedCall.callbackTest]
    split <;> rfl
  | callbackAssign hk => rfl
  | arm | trigger | tick | callbackCancel => cases ha

theorem Step.waits (hs : Step c a c') (ha : a.own = true) (h : c.Waits) : c'.Waits := by
  cases hs with
  | call r hp =>
    intro hwaiting
    cases r with
    | value n => cases hwaiting
    | error e =>
      cases e with
      | EINTR => exact h hwaiting
      | _ => cases hwaiting
  | addEvent ok hp =>
    cases ok with
    | true => exact fun _ => Or.inl rfl
    | false => exact nofun
  | resume hp htriggered => exact nofun
  | cancelTimer hp => exact nofun
  | test hp =>
    intro hwaiting
    rw [HookedCall.test] at hwaiting
    split at hwaiting <;> cases hwaiting
  | collect hk hdue => exact h
  | callbackTest hk =>
    rw [HookedCall.callbackTest]
    split <;> exact h
  | callbackAssign hk => exact h
  | arm | trigger | tick | callbackCancel => cases ha

end HookedCall

namespace SocketCall
variable {c c' : SocketCall} {a : HookedCall.Action} {call : HookedCall}

theorem Follows.of_point (hpoint : c'.call.point = c.call.point) (hreached : c'.reached = c.reached)
    (htriggered : c.call.triggered ≠ none → c'.call.triggered ≠ none) : c.Follows c' where
  ended _ := ⟨hpoint, hreached⟩
  leaving h := ⟨hreached, Or.inl (h.of_point hpoint htriggered)⟩

theorem Follows.refl (c : SocketCall) : c.Follows c := .of_point rfl rfl id

theorem follows_trigger (c : SocketCall) : c.Follows c.trigger :=
  .of_point HookedCall.trigger_point rfl HookedCall.trigger_triggered

theorem reach_eq (h : ∀ r, a ≠ .call r) (conn : Option ℕ) : c.reach conn a = c := by
  cases a with
  | call r => exact absurd rfl (h r)
  | _ => rfl

theorem follows_own (hs : HookedCall.Step c.call a call) (ha : a.own = true)
    (htest : c.call.Leaving → a = .test → c.call.cancelled = true) (conn : Option ℕ) :
    c.Follows ((c.reach conn a).set call) where
  ended h := by
    obtain ⟨hcall, hpoint⟩ := hs.over ha h
    rw [reach_eq hcall]
    exact ⟨hpoint, rfl⟩
  leaving h := by
    obtain ⟨hcall, hleaving⟩ := hs.leaving ha h (htest h)
    rw [reach_eq hcall]
    exact ⟨rfl, hleaving⟩

theorem follows_arm (harming : c.call.point = .arming) (call : HookedCall) : c.Follows (c.set call) where
  ended h := by
    rw [HookedCall.alive, harming] at h
    cases h
  leaving h := by
    rcases h with ⟨hp, -⟩ | hp | hp <;> rw [harming] at hp <;> cases hp

end SocketCall

namespace HookedFd
variable {g g' : HookedFd} {i k : ℕ} {c c' : SocketCall} {p : ClosePoint} {a : FdAction} {calls : List ℕ}

/-- The calls get on. -/
theorem Closes.advance (h : g.Closes) (hcloses : g'.closes = g.closes)
    (hlength : g.calls.length ≤ g'.calls.length) (hwaits : ∀ c ∈ g'.calls, c.call.Waits)
    (hfollows : ∀ p ∈ g.closes, ∀ i ∈ p.ends, ∀ c', g'.calls[i]? = some c' →
      ∃ c, g.calls[i]? = some c ∧ c.Follows c') : g'.Closes where
  waits := hwaits
  bound := by
    rw [hcloses]
    exact fun p hp i hi => Nat.lt_of_lt_of_le (h.bound p hp i hi) hlength
  ends := by
    rw [hcloses]
    intro p hp i hi c' hc'
    obtain ⟨c, hc, hf⟩ := hfollows p hp i hi c' hc'
    rcases h.ends p hp i hi c hc with hleaving | hover
    · exact (hf.leaving hleaving).2.imp_right HookedCall.Failed.not_alive
    · exact Or.inr ((HookedCall.alive_of_point (hf.ended hover).1).trans hover)
  ended := by
    rw [Ended, hcloses]
    intro still hp i reached hi c' hc'
    obtain ⟨c, hc, hf⟩ := hfollows _ hp i (List.mem_map_of_mem (f := Prod.fst) hi) c' hc'
    obtain ⟨hreached, hleaving | hfailed⟩ := h.ended still hp i reached hi c hc
    · obtain ⟨hsame, hnext⟩ := hf.leaving hleaving
      exact ⟨hsame.trans hreached, hnext⟩
    · obtain ⟨hpoint, hsame⟩ := hf.ended hfailed.not_alive
      refine ⟨hsame.trans hreached, Or.inr ?_⟩
      rw [HookedCall.Failed, hpoint]
      exact hfailed

/-- One call gets on. -/
theorem Closes.setCall (h : g.Closes) (hc : g.calls[i]? = some c) (hwaits : c'.call.Waits)
    (hfollows : (∃ p ∈ g.closes, i ∈ p.ends) → c.Follows c') : (g.setCall i c').Closes := by
  have hlt := (List.getElem?_eq_some_iff.mp hc).1
  refine h.advance rfl (Nat.le_of_eq List.length_set.symm) (fun d hd => ?_) (fun p hp j hj d hd => ?_)
  · rcases List.mem_or_eq_of_mem_set hd with hold | rfl
    · exact h.waits d hold
    · exact hwaits
  · by_cases hij : i = j
    · subst hij
      have hd' : (g.calls.set i c')[i]? = some d := hd
      rw [List.getElem?_set_self hlt] at hd'
      obtain rfl := Option.some.inj hd'
      exact ⟨c, hc, hfollows ⟨p, hp, hj⟩⟩
    · exact ⟨d, (List.getElem?_set_ne hij).symm.trans hd, .refl d⟩

/-- All calls get on. -/
theorem Closes.map (h : g.Closes) (hcloses : g'.closes = g.closes) {f : SocketCall → SocketCall}
    (hcalls : g'.calls = g.calls.map f) (hwaits : ∀ c : SocketCall, c.call.Waits → (f c).call.Waits)
    (hfollows : ∀ c : SocketCall, c.Follows (f c)) : g'.Closes := by
  refine h.advance hcloses (by rw [hcalls, List.length_map]) (fun d hd => ?_) (fun p hp j hj d hd => ?_)
  · rw [hcalls] at hd
    obtain ⟨c, hc, rfl⟩ := List.mem_map.mp hd
    exact hwaits c (h.waits c hc)
  · rw [hcalls, List.getElem?_map] at hd
    obtain ⟨c, hc, rfl⟩ := Option.map_eq_some_iff.mp hd
    exact ⟨c, hc, hfollows c⟩

theorem Closes.trigger (h : g.Closes) (event : Event) : (g.trigger event).Closes := by
  refine h.map rfl (f := fun c => if c.event = event then c.trigger else c) rfl (fun c hc => ?_) fun c => ?_
  · split
    · exact hc.trigger_waits
    · exact hc
  · split
    · exact c.follows_trigger
    · exact .refl c

/-- `close` gets on, with the calls that it has to end in order. -/
theorem Closes.setClose (h : g.Closes) {q : ClosePoint} (hp : g.closes[k]? = some p)
    (hcalls : ∀ i ∈ q.calls, i ∈ p.calls) (hends : ∀ i ∈ q.ends, ∀ c, g.calls[i]? = some c →
      c.call.Leaving ∨ c.call.alive = false)
    (hdone : ∀ calls, q = .done calls → ∀ i reached, (i, reached) ∈ calls → ∀ c, g.calls[i]? = some c →
      c.reached = reached ∧ c.call.Leaving) : (g.setClose k q).Closes where
  waits := h.waits
  bound := by
    intro r hr i hi
    rcases List.mem_or_eq_of_mem_set hr with hold | rfl
    · exact h.bound r hold i hi
    · exact h.bound p (List.mem_of_getElem? hp) i (hcalls i hi)
  ends := by
    intro r hr i hi
    rcases List.mem_or_eq_of_mem_set hr with hold | rfl
    · exact h.ends r hold i hi
    · exact hends i hi
  ended := by
    intro calls hr i reached hi c hc
    rcases List.mem_or_eq_of_mem_set hr with hold | heq
    · exact h.ended calls hold i reached hi c hc
    · obtain ⟨hreached, hleaving⟩ := hdone calls heq.symm i reached hi c hc
      exact ⟨hreached, Or.inl hleaving⟩

/-- The state besides the calls and the closes does not matter. -/
theorem Closes.frame (h : g.Closes) (hcalls : g'.calls = g.calls) (hcloses : g'.closes = g.closes) : g'.Closes := by
  refine h.advance hcloses (by rw [hcalls]) (by rw [hcalls]; exact h.waits) fun p hp i hi c hc => ?_
  exact ⟨c, hcalls ▸ hc, .refl c⟩

theorem mem_suspended (h : i ∈ g.suspended) : i < g.calls.length :=
  List.mem_range.mp (List.mem_filter.mp h).1

theorem mem_still {reached : List (Option ℕ)} (h : (i, reached) ∈ g.still calls) :
    i ∈ calls ∧ ∃ c, g.calls[i]? = some c ∧ c.call.alive = true ∧ c.reached = reached := by
  obtain ⟨j, hj, hsome⟩ := List.mem_filterMap.mp h
  obtain ⟨c, hc, heq⟩ := Option.map_eq_some_iff.mp hsome
  obtain ⟨hc, halive⟩ := Option.filter_eq_some_iff.mp hc
  cases heq
  exact ⟨hj, c, hc, halive, rfl⟩

theorem Closes.look (h : g.Closes) (hp : g.closes[k]? = some (.looking calls)) (hspared : g.Spared (.look k)) :
    (g.setClose k (if g.ctx then .cancelling calls else .closing calls)).Closes := by
  cases hctx : g.ctx with
  | true => exact h.setClose hp (fun _ hi => hi) (fun i hi => by cases hi) nofun
  | false =>
    refine h.setClose hp (fun _ hi => hi) (fun i hi c hc => Or.inr ?_) nofun
    rcases hspared calls hp with htrue | hover
    · rw [hctx] at htrue
      cases htrue
    · exact hover i hi c hc

theorem cancelAll_calls (g : HookedFd) (iom ok : Bool) : (g.cancelAll iom ok).calls =
    g.calls.map fun c => if iom && ok then c.trigger else c := by
  rw [cancelAll]
  cases iom && ok with
  | true => rfl
  | false => simp

theorem cancelAll_closes (g : HookedFd) (iom ok : Bool) : (g.cancelAll iom ok).closes = g.closes := by
  rw [cancelAll]
  split <;> rfl

theorem Closes.cancelAll (h : g.Closes) {iom ok : Bool} (hp : g.closes[k]? = some (.cancelling calls))
    (hspared : g.Spared (.cancelAll k iom ok)) :
    ((g.cancelAll iom ok).setClose k (.deleting calls)).Closes := by
  have hall : (g.cancelAll iom ok).Closes := by
    refine h.map (cancelAll_closes g iom ok) (cancelAll_calls g iom ok) (fun c hc => ?_) fun c => ?_
    · split
      · exact hc.trigger_waits
      · exact hc
    · split
      · exact c.follows_trigger
      · exact .refl c
  refine hall.setClose (p := .cancelling calls) (by rw [cancelAll_closes]; exact hp) (fun _ hi => hi)
    (fun i hi c' hc' => ?_) nofun
  rw [cancelAll_calls, List.getElem?_map] at hc'
  obtain ⟨c, hc, rfl⟩ := Option.map_eq_some_iff.mp hc'
  have hfollows : c.Follows (if iom && ok then c.trigger else c) := by
    split
    · exact c.follows_trigger
    · exact .refl c
  cases halive : c.call.alive with
  | false => exact Or.inr ((HookedCall.alive_of_point (hfollows.ended halive).1).trans halive)
  | true =>
    left
    obtain ⟨hok, hwaiting | hpassed⟩ := hspared calls hp i hi c hc halive
    · have hwaits := h.waits c (List.mem_of_getElem? hc)
      split
      · exact Or.inl ⟨HookedCall.trigger_point.trans hwaiting, hwaits.trigger hwaiting⟩
      · rename_i hfails
        exact Or.inl ⟨hwaiting, (hwaits hwaiting).resolve_left fun hreg => hfails (hok hreg)⟩
    · split
      · exact Or.inr (by
          change c.call.trigger.point = _ ∨ c.call.trigger.point = _
          rwa [HookedCall.trigger_point])
      · exact Or.inr hpassed

theorem Closes.closeF (h : g.Closes) (hp : g.closes[k]? = some (.closing calls)) :
    ({ g with conn := none }.setClose k (.done (g.still calls))).Closes := by
  have hmem := List.mem_of_getElem? hp
  have hleaving : ∀ i reached, (i, reached) ∈ g.still calls → ∀ c, g.calls[i]? = some c →
      c.reached = reached ∧ c.call.Leaving := by
    intro i reached hi c hc
    obtain ⟨hi, d, hd, halive, hreached⟩ := mem_still hi
    obtain rfl := Option.some.inj (hc.symm.trans hd)
    refine ⟨hreached, (h.ends _ hmem i hi c hc).resolve_right fun hover => ?_⟩
    rw [halive] at hover
    cases hover
  have hcalls : ∀ i ∈ (g.still calls).map Prod.fst, i ∈ calls := by
    intro i hi
    obtain ⟨x, hx, rfl⟩ := List.mem_map.mp hi
    exact (mem_still hx).1
  have hframe : ({ g with conn := none } : HookedFd).Closes := h.frame rfl rfl
  refine hframe.setClose hp hcalls
    (fun i hi c hc => h.ends _ hmem i (hcalls i hi) c hc) fun still heq => ?_
  cases heq
  exact hleaving

theorem Closes.step (h : g.Closes) (hs : Step g a g') (hspared : g.Spared a) : g'.Closes := by
  cases hs with
  | socket hconn => exact h.frame rfl rfl
  | create hconn => exact h.frame rfl rfl
  | enter event timeout hctx =>
    refine h.advance rfl (by simp) (fun c hc => ?_) fun p hp i hi c hc => ?_
    · rcases List.mem_append.mp hc with hold | hnew
      · exact h.waits c hold
      · obtain rfl := List.mem_singleton.mp hnew
        exact nofun
    · have hlt : i < g.calls.length := h.bound p hp i (by
        cases p with
        | looking | cancelling => cases hi
        | _ => exact hi)
      rw [List.getElem?_append_left hlt] at hc
      exact ⟨c, hc, .refl c⟩
  | own hc ha hstep hfree =>
    rename_i i c action call
    refine h.setCall hc (hstep.waits ha (h.waits c (List.mem_of_getElem? hc))) ?_
    rintro ⟨p, hp, hi⟩
    refine SocketCall.follows_own hstep ha (fun _ htest => ?_) g.conn
    subst htest
    exact hspared p hp hi c hc
  | arm hc harming =>
    rename_i i c
    refine h.setCall hc ?_ fun _ => SocketCall.follows_arm harming _
    change c.call.armIf.Waits
    rw [HookedCall.armIf]
    split <;> exact nofun
  | trigger event => exact h.trigger event
  | callbackCancel hc hk =>
    rename_i i k next c
    have hcall : (g.setCall i (c.set (c.call.setStage k ⟨next, .assigned⟩ .over))).Closes :=
      h.setCall hc (h.waits c (List.mem_of_getElem? hc)) fun _ => .of_point rfl rfl id
    exact hcall.trigger c.event
  | tick ms =>
    exact h.map rfl (f := fun c => c.set { c.call with now := c.call.now + ms }) rfl (fun _ hc => hc)
      fun _ => .of_point rfl rfl id
  | close =>
    refine ⟨h.waits, fun p hp i hi => ?_, fun p hp => ?_, fun calls hp => ?_⟩
    · rcases List.mem_append.mp hp with hold | hnew
      · exact h.bound p hold i hi
      · obtain rfl := List.mem_singleton.mp hnew
        exact mem_suspended hi
    · rcases List.mem_append.mp hp with hold | hnew
      · exact h.ends p hold
      · obtain rfl := List.mem_singleton.mp hnew
        exact fun i hi => by cases hi
    · rcases List.mem_append.mp hp with hold | hnew
      · exact h.ended calls hold
      · cases List.mem_singleton.mp hnew
  | look hp => exact h.look hp hspared
  | cancelAll iom ok hp => exact h.cancelAll hp hspared
  | del hp =>
    have hframe : ({ g with ctx := false } : HookedFd).Closes := h.frame rfl rfl
    exact hframe.setClose hp (fun _ hi => hi)
      (fun i hi => h.ends (.deleting _) (List.mem_of_getElem? hp) i hi) nofun
  | closeF hp => exact h.closeF hp

theorem closes_start : start.Closes where
  waits c hc := by cases hc
  bound p hp := by cases hp
  ends p hp := by cases hp
  ended calls hp := by cases hp

/-- In a run in which those who are woken by `close` have timed out, it ends their calls. -/
theorem close_ends {log : List FdAction} (h : Run (fun g a g' => Step g a g' ∧ g.Spared a) start log g) :
    g.Ended := by
  have hcloses : g.Closes :=
    h.keeps (P := Closes) (fun _ _ _ ht hs => ht.step hs.1 hs.2) closes_start
  exact hcloses.ended

/-- A call that has timed out is ended. -/
theorem close_ends_expired : ∃ log g, Run Step start log g ∧ g.Ended ∧
    g.closes = [.done [(0, [some 0])]] ∧ g.conn = some 1 ∧
    ∃ c, g.calls[0]? = some c ∧ c.call.point = .returned (.error .ETIMEDOUT) ∧ c.reached = [some 0] := by
  have hrun : Run (fun g a g' => Step g a g' ∧ g.Spared a) start [] start := .nil
  have hrun := hrun.snoc ⟨.enter .READ 5 rfl, trivial⟩
  have hrun := hrun.snoc ⟨.own (i := 0) rfl rfl (.call (.error .EAGAIN) rfl) nofun, trivial⟩
  have hrun := hrun.snoc ⟨.arm (i := 0) rfl rfl, trivial⟩
  have hrun := hrun.snoc ⟨.own (i := 0) rfl rfl (.addEvent true rfl)
    (fun _ _ c hc _ => by obtain rfl := List.mem_singleton.mp hc; rfl), trivial⟩
  have hrun := hrun.snoc ⟨.tick 5, trivial⟩
  have hrun := hrun.snoc ⟨.own (i := 0) rfl rfl (.collect (k := 0) rfl (by decide)) nofun, trivial⟩
  have hrun := hrun.snoc ⟨.own (i := 0) rfl rfl (.callbackTest (k := 0) rfl) nofun, trivial⟩
  have hrun := hrun.snoc ⟨.own (i := 0) rfl rfl (.callbackAssign (k := 0) rfl) nofun, trivial⟩
  have hrun := hrun.snoc ⟨.close, trivial⟩
  have hrun := hrun.snoc ⟨.look (k := 0) rfl, fun _ _ => Or.inl rfl⟩
  have hrun := hrun.snoc ⟨.cancelAll (k := 0) true true rfl, fun calls hp i hi c hc _ => by
    cases hp
    obtain rfl := List.mem_singleton.mp hi
    cases hc
    exact ⟨fun _ => rfl, Or.inl rfl⟩⟩
  have hrun := hrun.snoc ⟨.del (k := 0) rfl, trivial⟩
  have hrun := hrun.snoc ⟨.closeF (k := 0) rfl, trivial⟩
  have hrun := hrun.snoc ⟨.socket rfl, trivial⟩
  have hrun := hrun.snoc ⟨.own (i := 0) rfl rfl (.resume rfl (Option.some_ne_none _)) nofun, trivial⟩
  have hrun := hrun.snoc ⟨.own (i := 0) rfl rfl (.cancelTimer rfl) nofun, trivial⟩
  have hrun := hrun.snoc ⟨.own (i := 0) rfl rfl (.test rfl) nofun, fun p hp _ c hc => by
    cases hc
    rfl⟩
  have hsteps := hrun.keeps_history (P := fun log g => Run Step start log g)
    (fun _ _ _ _ ht hs => ht.snoc hs.1) .nil
  exact ⟨_, _, hsteps, close_ends hrun, rfl, rfl, _, rfl, rfl, rfl⟩

/-- A call without a timeout is woken by `close`, goes back to `retry` and reads from the connection
that has got the number. -/
theorem close_retries : ¬ ∀ log g, Run Step start log g → g.Ended := by
  intro hall
  have hrun := Run.nil.snoc (s := start) (Step.enter .READ (2 ^ 64 - 1) rfl)
  have hrun := hrun.snoc (.own (i := 0) rfl rfl (.call (.error .EAGAIN) rfl) nofun)
  have hrun := hrun.snoc (.arm (i := 0) rfl rfl)
  have hrun := hrun.snoc (.own (i := 0) rfl rfl (.addEvent true rfl)
    (fun _ _ c hc _ => by obtain rfl := List.mem_singleton.mp hc; rfl))
  have hrun := hrun.snoc .close
  have hrun := hrun.snoc (.look (k := 0) rfl)
  have hrun := hrun.snoc (.cancelAll (k := 0) true true rfl)
  have hrun := hrun.snoc (.del (k := 0) rfl)
  have hrun := hrun.snoc (.closeF (k := 0) rfl)
  have hrun := hrun.snoc (.socket rfl)
  have hrun := hrun.snoc (.own (i := 0) rfl rfl (.resume rfl (Option.some_ne_none _)) nofun)
  have hrun := hrun.snoc (.own (i := 0) rfl rfl (.cancelTimer rfl) nofun)
  have hrun := hrun.snoc (.own (i := 0) rfl rfl (.test rfl) nofun)
  have hrun := hrun.snoc (.own (i := 0) rfl rfl (.call (.value 5) rfl) nofun)
  have hended := hall _ _ hrun [(0, [some 0])] List.mem_cons_self 0 [some 0] List.mem_cons_self _ rfl
  exact absurd hended.1 (by decide)

end HookedFd
end Flz
