import Flz.Lib.Runs
import Flz.Lib.Tally
import Flz.Stream
import Mathlib.Logic.Function.Basic

/-! # Pools of connections

`HttpConnectionPool` of `http/http_connection.cc`. A section under the lock is one step, and so is
every access to what threads share outside of it; what the network makes of a connection is given
with the step. A call of `getConnection` goes on as the pointer that it returns, until
`ReleasePtr` is done with it.
-/
namespace Flz
open Lib

/-- `m_createTime` is never set. -/
structure HttpConnection where
  createTime : ℕ
  request : ℕ
  deriving DecidableEq, Repr

/-- Where a call is, with the connections that it has. -/
inductive PoolCall
  | ended
  /-- In `getConnection`, with the invalid connections that are left to delete. -/
  | clearing (left : List ℕ) (invalid : ℕ) (ptr : Option ℕ)
  /-- In `getConnection`, without a connection. -/
  | opening
  /-- Before `++m_total`. -/
  | counting (o : ℕ)
  /-- A pointer that `getConnection` has returned. -/
  | held (o : ℕ)
  /-- In `ReleasePtr`, before the connection is deleted. -/
  | dropping (o : ℕ)
  /-- Before `--m_total`. -/
  | uncounting
  /-- In `ReleasePtr`, before the lock is taken. -/
  | returning (o : ℕ)
  deriving DecidableEq, Repr

def PoolCall.objects : PoolCall → List ℕ
  | .ended | .opening | .uncounting => []
  | .clearing left _ ptr => left ++ ptr.toList
  | .counting o | .held o | .dropping o | .returning o => [o]

/-- How many connections `m_total` has because of a call. -/
def PoolCall.weight : PoolCall → ℕ
  | .ended | .opening | .counting _ => 0
  | .clearing _ invalid ptr => invalid + ptr.toList.length
  | .held _ | .dropping _ | .uncounting | .returning _ => 1

/-- No call is in progress, or a caller has the pointer. -/
def PoolCall.quiet : PoolCall → Bool
  | .ended | .held _ => true
  | _ => false

/-- The connections of a call that a caller has, may get or gives back. -/
def PoolCall.usable : PoolCall → List ℕ
  | .dropping _ => []
  | c => c.objects

def PoolCall.isHeld : PoolCall → Bool
  | .held _ => true
  | _ => false

/-- `objects` are the connections by number, of which there are `created`; `deleted` are those
that `delete` has been called for, and `released` those that have gone through `ReleasePtr`. -/
structure HttpConnectionPool where
  maxAliveTime : ℕ
  maxRequest : ℕ
  conns : List ℕ
  total : ℤ
  objects : ℕ → HttpConnection
  created : ℕ
  calls : List PoolCall
  deleted : List ℕ
  released : List ℕ

/-- Steps, of call `i` where it is named. -/
inductive PoolAction
  /-- The section of `getConnection`, with what `isConnected` says. -/
  | getConnection (connected : ℕ → Bool) (now : ℕ)
  | clear (i : ℕ)
  | uncountInvalid (i : ℕ)
  /-- From the lookup of the address to the connection, unless something fails. -/
  | connect (i : ℕ) (ok : Bool)
  | count (i : ℕ)
  | release (i : ℕ) (connected : Bool) (now : ℕ)
  | drop (i : ℕ)
  | uncount (i : ℕ)
  /-- The section of `ReleasePtr`. -/
  | giveBack (i : ℕ)

namespace HttpConnectionPool

/-- `HttpConnectionPool(.., max_alive_time, max_request)`. -/
def new (maxAliveTime maxRequest : ℕ) : HttpConnectionPool where
  maxAliveTime := maxAliveTime
  maxRequest := maxRequest
  conns := []
  total := 0
  objects _ := ⟨0, 0⟩
  created := 0
  calls := []
  deleted := []
  released := []

def begin (g : HttpConnectionPool) (c : PoolCall) : HttpConnectionPool := { g with calls := g.calls ++ [c] }

def go (g : HttpConnectionPool) (i : ℕ) (c : PoolCall) : HttpConnectionPool :=
  { g with calls := g.calls.set i c }

/-- An atomic addition to `m_total`. -/
def addTotal (g : HttpConnectionPool) (n : ℤ) : HttpConnectionPool := { g with total := toInt (g.total + n) }

/-- The loop of `getConnection`: the invalid connections, the one that is taken, and the others. -/
def takeLoop (invalid : ℕ → Bool) : List ℕ → List ℕ × Option ℕ × List ℕ
  | [] => ([], none, [])
  | o :: conns =>
    if invalid o then
      let (out, ptr, rest) := takeLoop invalid conns
      (o :: out, ptr, rest)
    else ([], some o, conns)

/-- The tests of the loop. -/
def invalid (g : HttpConnectionPool) (connected : ℕ → Bool) (now : ℕ) (o : ℕ) : Bool :=
  !connected o || (g.objects o).createTime + g.maxAliveTime > now

def getConnection (g : HttpConnectionPool) (connected : ℕ → Bool) (now : ℕ) : HttpConnectionPool :=
  let (out, ptr, rest) := takeLoop (g.invalid connected now) g.conns
  { g with conns := rest }.begin (.clearing out out.length ptr)

def clear (g : HttpConnectionPool) (i o : ℕ) (left : List ℕ) (invalid : ℕ) (ptr : Option ℕ) :
    HttpConnectionPool :=
  { g with deleted := g.deleted ++ [o] }.go i (.clearing left invalid ptr)

def uncountInvalid (g : HttpConnectionPool) (i invalid : ℕ) (ptr : Option ℕ) : HttpConnectionPool :=
  (g.addTotal (-invalid)).go i
    (match ptr with
      | some o => .held o
      | none => .opening)

def connect (g : HttpConnectionPool) (i : ℕ) (ok : Bool) : HttpConnectionPool :=
  if ok then
    { g with
      objects := Function.update g.objects g.created ⟨0, 0⟩
      created := g.created + 1 }.go i (.counting g.created)
  else g.go i .ended

def count (g : HttpConnectionPool) (i o : ℕ) : HttpConnectionPool := (g.addTotal 1).go i (.held o)

/-- `ReleasePtr` up to its decision. -/
def release (g : HttpConnectionPool) (i o : ℕ) (connected : Bool) (now : ℕ) : HttpConnectionPool :=
  let conn := { g.objects o with request := (g.objects o).request + 1 }
  let g := { g with objects := Function.update g.objects o conn, released := g.released ++ [o] }
  if !connected || conn.createTime + g.maxAliveTime ≥ now || conn.request ≥ g.maxRequest then
    g.go i (.dropping o)
  else g.go i (.returning o)

def drop (g : HttpConnectionPool) (i o : ℕ) : HttpConnectionPool :=
  { g with deleted := g.deleted ++ [o] }.go i .uncounting

def uncount (g : HttpConnectionPool) (i : ℕ) : HttpConnectionPool := (g.addTotal (-1)).go i .ended

def giveBack (g : HttpConnectionPool) (i o : ℕ) : HttpConnectionPool :=
  { g with conns := g.conns ++ [o] }.go i .ended

/-- A step, of call `i` from the point where it is. -/
inductive Step : HttpConnectionPool → PoolAction → HttpConnectionPool → Prop
  | getConnection {g : HttpConnectionPool} (connected : ℕ → Bool) (now : ℕ) :
    Step g (.getConnection connected now) (g.getConnection connected now)
  | clear {g : HttpConnectionPool} {i o invalid : ℕ} {left : List ℕ} {ptr : Option ℕ}
    (h : g.calls[i]? = some (.clearing (o :: left) invalid ptr)) :
    Step g (.clear i) (g.clear i o left invalid ptr)
  | uncountInvalid {g : HttpConnectionPool} {i invalid : ℕ} {ptr : Option ℕ}
    (h : g.calls[i]? = some (.clearing [] invalid ptr)) :
    Step g (.uncountInvalid i) (g.uncountInvalid i invalid ptr)
  | connect {g : HttpConnectionPool} {i : ℕ} (ok : Bool) (h : g.calls[i]? = some .opening) :
    Step g (.connect i ok) (g.connect i ok)
  | count {g : HttpConnectionPool} {i o : ℕ} (h : g.calls[i]? = some (.counting o)) :
    Step g (.count i) (g.count i o)
  | release {g : HttpConnectionPool} {i o : ℕ} (connected : Bool) (now : ℕ)
    (h : g.calls[i]? = some (.held o)) :
    Step g (.release i connected now) (g.release i o connected now)
  | drop {g : HttpConnectionPool} {i o : ℕ} (h : g.calls[i]? = some (.dropping o)) :
    Step g (.drop i) (g.drop i o)
  | uncount {g : HttpConnectionPool} {i : ℕ} (h : g.calls[i]? = some .uncounting) :
    Step g (.uncount i) (g.uncount i)
  | giveBack {g : HttpConnectionPool} {i o : ℕ} (h : g.calls[i]? = some (.returning o)) :
    Step g (.giveBack i) (g.giveBack i o)

/-- How often a connection is in the pool, with a call, or deleted. -/
def copies (g : HttpConnectionPool) (o : ℕ) : ℕ :=
  g.conns.count o + tally (fun c => c.objects.count o) g.calls + g.deleted.count o

/-- How many pointers the callers have. -/
def held (g : HttpConnectionPool) : ℕ := g.calls.countP PoolCall.isHeld

/-- Every connection is in one place, nobody has it with another or too late, and between the calls
`m_total` counts the connections that there are, as far as an `int32_t` can. -/
structure Conserved (g : HttpConnectionPool) : Prop where
  once : ∀ o < g.created, g.copies o = 1
  alone : ∀ i j o : ℕ, g.calls[i]? = some (PoolCall.held o) → g.calls[j]? = some (PoolCall.held o) → i = j
  fresh : 1 ≤ g.maxRequest → ∀ i o : ℕ, g.calls[i]? = some (PoolCall.held o) →
    g.released.count o < g.maxRequest
  total : (∀ c ∈ g.calls, c.quiet = true) → g.total = toInt (g.conns.length + g.held) ∧
    (g.conns.length + g.held ≤ intMax → g.total = g.conns.length + g.held)

/-- The invariant behind `Conserved`. -/
structure Accounted (g : HttpConnectionPool) : Prop where
  copies : ∀ o, g.copies o = if o < g.created then 1 else 0
  request : ∀ o, (g.objects o).request = g.released.count o
  unreleased : ∀ o, g.created ≤ o → g.released.count o = 0
  fresh : 1 ≤ g.maxRequest → ∀ o ∈ g.conns, g.released.count o < g.maxRequest
  usable : 1 ≤ g.maxRequest → ∀ (i : ℕ) (c : PoolCall), g.calls[i]? = some c → ∀ o ∈ c.usable,
    g.released.count o < g.maxRequest
  total : g.total = toInt (g.conns.length + tally PoolCall.weight g.calls)

variable {g g' : HttpConnectionPool} {a : PoolAction} {i j o invalid : ℕ} {left : List ℕ}
  {ptr : Option ℕ} {c c' : PoolCall}

theorem toInt_toInt_add (a b : ℤ) : toInt (toInt a + b) = toInt (a + b) := by
  simp only [toInt, BitVec.ofInt_add, BitVec.ofInt_toInt]

theorem tally_weight_quiet {calls : List PoolCall} (h : ∀ c ∈ calls, c.quiet = true) :
    tally PoolCall.weight calls = calls.countP PoolCall.isHeld := by
  induction calls with
  | nil => rfl
  | cons c calls ih =>
    have hrest := ih (fun d hd => h d (List.mem_cons_of_mem c hd))
    have hc := h c List.mem_cons_self
    rw [tally_cons, List.countP_cons, hrest]
    cases c with
    | ended => simp [PoolCall.weight, PoolCall.isHeld]
    | held o => simp [PoolCall.weight, PoolCall.isHeld, Nat.add_comm]
    | _ => cases hc

theorem Accounted.alone (h : g.Accounted) (hc : g.calls[i]? = some c) (ho : o ∈ c.objects) :
    o ∉ g.conns ∧ ∀ j d, g.calls[j]? = some d → o ∈ d.objects → j = i := by
  have hcopies : g.copies o ≤ 1 := by
    rw [h.copies o]
    split <;> omega
  have hcount : 0 < c.objects.count o := List.count_pos_iff.mpr ho
  have hle := le_tally (fun c : PoolCall => c.objects.count o) (List.mem_of_getElem? hc)
  rw [HttpConnectionPool.copies] at hcopies
  refine ⟨fun hconns => ?_, fun j d hd hod => ?_⟩
  · have hpos : 0 < g.conns.count o := List.count_pos_iff.mpr hconns
    omega
  · by_contra hji
    have hpos : 0 < d.objects.count o := List.count_pos_iff.mpr hod
    have hadd := add_le_tally (fun c : PoolCall => c.objects.count o) hd hc hji
    omega

theorem mem_objects (ho : o ∈ c.usable) : o ∈ c.objects := by
  cases c <;> first | exact ho | cases ho

theorem Accounted.conserved (h : g.Accounted) : g.Conserved where
  once o ho := by rw [h.copies, if_pos ho]
  alone i j o hi hj := (h.alone hj (List.mem_singleton_self o)).2 i _ hi (List.mem_singleton_self o)
  fresh hmax i o hi := h.usable hmax i _ hi o (List.mem_singleton_self o)
  total hquiet := by
    rw [h.total, tally_weight_quiet hquiet, held]
    exact ⟨rfl, fun hmax => toInt_eq hmax⟩

theorem accounted_new (maxAliveTime maxRequest : ℕ) : (new maxAliveTime maxRequest).Accounted where
  copies _ := rfl
  request _ := rfl
  unreleased _ _ := rfl
  fresh := by simp [new]
  usable := by simp [new]
  total := by simp [new, toInt]

/-! ## The steps -/

/-- A call moves its connections, and `m_total` changes with what it has counted. -/
theorem Accounted.move (h : g.Accounted) (hc : g.calls[i]? = some c) (c' : PoolCall) (conns : List ℕ)
    {deleted : List ℕ} {total d : ℤ} (hcopies : ∀ p, conns.count p + c'.objects.count p + deleted.count p =
      g.conns.count p + c.objects.count p + g.deleted.count p)
    (hconns : ∀ p ∈ conns, p ∈ g.conns ∨ p ∈ c.usable) (husable : ∀ p ∈ c'.usable, p ∈ c.usable)
    (htotal : total = toInt (g.total + d))
    (hweight : (conns.length + c'.weight : ℤ) = g.conns.length + c.weight + d) :
    ({ g with
      conns := conns
      deleted := deleted
      total := total
      calls := g.calls.set i c' } : HttpConnectionPool).Accounted where
  copies p := by
    have hset := tally_set (fun c : PoolCall => c.objects.count p) hc c'
    have hp := hcopies p
    refine Eq.trans ?_ (h.copies p)
    simp only [HttpConnectionPool.copies]
    omega
  request := h.request
  unreleased := h.unreleased
  fresh hmax p hp := by
    rcases hconns p hp with hp | hp
    · exact h.fresh hmax p hp
    · exact h.usable hmax i c hc p hp
  usable hmax j d hd p hp := by
    rw [List.getElem?_set] at hd
    split at hd
    · split at hd
      · obtain rfl := Option.some.inj hd
        exact h.usable hmax i c hc p (husable p hp)
      · cases hd
    · exact h.usable hmax j d hd p hp
  total := by
    have hset := tally_set PoolCall.weight hc c'
    rw [htotal, h.total, toInt_toInt_add]
    refine congrArg toInt ?_
    dsimp only
    omega

theorem Accounted.total_add_zero (h : g.Accounted) : g.total = toInt (g.total + 0) := by
  rw [h.total, toInt_toInt_add, Int.add_zero]

theorem takeLoop_append (invalid : ℕ → Bool) (conns : List ℕ) :
    (takeLoop invalid conns).1 ++ (takeLoop invalid conns).2.1.toList ++ (takeLoop invalid conns).2.2 =
      conns := by
  induction conns with
  | nil => rfl
  | cons o conns ih =>
    rw [takeLoop]
    split
    · exact congrArg (o :: ·) ih
    · rfl

theorem Accounted.getConnection (h : g.Accounted) (connected : ℕ → Bool) (now : ℕ) :
    (g.getConnection connected now).Accounted := by
  have hsplit := takeLoop_append (g.invalid connected now) g.conns
  rw [HttpConnectionPool.getConnection]
  generalize takeLoop (g.invalid connected now) g.conns = out at hsplit ⊢
  obtain ⟨out, ptr, rest⟩ := out
  dsimp only at hsplit ⊢
  have hmem : ∀ p ∈ out ++ ptr.toList ++ rest, p ∈ g.conns := fun p hp => hsplit ▸ hp
  refine ⟨fun p => ?_, h.request, h.unreleased, fun hmax p hp => ?_, fun hmax j d hd p hp => ?_, ?_⟩
  · have hcount := congrArg (List.count p) hsplit
    rw [List.count_append] at hcount
    refine Eq.trans ?_ (h.copies p)
    simp only [HttpConnectionPool.copies, begin, tally_append, tally_cons, tally_nil, PoolCall.objects]
    omega
  · exact h.fresh hmax p (hmem p (List.mem_append_right _ hp))
  · simp only [begin, List.getElem?_append] at hd
    split at hd
    · exact h.usable hmax j d hd p hp
    · obtain rfl := List.mem_singleton.mp (List.mem_of_getElem? hd)
      exact h.fresh hmax p (hmem p (List.mem_append_left _ hp))
  · have hlength := congrArg List.length hsplit
    simp only [List.length_append] at hlength
    refine h.total.trans (congrArg toInt ?_)
    simp only [begin, tally_append, tally_cons, tally_nil, PoolCall.weight]
    omega

theorem Accounted.clear (h : g.Accounted) (hc : g.calls[i]? = some (.clearing (o :: left) invalid ptr)) :
    (g.clear i o left invalid ptr).Accounted := by
  refine h.move hc (.clearing left invalid ptr) g.conns (fun p => ?_) (fun p hp => Or.inl hp)
    (fun p hp => List.mem_cons_of_mem o hp) h.total_add_zero (by simp [PoolCall.weight])
  simp only [PoolCall.objects, List.count_append, List.count_cons, List.count_nil]
  omega

theorem Accounted.uncountInvalid (h : g.Accounted) (hc : g.calls[i]? = some (.clearing [] invalid ptr)) :
    (g.uncountInvalid i invalid ptr).Accounted := by
  cases ptr with
  | none =>
    refine h.move hc .opening g.conns (fun p => rfl) (fun p hp => Or.inl hp)
      (fun p hp => hp) rfl ?_
    simp only [PoolCall.weight, Option.toList, List.length_nil]
    omega
  | some o =>
    refine h.move hc (.held o) g.conns (fun p => rfl) (fun p hp => Or.inl hp)
      (fun p hp => hp) rfl ?_
    simp only [PoolCall.weight, Option.toList, List.length_singleton]
    omega

theorem Accounted.connect (h : g.Accounted) (hc : g.calls[i]? = some .opening) (ok : Bool) :
    (g.connect i ok).Accounted := by
  cases ok with
  | false =>
    exact h.move hc .ended _ (fun p => rfl) (fun p hp => Or.inl hp) (fun p hp => hp)
      h.total_add_zero (by simp [PoolCall.weight])
  | true =>
    have hzero := h.unreleased g.created (Nat.le_refl _)
    refine ⟨fun p => ?_, fun p => ?_, fun p hp => ?_, h.fresh, fun hmax j d hd p hp => ?_, ?_⟩
    · have hset : tally (fun c : PoolCall => c.objects.count p) (g.calls.set i (.counting g.created)) + 0 =
          tally (fun c : PoolCall => c.objects.count p) g.calls + [g.created].count p :=
        tally_set (fun c : PoolCall => c.objects.count p) hc (.counting g.created)
      have hcopies := h.copies p
      have hcreated : (g.connect i true).created = g.created + 1 := rfl
      have hconnect : (g.connect i true).copies p = g.conns.count p +
          tally (fun c : PoolCall => c.objects.count p) (g.calls.set i (.counting g.created)) +
            g.deleted.count p := rfl
      rw [List.count_singleton] at hset
      rw [HttpConnectionPool.copies] at hcopies
      rw [hconnect, hcreated]
      by_cases hp : g.created = p
      · subst hp
        simp only [beq_self_eq_true, if_true, Nat.lt_irrefl, if_false] at hset hcopies
        rw [if_pos (Nat.lt_succ_self _)]
        omega
      · simp only [beq_iff_eq, hp, if_false] at hset
        rw [if_congr (show p < g.created + 1 ↔ p < g.created by omega) rfl rfl, ← hcopies]
        omega
    · by_cases hp : p = g.created
      · subst hp
        have hself : (g.connect i true).objects g.created = ⟨0, 0⟩ := Function.update_self ..
        rw [hself]
        exact hzero.symm
      · have hother : (g.connect i true).objects p = g.objects p := Function.update_of_ne hp _ _
        rw [hother]
        exact h.request p
    · exact h.unreleased p (Nat.le_of_succ_le hp)
    · have hcalls : (g.connect i true).calls = g.calls.set i (.counting g.created) := rfl
      rw [hcalls, List.getElem?_set] at hd
      split at hd
      · split at hd
        · obtain rfl := Option.some.inj hd
          obtain rfl := List.mem_singleton.mp hp
          exact hzero.trans_lt hmax
        · cases hd
      · exact h.usable hmax j d hd p hp
    · have hset : tally PoolCall.weight (g.calls.set i (.counting g.created)) + 0 =
          tally PoolCall.weight g.calls + 0 := tally_set PoolCall.weight hc (.counting g.created)
      refine h.total.trans ?_
      rw [← Nat.add_right_cancel hset]
      rfl

theorem Accounted.count (h : g.Accounted) (hc : g.calls[i]? = some (.counting o)) :
    (g.count i o).Accounted := by
  refine h.move hc (.held o) g.conns (fun p => rfl) (fun p hp => Or.inl hp)
    (fun p hp => hp) rfl ?_
  simp only [PoolCall.weight]
  omega

theorem Accounted.drop (h : g.Accounted) (hc : g.calls[i]? = some (.dropping o)) :
    (g.drop i o).Accounted := by
  refine h.move hc .uncounting g.conns (fun p => ?_) (fun p hp => Or.inl hp) (fun p hp => by cases hp)
    h.total_add_zero (by simp [PoolCall.weight])
  simp only [PoolCall.objects, List.count_append, List.count_nil]
  omega

theorem Accounted.uncount (h : g.Accounted) (hc : g.calls[i]? = some .uncounting) :
    (g.uncount i).Accounted := by
  refine h.move hc .ended g.conns (fun p => rfl) (fun p hp => Or.inl hp)
    (fun p hp => hp) rfl ?_
  simp only [PoolCall.weight]
  omega

theorem Accounted.giveBack (h : g.Accounted) (hc : g.calls[i]? = some (.returning o)) :
    (g.giveBack i o).Accounted := by
  refine h.move hc .ended _ (fun p => ?_) (fun p hp => ?_) (fun p hp => by cases hp)
    h.total_add_zero ?_
  · simp only [PoolCall.objects, List.count_append, List.count_nil]
    omega
  · exact (List.mem_append.mp hp).imp id (fun hp => hp)
  · simp only [PoolCall.weight, List.length_append, List.length_singleton]
    omega

/-- A release is counted for its connection, which nobody else has. -/
theorem Accounted.releaseTo (h : g.Accounted) (hc : g.calls[i]? = some (.held o)) (c' : PoolCall)
    {conn : HttpConnection} (hconn : conn.request = (g.objects o).request + 1) (hobjects : c'.objects = [o])
    (hweight : c'.weight = 1)
    (husable : 1 ≤ g.maxRequest → o ∈ c'.usable → conn.request < g.maxRequest) :
    ({ g with
      objects := Function.update g.objects o conn
      released := g.released ++ [o]
      calls := g.calls.set i c' } : HttpConnectionPool).Accounted := by
  have halone := h.alone hc (List.mem_singleton_self o)
  have hreleased {p : ℕ} (hp : p ≠ o) : (g.released ++ [o]).count p = g.released.count p := by
    rw [List.count_append, List.count_singleton, if_neg (by simpa using hp.symm), Nat.add_zero]
  have hself : (g.released ++ [o]).count o = conn.request := by
    rw [List.count_append, List.count_singleton_self, hconn, h.request]
  refine ⟨fun p => ?_, fun p => ?_, fun p hp => ?_, fun hmax p hp => ?_, fun hmax j d hd p hp => ?_, ?_⟩
  · have hset := tally_set (fun c : PoolCall => c.objects.count p) hc c'
    have hcopies := h.copies p
    rw [hobjects] at hset
    rw [← hcopies]
    simp only [HttpConnectionPool.copies]
    exact congrArg (fun n => g.conns.count p + n + g.deleted.count p) (Nat.add_right_cancel hset)
  · by_cases hp : p = o
    · subst hp
      dsimp only
      rw [hself, Function.update_self]
    · dsimp only
      rw [hreleased hp, Function.update_of_ne hp]
      exact h.request p
  · have hne : p ≠ o := by
      rintro rfl
      have hlt : p < g.created := by
        by_contra hge
        have hcopies := h.copies p
        have hle := le_tally (fun c : PoolCall => c.objects.count p) (List.mem_of_getElem? hc)
        have hone : (PoolCall.held p).objects.count p = 1 := List.count_singleton_self
        rw [if_neg hge, HttpConnectionPool.copies] at hcopies
        omega
      exact absurd hp (Nat.not_le_of_lt hlt)
    exact (hreleased hne).trans (h.unreleased p hp)
  · have hne : p ≠ o := by
      rintro rfl
      exact halone.1 hp
    exact (hreleased hne).trans_lt (h.fresh hmax p hp)
  · dsimp only at hd
    rw [List.getElem?_set] at hd
    split at hd
    · split at hd
      · obtain rfl := Option.some.inj hd
        have hpo : p = o := List.mem_singleton.mp (hobjects ▸ mem_objects hp)
        rw [hpo] at hp ⊢
        exact hself.trans_lt (husable hmax hp)
      · cases hd
    · rename_i hij
      have hne : p ≠ o := by
        rintro rfl
        exact hij (halone.2 j d hd (mem_objects hp)).symm
      exact (hreleased hne).trans_lt (h.usable hmax j d hd p hp)
  · have hset := tally_set PoolCall.weight hc c'
    rw [hweight] at hset
    refine h.total.trans ?_
    rw [← Nat.add_right_cancel hset]

theorem Accounted.release (h : g.Accounted) (hc : g.calls[i]? = some (.held o)) (connected : Bool)
    (now : ℕ) : (g.release i o connected now).Accounted := by
  rw [HttpConnectionPool.release]
  split
  · exact h.releaseTo hc (.dropping o) rfl rfl rfl (fun _ hp => by cases hp)
  · rename_i hkeep
    refine h.releaseTo hc (.returning o) rfl rfl rfl (fun _ _ => ?_)
    simp only [Bool.or_eq_true, decide_eq_true_eq, not_or, ge_iff_le, not_le] at hkeep
    exact hkeep.2

theorem Accounted.step (h : g.Accounted) (hs : Step g a g') : g'.Accounted := by
  cases hs with
  | getConnection connected now => exact h.getConnection connected now
  | clear hc => exact h.clear hc
  | uncountInvalid hc => exact h.uncountInvalid hc
  | connect ok hc => exact h.connect hc ok
  | count hc => exact h.count hc
  | release connected now hc => exact h.release hc connected now
  | drop hc => exact h.drop hc
  | uncount hc => exact h.uncount hc
  | giveBack hc => exact h.giveBack hc

end HttpConnectionPool
end Flz
