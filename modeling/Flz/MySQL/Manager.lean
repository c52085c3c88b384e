import Flz.Lib.OrderedMap
import Flz.Lib.Runs
import Flz.Lib.Tally
import Flz.Stream
import Mathlib.Logic.Function.Basic

/-! # The manager of connections

`MySQLManager` of `db/mysql.cc`. A section under the lock is one step, and so is every call of a
connection, which carries what the server makes of it. A connection is known by its number in the
order of construction; a call of `get` goes on as the pointer that it returns, until `freeMySQL`
is done with it.
-/
namespace Flz
open Lib

/-- The conversion of an integer to `size_t`. -/
def toSize (z : ℤ) : ℕ := (BitVec.ofInt 64 z).toNat

/-- `home` is the name that a connection has been made for, and `pool` the parameter of that name. -/
structure MySQL where
  home : String
  pool : ℤ
  connected : Bool
  lastUsedTime : UInt64
  hasError : Bool
  poolSize : ℤ
  deriving DecidableEq, Repr

namespace MySQL

/-- `MySQL(args)`. -/
def new (home : String) (pool : ℤ) : MySQL where
  home := home
  pool := pool
  connected := false
  lastUsedTime := 0
  hasError := false
  poolSize := 10

/-- `connect`, when `mysql_init` has a connection or not. -/
def connect (m : MySQL) (ok : Bool) : Bool × MySQL :=
  if m.connected && !m.hasError then (true, m)
  else if ok then (true, { m with hasError := false, poolSize := m.pool, connected := true })
  else (false, { m with hasError := true })

def isNeedCheck (m : MySQL) (now : UInt64) : Bool := !(now - m.lastUsedTime < 5 && !m.hasError)

def ping (m : MySQL) (ok : Bool) : Bool × MySQL :=
  if !m.connected then (false, m) else (ok, { m with hasError := !ok })

/-- `checkConnection` takes it for unused. -/
def unused (m : MySQL) (sec : ℤ) (now : UInt64) : Bool := sec ≤ toInt (now - m.lastUsedTime).toNat

end MySQL

/-- Where a call is, with the connections that it has. -/
inductive MySQLCall
  | ended
  /-- In `get`, behind the section that has taken a connection. -/
  | checking (name : String) (o : ℕ)
  | pinging (name : String) (o : ℕ)
  | reconnecting (name : String) (o : ℕ)
  /-- In `get`, before a connection is made. -/
  | creating (name : String) (pool : ℤ)
  | connecting (name : String) (o : ℕ)
  /-- A pointer that `get` has returned. -/
  | held (name : String) (o : ℕ)
  /-- In `freeMySQL`, before the lock is taken. -/
  | returning (name : String) (o : ℕ)
  /-- Before its connections are deleted. -/
  | deleting (os : List ℕ)
  deriving DecidableEq, Repr

def MySQLCall.objects : MySQLCall → List ℕ
  | .ended | .creating _ _ => []
  | .checking _ o | .pinging _ o | .reconnecting _ o | .connecting _ o | .held _ o
  | .returning _ o => [o]
  | .deleting os => os

/-- The name that a call goes by. -/
def MySQLCall.name? : MySQLCall → Option String
  | .checking name _ | .pinging name _ | .reconnecting name _ | .creating name _
  | .connecting name _ | .held name _ | .returning name _ => some name
  | .ended | .deleting _ => none

/-- `objects` are the connections by number, of which there are `created`, and `deleted` those
that `delete` has been called for. -/
structure MySQLManager where
  conns : List (String × List ℕ)
  objects : ℕ → MySQL
  created : ℕ
  calls : List MySQLCall
  deleted : List ℕ

/-- Steps, of call `i` where it is named. -/
inductive MySQLAction
  /-- The section of `get`, with the pool size that is configured for the name. -/
  | get (name : String) (pool : Option ℤ)
  | isNeedCheck (i : ℕ) (now used : UInt64)
  | ping (i : ℕ) (ok : Bool) (used : UInt64)
  | reconnect (i : ℕ) (ok : Bool) (used : UInt64)
  | create (i : ℕ)
  | connect (i : ℕ) (ok : Bool) (used : UInt64)
  /-- The holder of a pointer gives a command to the server. -/
  | execute (i : ℕ) (rt : ℤ)
  /-- The pointer is destroyed. -/
  | free (i : ℕ)
  /-- The section of `freeMySQL`. -/
  | giveBack (i : ℕ)
  | checkConnection (sec : ℤ) (now : UInt64)
  | delete (i : ℕ)
  deriving DecidableEq, Repr

namespace MySQLManager

def new : MySQLManager where
  conns := []
  objects _ := .new "" 0
  created := 0
  calls := []
  deleted := []

/-- `m_conns[name]`. -/
def idle (g : MySQLManager) (name : String) : List ℕ :=
  ((OrderedMap.entry compare name g.conns).map Prod.snd).getD []

def setIdle (g : MySQLManager) (name : String) (os : List ℕ) : MySQLManager :=
  { g with conns := OrderedMap.set compare name os g.conns }

def begin (g : MySQLManager) (c : MySQLCall) : MySQLManager := { g with calls := g.calls ++ [c] }

def go (g : MySQLManager) (i : ℕ) (c : MySQLCall) : MySQLManager := { g with calls := g.calls.set i c }

def setObject (g : MySQLManager) (o : ℕ) (m : MySQL) : MySQLManager :=
  { g with objects := Function.update g.objects o m }

/-- `get` returns a connection. -/
def hand (g : MySQLManager) (i : ℕ) (name : String) (o : ℕ) (m : MySQL) (used : UInt64) : MySQLManager :=
  (g.setObject o { m with lastUsedTime := used }).go i (.held name o)

def get (g : MySQLManager) (name : String) (pool : Option ℤ) : MySQLManager :=
  match g.idle name with
  | o :: os => (g.setIdle name os).begin (.checking name o)
  | [] =>
    match pool with
    | some pool => g.begin (.creating name pool)
    | none => g.begin .ended

def isNeedCheck (g : MySQLManager) (i : ℕ) (name : String) (o : ℕ) (now used : UInt64) : MySQLManager :=
  if !(g.objects o).isNeedCheck now then g.hand i name o (g.objects o) used
  else g.go i (.pinging name o)

def ping (g : MySQLManager) (i : ℕ) (name : String) (o : ℕ) (ok : Bool) (used : UInt64) : MySQLManager :=
  let (alive, m) := (g.objects o).ping ok
  if alive then g.hand i name o m used else (g.setObject o m).go i (.reconnecting name o)

/-- The last branch of `get` for a connection from the list: when it cannot be reconnected, `get`
returns without it. -/
def reconnect (g : MySQLManager) (i : ℕ) (name : String) (o : ℕ) (ok : Bool) (used : UInt64) :
    MySQLManager :=
  let (alive, m) := (g.objects o).connect ok
  if alive then g.hand i name o m used else (g.setObject o m).go i .ended

def create (g : MySQLManager) (i : ℕ) (name : String) (pool : ℤ) : MySQLManager :=
  ({ g with created := g.created + 1 }.setObject g.created (.new name pool)).go i (.connecting name g.created)

def connect (g : MySQLManager) (i : ℕ) (name : String) (o : ℕ) (ok : Bool) (used : UInt64) : MySQLManager :=
  let (alive, m) := (g.objects o).connect ok
  if alive then g.hand i name o m used else (g.setObject o m).go i (.deleting [o])

def execute (g : MySQLManager) (o : ℕ) (rt : ℤ) : MySQLManager :=
  g.setObject o { g.objects o with hasError := rt != 0 }

def free (g : MySQLManager) (i : ℕ) (name : String) (o : ℕ) : MySQLManager :=
  if (g.objects o).connected then g.go i (.returning name o) else g.go i (.deleting [o])

def giveBack (g : MySQLManager) (i : ℕ) (name : String) (o : ℕ) : MySQLManager :=
  if (g.idle name).length < toSize (g.objects o).poolSize then
    (g.setIdle name (g.idle name ++ [o])).go i .ended
  else (g.setIdle name (g.idle name)).go i (.deleting [o])

def checkConnection (g : MySQLManager) (sec : ℤ) (now : UInt64) : MySQLManager :=
  let unused (o : ℕ) := (g.objects o).unused sec now
  let kept := g.conns.map fun e => (e.1, e.2.filter fun o => !unused o)
  let conns := g.conns.flatMap fun e => e.2.filter unused
  { g with conns := kept }.begin (.deleting conns)

def delete (g : MySQLManager) (i o : ℕ) (os : List ℕ) : MySQLManager :=
  { g with deleted := g.deleted ++ [o] }.go i (.deleting os)

/-- A step, of call `i` from the point where it is. -/
inductive Step : MySQLManager → MySQLAction → MySQLManager → Prop
  | get {g : MySQLManager} (name : String) (pool : Option ℤ) : Step g (.get name pool) (g.get name pool)
  | isNeedCheck {g : MySQLManager} {i o : ℕ} {name : String} (now used : UInt64)
    (h : g.calls[i]? = some (.checking name o)) :
    Step g (.isNeedCheck i now used) (g.isNeedCheck i name o now used)
  | ping {g : MySQLManager} {i o : ℕ} {name : String} (ok : Bool) (used : UInt64)
    (h : g.calls[i]? = some (.pinging name o)) : Step g (.ping i ok used) (g.ping i name o ok used)
  | reconnect {g : MySQLManager} {i o : ℕ} {name : String} (ok : Bool) (used : UInt64)
    (h : g.calls[i]? = some (.reconnecting name o)) :
    Step g (.reconnect i ok used) (g.reconnect i name o ok used)
  | create {g : MySQLManager} {i : ℕ} {name : String} {pool : ℤ}
    (h : g.calls[i]? = some (.creating name pool)) : Step g (.create i) (g.create i name pool)
  | connect {g : MySQLManager} {i o : ℕ} {name : String} (ok : Bool) (used : UInt64)
    (h : g.calls[i]? = some (.connecting name o)) :
    Step g (.connect i ok used) (g.connect i name o ok used)
  | execute {g : MySQLManager} {i o : ℕ} {name : String} (rt : ℤ)
    (h : g.calls[i]? = some (.held name o)) : Step g (.execute i rt) (g.execute o rt)
  | free {g : MySQLManager} {i o : ℕ} {name : String} (h : g.calls[i]? = some (.held name o)) :
    Step g (.free i) (g.free i name o)
  | giveBack {g : MySQLManager} {i o : ℕ} {name : String} (h : g.calls[i]? = some (.returning name o)) :
    Step g (.giveBack i) (g.giveBack i name o)
  | checkConnection {g : MySQLManager} (sec : ℤ) (now : UInt64) :
    Step g (.checkConnection sec now) (g.checkConnection sec now)
  | delete {g : MySQLManager} {i o : ℕ} {os : List ℕ} (h : g.calls[i]? = some (.deleting (o :: os))) :
    Step g (.delete i) (g.delete i o os)

/-- How often a connection is in an idle list, with a call, or deleted. -/
def copies (g : MySQLManager) (o : ℕ) : ℕ :=
  tally (fun e => e.2.count o) g.conns + tally (fun c => c.objects.count o) g.calls + g.deleted.count o

/-- Every connection is in one place, and the idle ones are in the list of their own name. -/
structure Conserved (g : MySQLManager) : Prop where
  once : ∀ o < g.created, g.copies o = 1
  home : ∀ e ∈ g.conns, ∀ o ∈ e.2, (g.objects o).home = e.1

/-- The step does not lose a connection that is being checked, and no pool size is negative. -/
def Spared (g : MySQLManager) : MySQLAction → Prop
  | .reconnect i ok _ =>
    ∀ name o, g.calls[i]? = some (.reconnecting name o) → ((g.objects o).connect ok).1 = true
  | .giveBack i => ∀ name o, g.calls[i]? = some (.returning name o) → 0 ≤ (g.objects o).poolSize
  | _ => True

/-- A list grows by a connection that is given back, up to the pool size of that. -/
def Bounded (g : MySQLManager) (a : MySQLAction) (g' : MySQLManager) : Prop :=
  ∀ name, (g.idle name).length < (g'.idle name).length →
    ∃ i o, a = .giveBack i ∧ g.calls[i]? = some (.returning name o) ∧
      ((g'.idle name).length : ℤ) ≤ (g.objects o).poolSize

/-- The invariant behind `Conserved`. -/
structure Accounted (g : MySQLManager) : Prop where
  sorted : OrderedMap.Sorted compare g.conns
  copies : ∀ o, g.copies o = if o < g.created then 1 else 0
  home : ∀ e ∈ g.conns, ∀ o ∈ e.2, (g.objects o).home = e.1
  named : ∀ c ∈ g.calls, ∀ name, c.name? = some name → ∀ o ∈ c.objects, (g.objects o).home = name

variable {g g' : MySQLManager} {a : MySQLAction} {i o : ℕ} {name : String} {os : List ℕ}
  {c c' : MySQLCall} {m : MySQL}

theorem Accounted.conserved (h : g.Accounted) : g.Conserved where
  once o ho := by rw [h.copies, if_pos ho]
  home := h.home

theorem accounted_new : new.Accounted where
  sorted := List.Pairwise.nil
  copies _ := rfl
  home := by simp [new]
  named := by simp [new]

/-! ## What a step moves -/

theorem copies_go (h : g.calls[i]? = some c) (c' : MySQLCall) (o : ℕ) :
    (g.go i c').copies o + c.objects.count o = g.copies o + c'.objects.count o := by
  have hset := tally_set (fun c : MySQLCall => c.objects.count o) h c'
  simp only [copies, go]
  omega

theorem copies_begin (c : MySQLCall) (o : ℕ) :
    (g.begin c).copies o = g.copies o + c.objects.count o := by
  simp only [copies, begin, tally_append, tally_cons, tally_nil]
  omega

theorem idle_setIdle (h : OrderedMap.Sorted compare g.conns) (name : String) (os : List ℕ) (q : String) :
    (g.setIdle name os).idle q = if q = name then os else g.idle q := by
  rw [idle, setIdle, OrderedMap.entry_set h]
  by_cases hq : q = name
  · rw [if_pos hq, if_pos (by rw [hq]; exact Std.ReflCmp.compare_self)]
    rfl
  · rw [if_neg hq, if_neg (fun heq => hq (Std.LawfulEqCmp.eq_of_compare heq)), idle]

theorem mem_idle (h : o ∈ g.idle name) : ∃ e ∈ g.conns, e.1 = name ∧ e.2 = g.idle name := by
  rw [idle] at h ⊢
  cases hentry : OrderedMap.entry compare name g.conns with
  | none =>
    rw [hentry] at h
    cases h
  | some e =>
    obtain ⟨hmem, hkey⟩ := OrderedMap.entry_mem hentry
    exact ⟨e, hmem, (Std.LawfulEqCmp.eq_of_compare hkey).symm, rfl⟩

theorem copies_setIdle (h : OrderedMap.Sorted compare g.conns) (name : String) (os : List ℕ) (o : ℕ) :
    (g.setIdle name os).copies o + (g.idle name).count o = g.copies o + os.count o := by
  obtain ⟨before, after, hconns, hset⟩ := OrderedMap.set_split h name os
  have hidle : tally (fun e : String × List ℕ => e.2.count o)
      (OrderedMap.entry compare name g.conns).toList = (g.idle name).count o := by
    rw [idle]
    cases OrderedMap.entry compare name g.conns with
    | none => simp
    | some e => simp
  have hwhole : tally (fun e : String × List ℕ => e.2.count o) g.conns =
      tally (fun e : String × List ℕ => e.2.count o) before + (g.idle name).count o +
        tally (fun e : String × List ℕ => e.2.count o) after := by
    rw [← hidle, ← tally_append, ← tally_append, ← hconns]
  simp only [copies, setIdle, hset, hwhole, tally_append, tally_cons]
  omega

/-- The connections of a call are not elsewhere. -/
theorem Accounted.created (h : g.Accounted) (hc : g.calls[i]? = some c) (ho : o ∈ c.objects) :
    o < g.created := by
  have hcount : 0 < c.objects.count o := List.count_pos_iff.mpr ho
  have hle := le_tally (fun c : MySQLCall => c.objects.count o) (List.mem_of_getElem? hc)
  have hcopies := h.copies o
  by_contra hlt
  rw [if_neg hlt, MySQLManager.copies] at hcopies
  omega

theorem home_setObject (hm : m.home = (g.objects o).home) (p : ℕ) :
    ((g.setObject o m).objects p).home = (g.objects p).home := by
  by_cases hp : p = o
  · subst hp
    simpa [MySQLManager.setObject] using hm
  · simp [MySQLManager.setObject, hp]

theorem Accounted.setObject (h : g.Accounted) (hm : m.home = (g.objects o).home) :
    (g.setObject o m).Accounted where
  sorted := h.sorted
  copies := h.copies
  home e he p hp := (home_setObject hm p).trans (h.home e he p hp)
  named c hc name hname p hp := (home_setObject hm p).trans (h.named c hc name hname p hp)

/-- A call goes on with the connections that it has. -/
theorem Accounted.go (h : g.Accounted) (hc : g.calls[i]? = some c) (hobjects : c'.objects = c.objects)
    (hname : ∀ name, c'.name? = some name → c.name? = some name) : (g.go i c').Accounted where
  sorted := h.sorted
  copies p := by
    have hgo := copies_go hc c' p
    rw [hobjects] at hgo
    exact (Nat.add_right_cancel hgo).trans (h.copies p)
  home := h.home
  named d hd name hd' p hp := by
    rcases List.mem_or_eq_of_mem_set hd with hd | rfl
    · exact h.named d hd name hd' p hp
    · rw [hobjects] at hp
      exact h.named c (List.mem_of_getElem? hc) name (hname name hd') p hp

theorem Accounted.hand (h : g.Accounted) (hc : g.calls[i]? = some c) (hobjects : c.objects = [o])
    (hname : c.name? = some name) (hm : m.home = (g.objects o).home) (used : UInt64) :
    (g.hand i name o m used).Accounted :=
  (h.setObject (m := { m with lastUsedTime := used }) hm).go hc hobjects.symm (fun _ hq => hname.trans hq)

/-- A call without connections begins. -/
theorem Accounted.begin (h : g.Accounted) (hc : c.objects = []) : (g.begin c).Accounted where
  sorted := h.sorted
  copies p := by
    have hbegin := copies_begin (g := g) c p
    rw [hc] at hbegin
    exact hbegin.trans (h.copies p)
  home := h.home
  named d hd name hname p hp := by
    rcases List.mem_append.mp hd with hd | hd
    · exact h.named d hd name hname p hp
    · rw [List.mem_singleton.mp hd, hc] at hp
      cases hp

theorem sorted_setIdle (h : OrderedMap.Sorted compare g.conns) (name : String) (os : List ℕ) :
    OrderedMap.Sorted compare (g.setIdle name os).conns := OrderedMap.Sorted.set h name os

theorem mem_setIdle (h : OrderedMap.Sorted compare g.conns) {e : String × List ℕ}
    (he : e ∈ (g.setIdle name os).conns) : e ∈ g.conns ∨ e = (name, os) := by
  obtain ⟨before, after, hconns, hset⟩ := OrderedMap.set_split h name os
  rw [setIdle, hset] at he
  rcases List.mem_append.mp he with he | he
  · left
    rw [hconns]
    exact List.mem_append_left _ (List.mem_append_left _ he)
  · rcases List.mem_cons.mp he with rfl | he
    · right
      cases hentry : OrderedMap.entry compare name g.conns with
      | none => rfl
      | some e =>
        have hkey := (OrderedMap.entry_mem hentry).2
        exact congrArg (·, os) (Std.LawfulEqCmp.eq_of_compare hkey).symm
    · left
      rw [hconns]
      exact List.mem_append_right _ he

theorem home_setIdle (h : g.Accounted) (hos : ∀ o ∈ os, (g.objects o).home = name) :
    ∀ e ∈ (g.setIdle name os).conns, ∀ o ∈ e.2, (g.objects o).home = e.1 := by
  intro e he
  rcases mem_setIdle h.sorted he with he | rfl
  · exact h.home e he
  · exact hos

theorem Accounted.home_idle (h : g.Accounted) (ho : o ∈ g.idle name) : (g.objects o).home = name := by
  obtain ⟨e, he, hkey, hlist⟩ := mem_idle ho
  rw [← hkey]
  exact h.home e he o (hlist ▸ ho)

/-! ## The steps -/

theorem Accounted.get (h : g.Accounted) (name : String) (pool : Option ℤ) :
    (g.get name pool).Accounted := by
  unfold MySQLManager.get
  split
  · rename_i o os hidle
    have hhome : ∀ p ∈ o :: os, (g.objects p).home = name :=
      fun p hp => h.home_idle (hidle ▸ hp)
    refine ⟨sorted_setIdle h.sorted name os, fun p => ?_, ?_, ?_⟩
    · have hset := copies_setIdle h.sorted name os p
      have hbegin := copies_begin (g := g.setIdle name os) (.checking name o) p
      rw [hidle, List.count_cons] at hset
      rw [MySQLCall.objects, List.count_singleton] at hbegin
      refine Eq.trans ?_ (h.copies p)
      omega
    · exact home_setIdle h (fun p hp => hhome p (List.mem_cons_of_mem o hp))
    · intro d hd q hq p hp
      rcases List.mem_append.mp hd with hd | hd
      · exact h.named d hd q hq p hp
      · obtain rfl := List.mem_singleton.mp hd
        obtain rfl := Option.some.inj hq
        exact hhome p (List.mem_singleton.mp hp ▸ List.mem_cons_self)
  · split
    · exact h.begin rfl
    · exact h.begin rfl

theorem Accounted.isNeedCheck (h : g.Accounted) (hc : g.calls[i]? = some (.checking name o))
    (now used : UInt64) : (g.isNeedCheck i name o now used).Accounted := by
  rw [MySQLManager.isNeedCheck]
  split
  · exact h.hand hc rfl rfl rfl used
  · exact h.go hc rfl (fun _ hq => hq)

theorem home_ping (m : MySQL) (ok : Bool) : (m.ping ok).2.home = m.home := by
  rw [MySQL.ping]
  split <;> rfl

theorem home_connect (m : MySQL) (ok : Bool) : (m.connect ok).2.home = m.home := by
  rw [MySQL.connect]
  split
  · rfl
  · split <;> rfl

theorem Accounted.ping (h : g.Accounted) (hc : g.calls[i]? = some (.pinging name o)) (ok : Bool)
    (used : UInt64) : (g.ping i name o ok used).Accounted := by
  have hhome := home_ping (g.objects o) ok
  rw [MySQLManager.ping]
  cases hping : (g.objects o).ping ok with
  | mk alive m =>
    rw [hping] at hhome
    cases alive with
    | true => exact h.hand hc rfl rfl hhome used
    | false => exact (h.setObject hhome).go hc rfl (fun _ hq => hq)

theorem Accounted.reconnect (h : g.Accounted) (hc : g.calls[i]? = some (.reconnecting name o))
    {ok : Bool} (hok : ((g.objects o).connect ok).1 = true) (used : UInt64) :
    (g.reconnect i name o ok used).Accounted := by
  have hhome := home_connect (g.objects o) ok
  rw [MySQLManager.reconnect]
  cases hconnect : (g.objects o).connect ok with
  | mk alive m =>
    rw [hconnect] at hhome hok
    obtain rfl : alive = true := hok
    exact h.hand hc rfl rfl hhome used

theorem Accounted.connect (h : g.Accounted) (hc : g.calls[i]? = some (.connecting name o)) (ok : Bool)
    (used : UInt64) : (g.connect i name o ok used).Accounted := by
  have hhome := home_connect (g.objects o) ok
  rw [MySQLManager.connect]
  cases hconnect : (g.objects o).connect ok with
  | mk alive m =>
    rw [hconnect] at hhome
    cases alive with
    | true => exact h.hand hc rfl rfl hhome used
    | false => exact (h.setObject hhome).go hc rfl (fun _ hq => by cases hq)

theorem Accounted.create (h : g.Accounted) {pool : ℤ} (hc : g.calls[i]? = some (.creating name pool)) :
    (g.create i name pool).Accounted := by
  have hzero : g.copies g.created = 0 := (h.copies g.created).trans (if_neg (Nat.lt_irrefl _))
  have hother {p : ℕ} (hp : p ≠ g.created) : (g.create i name pool).objects p = g.objects p :=
    Function.update_of_ne hp _ _
  refine ⟨h.sorted, fun p => ?_, fun e he p hp => ?_, fun d hd q hq p hp => ?_⟩
  · have hgo : (g.create i name pool).copies p + 0 = g.copies p + [g.created].count p :=
      copies_go (g := g) hc (.connecting name g.created) p
    have hcreated : (g.create i name pool).created = g.created + 1 := rfl
    rw [h.copies p, List.count_singleton] at hgo
    rw [hcreated]
    by_cases hp : g.created = p
    · subst hp
      simp at hgo
      simp [hgo]
    · simp only [beq_iff_eq, hp, if_false, Nat.add_zero] at hgo
      rw [hgo]
      exact if_congr (by omega) rfl rfl
  · have hne : p ≠ g.created := by
      rintro rfl
      have hle : e.2.count g.created ≤ tally (fun e => e.2.count g.created) g.conns :=
        le_tally (fun e : String × List ℕ => e.2.count g.created) he
      have hpos : 0 < e.2.count g.created := List.count_pos_iff.mpr hp
      rw [MySQLManager.copies] at hzero
      omega
    rw [hother hne]
    exact h.home e he p hp
  · rcases List.mem_or_eq_of_mem_set hd with hd | rfl
    · obtain ⟨j, hj, hjd⟩ := List.mem_iff_getElem.mp hd
      have hlt : p < g.created := h.created (List.getElem?_eq_some_iff.mpr ⟨hj, hjd⟩) hp
      rw [hother (Nat.ne_of_lt hlt)]
      exact h.named d hd q hq p hp
    · obtain rfl := Option.some.inj hq
      obtain rfl := List.mem_singleton.mp hp
      have hself : (g.create i name pool).objects g.created = .new name pool :=
        Function.update_self g.created _ g.objects
      rw [hself]
      rfl

theorem Accounted.free (h : g.Accounted) (hc : g.calls[i]? = some (.held name o)) :
    (g.free i name o).Accounted := by
  rw [MySQLManager.free]
  split
  · exact h.go hc rfl (fun _ hq => hq)
  · exact h.go hc rfl (fun _ hq => by cases hq)

/-- A call ends with another idle list, when the connections are the same as before. -/
theorem Accounted.shelve (h : g.Accounted) (hc : g.calls[i]? = some c)
    (hos : ∀ o ∈ os, (g.objects o).home = name) (hname : c'.name? = none)
    (hcount : ∀ p, os.count p + c'.objects.count p = (g.idle name).count p + c.objects.count p) :
    ((g.setIdle name os).go i c').Accounted := by
  refine ⟨sorted_setIdle h.sorted name os, fun p => ?_, home_setIdle h hos, fun d hd q hq p hp => ?_⟩
  · have hset := copies_setIdle h.sorted name os p
    have hgo := copies_go (g := g.setIdle name os) hc c' p
    have hsame := hcount p
    refine Eq.trans ?_ (h.copies p)
    omega
  · rcases List.mem_or_eq_of_mem_set hd with hd | rfl
    · exact h.named d hd q hq p hp
    · rw [hname] at hq
      cases hq

theorem Accounted.giveBack (h : g.Accounted) (hc : g.calls[i]? = some (.returning name o)) :
    (g.giveBack i name o).Accounted := by
  have hhome : (g.objects o).home = name :=
    h.named _ (List.mem_of_getElem? hc) name rfl o (List.mem_singleton_self o)
  have hidle : ∀ p ∈ g.idle name, (g.objects p).home = name := fun p hp => h.home_idle hp
  rw [MySQLManager.giveBack]
  split
  · have hpushed : ∀ p ∈ g.idle name ++ [o], (g.objects p).home = name :=
      List.forall_mem_append.mpr ⟨hidle, List.forall_mem_singleton.mpr hhome⟩
    exact h.shelve hc hpushed rfl fun p => List.count_append
  · exact h.shelve hc hidle rfl fun p => rfl

theorem tally_filter (p : ℕ → Bool) (conns : List (String × List ℕ)) (o : ℕ) :
    tally (fun e => e.2.count o) (conns.map fun e => (e.1, e.2.filter fun o => !p o)) +
      (conns.flatMap fun e => e.2.filter p).count o = tally (fun e => e.2.count o) conns := by
  induction conns with
  | nil => rfl
  | cons e conns ih =>
    have hsplit := (List.filter_append_perm p e.2).count_eq o
    rw [List.count_append] at hsplit
    simp only [List.map_cons, List.flatMap_cons, List.count_append, tally_cons]
    omega

theorem Accounted.checkConnection (h : g.Accounted) (sec : ℤ) (now : UInt64) :
    (g.checkConnection sec now).Accounted := by
  refine ⟨h.sorted.map _, fun p => ?_, fun e he p hp => ?_, fun d hd q hq p hp => ?_⟩
  · have hsplit := tally_filter (fun o => (g.objects o).unused sec now) g.conns p
    refine Eq.trans ?_ (h.copies p)
    rw [MySQLManager.checkConnection, copies_begin]
    simp only [MySQLManager.copies, MySQLCall.objects]
    omega
  · obtain ⟨f, hf, rfl⟩ := List.mem_map.mp he
    exact h.home f hf p (List.mem_filter.mp hp).1
  · rcases List.mem_append.mp hd with hd | hd
    · exact h.named d hd q hq p hp
    · rw [List.mem_singleton.mp hd] at hq
      cases hq

theorem Accounted.delete (h : g.Accounted) (hc : g.calls[i]? = some (.deleting (o :: os))) :
    (g.delete i o os).Accounted := by
  refine ⟨h.sorted, fun p => ?_, h.home, fun d hd q hq p hp => ?_⟩
  · have hgo := copies_go hc (.deleting os) p
    have hdeleted : (g.delete i o os).copies p = (g.go i (.deleting os)).copies p + [o].count p := by
      simp only [MySQLManager.copies, MySQLManager.delete, MySQLManager.go, List.count_append]
      omega
    rw [MySQLCall.objects, MySQLCall.objects, ← List.singleton_append, List.count_append] at hgo
    refine Eq.trans ?_ (h.copies p)
    omega
  · rcases List.mem_or_eq_of_mem_set hd with hd | rfl
    · exact h.named d hd q hq p hp
    · cases hq

theorem Accounted.step (h : g.Accounted) (hs : Step g a g') (hspared : g.Spared a) : g'.Accounted := by
  cases hs with
  | get name pool => exact h.get name pool
  | isNeedCheck now used hc => exact h.isNeedCheck hc now used
  | ping ok used hc => exact h.ping hc ok used
  | reconnect ok used hc => exact h.reconnect hc (hspared _ _ hc) used
  | create hc => exact h.create hc
  | connect ok used hc => exact h.connect hc ok used
  | execute rt hc => exact h.setObject rfl
  | free hc => exact h.free hc
  | giveBack hc => exact h.giveBack hc
  | checkConnection sec now => exact h.checkConnection sec now
  | delete hc => exact h.delete hc

/-! ## The idle lists -/

theorem idle_ping (i : ℕ) (name : String) (o : ℕ) (ok : Bool) (used : UInt64) (q : String) :
    (g.ping i name o ok used).idle q = g.idle q := by
  rw [ping]
  cases (g.objects o).ping ok with
  | mk alive m => cases alive <;> rfl

theorem idle_reconnect (i : ℕ) (name : String) (o : ℕ) (ok : Bool) (used : UInt64) (q : String) :
    (g.reconnect i name o ok used).idle q = g.idle q := by
  rw [reconnect]
  cases (g.objects o).connect ok with
  | mk alive m => cases alive <;> rfl

theorem idle_connect (i : ℕ) (name : String) (o : ℕ) (ok : Bool) (used : UInt64) (q : String) :
    (g.connect i name o ok used).idle q = g.idle q := by
  rw [connect]
  cases (g.objects o).connect ok with
  | mk alive m => cases alive <;> rfl

theorem idle_get_le (h : OrderedMap.Sorted compare g.conns) (name : String) (pool : Option ℤ)
    (q : String) : ((g.get name pool).idle q).length ≤ (g.idle q).length := by
  unfold get
  split
  · rename_i o os hidle
    have hset : (((g.setIdle name os).begin (.checking name o)).idle q) = (g.setIdle name os).idle q := rfl
    rw [hset, idle_setIdle h]
    split
    · rename_i hq
      rw [hq, hidle]
      exact Nat.le_succ _
    · exact Nat.le_refl _
  · split <;> exact Nat.le_refl _

theorem idle_checkConnection_le (sec : ℤ) (now : UInt64) (q : String) :
    ((g.checkConnection sec now).idle q).length ≤ (g.idle q).length := by
  have hconns : (g.checkConnection sec now).conns =
      g.conns.map fun e => (e.1, e.2.filter fun o => !(g.objects o).unused sec now) := rfl
  rw [idle, idle, hconns, OrderedMap.entry_map]
  cases OrderedMap.entry compare q g.conns with
  | none => exact Nat.le_refl _
  | some e => exact List.length_filter_le _ _

theorem toSize_le {z : ℤ} (h : 0 ≤ z) : (toSize z : ℤ) ≤ z := by
  rw [toSize, BitVec.toNat_ofInt]
  omega

theorem Accounted.bounded (h : g.Accounted) (hs : Step g a g') (hspared : g.Spared a) :
    g.Bounded a g' := by
  intro q hq
  cases hs with
  | get name pool => exact absurd hq (Nat.not_lt_of_le (idle_get_le h.sorted name pool q))
  | isNeedCheck now used hc =>
    rw [MySQLManager.isNeedCheck] at hq
    split at hq <;> exact absurd hq (Nat.lt_irrefl _)
  | ping ok used hc =>
    rw [idle_ping] at hq
    exact absurd hq (Nat.lt_irrefl _)
  | reconnect ok used hc =>
    rw [idle_reconnect] at hq
    exact absurd hq (Nat.lt_irrefl _)
  | create hc => exact absurd hq (Nat.lt_irrefl _)
  | connect ok used hc =>
    rw [idle_connect] at hq
    exact absurd hq (Nat.lt_irrefl _)
  | execute rt hc => exact absurd hq (Nat.lt_irrefl _)
  | free hc =>
    rw [MySQLManager.free] at hq
    split at hq <;> exact absurd hq (Nat.lt_irrefl _)
  | @giveBack i o name hc =>
    refine ⟨i, o, rfl, ?_⟩
    have hpool := toSize_le (hspared name o hc)
    rw [MySQLManager.giveBack] at hq ⊢
    split at hq
    · rename_i hlt
      rw [if_pos hlt]
      have hidle : ((g.setIdle name (g.idle name ++ [o])).go i .ended).idle q =
          if q = name then g.idle name ++ [o] else g.idle q := idle_setIdle h.sorted _ _ q
      rw [hidle] at hq ⊢
      split at hq
      · rename_i heq
        rw [heq, if_pos rfl, List.length_append, List.length_singleton]
        exact ⟨hc, by omega⟩
      · exact absurd hq (Nat.lt_irrefl _)
    · have hidle : ((g.setIdle name (g.idle name)).go i (.deleting [o])).idle q =
          if q = name then g.idle name else g.idle q := idle_setIdle h.sorted _ _ q
      rw [hidle] at hq
      split at hq
      · rename_i heq
        rw [heq] at hq
        exact absurd hq (Nat.lt_irrefl _)
      · exact absurd hq (Nat.lt_irrefl _)
  | checkConnection sec now => exact absurd hq (Nat.not_lt_of_le (idle_checkConnection_le sec now q))
  | delete hc => exact absurd hq (Nat.lt_irrefl _)

/-! ## Runs -/

end MySQLManager
end Flz
