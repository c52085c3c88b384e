import Flz.Lib.CString
import Flz.MySQL.Manager

/-! # The database of a connection

What `MySQL` of `db/mysql.cc` remembers in `m_dbname` beside the database that the server has for the
connection. Calls carry what the server makes of them.
-/
namespace Flz
open Lib

/-- What changes the current database of a connection: it is a new one, a name is selected, or a statement
drops the database. -/
inductive DatabaseChange
  | connected
  | selected (name : List UInt8)
  | dropped
  deriving DecidableEq, Repr

/-- `configured` is the parameter `dbname`, and `changes` what has changed the current database. -/
structure MySQLDatabase extends MySQL where
  dbname : List UInt8
  configured : List UInt8
  changes : List DatabaseChange
  deriving DecidableEq, Repr

namespace MySQLDatabase

/-- `MySQL(args)`. -/
def new (home : String) (pool : ℤ) (configured : List UInt8) : MySQLDatabase where
  toMySQL := MySQL.new home pool
  dbname := []
  configured := configured
  changes := []

/-- The current database of the live connection. -/
def current (m : MySQLDatabase) : List UInt8 :=
  match m.changes.getLast? with
  | some .connected => c_str m.configured
  | some (.selected name) => name
  | some .dropped | none => []

def connect (m : MySQLDatabase) (ok : Bool) : Bool × MySQLDatabase :=
  if m.connected && !m.hasError then (true, m)
  else if ok then
    (true, { m with
      hasError := false, poolSize := m.pool, connected := true, changes := m.changes ++ [.connected] })
  else (false, { m with hasError := true })

def ping (m : MySQLDatabase) (ok : Bool) : Bool × MySQLDatabase :=
  if !m.connected then (false, m) else (ok, { m with hasError := !ok })

/-- What a statement leaves of the database. -/
def after (m : MySQLDatabase) (drops : Bool) : MySQLDatabase :=
  if drops then { m with changes := m.changes ++ [.dropped] } else m

/-- `execute`; without a connection `mysql_query` is given a null pointer. -/
def execute (m : MySQLDatabase) (rt : ℤ) (drops : Bool) : Option (ℤ × MySQLDatabase) :=
  if m.connected then some (rt, { m.after drops with hasError := rt != 0 }) else none

/-- `query`, when there is a result or not. -/
def query (m : MySQLDatabase) (ok drops : Bool) : Bool × MySQLDatabase :=
  if m.connected then (ok, { m.after drops with hasError := !ok }) else (false, { m with hasError := true })

def use (m : MySQLDatabase) (dbname : List UInt8) (ok : Bool) : Bool × MySQLDatabase :=
  if !m.connected then (false, m)
  else if m.dbname = dbname then (true, m)
  else if ok then
    (true, { m with dbname := dbname, hasError := false, changes := m.changes ++ [.selected (c_str dbname)] })
  else (false, { m with dbname := [], hasError := true })

/-- What `MySQLManager::get` does with a connection of the pool: `used` is the time at its return. -/
def reuse (m : MySQLDatabase) (now used : UInt64) (ok reconnects : Bool) : Bool × MySQLDatabase :=
  if !m.isNeedCheck now then (true, { m with lastUsedTime := used })
  else
    let (alive, m) := m.ping ok
    if alive then (true, { m with lastUsedTime := used })
    else
      let (alive, m) := m.connect reconnects
      if alive then (true, { m with lastUsedTime := used }) else (false, m)

/-- The calls; `drops` where a statement drops the current database. -/
inductive Call
  | connect (ok : Bool)
  | ping (ok : Bool)
  | reuse (now used : UInt64) (ok reconnects : Bool)
  | execute (rt : ℤ) (drops : Bool)
  | query (ok drops : Bool)
  | use (dbname : List UInt8) (ok : Bool)
  deriving DecidableEq, Repr

def call (m : MySQLDatabase) : Call → Option MySQLDatabase
  | .connect ok => some (m.connect ok).2
  | .ping ok => some (m.ping ok).2
  | .reuse now used ok reconnects => some (m.reuse now used ok reconnects).2
  | .execute rt drops => (m.execute rt drops).map Prod.snd
  | .query ok drops => some (m.query ok drops).2
  | .use dbname ok => some (m.use dbname ok).2

def run (m : MySQLDatabase) (calls : List Call) : Option MySQLDatabase := calls.foldlM call m

/-- Where `use` returns `true` its name is the current database. -/
def Tracked (m : MySQLDatabase) : Call → Prop
  | .use dbname ok => (m.use dbname ok).1 = true → (m.use dbname ok).2.current = dbname
  | _ => True

/-- A name that is asked for has no `NUL`. One that is remembered has not been lost since: by a new connection
that has another default, or with its database; and the empty one is not that of a connection where a name
was selected. -/
def Valid (m : MySQLDatabase) : Call → Prop
  | .use dbname ok => m.connected = true →
      if m.dbname = dbname then
        match m.changes.getLast? with
        | some .connected => c_str m.configured = dbname
        | some (.selected old) => 0 ∉ dbname ∧ (dbname = [] → old = [])
        | some .dropped | none => dbname = []
      else ok = true → 0 ∉ dbname
  | _ => True

variable {m m' : MySQLDatabase} {c : Call} {dbname : List UInt8} {ok : Bool}

/-! ## The connection that the manager sees -/

theorem connect_toMySQL (m : MySQLDatabase) (ok : Bool) :
    (m.connect ok).1 = (m.toMySQL.connect ok).1 ∧ (m.connect ok).2.toMySQL = (m.toMySQL.connect ok).2 := by
  rw [connect, MySQL.connect]
  split
  · exact ⟨rfl, rfl⟩
  · cases ok <;> exact ⟨rfl, rfl⟩

theorem ping_toMySQL (m : MySQLDatabase) (ok : Bool) :
    (m.ping ok).1 = (m.toMySQL.ping ok).1 ∧ (m.ping ok).2.toMySQL = (m.toMySQL.ping ok).2 := by
  rw [ping, MySQL.ping]
  split <;> exact ⟨rfl, rfl⟩

theorem execute_toMySQL (h : m.connected = true) (rt : ℤ) (drops : Bool) :
    ∃ m', m.execute rt drops = some (rt, m') ∧ m'.toMySQL = { m.toMySQL with hasError := rt != 0 } := by
  rw [execute, if_pos h]
  refine ⟨_, rfl, ?_⟩
  cases drops <;> rfl

/-! ## What is remembered -/

/-- A name that is remembered was the last to be selected. -/
def Coherent (m : MySQLDatabase) : Prop :=
  ∀ name, m.changes.getLast? = some (.selected name) → m.dbname ≠ [] → name = c_str m.dbname

theorem coherent_new (home : String) (pool : ℤ) (configured : List UInt8) :
    (new home pool configured).Coherent := by
  intro name hname
  cases hname

theorem Coherent.after (h : m.Coherent) (drops : Bool) : (m.after drops).Coherent := by
  cases drops with
  | false => exact h
  | true =>
    intro name hname
    simp [MySQLDatabase.after] at hname

theorem Coherent.connect (h : m.Coherent) (ok : Bool) : (m.connect ok).2.Coherent := by
  rw [MySQLDatabase.connect]
  split
  · exact h
  · split
    · intro name hname
      simp at hname
    · exact h

theorem Coherent.ping (h : m.Coherent) (ok : Bool) : (m.ping ok).2.Coherent := by
  rw [MySQLDatabase.ping]
  split <;> exact h

theorem Coherent.reuse (h : m.Coherent) (now used : UInt64) (ok reconnects : Bool) :
    (m.reuse now used ok reconnects).2.Coherent := by
  have hping := h.ping ok
  have hconnect := hping.connect reconnects
  rw [MySQLDatabase.reuse]
  split
  · exact h
  · dsimp only
    split
    · exact hping
    · split <;> exact hconnect

theorem Coherent.use (h : m.Coherent) (dbname : List UInt8) (ok : Bool) : (m.use dbname ok).2.Coherent := by
  rw [MySQLDatabase.use]
  split
  · exact h
  · split
    · exact h
    · split
      · intro name hname _
        simpa using hname.symm
      · intro name _ hne
        exact absurd rfl hne

theorem Coherent.call (h : m.Coherent) (hc : m.call c = some m') : m'.Coherent := by
  cases c with
  | connect ok =>
    cases hc
    exact h.connect ok
  | ping ok =>
    cases hc
    exact h.ping ok
  | reuse now used ok reconnects =>
    cases hc
    exact h.reuse now used ok reconnects
  | execute rt drops =>
    rw [MySQLDatabase.call, MySQLDatabase.execute] at hc
    split at hc
    · cases hc
      exact h.after drops
    · cases hc
  | query ok drops =>
    cases hc
    rw [MySQLDatabase.query]
    split
    · exact h.after drops
    · exact h
  | use dbname ok =>
    cases hc
    exact h.use dbname ok

/-! ## One call -/

theorem current_iff (h : m.Coherent) (hname : m.dbname = dbname) : m.current = dbname ↔
    match m.changes.getLast? with
    | some .connected => c_str m.configured = dbname
    | some (.selected old) => 0 ∉ dbname ∧ (dbname = [] → old = [])
    | some .dropped | none => dbname = [] := by
  rw [current]
  cases hlast : m.changes.getLast? with
  | none => exact eq_comm
  | some change =>
    cases change with
    | connected => exact Iff.rfl
    | dropped => exact eq_comm
    | selected old =>
      by_cases hempty : dbname = []
      · simp [hempty]
      · have hold : old = c_str dbname := by
          rw [← hname] at hempty ⊢
          exact h old hlast hempty
        dsimp only
        rw [hold, c_str_eq_iff]
        simp [hempty]

theorem use_current (hconnected : m.connected = true) (hname : m.dbname ≠ dbname) :
    (m.use dbname true).1 = true ∧ (m.use dbname true).2.current = c_str dbname := by
  rw [use, hconnected, Bool.not_true, if_neg Bool.false_ne_true, if_neg hname, if_pos rfl]
  exact ⟨rfl, by simp [current]⟩

theorem use_false (hconnected : m.connected = true) (hname : m.dbname ≠ dbname) :
    (m.use dbname false).1 = false := by
  rw [use, hconnected, Bool.not_true, if_neg Bool.false_ne_true, if_neg hname, if_neg Bool.false_ne_true]

theorem use_remembered (hconnected : m.connected = true) (hname : m.dbname = dbname) (ok : Bool) :
    m.use dbname ok = (true, m) := by
  rw [use, hconnected, Bool.not_true, if_neg Bool.false_ne_true, if_pos hname]

theorem use_unconnected (h : m.connected = false) (dbname : List UInt8) (ok : Bool) :
    m.use dbname ok = (false, m) := by
  rw [use, h, Bool.not_false, if_pos rfl]

theorem tracked_iff_valid (h : m.Coherent) (c : Call) : m.Tracked c ↔ m.Valid c := by
  cases c with
  | use dbname ok =>
    rw [Tracked, Valid]
    cases hconnected : m.connected with
    | false => simp [use_unconnected hconnected]
    | true =>
      by_cases hname : m.dbname = dbname
      · rw [use_remembered hconnected hname, if_pos hname]
        simpa using current_iff h hname
      · rw [if_neg hname]
        cases ok with
        | true =>
          obtain ⟨htrue, hcurrent⟩ := use_current hconnected hname
          simp only [htrue, hcurrent, c_str_eq_iff, forall_const]
        | false => simp [use_false hconnected hname]
  | _ => exact Iff.rfl

/-- Every `use` that returns `true` has selected its name exactly when no call asks for one that has been
lost. -/
theorem use_tracked_iff (home : String) (pool : ℤ) (configured : List UInt8) (calls : List Call) :
    AtEach (fun before c => ∀ m ∈ (new home pool configured).run before, m.Tracked c) calls ↔
      AtEach (fun before c => ∀ m ∈ (new home pool configured).run before, m.Valid c) calls := by
  refine atEach_congr (I := fun before => ∀ m ∈ (new home pool configured).run before, m.Coherent) ?_ ?_ ?_ calls
  · intro m hm
    cases hm
    exact coherent_new home pool configured
  · intro before c hbefore _ m' hm'
    rw [run, foldlM_append_singleton, ← run] at hm'
    obtain ⟨m, hm, hc⟩ := Option.bind_eq_some_iff.mp hm'
    exact (hbefore m hm).call hc
  · intro before c hbefore
    exact forall₂_congr fun m hm => tracked_iff_valid (hbefore m hm) c

/-- The connection is replaced by one in the default database, and the name that it had is remembered. -/
theorem replaced_untracked : ¬ ∀ (home : String) (pool : ℤ) (configured : List UInt8) (calls : List Call),
    AtEach (fun before c => ∀ m ∈ (new home pool configured).run before, m.Tracked c) calls := by
  intro hall
  have htracked := hall "db" 5 [109, 97, 105, 110]
    [.connect true, .use [97] true, .execute 2006 false, .reuse 30 30 false true, .use [97] true]
    [.connect true, .use [97] true, .execute 2006 false, .reuse 30 30 false true] (.use [97] true)
    (List.prefix_refl _) _ rfl rfl
  exact absurd htracked (by decide)

end MySQLDatabase
end Flz
