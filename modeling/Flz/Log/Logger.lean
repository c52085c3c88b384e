import Flz.Lib.Runs
import Mathlib.Logic.Function.Basic

/-! # Loggers

`Logger` and `LoggerManager` of `src/log.cc`. A logger is known by its name, since `m_loggers` never
loses one, and an appender by its number. What a call of `log` comes to are the appenders that it
hands the event to.
-/
namespace Flz

inductive LogLevel
  | UNKNOW | DEBUG | INFO | WARN | ERROR | FATAL
  deriving DecidableEq, Repr

/-- The value of a level. -/
def LogLevel.value : LogLevel → ℕ
  | .UNKNOW => 0
  | .DEBUG => 1
  | .INFO => 2
  | .WARN => 3
  | .ERROR => 4
  | .FATAL => 5

inductive AppenderType
  | FileLogAppender | StdoutLogAppender
  deriving DecidableEq, Repr

structure LogAppender where
  type : AppenderType
  file : String
  level : LogLevel
  formatter : Option String
  hasFormatter : Bool
  deriving DecidableEq, Repr

/-- `root` is `m_root`. -/
structure Logger where
  name : String
  appenders : List ℕ
  root : Option String
  level : LogLevel
  formatter : String
  deriving DecidableEq, Repr

structure LoggerManager where
  loggers : String → Option Logger
  appenders : List LogAppender

namespace LogAppender

/-- `FileLogAppender(file)` or `StdoutLogAppender()`. -/
def new (type : AppenderType) (file : String) : LogAppender where
  type := type
  file := if type = .FileLogAppender then file else ""
  level := .DEBUG
  formatter := none
  hasFormatter := false

def setFormatter (a : LogAppender) (val : Option String) : LogAppender :=
  { a with formatter := val, hasFormatter := val.isSome }

/-- With the formatter of a logger, unless it has one. -/
def inherit (a : LogAppender) (val : String) : LogAppender :=
  if a.hasFormatter then a else a.setFormatter (some val)

end LogAppender

/-- The formatter of `Logger(name)`. -/
def defaultFormatter : String := "%d\x7b%Y-%m-%d %H:%M:%S\x7d%T%t%T%N%T%F%T[%p]%T[%c]%T%f:%l%T%m%n"

/-- `Logger(name)` with its `m_root`. -/
def Logger.new (name : String) (root : Option String) : Logger where
  name := name
  appenders := []
  root := root
  level := .DEBUG
  formatter := defaultFormatter

namespace LoggerManager

/-- `LoggerManager()`. -/
def new : LoggerManager where
  loggers n := if n = "root" then some { Logger.new "root" none with appenders := [0] } else none
  appenders := [(LogAppender.new .StdoutLogAppender "").inherit defaultFormatter]

/-- A change of a logger. -/
def change (g : LoggerManager) (name : String) (f : Logger → Logger) : LoggerManager :=
  { g with loggers := Function.update g.loggers name ((g.loggers name).map f) }

def getLogger (g : LoggerManager) (name : String) : LoggerManager :=
  if (g.loggers name).isSome then g
  else { g with loggers := Function.update g.loggers name (some (.new name (some "root"))) }

def setLevel (g : LoggerManager) (name : String) (level : LogLevel) : LoggerManager :=
  g.change name fun l => { l with level := level }

def clearAppenders (g : LoggerManager) (name : String) : LoggerManager :=
  g.change name fun l => { l with appenders := [] }

/-- An appender is constructed. -/
def create (g : LoggerManager) (a : LogAppender) : LoggerManager :=
  { g with appenders := g.appenders ++ [a] }

/-- Appenders that have no formatter get one. -/
def inherit (g : LoggerManager) (ids : List ℕ) (val : String) : LoggerManager :=
  { g with appenders := ids.foldl (fun as i => as.modify i (·.inherit val)) g.appenders }

def addAppender (g : LoggerManager) (name : String) (i : ℕ) : LoggerManager :=
  match g.loggers name with
  | none => g
  | some l => (g.inherit [i] l.formatter).change name fun l => { l with appenders := l.appenders ++ [i] }

def delAppender (g : LoggerManager) (name : String) (i : ℕ) : LoggerManager :=
  g.change name fun l => { l with appenders := l.appenders.erase i }

/-- `setFormatter(val)` with a text; `isError` tells the patterns that `LogFormatter` refuses. -/
def setFormatter (isError : String → Bool) (g : LoggerManager) (name val : String) : LoggerManager :=
  if isError val then g
  else
    match g.loggers name with
    | none => g
    | some l => (g.inherit l.appenders val).change name fun l => { l with formatter := val }

/-- A null pointer that is dereferenced. -/
structure NullPointer where
  deriving DecidableEq, Repr

/-- `log(level, event)` of a pointer to a logger, with a bound on the depth of the calls. -/
def log (g : LoggerManager) : ℕ → Option String → LogLevel → Option (Except NullPointer (List ℕ))
  | 0, _, _ => none
  | depth + 1, logger, level =>
    match logger.bind g.loggers with
    | none => some (.error ⟨⟩)
    | some l =>
      if l.level.value ≤ level.value then
        if l.appenders ≠ [] then some (.ok l.appenders) else g.log depth l.root level
      else some (.ok [])

/-- The root has no `m_root`, and every other logger has the root. -/
structure Rooted (g : LoggerManager) : Prop where
  root : (g.loggers "root").isSome
  roots : ∀ name l, g.loggers name = some l → l.root = if name = "root" then none else some "root"

section
variable {g g' : LoggerManager} {name : String} {l root : Logger} {level : LogLevel}

theorem rooted_new : Rooted new where
  root := rfl
  roots name l h := by
    simp only [new] at h
    split at h
    · rename_i hname
      cases h
      rw [if_pos hname]
      rfl
    · cases h

/-- The loggers behind a change. -/
theorem loggers_change (g : LoggerManager) (name : String) (f : Logger → Logger) (n : String) :
    (g.change name f).loggers n = if n = name then (g.loggers name).map f else g.loggers n := by
  simp only [change, Function.update_apply]

/-- The logger that `getLogger(name)` returns. -/
def logger (g : LoggerManager) (name : String) : Logger :=
  (g.loggers name).getD (.new name (some "root"))

theorem loggers_getLogger (g : LoggerManager) (name n : String) :
    (g.getLogger name).loggers n = if n = name then some (g.logger name) else g.loggers n := by
  rw [getLogger, logger]
  cases hname : g.loggers name with
  | none => simp only [Option.isSome_none, Bool.false_eq_true, if_false, Function.update_apply, Option.getD_none]
  | some l =>
    rw [Option.isSome_some, if_pos rfl, Option.getD_some, ← hname]
    split
    · rename_i hn
      rw [hn]
    · rfl

theorem Rooted.of_loggers (h : Rooted g) (hloggers : g'.loggers = g.loggers) : Rooted g' :=
  ⟨by rw [hloggers]; exact h.root, by rw [hloggers]; exact h.roots⟩

theorem Rooted.change (h : Rooted g) (name : String) {f : Logger → Logger} (hf : ∀ l, (f l).root = l.root) :
    Rooted (g.change name f) where
  root := by
    rw [loggers_change]
    split
    · rename_i hname
      rw [Option.isSome_map, ← hname]
      exact h.root
    · exact h.root
  roots n l hl := by
    rw [loggers_change] at hl
    split at hl
    · rename_i hname
      obtain ⟨l', hl', rfl⟩ := Option.map_eq_some_iff.mp hl
      rw [hf, hname]
      exact h.roots name l' hl'
    · exact h.roots n l hl

theorem Rooted.logger (h : Rooted g) (name : String) :
    (g.logger name).root = if name = "root" then none else some "root" := by
  rw [LoggerManager.logger]
  cases hname : g.loggers name with
  | none =>
    have hne : name ≠ "root" := by
      rintro rfl
      simpa [hname] using h.root
    rw [if_neg hne]
    rfl
  | some l => exact h.roots name l hname

theorem Rooted.getLogger (h : Rooted g) (name : String) : Rooted (g.getLogger name) where
  root := by
    rw [loggers_getLogger]
    split
    · rfl
    · exact h.root
  roots n l hl := by
    rw [loggers_getLogger] at hl
    split at hl
    · rename_i hn
      cases hl
      rw [hn]
      exact h.logger name
    · exact h.roots n l hl

theorem Rooted.addAppender (h : Rooted g) (name : String) (i : ℕ) : Rooted (g.addAppender name i) := by
  rw [LoggerManager.addAppender]
  split
  · exact h
  · exact (h.of_loggers rfl : Rooted (g.inherit _ _)).change name fun _ => rfl

theorem Rooted.setFormatter (h : Rooted g) (isError : String → Bool) (name val : String) :
    Rooted (g.setFormatter isError name val) := by
  rw [LoggerManager.setFormatter]
  split
  · exact h
  · split
    · exact h
    · exact (h.of_loggers rfl : Rooted (g.inherit _ _)).change name fun _ => rfl

/-- What a call of `log` comes to. -/
theorem Rooted.log_eq (h : Rooted g) (hl : g.loggers name = some l) (hroot : g.loggers "root" = some root)
    (depth : ℕ) : g.log (depth + 3) (some name) level =
      some (if level.value < l.level.value then .ok []
        else if l.appenders ≠ [] then .ok l.appenders
        else if name = "root" then .error ⟨⟩
        else if level.value < root.level.value then .ok []
        else if root.appenders ≠ [] then .ok root.appenders
        else .error ⟨⟩) := by
  have hnone := h.roots "root" root hroot
  rw [if_pos rfl] at hnone
  have hself := h.roots name l hl
  have hstep : ∀ d, g.log (d + 2) (some "root") level = some (if level.value < root.level.value then .ok []
      else if root.appenders ≠ [] then .ok root.appenders else .error ⟨⟩) := by
    intro d
    rw [log, Option.bind_some, hroot]
    dsimp only
    rw [hnone]
    by_cases hquiet : level.value < root.level.value
    · rw [if_neg (Nat.not_le_of_lt hquiet), if_pos hquiet]
    · rw [if_pos (Nat.le_of_not_lt hquiet), if_neg hquiet]
      split <;> rfl
  rw [log, Option.bind_some, hl]
  dsimp only
  rw [hself]
  by_cases hquiet : level.value < l.level.value
  · rw [if_neg (Nat.not_le_of_lt hquiet), if_pos hquiet]
  · rw [if_pos (Nat.le_of_not_lt hquiet), if_neg hquiet]
    by_cases hempty : l.appenders = []
    · rw [if_neg (not_not_intro hempty), if_neg (not_not_intro hempty)]
      by_cases hname : name = "root"
      · rw [if_pos hname, if_pos hname]
        rfl
      · rw [if_neg hname, if_neg hname]
        exact hstep depth
    · rw [if_pos hempty, if_pos hempty]

end
end LoggerManager
end Flz
