import Flz.Log.Logger
import Mathlib.Data.String.Basic

/-! # The configuration of the loggers

`LogDefine` with its comparisons, the listener of `LogIniter` in `src/log.cc`, and `setValue` of
`include/config.h` on the variable `logs`. The event that the listener logs to the root comes before
everything else that it does.
-/
namespace Flz
open Lib

structure LogAppenderDefine where
  type : AppenderType
  level : LogLevel
  formatter : String
  file : String
  deriving DecidableEq, Repr

structure LogDefine where
  name : String
  level : LogLevel
  formatter : String
  appenders : List LogAppenderDefine
  deriving DecidableEq, Repr

/-- `operator==`, which compares the appenders of the left side with themselves. -/
def LogDefine.eq (i oth : LogDefine) : Bool :=
  i.name == oth.name && i.level == oth.level && i.formatter == oth.formatter &&
    i.appenders == i.appenders

/-- `std::set<LogDefine>`. -/
structure LogDefines where
  toList : List LogDefine
  sorted : toList.Pairwise fun i j => i.name < j.name
  deriving DecidableEq

namespace LogDefines

def empty : LogDefines := ⟨[], .nil⟩

def single (i : LogDefine) : LogDefines := ⟨[i], List.pairwise_singleton _ i⟩

/-- `find(i)`, by the name alone. -/
def find (s : LogDefines) (i : LogDefine) : Option LogDefine := s.toList.find? (·.name == i.name)

/-- `operator==` of the elements in their order. -/
def eqList : List LogDefine → List LogDefine → Bool
  | [], [] => true
  | i :: is, j :: js => i.eq j && eqList is js
  | _, _ => false

/-- `operator==` of sets. -/
def eq (s t : LogDefines) : Bool := eqList s.toList t.toList

end LogDefines

/-- What the listener asks elsewhere: the patterns that `LogFormatter` refuses, and whether there is
the argument `-d`. -/
structure LogContext where
  isError : String → Bool
  daemon : Bool

namespace LoggerManager
variable (e : LogContext)

/-- The appender that the listener makes. -/
def makeAppender (a : LogAppenderDefine) : LogAppender :=
  let ap := { LogAppender.new a.type a.file with level := a.level }
  if a.formatter ≠ "" ∧ e.isError a.formatter = false then ap.setFormatter (some a.formatter) else ap

def defineAppender (name : String) (g : LoggerManager) (a : LogAppenderDefine) : LoggerManager :=
  if a.type = .StdoutLogAppender ∧ e.daemon then g
  else (g.create (makeAppender e a)).addAppender name g.appenders.length

/-- The listener for a definition that is new or changed. -/
def define (g : LoggerManager) (i : LogDefine) : LoggerManager :=
  let g := (g.getLogger i.name).setLevel i.name i.level
  let g := if i.formatter ≠ "" then g.setFormatter e.isError i.name i.formatter else g
  i.appenders.foldl (defineAppender e i.name) (g.clearAppenders i.name)

/-- The listener for a definition that is gone. -/
def undefine (g : LoggerManager) (i : LogDefine) : LoggerManager :=
  ((g.getLogger i.name).setLevel i.name .UNKNOW).clearAppenders i.name

/-- A definition of the new value. -/
def applyNew (old_value : LogDefines) (g : LoggerManager) (i : LogDefine) : LoggerManager :=
  match old_value.find i with
  | none => define e g i
  | some j => if i.eq j then g else define e g i

/-- A definition of the old value. -/
def applyOld (new_value : LogDefines) (g : LoggerManager) (i : LogDefine) : LoggerManager :=
  if (new_value.find i).isSome then g else undefine g i

/-- The listener behind its event. -/
def onChange (g : LoggerManager) (old_value new_value : LogDefines) : LoggerManager :=
  old_value.toList.foldl (applyOld new_value) (new_value.toList.foldl (applyNew e old_value) g)

end LoggerManager

/-- The loggers with the value of the variable. -/
structure LogSystem where
  manager : LoggerManager
  defines : LogDefines

inductive LogAction
  | getLogger (name : String)
  | create (a : LogAppender)
  | addAppender (name : String) (i : ℕ)
  | delAppender (name : String) (i : ℕ)
  | clearAppenders (name : String)
  | setLevel (name : String) (level : LogLevel)
  | setValue (v : LogDefines)

namespace LogSystem

def new : LogSystem := ⟨.new, .empty⟩

/-- `setValue(v)`; none when the event of the listener finds a null pointer. -/
def setValue (e : LogContext) (g : LogSystem) (v : LogDefines) : Option LogSystem :=
  if v.eq g.defines then some g
  else
    match g.manager.log 3 (some "root") .INFO with
    | some (.ok _) => some ⟨g.manager.onChange e g.defines v, v⟩
    | _ => none

/-- The calls, on loggers and appenders that there are. -/
inductive Step (e : LogContext) : LogSystem → LogAction → LogSystem → Prop
  | getLogger {g : LogSystem} (name : String) :
    Step e g (.getLogger name) { g with manager := g.manager.getLogger name }
  | create {g : LogSystem} (a : LogAppender) :
    Step e g (.create a) { g with manager := g.manager.create a }
  | addAppender {g : LogSystem} {name : String} {i : ℕ} (hname : (g.manager.loggers name).isSome)
    (hi : i < g.manager.appenders.length) :
    Step e g (.addAppender name i) { g with manager := g.manager.addAppender name i }
  | delAppender {g : LogSystem} {name : String} (i : ℕ) (hname : (g.manager.loggers name).isSome) :
    Step e g (.delAppender name i) { g with manager := g.manager.delAppender name i }
  | clearAppenders {g : LogSystem} {name : String} (hname : (g.manager.loggers name).isSome) :
    Step e g (.clearAppenders name) { g with manager := g.manager.clearAppenders name }
  | setLevel {g : LogSystem} {name : String} (level : LogLevel)
    (hname : (g.manager.loggers name).isSome) :
    Step e g (.setLevel name level) { g with manager := g.manager.setLevel name level }
  | setValue {g g' : LogSystem} {v : LogDefines} (h : g.setValue e v = some g') :
    Step e g (.setValue v) g'

end LogSystem

/-! ## The fallback -/

section
variable {e : LogContext} {m : LoggerManager} {g g' : LogSystem} {a : LogAction} {as : List LogAction}
  {name : String} {l : Logger}

namespace LoggerManager

theorem Rooted.defineAppender (h : Rooted m) (name : String) (a : LogAppenderDefine) :
    Rooted (defineAppender e name m a) := by
  rw [LoggerManager.defineAppender]
  split
  · exact h
  · exact (h.of_loggers rfl : Rooted (m.create _)).addAppender name _

theorem Rooted.define (h : Rooted m) (i : LogDefine) : Rooted (define e m i) := by
  rw [LoggerManager.define]
  have hlevel : Rooted ((m.getLogger i.name).setLevel i.name i.level) :=
    (h.getLogger i.name).change i.name fun _ => rfl
  refine List.foldlRecOn _ _ ?_ fun m hm a _ => hm.defineAppender i.name a
  refine Rooted.change ?_ i.name fun _ => rfl
  split
  · exact hlevel.setFormatter e.isError i.name i.formatter
  · exact hlevel

theorem Rooted.undefine (h : Rooted m) (i : LogDefine) : Rooted (undefine m i) := by
  refine Rooted.change ?_ i.name fun _ => rfl
  exact (h.getLogger i.name).change i.name fun _ => rfl

theorem Rooted.onChange (h : Rooted m) (old_value new_value : LogDefines) :
    Rooted (m.onChange e old_value new_value) := by
  refine List.foldlRecOn _ _ (List.foldlRecOn _ _ h fun m hm i _ => ?_) fun m hm i _ => ?_
  · rw [applyNew]
    split
    · exact hm.define i
    · split
      · exact hm
      · exact hm.define i
  · rw [applyOld]
    split
    · exact hm
    · exact hm.undefine i

end LoggerManager

namespace LogSystem

/-- Every call keeps the pointers to the root. -/
theorem Step.rooted (hs : Step e g a g') (h : g.manager.Rooted) : g'.manager.Rooted := by
  cases hs with
  | getLogger name => exact h.getLogger name
  | create a => exact h.of_loggers rfl
  | addAppender hname hi => exact h.addAppender _ _
  | delAppender i hname => exact h.change _ fun _ => rfl
  | clearAppenders hname => exact h.change _ fun _ => rfl
  | setLevel level hname => exact h.change _ fun _ => rfl
  | setValue hv =>
    rw [LogSystem.setValue] at hv
    split at hv
    · cases hv
      exact h
    · split at hv
      · cases hv
        exact h.onChange _ _
      · cases hv

/-- The root takes an event, or drops it. -/
def Answers (g : LogSystem) (level : LogLevel) : Prop :=
  ∃ root, g.manager.loggers "root" = some root ∧
    (level.value < root.level.value ∨ root.appenders ≠ [])

/-- A call of `log` ends wherever it is made, and it finds no null pointer exactly when the logger
drops the event or has an appender, or is not the root and the root does not need its `m_root`. -/
theorem log_ends_iff (h : Run (Step e) new as g) (hl : g.manager.loggers name = some l)
    (level : LogLevel) :
    ∃ out, (∀ depth, g.manager.log (depth + 3) (some name) level = some out) ∧
      (out ≠ .error ⟨⟩ ↔ level.value < l.level.value ∨ l.appenders ≠ [] ∨
        name ≠ "root" ∧ g.Answers level) := by
  have hrooted : g.manager.Rooted :=
    h.keeps (P := fun g : LogSystem => g.manager.Rooted) (fun _ _ _ ht hs => hs.rooted ht)
      LoggerManager.rooted_new
  obtain ⟨root, hroot⟩ := Option.isSome_iff_exists.mp hrooted.root
  refine ⟨_, hrooted.log_eq hl hroot, ?_⟩
  have hanswers : g.Answers level ↔ level.value < root.level.value ∨ root.appenders ≠ [] := by
    simp [Answers, hroot]
  rw [hanswers]
  by_cases hquiet : level.value < l.level.value
  · rw [if_pos hquiet]
    exact iff_of_true nofun (.inl hquiet)
  · rw [if_neg hquiet]
    by_cases hempty : l.appenders = []
    · rw [if_neg (not_not_intro hempty)]
      by_cases hname : name = "root"
      · rw [if_pos hname]
        simp [hquiet, hempty, hname]
      · rw [if_neg hname]
        by_cases hroot : level.value < root.level.value
        · rw [if_pos hroot]
          exact iff_of_true nofun (.inr (.inr ⟨hname, .inl hroot⟩))
        · rw [if_neg hroot]
          by_cases hnone : root.appenders = [] <;> simp [hquiet, hempty, hname, hroot, hnone]
    · rw [if_pos hempty]
      exact iff_of_true nofun (.inr (.inl hempty))

/-- Patterns that are all taken, and no `-d`. -/
def plainContext : LogContext := ⟨fun _ => false, false⟩

/-- A logger without appenders falls back to the root. -/
theorem fallback_answered :
    ∃ out, (∀ depth, (LoggerManager.new.getLogger "system").log (depth + 3) (some "system") .INFO = some out) ∧
      (out ≠ .error ⟨⟩ ↔ LogLevel.value .INFO < LogLevel.value .DEBUG ∨ ([] : List ℕ) ≠ [] ∨
        "system" ≠ "root" ∧ Answers { new with manager := LoggerManager.new.getLogger "system" } .INFO) :=
  log_ends_iff (Run.nil.snoc (s := new) (Step.getLogger (e := plainContext) "system"))
    (l := .new "system" (some "root")) rfl .INFO

/-- The root without appenders looks for its own root. -/
theorem root_not_found : ¬ ∀ as g name l level, Run (Step plainContext) new as g →
    g.manager.loggers name = some l →
      ∃ out, (∀ depth, g.manager.log (depth + 3) (some name) level = some out) ∧ out ≠ .error ⟨⟩ := by
  intro h
  have hrun := Run.nil.snoc (s := new) (@Step.clearAppenders plainContext new "root" rfl)
  obtain ⟨out, hlog, hne⟩ := h _ _ "root" _ .FATAL hrun rfl
  have hnull := hlog 0
  cases hnull
  exact hne rfl

end LogSystem
end
end Flz
