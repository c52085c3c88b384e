import Flz.Lib.Yaml
import Flz.Log.Define

/-! # Definitions of loggers as text

The two casts between `LogDefine` and YAML of `src/log.cc`.
-/
namespace Flz
open Lib

namespace LogLevel

def toString : LogLevel → String
  | .DEBUG => "DEBUG"
  | .INFO => "INFO"
  | .ERROR => "ERROR"
  | .WARN => "WARN"
  | .FATAL => "FATAL"
  | .UNKNOW => "UNKNOW"

def fromString (str : String) : LogLevel :=
  if str = "debug" then .DEBUG
  else if str = "info" then .INFO
  else if str = "warn" then .WARN
  else if str = "error" then .ERROR
  else if str = "fatal" then .FATAL
  else if str = "DEBUG" then .DEBUG
  else if str = "INFO" then .INFO
  else if str = "WARN" then .WARN
  else if str = "ERROR" then .ERROR
  else if str = "FATAL" then .FATAL
  else .UNKNOW

theorem fromString_toString (level : LogLevel) : fromString level.toString = level := by
  cases level <;> decide

end LogLevel

namespace LexicalCast
open Yaml

/-- `n[key].IsDefined() ? n[key].as<std::string>() : ""`. -/
def textIfDefined (n : Yaml String) (key : String) : Except Exception String := do
  match ← n.get key with
  | none => return ""
  | some v => asText (some v)

/-- The body of the loop over the appenders; `none` is `continue`. -/
def toAppenderDefine (a : Option (Yaml String)) : Except Exception (Option LogAppenderDefine) := do
  match a with
  | none => return none
  | some a =>
    match ← a.get "type" with
    | none => return none
    | some t =>
      let type ← asText (some t)
      if type = "FileLogAppender" then
        match ← a.get "file" with
        | none => return none
        | some f =>
          let file ← asText (some f)
          let formatter ← textIfDefined a "formatter"
          return some ⟨.FileLogAppender, .UNKNOW, formatter, file⟩
      else if type = "StdoutLogAppender" then
        let formatter ← textIfDefined a "formatter"
        return some ⟨.StdoutLogAppender, .UNKNOW, formatter, ""⟩
      else return none

/-- `LexicalCast<std::string, LogDefine>` behind `YAML::Load`. -/
def treeToLogDefine (n : Yaml String) : Except Exception LogDefine := do
  match ← n.get "name" with
  | none => .error (.thrown "log config name is null")
  | some name =>
    let name ← asText (some name)
    let level ← textIfDefined n "level"
    let formatter ← textIfDefined n "formatter"
    match ← n.get "appenders" with
    | none => return ⟨name, .fromString level, formatter, []⟩
    | some appenders =>
      let appenders ← (← appenders.elements toString).mapM toAppenderDefine
      return ⟨name, .fromString level, formatter, appenders.filterMap id⟩

def toLogDefine (y : Library String) (v : String) : Except Exception LogDefine := do
  treeToLogDefine (← y.load v)

/-- `na`, with its fields in the order of the assignments. -/
def appenderTree (a : LogAppenderDefine) : Yaml String :=
  mapOf ((match a.type with
      | .FileLogAppender => [("type", scalar "FileLogAppender"), ("file", scalar a.file)]
      | .StdoutLogAppender => [("type", scalar "StdoutLogAppender")]) ++
    fieldIf (a.level ≠ .UNKNOW) "level" (scalar a.level.toString) ++
    fieldIf (a.formatter ≠ "") "formatter" (scalar a.formatter))

/-- `n`; the first `push_back` makes the node of the appenders. -/
def logDefineTree (i : LogDefine) : Yaml String :=
  mapOf ([("name", scalar i.name)] ++
    fieldIf (i.level ≠ .UNKNOW) "level" (scalar i.level.toString) ++
    fieldIf (i.formatter ≠ "") "formatter" (scalar i.formatter) ++
    fieldIf (i.appenders ≠ []) "appenders" (seq (i.appenders.map appenderTree)))

/-- `LexicalCast<LogDefine, std::string>`. -/
def ofLogDefine (y : Library String) (i : LogDefine) : String := y.print (logDefineTree i)

/-! ## What is read back -/

section
variable {y : Library String} {d : LogDefine} {a : LogAppenderDefine}

/-- What the reading side makes of an appender. -/
def readAppender (a : LogAppenderDefine) : LogAppenderDefine :=
  { a with level := .UNKNOW, file := if a.type = .FileLogAppender then a.file else "" }

theorem toAppenderDefine_appenderTree (a : LogAppenderDefine) :
    toAppenderDefine (some (appenderTree a)) = .ok (some (readAppender a)) := by
  have hformatter : textIfDefined (appenderTree a) "formatter" = .ok a.formatter := by
    rw [textIfDefined, appenderTree, get_mapOf]
    cases a.type <;> by_cases hformatter : a.formatter = "" <;> simp [hformatter, asText] <;> rfl
  have htype : (appenderTree a).get "type" = .ok (some (scalar (match a.type with
      | .FileLogAppender => "FileLogAppender" | .StdoutLogAppender => "StdoutLogAppender"))) := by
    rw [appenderTree, get_mapOf]
    cases a.type <;> simp
  simp only [toAppenderDefine, htype, readAppender]
  cases htype : a.type with
  | FileLogAppender =>
    have hfile : (appenderTree a).get "file" = .ok (some (scalar a.file)) := by
      rw [appenderTree, get_mapOf, htype]
      simp
    simp only [hfile, asText, hformatter]
    rfl
  | StdoutLogAppender =>
    simp only [asText, hformatter]
    rfl

theorem mapM_toAppenderDefine (as : List LogAppenderDefine) :
    (as.map fun a => some (appenderTree a)).mapM toAppenderDefine = .ok (as.map fun a => some (readAppender a)) := by
  induction as with
  | nil => rfl
  | cons a as ih =>
    rw [List.map_cons, List.mapM_cons, toAppenderDefine_appenderTree, ih]
    rfl

theorem treeToLogDefine_logDefineTree (d : LogDefine) :
    treeToLogDefine (logDefineTree d) = .ok { d with appenders := d.appenders.map readAppender } := by
  have hname : (logDefineTree d).get "name" = .ok (some (scalar d.name)) := by
    rw [logDefineTree, get_mapOf]
    simp
  have hformatter : textIfDefined (logDefineTree d) "formatter" = .ok d.formatter := by
    rw [textIfDefined, logDefineTree, get_mapOf]
    by_cases hformatter : d.formatter = ""
    · simp [hformatter]
      rfl
    · simp [hformatter, asText]
  have hlevel : ∃ text, textIfDefined (logDefineTree d) "level" = .ok text ∧ LogLevel.fromString text = d.level := by
    rw [textIfDefined, logDefineTree, get_mapOf]
    by_cases hlevel : d.level = .UNKNOW
    · exact ⟨"", by simp [hlevel]; rfl, by rw [hlevel]; decide⟩
    · exact ⟨d.level.toString, by simp [hlevel, asText], d.level.fromString_toString⟩
  have happenders : (logDefineTree d).get "appenders" =
      .ok (if d.appenders = [] then none else some (seq (d.appenders.map appenderTree))) := by
    rw [logDefineTree, get_mapOf]
    by_cases hnone : d.appenders = [] <;> simp [hnone]
  obtain ⟨text, htext, hlevel⟩ := hlevel
  simp only [treeToLogDefine, hname, asText, htext, hformatter, happenders, ok_bind, hlevel]
  by_cases hnone : d.appenders = []
  · rw [if_pos hnone, hnone]
    rfl
  · rw [if_neg hnone]
    have helements : (seq (d.appenders.map appenderTree)).elements toString =
        .ok (d.appenders.map fun a => some (appenderTree a)) := by
      rw [elements, List.map_map]
      rfl
    have hfilter : (d.appenders.map fun a => some (readAppender a)).filterMap id = d.appenders.map readAppender := by
      rw [List.filterMap_map, ← List.filterMap_eq_map]
      rfl
    simp only [helements, mapM_toAppenderDefine, ok_bind, hfilter]
    rfl

/-- A definition comes back as it was exactly when none of its appenders has a level, which is written and not
read, and none of those for the standard output has a file, which is not written. -/
theorem logDefine_round_trip_iff (hreload : y.Reloads (logDefineTree d)) :
    toLogDefine y (ofLogDefine y d) = .ok d ↔
      ∀ a ∈ d.appenders, a.level = .UNKNOW ∧ (a.type = .StdoutLogAppender → a.file = "") := by
  have hread : toLogDefine y (ofLogDefine y d) = .ok { d with appenders := d.appenders.map readAppender } := by
    rw [toLogDefine, ofLogDefine, hreload]
    exact treeToLogDefine_logDefineTree d
  have hself : ∀ a, readAppender a = a ↔ a.level = .UNKNOW ∧ (a.type = .StdoutLogAppender → a.file = "") := by
    rintro ⟨type, level, formatter, file⟩
    cases type <;> simp [readAppender, eq_comm]
  rw [hread, Except.ok.injEq, LogDefine.mk.injEq]
  simp only [true_and, ← hself]
  calc d.appenders.map readAppender = d.appenders ↔ d.appenders.map readAppender = d.appenders.map id := by
        rw [List.map_id]
    _ ↔ ∀ a ∈ d.appenders, readAppender a = a := List.map_inj_left

/-- A logger with a file at level ERROR for itself and none for its appender. -/
def systemDefine : LogDefine :=
  ⟨"system", .ERROR, "", [⟨.FileLogAppender, .UNKNOW, "%d%T%m%n", "log.txt"⟩]⟩

/-- The library on `systemDefine`. -/
def systemText : Library String where
  print _ := "name: system\nlevel: ERROR\nappenders:\n  - type: FileLogAppender\n    file: log.txt\n    formatter: \"%d%T%m%n\""
  load _ := .ok (logDefineTree systemDefine)

theorem logDefine_round_trip_iff_system :
    toLogDefine systemText (ofLogDefine systemText systemDefine) = .ok systemDefine ↔
      ∀ a ∈ systemDefine.appenders, a.level = .UNKNOW ∧ (a.type = .StdoutLogAppender → a.file = "") :=
  logDefine_round_trip_iff (y := systemText) (d := systemDefine) rfl

/-- An appender for errors alone is read as one for everything. -/
theorem appender_level_lost : ¬ ∀ (y : Library String) (d : LogDefine), d.name ≠ "" →
    (∀ a ∈ d.appenders, a.type = .StdoutLogAppender → a.file = "") → y.Reloads (logDefineTree d) →
      toLogDefine y (ofLogDefine y d) = .ok d := by
  intro h
  have hlost := h ⟨fun _ => "", fun _ => .ok (logDefineTree ⟨"system", .UNKNOW, "", [⟨.StdoutLogAppender, .ERROR, "", ""⟩]⟩)⟩
    ⟨"system", .UNKNOW, "", [⟨.StdoutLogAppender, .ERROR, "", ""⟩]⟩ (by decide) (by decide) rfl
  exact absurd hlost (by decide)

end
end LexicalCast
end Flz
