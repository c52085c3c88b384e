import Flz.Log.Logger

/-! # Logging to a file

`FileLogAppender` of `src/log.cc` with `File::OpenForWrite` of `src/util.cc`, while others move and remove the file, its
directory and the room on the disk.
-/
namespace Flz

/-- `std::ofstream`: the file that is open, and whether an operation has failed. -/
structure OFStream (ι : Type) where
  file : Option ι
  fail : Bool
  deriving DecidableEq, Repr

/-- What a call of `open` gives for the name of the file: at once, and after `create_direction`. -/
structure Place (ι : Type) where
  first : Option ι
  second : Option ι
  deriving DecidableEq, Repr

namespace OFStream
variable {ι : Type}

def close (s : OFStream ι) : OFStream ι := if s.file.isSome then { s with file := none } else { s with fail := true }

/-- `open`: a stream that is open is not opened again, and one that gets opened has not failed. -/
def openFile (s : OFStream ι) (file : Option ι) : OFStream ι :=
  if s.file.isSome || file.isNone then { s with fail := true } else ⟨file, false⟩

/-- The text goes to the file that is open, unless something has failed; `written` is what becomes of the write. -/
def put (s : OFStream ι) (written : Bool) : OFStream ι × Option ι :=
  if s.fail then (s, none)
  else match s.file with
    | none => ({ s with fail := true }, none)
    | some file => if written then (s, some file) else ({ s with fail := true }, none)

/-- `File::OpenForWrite`. -/
def OpenForWrite (ofs : OFStream ι) (place : Place ι) : OFStream ι × Bool :=
  let ofs := ofs.openFile place.first
  let ofs := if ofs.file.isSome then ofs else ofs.openFile place.second
  (ofs, ofs.file.isSome)

end OFStream

/-- A call of `log`, with what becomes of the write if there is one. -/
structure LogCall where
  level : LogLevel
  time : UInt32
  written : Bool
  deriving DecidableEq, Repr

structure FileLogAppender (ι : Type) where
  m_level : LogLevel
  m_lastTime : UInt64
  m_filestream : OFStream ι
  deriving DecidableEq, Repr

namespace FileLogAppender
variable {ι : Type}

def reopen (a : FileLogAppender ι) (place : Place ι) : FileLogAppender ι × Bool :=
  let stream := if a.m_filestream.fail then a.m_filestream else a.m_filestream.close
  let (stream, ret) := stream.OpenForWrite place
  ({ a with m_filestream := stream }, ret)

/-- `FileLogAppender(name)`. -/
def new (place : Place ι) : FileLogAppender ι := (reopen ⟨.DEBUG, 0, ⟨none, false⟩⟩ place).1

/-- `log` before it writes. -/
def ready (a : FileLogAppender ι) (place : Place ι) (now : UInt64) : FileLogAppender ι :=
  if a.m_lastTime + 3 ≤ now then { (a.reopen place).1 with m_lastTime := now } else a

/-- `log`, with the file that the text goes to. -/
def log (a : FileLogAppender ι) (place : Place ι) (call : LogCall) : FileLogAppender ι × Option ι :=
  if a.m_level.value ≤ call.level.value then
    let a := a.ready place call.time.toUInt64
    let put := a.m_filestream.put call.written
    ({ a with m_filestream := put.1 }, put.2)
  else (a, none)

end FileLogAppender

/-- What happens to an appender and to the name of its file. -/
inductive FileEvent (ι : Type)
  | log (call : LogCall)
  | setLevel (val : LogLevel)
  /-- Others change what the name stands for. -/
  | move (place : Place ι)
  deriving DecidableEq, Repr

section
variable {ι : Type}

/-- One event. -/
def FileLogAppender.handle (a : FileLogAppender ι × Place ι) : FileEvent ι → FileLogAppender ι × Place ι
  | .log call => ((a.1.log a.2 call).1, a.2)
  | .setLevel val => ({ a.1 with m_level := val }, a.2)
  | .move place => (a.1, place)

/-- An appender and the name of its file after some events. -/
def FileLogAppender.after (place : Place ι) (es : List (FileEvent ι)) : FileLogAppender ι × Place ι :=
  es.foldl handle (.new place, place)

/-! ## Which file it is -/

/-- What the name gives, if need be after the directories have been made. -/
def Place.given (p : Place ι) : Option ι := p.first.or p.second

/-- What is to be known of some events: `file` is what the name gave at `lastTime`. -/
structure Opened (ι : Type) where
  level : LogLevel
  lastTime : UInt64
  file : Option ι
  place : Place ι

namespace Opened

/-- A call at least three seconds later looks the name up again. -/
def lookUp (s : Opened ι) (call : LogCall) : Opened ι :=
  if s.lastTime + 3 ≤ call.time.toUInt64 then { s with lastTime := call.time.toUInt64, file := s.place.given } else s

def next (s : Opened ι) : FileEvent ι → Opened ι
  | .log call => if s.level.value ≤ call.level.value then s.lookUp call else s
  | .setLevel val => { s with level := val }
  | .move place => { s with place := place }

def after (place : Place ι) (es : List (FileEvent ι)) : Opened ι := es.foldl next ⟨.DEBUG, 0, place.given, place⟩

/-- The file that a call is for. -/
def target (s : Opened ι) (call : LogCall) : Option ι :=
  if s.level.value ≤ call.level.value then (s.lookUp call).file else none

end Opened

/-- No write has failed. -/
def Unbroken (place : Place ι) : List (FileEvent ι) → Prop :=
  Lib.AtEach fun before e => ∀ call, e = .log call → ((Opened.after place before).target call).isSome → call.written = true

/-- How an appender and its name stand after some events: `unbroken` tells whether all writes have been done. -/
structure FileLogAppender.Follows (a : FileLogAppender ι × Place ι) (s : Opened ι) (unbroken : Prop) : Prop where
  level : a.1.m_level = s.level
  lastTime : a.1.m_lastTime = s.lastTime
  place : a.2 = s.place
  stream : unbroken → a.1.m_filestream = ⟨s.file, s.file.isNone⟩
  stuck : ¬ unbroken → a.1.m_filestream.file.isSome = true ∧ a.1.m_filestream.fail = true

namespace FileLogAppender
variable {a : FileLogAppender ι} {place : Place ι} {file : Option ι}

/-- A stream that is not stuck is opened anew. -/
theorem reopen_stream (h : a.m_filestream = ⟨file, file.isNone⟩) :
    (a.reopen place).1.m_filestream = ⟨place.given, place.given.isNone⟩ := by
  obtain ⟨first, second⟩ := place
  have hclosed : (if a.m_filestream.fail then a.m_filestream else a.m_filestream.close) = ⟨none, file.isNone⟩ := by
    rw [h]
    cases file <;> rfl
  rw [reopen, hclosed]
  cases first <;> cases second <;> rfl

/-- A stream that is open and has failed stays so. -/
theorem reopen_stuck (h : a.m_filestream.file.isSome = true ∧ a.m_filestream.fail = true) :
    (a.reopen place).1.m_filestream = a.m_filestream ∧ (a.reopen place).2 = true := by
  obtain ⟨level, lastTime, stream, fail⟩ := a
  obtain ⟨file, rfl⟩ := Option.isSome_iff_exists.mp h.1
  obtain rfl := h.2
  exact ⟨rfl, rfl⟩

/-- `put` on a stream that is not stuck. -/
theorem put_stream (file : Option ι) (written : Bool) :
    ((⟨file, file.isNone⟩ : OFStream ι).put written).2 = (if written then file else none) ∧
      ((file.isSome → written = true) →
        ((⟨file, file.isNone⟩ : OFStream ι).put written).1 = ⟨file, file.isNone⟩) ∧
      (¬ (file.isSome → written = true) →
        ((⟨file, file.isNone⟩ : OFStream ι).put written).1 = ⟨file, true⟩ ∧ file.isSome = true) := by
  cases file with
  | none => cases written <;> simp [OFStream.put]
  | some file => cases written <;> simp [OFStream.put]

theorem put_stuck {stream : OFStream ι} (h : stream.fail = true) (written : Bool) : stream.put written = (stream, none) := by
  rw [OFStream.put, if_pos h]

section
variable {s : Opened ι} {p : Prop} {call : LogCall}

/-- The appender when a call writes. -/
theorem follows_ready (h : Follows (a, place) s p) (call : LogCall) :
    Follows (a.ready place call.time.toUInt64, place) (s.lookUp call) p := by
  obtain ⟨hlevel, htime, hplace, hstream, hstuck⟩ := h
  dsimp only at hlevel htime hplace hstream hstuck
  rw [ready, Opened.lookUp, ← htime]
  split
  · refine ⟨hlevel, rfl, hplace, fun hp => ?_, fun hp => ?_⟩
    · exact hplace ▸ reopen_stream (hstream hp)
    · have hsame := (@reopen_stuck ι a place (hstuck hp)).1
      exact hsame.symm ▸ hstuck hp
  · exact ⟨hlevel, htime, hplace, hstream, hstuck⟩

/-- A call writes to its file if no write has failed, and keeps account of that. -/
theorem follows_log (h : Follows (a, place) s p) (call : LogCall) :
    Follows ((a.log place call).1, place) (s.next (.log call)) (p ∧ ((s.target call).isSome → call.written = true)) ∧
      ((p → (a.log place call).2 = if call.written then s.target call else none) ∧
        (¬ p → (a.log place call).2 = none)) := by
  rw [log, Opened.next, Opened.target, h.level]
  split
  · next hlevel =>
    have hnext := follows_ready h call
    generalize a.ready place call.time.toUInt64 = b at hnext ⊢
    generalize s.lookUp call = t at hnext ⊢
    obtain ⟨hlevel, htime, hplace, hstream, hstuck⟩ := hnext
    dsimp only at hlevel htime hplace hstream hstuck ⊢
    obtain ⟨hfile, hkept, hbroken⟩ := put_stream t.file call.written
    by_cases hp : p
    · rw [hstream hp]
      refine ⟨⟨hlevel, htime, hplace, fun hw => hkept hw.2, fun hw => ?_⟩, fun _ => hfile, fun hnot => absurd hp hnot⟩
      obtain ⟨hput, hsome⟩ := hbroken fun hwritten => hw ⟨hp, hwritten⟩
      rw [hput]
      exact ⟨hsome, rfl⟩
    · rw [put_stuck (hstuck hp).2]
      exact ⟨⟨hlevel, htime, hplace, fun hw => absurd hw.1 hp, fun _ => hstuck hp⟩, fun hp' => absurd hp' hp, fun _ => rfl⟩
  · refine ⟨⟨h.level, h.lastTime, h.place, fun hw => h.stream hw.1, fun hw => h.stuck fun hp => hw ⟨hp, fun hnone => ?_⟩⟩, ?_⟩
    · cases hnone
    · exact ⟨fun _ => (ite_self none).symm, fun _ => rfl⟩

end

/-- An appender in any run. -/
theorem follows_after (place : Place ι) (es : List (FileEvent ι)) :
    Follows (after place es) (.after place es) (Unbroken place es) := by
  induction es using List.reverseRecOn with
  | nil =>
    have hnew : (new place).m_filestream = ⟨place.given, place.given.isNone⟩ := by
      obtain ⟨first, second⟩ := place
      cases first <;> cases second <;> rfl
    exact ⟨rfl, rfl, rfl, fun _ => hnew, fun hnot => absurd (Lib.atEach_nil _) hnot⟩
  | append_singleton es e ih =>
    have hiff : Unbroken place (es ++ [e]) ↔ Unbroken place es ∧
        ∀ call, e = .log call → ((Opened.after place es).target call).isSome → call.written = true := Lib.atEach_append
    rw [after, Opened.after, List.foldl_append, List.foldl_append]
    change Follows (handle (after place es) e) ((Opened.after place es).next e) (Unbroken place (es ++ [e]))
    obtain ⟨hlevel, htime, hplace, hstream, hstuck⟩ := ih
    cases e with
    | log call =>
      have hsame : Unbroken place (es ++ [.log call]) =
          (Unbroken place es ∧ (((Opened.after place es).target call).isSome → call.written = true)) :=
        propext (hiff.trans (and_congr Iff.rfl ⟨fun h => h call rfl, fun h c hc => by cases hc; exact h⟩))
      rw [hsame]
      exact (follows_log ⟨hlevel, htime, hplace, hstream, hstuck⟩ call).1
    | setLevel val =>
      have hsame : Unbroken place (es ++ [.setLevel val]) = Unbroken place es :=
        propext (hiff.trans (and_iff_left fun c hc => by cases hc))
      rw [hsame]
      exact ⟨rfl, htime, hplace, hstream, hstuck⟩
    | move p =>
      have hsame : Unbroken place (es ++ [.move p]) = Unbroken place es :=
        propext (hiff.trans (and_iff_left fun c hc => by cases hc))
      rw [hsame]
      exact ⟨hlevel, htime, rfl, hstream, hstuck⟩

/-- After any calls, and whatever others do with the name, a line goes to the file that the name gave when it was last
looked up, less than three seconds before by the clock of the calls; but once a write has failed no line goes anywhere
any more. -/
theorem log_destination (place : Place ι) (es : List (FileEvent ι)) (call : LogCall) (file : ι) :
    ((after place es).1.log (after place es).2 call).2 = some file ↔
      (Opened.after place es).target call = some file ∧ call.written = true ∧ Unbroken place es := by
  have hafter : Follows ((after place es).1, (after place es).2) (.after place es) (Unbroken place es) := follows_after place es
  have hlog := (follows_log hafter call).2
  by_cases hp : Unbroken place es
  · rw [hlog.1 hp, and_iff_left hp]
    cases call.written with
    | true => exact (and_iff_left rfl).symm
    | false => exact iff_of_false (fun h => by cases h) fun h => by cases h.2
  · rw [hlog.2 hp]
    exact iff_of_false (fun h => by cases h) fun h => hp h.2.2

end FileLogAppender
end
end Flz
