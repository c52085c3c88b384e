import Flz.Http.Message
import Flz.Lib.CString
import Flz.Lib.History

/-! # Dispatching to servlets

`ServletDispatch` of `http/servlet.cc`: servlets under paths and under patterns. `fnmatch` is a parameter;
the calls of one dispatch come one after another, under its lock.
-/
namespace Flz.Http
open Lib

/-- A servlet: one of the caller's, a `FunctionServlet` with a callback, one that a creator of the caller's
makes when it is asked, or the one that answers 404. -/
inductive Servlet (σ β κ : Type)
  | given (slt : σ)
  | FunctionServlet (cb : β)
  | created (creator : κ)
  | NotFoundServlet (name : List UInt8)
  deriving DecidableEq, Repr

/-- `IServletCreator`: a `HoldServletCreator`, or one of the caller's. -/
inductive IServletCreator (σ β κ : Type)
  | HoldServletCreator (m_servlet : Servlet σ β κ)
  | other (creator : κ)
  deriving DecidableEq, Repr

def IServletCreator.get {σ β κ : Type} : IServletCreator σ β κ → Servlet σ β κ
  | .HoldServletCreator m_servlet => m_servlet
  | .other creator => .created creator

structure ServletDispatch (σ β κ : Type) where
  m_datas : List UInt8 → Option (IServletCreator σ β κ)
  m_globs : List (List UInt8 × IServletCreator σ β κ)
  m_default : Servlet σ β κ

namespace ServletDispatch
variable {σ β κ : Type}

/-- `ServletDispatch()`. -/
def new : ServletDispatch σ β κ where
  m_datas := fun _ => none
  m_globs := []
  m_default := .NotFoundServlet (ascii "flz/1.0")

def addServlet (d : ServletDispatch σ β κ) (uri : List UInt8) (slt : Servlet σ β κ) : ServletDispatch σ β κ :=
  { d with m_datas := Function.update d.m_datas uri (some (.HoldServletCreator slt)) }

/-- The overload for a callback. -/
def addServletCallback (d : ServletDispatch σ β κ) (uri : List UInt8) (cb : β) : ServletDispatch σ β κ :=
  { d with m_datas := Function.update d.m_datas uri (some (.HoldServletCreator (.FunctionServlet cb))) }

def addServletCreator (d : ServletDispatch σ β κ) (uri : List UInt8) (creator : IServletCreator σ β κ) :
    ServletDispatch σ β κ :=
  { d with m_datas := Function.update d.m_datas uri (some creator) }

def delServlet (d : ServletDispatch σ β κ) (uri : List UInt8) : ServletDispatch σ β κ :=
  { d with m_datas := Function.update d.m_datas uri none }

/-- The loop that erases the first entry with a pattern. -/
def eraseGlob (uri : List UInt8) (globs : List (List UInt8 × IServletCreator σ β κ)) :
    List (List UInt8 × IServletCreator σ β κ) :=
  globs.eraseP fun e => e.1 = uri

def addGlobServletCreator (d : ServletDispatch σ β κ) (uri : List UInt8) (creator : IServletCreator σ β κ) :
    ServletDispatch σ β κ :=
  { d with m_globs := eraseGlob uri d.m_globs ++ [(uri, creator)] }

def addGlobServlet (d : ServletDispatch σ β κ) (uri : List UInt8) (slt : Servlet σ β κ) : ServletDispatch σ β κ :=
  { d with m_globs := eraseGlob uri d.m_globs ++ [(uri, .HoldServletCreator slt)] }

/-- The overload for a callback. -/
def addGlobServletCallback (d : ServletDispatch σ β κ) (uri : List UInt8) (cb : β) : ServletDispatch σ β κ :=
  d.addGlobServlet uri (.FunctionServlet cb)

def delGlobServlet (d : ServletDispatch σ β κ) (uri : List UInt8) : ServletDispatch σ β κ :=
  { d with m_globs := eraseGlob uri d.m_globs }

def getMatchedServlet (fnmatch : List UInt8 → List UInt8 → ℤ) (d : ServletDispatch σ β κ) (uri : List UInt8) :
    Servlet σ β κ :=
  match d.m_datas uri with
  | some creator => creator.get
  | none =>
    match d.m_globs.find? fun e => fnmatch (c_str e.1) (c_str uri) == 0 with
    | some e => e.2.get
    | none => d.m_default

/-! ## Any sequence of calls -/

inductive Call (σ β κ : Type)
  | addServlet (uri : List UInt8) (slt : Servlet σ β κ)
  | addServletCallback (uri : List UInt8) (cb : β)
  | addServletCreator (uri : List UInt8) (creator : IServletCreator σ β κ)
  | addGlobServlet (uri : List UInt8) (slt : Servlet σ β κ)
  | addGlobServletCallback (uri : List UInt8) (cb : β)
  | addGlobServletCreator (uri : List UInt8) (creator : IServletCreator σ β κ)
  | delServlet (uri : List UInt8)
  | delGlobServlet (uri : List UInt8)
  deriving DecidableEq, Repr

namespace Call

def run (d : ServletDispatch σ β κ) : Call σ β κ → ServletDispatch σ β κ
  | addServlet uri slt => d.addServlet uri slt
  | addServletCallback uri cb => d.addServletCallback uri cb
  | addServletCreator uri creator => d.addServletCreator uri creator
  | addGlobServlet uri slt => d.addGlobServlet uri slt
  | addGlobServletCallback uri cb => d.addGlobServletCallback uri cb
  | addGlobServletCreator uri creator => d.addGlobServletCreator uri creator
  | delServlet uri => d.delServlet uri
  | delGlobServlet uri => d.delGlobServlet uri

/-- What a call says of a path. -/
def exact : Call σ β κ → Option (List UInt8 × Option (IServletCreator σ β κ))
  | addServlet uri slt => some (uri, some (.HoldServletCreator slt))
  | addServletCallback uri cb => some (uri, some (.HoldServletCreator (.FunctionServlet cb)))
  | addServletCreator uri creator => some (uri, some creator)
  | delServlet uri => some (uri, none)
  | _ => none

/-- What a call says of a pattern. -/
def glob : Call σ β κ → Option (List UInt8 × Option (IServletCreator σ β κ))
  | addGlobServlet uri slt => some (uri, some (.HoldServletCreator slt))
  | addGlobServletCallback uri cb => some (uri, some (.HoldServletCreator (.FunctionServlet cb)))
  | addGlobServletCreator uri creator => some (uri, some creator)
  | delGlobServlet uri => some (uri, none)
  | _ => none

end Call

def runAll (calls : List (Call σ β κ)) : ServletDispatch σ β κ := calls.foldl Call.run new

/-- The servlet for a path by what was called: the one that was added last for the path and not deleted, or
the one of the first pattern that matches, in the order in which they were added last, or the default. -/
def dispatched (fnmatch : List UInt8 → List UInt8 → ℤ) (calls : List (Call σ β κ)) (uri : List UInt8) :
    Servlet σ β κ :=
  match History.last Call.exact uri calls with
  | some creator => creator.get
  | none =>
    match (History.entries Call.glob calls).find? fun e => fnmatch (c_str e.1) (c_str uri) == 0 with
    | some e => e.2.get
    | none => .NotFoundServlet (ascii "flz/1.0")

section
variable {d : ServletDispatch σ β κ} {c : Call σ β κ} {uri : List UInt8}
  {creator : Option (IServletCreator σ β κ)}

theorem run_default (d : ServletDispatch σ β κ) (c : Call σ β κ) : (c.run d).m_default = d.m_default := by
  cases c <;> rfl

theorem run_datas_none (h : c.exact = none) : (c.run d).m_datas = d.m_datas := by
  cases c <;> first | rfl | cases h

theorem run_datas_some (h : c.exact = some (uri, creator)) :
    (c.run d).m_datas = Function.update d.m_datas uri creator := by
  cases c <;> cases h <;> rfl

theorem run_globs_none (h : c.glob = none) : (c.run d).m_globs = d.m_globs := by
  cases c <;> first | rfl | cases h

theorem run_globs_some (h : c.glob = some (uri, creator)) :
    (c.run d).m_globs = History.moveToEnd uri creator d.m_globs := by
  cases c <;> cases h <;> simp [Call.run, addGlobServlet, addGlobServletCallback, addGlobServletCreator,
    delGlobServlet, eraseGlob, History.moveToEnd]

end

/-- The dispatch behind some calls holds what they say. -/
structure Holds (calls : List (Call σ β κ)) (d : ServletDispatch σ β κ) : Prop where
  datas : d.m_datas = fun uri => History.last Call.exact uri calls
  globs : d.m_globs = History.entries Call.glob calls
  default : d.m_default = .NotFoundServlet (ascii "flz/1.0")

theorem Holds.run {calls : List (Call σ β κ)} {d : ServletDispatch σ β κ} (h : Holds calls d) (c : Call σ β κ) :
    Holds (calls ++ [c]) (c.run d) := by
  refine ⟨?_, ?_, (run_default d c).trans h.default⟩
  · cases heffect : c.exact with
    | none =>
      rw [run_datas_none heffect, h.datas]
      funext uri
      exact (History.last_append_none heffect uri calls).symm
    | some e =>
      rw [run_datas_some heffect, h.datas, History.last_append_some heffect]
  · cases heffect : c.glob with
    | none => rw [run_globs_none heffect, h.globs, History.entries_append_none heffect]
    | some e => rw [run_globs_some heffect, h.globs, History.entries_append heffect]

theorem holds_runAll (calls : List (Call σ β κ)) : Holds calls (runAll calls) := by
  induction calls using List.reverseRecOn with
  | nil => exact ⟨rfl, rfl, rfl⟩
  | append_singleton calls c ih =>
    rw [runAll, List.foldl_append]
    exact ih.run c

/-- Behind any calls the servlet for a path is the one that the calls say. A pattern occurs once, and one
that is added again moves to the end. -/
theorem getMatchedServlet_eq (fnmatch : List UInt8 → List UInt8 → ℤ) (calls : List (Call σ β κ)) :
    (∀ uri, getMatchedServlet fnmatch (runAll calls) uri = dispatched fnmatch calls uri) ∧
    ((runAll calls).m_globs.map Prod.fst).Nodup ∧
    ∀ c uri creator, Call.glob c = some (uri, some creator) →
      (runAll (calls ++ [c])).m_globs = (runAll calls).m_globs.filter (fun e => e.1 ≠ uri) ++ [(uri, creator)] := by
  have h := holds_runAll calls
  refine ⟨fun uri => ?_, ?_, fun c uri creator hc => ?_⟩
  · rw [getMatchedServlet, dispatched, h.datas, h.globs, h.default]
  · rw [h.globs]
    exact History.entries_nodup Call.glob calls
  · rw [h.globs, (holds_runAll (calls ++ [c])).globs, History.entries_append_some hc]
    rfl

/-- A pattern that is added again comes behind one that was added meanwhile. -/
example : (getMatchedServlet (fun _ _ => 0) (runAll [.addGlobServlet (ascii "/a*") (.given 1),
    .addGlobServlet (ascii "/*") (.given 2), .addGlobServlet (ascii "/a*") (.given 3),
    .addServlet (ascii "/b") (.given 4), .delServlet (ascii "/b")] : ServletDispatch ℕ ℕ ℕ) (ascii "/b")) =
      .given 2 := by decide

end ServletDispatch
end Flz.Http
