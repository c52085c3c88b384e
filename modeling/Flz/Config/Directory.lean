import Flz.Config.Load
import Flz.Env.Arguments
import Flz.FSUtil.Files

/-! # Loading a directory again and again

`Config::LoadFromConfDir` of `src/config.cc` with `s_file2modifytime` from one call to the next, while the files change.
-/
namespace Flz.Config
open Lib Http FSUtil
variable {τ : Type} {T : τ → Type}

/-- What a call finds: the file at the path, the system calls that fail, the `st_mtime` that `lstat` leaves in `st`, and
what `YAML::LoadFile` makes of a file, if it does not throw. -/
structure Disk where
  file : Option File
  refused : Refused
  st_mtime : List UInt8 → UInt64
  loadFile : List UInt8 → Option (Yaml (List UInt8))

/-- The files of a call. -/
def confFiles (e : Env) (path : List UInt8) (disk : Disk) : List (List UInt8) :=
  match disk.file with
  | none => []
  | some file => ListAllFile disk.refused (ascii ".yml") (e.getAbsolutePath path) file

/-- The loop over the files: those that are loaded, and `s_file2modifytime`, which is 0 where nothing was set. -/
def confLoop (force : Bool) (st_mtime : List UInt8 → UInt64) (s_file2modifytime : List UInt8 → UInt64) :
    List (List UInt8) → List (List UInt8) × (List UInt8 → UInt64)
  | [] => ([], s_file2modifytime)
  | i :: files =>
    if force = false ∧ s_file2modifytime i = st_mtime i then confLoop force st_mtime s_file2modifytime files
    else
      let (loaded, times) := confLoop force st_mtime (Function.update s_file2modifytime i (st_mtime i)) files
      (i :: loaded, times)

/-- `LoadFromConfDir(path, force)`: the files that are loaded, each with the calls of `fromString` unless it cannot be
read, and `s_file2modifytime` after it. -/
def LoadFromConfDir (g : Config T) (print : Yaml (List UInt8) → List UInt8) (e : Env) (path : List UInt8) (force : Bool)
    (disk : Disk) (s_file2modifytime : List UInt8 → UInt64) :
    List (List UInt8 × Option (List (List UInt8 × List UInt8))) × (List UInt8 → UInt64) :=
  let (loaded, times) := confLoop force disk.st_mtime s_file2modifytime (confFiles e path disk)
  (loaded.map fun i => (i, (disk.loadFile i).map (g.LoadFromYaml print)), times)

/-- A call, with the variables that are registered by then. -/
structure Load (T : τ → Type) where
  vars : Config T
  env : Env
  path : List UInt8
  force : Bool
  disk : Disk

/-- The files that a call finds. -/
def Load.files (c : Load T) : List (List UInt8) := confFiles c.env c.path c.disk

def Load.run (print : Yaml (List UInt8) → List UInt8) (c : Load T) (times : List UInt8 → UInt64) :
    List (List UInt8 × Option (List (List UInt8 × List UInt8))) × (List UInt8 → UInt64) :=
  LoadFromConfDir c.vars print c.env c.path c.force c.disk times

/-- `s_file2modifytime` after the calls. -/
def timesAfter (print : Yaml (List UInt8) → List UInt8) (cs : List (Load T)) : List UInt8 → UInt64 :=
  cs.foldl (fun times c => (c.run print times).2) fun _ => 0

/-! ## Which files are loaded -/

/-- The time that a file had in the last of the calls that found it, and 0 if none did. -/
def lastTime (cs : List (Load T)) (i : List UInt8) : UInt64 :=
  ((cs.reverse.find? fun c => i ∈ c.files).map fun c => c.disk.st_mtime i).getD 0

section
variable {force : Bool} {st_mtime times : List UInt8 → UInt64} {files : List (List UInt8)}

theorem confLoop_snd (force : Bool) (st_mtime times : List UInt8 → UInt64) (files : List (List UInt8)) (i : List UInt8) :
    (confLoop force st_mtime times files).2 i = if i ∈ files then st_mtime i else times i := by
  induction files generalizing times with
  | nil => rfl
  | cons j files ih =>
    rw [confLoop]
    by_cases hsame : force = false ∧ times j = st_mtime j
    · rw [if_pos hsame, ih]
      by_cases hij : i = j
      · subst hij
        rw [hsame.2, ite_self, if_pos List.mem_cons_self]
      · exact if_congr (by rw [List.mem_cons, or_iff_right hij]) rfl rfl
    · rw [if_neg hsame]
      refine (ih _).trans ?_
      by_cases hij : i = j
      · subst hij
        rw [Function.update_self, ite_self, if_pos List.mem_cons_self]
      · rw [Function.update_of_ne hij]
        exact if_congr (by rw [List.mem_cons, or_iff_right hij]) rfl rfl

/-- In one call no file is met twice, so that the times from before it decide. -/
theorem confLoop_fst (hnodup : files.Nodup) :
    (confLoop force st_mtime times files).1 = files.filter fun i => force || times i ≠ st_mtime i := by
  induction files generalizing times with
  | nil => rfl
  | cons j files ih =>
    obtain ⟨hj, hfiles⟩ := List.nodup_cons.mp hnodup
    rw [confLoop]
    by_cases hsame : force = false ∧ times j = st_mtime j
    · rw [if_pos hsame, ih hfiles, List.filter_cons, if_neg (by simp [hsame.1, hsame.2])]
    · have hkept : (force || decide (times j ≠ st_mtime j)) = true := by
        cases force with
        | false => simpa using hsame
        | true => rfl
      rw [if_neg hsame, List.filter_cons, if_pos hkept]
      refine congrArg (j :: ·) ((ih hfiles).trans (List.filter_congr fun i hi => ?_))
      rw [Function.update_of_ne (ne_of_mem_of_not_mem hi hj)]

end

section
variable {print : Yaml (List UInt8) → List UInt8} {cs : List (Load T)} {c : Load T}

theorem timesAfter_eq (print : Yaml (List UInt8) → List UInt8) (cs : List (Load T)) :
    timesAfter print cs = lastTime cs := by
  induction cs using List.reverseRecOn with
  | nil => rfl
  | append_singleton cs c ih =>
    funext i
    have hstep : timesAfter print (cs ++ [c]) i = if i ∈ c.files then c.disk.st_mtime i else timesAfter print cs i := by
      rw [timesAfter, List.foldl_append]
      exact confLoop_snd c.force c.disk.st_mtime _ c.files i
    rw [hstep, ih, lastTime, lastTime, List.reverse_append, List.reverse_singleton, List.singleton_append, List.find?_cons]
    by_cases hi : i ∈ c.files
    · rw [if_pos hi, decide_eq_true hi]
      rfl
    · rw [if_neg hi, decide_eq_false hi]

theorem files_nodup (h : ∀ file, c.disk.file = some file → WellNamed file) : c.files.Nodup := by
  rw [Load.files, confFiles]
  cases hfile : c.disk.file with
  | none => exact List.nodup_nil
  | some file => exact ListAllFile_nodup (h file hfile)

/-- After any calls before it, a call loads those of its files, each once and in order, whose time is not the one of the
last call that found them, and all of them if it is forced to; a file that cannot be read keeps no other from being
loaded. -/
theorem LoadFromConfDir_run (print : Yaml (List UInt8) → List UInt8) (cs : List (Load T)) (c : Load T)
    (h : ∀ file, c.disk.file = some file → WellNamed file) :
    (c.run print (timesAfter print cs)).1 =
      (c.files.filter fun i => c.force || lastTime cs i ≠ c.disk.st_mtime i).map fun i =>
        (i, (c.disk.loadFile i).map (c.vars.LoadFromYaml print)) := by
  rw [timesAfter_eq]
  exact congrArg (List.map _) (confLoop_fst (files_nodup h))

/-- A call on a directory of two files with the ending. -/
def sampleLoad (force : Bool) : Load fun _ : Unit => ℕ where
  vars := timeoutVariable
  env := ⟨fun _ => none, [], [], ascii "/flz/bin/flz", ascii "/flz/bin/"⟩
  path := ascii "conf"
  force := force
  disk := ⟨some sampleTree, .none, fun _ => 7, fun _ => some (document "tcp" "timeout")⟩

/-- The second call finds nothing new. -/
theorem LoadFromConfDir_run_again :
    ((sampleLoad false).run (fun _ => []) (timesAfter (fun _ => []) [sampleLoad false])).1 = [] := by
  refine (LoadFromConfDir_run (fun _ => []) [sampleLoad false] (sampleLoad false) ?_).trans ?_
  · intro file hfile
    rw [← Option.some.inj hfile]
    exact wellNamed_sampleTree
  · rw [List.filter_eq_nil_iff.mpr, List.map_nil]
    intro i hi
    have hfound : [sampleLoad false].reverse.find? (fun c => i ∈ c.files) = some (sampleLoad false) := by
      rw [List.reverse_singleton, List.find?_cons, decide_eq_true hi]
    rw [lastTime, hfound]
    simp [sampleLoad]

end

end Flz.Config
