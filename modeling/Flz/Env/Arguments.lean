import Flz.Http.Message
import Flz.Lib.History

/-! # The command line

`Env` of `src/env.cc`: the options of a command line, and the help texts.
-/
namespace Flz
open Lib Http

/-- `m_args` is a map; the arguments are without their `NUL`. -/
structure Env where
  m_args : List UInt8 → Option (List UInt8)
  m_helps : List (List UInt8 × List UInt8)
  m_program : List UInt8
  m_exe : List UInt8
  m_cwd : List UInt8

namespace Env

def add (m_args : List UInt8 → Option (List UInt8)) (key val : List UInt8) : List UInt8 → Option (List UInt8) :=
  Function.update m_args key (some val)

def has (e : Env) (key : List UInt8) : Bool := (e.m_args key).isSome

def del (e : Env) (key : List UInt8) : Env := { e with m_args := Function.update e.m_args key none }

def get (e : Env) (key default_value : List UInt8) : List UInt8 := (e.m_args key).getD default_value

/-- `m_exe.substr(0, m_exe.find_last_of("/"))`. -/
def directory (m_exe : List UInt8) : List UInt8 :=
  if 47 ∈ m_exe then (m_exe.reverse.dropWhile (· ≠ 47)).tail.reverse else m_exe

/-- The loop over the arguments, with what it leaves in `m_args`. -/
def initLoop (now_key : Option (List UInt8)) (m_args : List UInt8 → Option (List UInt8)) :
    List (List UInt8) → Bool × (List UInt8 → Option (List UInt8))
  | [] =>
    (true, match now_key with
      | some key => add m_args key []
      | none => m_args)
  | arg :: args =>
    if arg.head? = some 45 then
      if 1 < arg.length then
        initLoop (some arg.tail) (match now_key with
          | some key => add m_args key []
          | none => m_args) args
      else (false, m_args)
    else
      match now_key with
      | some key => initLoop none (add m_args key arg) args
      | none => (false, m_args)

/-- `init`, with what `/proc/<pid>/exe` points at and the arguments behind `argv[0]`. -/
def init (e : Env) (exe program : List UInt8) (args : List (List UInt8)) : Bool × Env :=
  let (ok, m_args) := initLoop none e.m_args args
  (ok, { e with m_exe := exe, m_cwd := directory exe ++ ascii "/", m_program := program, m_args := m_args })

def removeHelp (e : Env) (key : List UInt8) : Env := { e with m_helps := e.m_helps.filter (·.1 ≠ key) }

def addHelp (e : Env) (key desc : List UInt8) : Env :=
  let e := e.removeHelp key
  { e with m_helps := e.m_helps ++ [(key, desc)] }

def getAbsolutePath (e : Env) (path : List UInt8) : List UInt8 :=
  if path = [] then ascii "/"
  else if path.head? = some 47 then path
  else e.m_cwd ++ path

def getConfigPath (e : Env) : List UInt8 := e.getAbsolutePath (e.get (ascii "c") (ascii "conf"))

/-! ## Command lines -/

/-- An option: its key, and a value, which does not begin with a `-`. -/
structure Setting where
  key : List UInt8
  val : Option (List UInt8)
  key_ne : key ≠ []
  val_ok : ∀ v, val = some v → v.head? ≠ some 45

/-- Its arguments. -/
def Setting.words (s : Setting) : List (List UInt8) := (45 :: s.key) :: s.val.toList

/-- The value of the last option with the key. -/
def value (ss : List Setting) (key : List UInt8) : Option (List UInt8) :=
  (ss.reverse.find? (·.key = key)).map (·.val.getD [])

/-- The arguments after the options in order. -/
def stored (m_args : List UInt8 → Option (List UInt8)) (ss : List Setting) : List UInt8 → Option (List UInt8) :=
  ss.foldl (fun m s => add m s.key (s.val.getD [])) m_args

section
variable {m_args : List UInt8 → Option (List UInt8)} {key : List UInt8} {args : List (List UInt8)}

theorem stored_apply (m_args : List UInt8 → Option (List UInt8)) (ss : List Setting) (key : List UInt8) :
    stored m_args ss key = (value ss key).or (m_args key) := by
  induction ss using List.reverseRecOn with
  | nil => rfl
  | append_singleton ss s ih =>
    rw [stored, List.foldl_append, List.foldl_cons, List.foldl_nil, add, value, List.reverse_append]
    by_cases hkey : s.key = key
    · simp [hkey]
    · rw [Function.update_of_ne (Ne.symm hkey)]
      refine ih.trans ?_
      simp [value, hkey]

/-- An option behind another one stores the latter. -/
theorem initLoop_option {name : List UInt8} (hname : name ≠ []) (now_key : Option (List UInt8)) :
    initLoop now_key m_args ((45 :: name) :: args) =
      initLoop (some name) (match now_key with
        | some key => add m_args key []
        | none => m_args) args := by
  have hlength : 1 < (45 :: name : List UInt8).length := Nat.succ_lt_succ (List.length_pos_iff.mpr hname)
  rw [initLoop.eq_def]
  dsimp only
  rw [if_pos List.head?_cons, if_pos hlength, List.tail_cons]

/-- Options are taken as they are meant. -/
theorem initLoop_words (m_args : List UInt8 → Option (List UInt8)) (ss : List Setting) :
    initLoop none m_args (ss.flatMap Setting.words) = (true, stored m_args ss) ∧
      ∀ key, initLoop (some key) m_args (ss.flatMap Setting.words) = (true, stored (add m_args key []) ss) := by
  induction ss generalizing m_args with
  | nil => exact ⟨rfl, fun key => rfl⟩
  | cons s ss ih =>
    have hfirst : ∀ m_args, initLoop (some s.key) m_args (s.val.toList ++ ss.flatMap Setting.words) =
        (true, stored (add m_args s.key (s.val.getD [])) ss) := by
      intro m_args
      cases hval : s.val with
      | none => exact (ih m_args).2 s.key
      | some v =>
        rw [Option.toList_some, List.singleton_append, initLoop, if_neg (s.val_ok v hval)]
        exact (ih (add m_args s.key v)).1
    constructor
    · rw [List.flatMap_cons, Setting.words, List.cons_append, initLoop_option s.key_ne]
      exact hfirst m_args
    · intro key
      rw [List.flatMap_cons, Setting.words, List.cons_append, initLoop_option s.key_ne]
      exact hfirst (add m_args key [])

/-- What is taken consists of options; a key that is at hand has been one argument. -/
theorem words_of_initLoop {now_key : Option (List UInt8)} (hkey : ∀ key, now_key = some key → key ≠ [])
    (h : (initLoop now_key m_args args).1 = true) :
    ∃ ss : List Setting, (now_key.map (45 :: ·)).toList ++ args = ss.flatMap Setting.words := by
  induction args generalizing now_key m_args with
  | nil =>
    cases now_key with
    | none => exact ⟨[], rfl⟩
    | some key => exact ⟨[⟨key, none, hkey key rfl, fun v hv => by cases hv⟩], rfl⟩
  | cons arg args ih =>
    rw [initLoop.eq_def] at h
    dsimp only at h
    by_cases hdash : arg.head? = some 45
    · obtain ⟨name, rfl⟩ : ∃ name, arg = 45 :: name := List.head?_eq_some_iff.mp hdash
      rw [if_pos hdash] at h
      by_cases hlength : 1 < (45 :: name : List UInt8).length
      · rw [if_pos hlength] at h
        have hname : name ≠ [] := List.length_pos_iff.mp (Nat.lt_of_succ_lt_succ hlength)
        obtain ⟨ss, hss⟩ := @ih _ (some name) (fun key hkey => Option.some.inj hkey ▸ hname) h
        cases now_key with
        | none => exact ⟨ss, hss⟩
        | some key =>
          refine ⟨⟨key, none, hkey key rfl, fun v hv => by cases hv⟩ :: ss, ?_⟩
          exact congrArg ((45 :: key) :: ·) hss
      · rw [if_neg hlength] at h
        cases h
    · rw [if_neg hdash] at h
      cases now_key with
      | none => cases h
      | some key =>
        obtain ⟨ss, hss⟩ := @ih _ none (fun key hkey => by cases hkey) h
        refine ⟨⟨key, some arg, hkey key rfl, fun v hv => Option.some.inj hv ▸ hdash⟩ :: ss, ?_⟩
        exact congrArg (fun l => (45 :: key) :: arg :: l) hss

/-- A command line is taken exactly if it consists of options, and the value of a key is then the one of the last option
with it, empty where that has none. -/
theorem init_options (e : Env) (exe program : List UInt8) (args : List (List UInt8)) :
    ((e.init exe program args).1 = true ↔ ∃ ss : List Setting, args = ss.flatMap Setting.words) ∧
      ∀ ss : List Setting, args = ss.flatMap Setting.words → ∀ key default_value,
        (e.init exe program args).2.get key default_value = (value ss key).getD (e.get key default_value) := by
  constructor
  · constructor
    · intro h
      exact @words_of_initLoop _ _ none (fun key hkey => by cases hkey) h
    · rintro ⟨ss, rfl⟩
      exact congrArg Prod.fst (initLoop_words e.m_args ss).1
  · rintro ss rfl key default_value
    have hargs : (e.init exe program (ss.flatMap Setting.words)).2.m_args = stored e.m_args ss :=
      congrArg Prod.snd (initLoop_words e.m_args ss).1
    rw [get, hargs, stored_apply]
    cases value ss key <;> rfl

end

/-! ## Help texts -/

/-- Calls of `addHelp`, with a text, and of `removeHelp`. -/
def help (e : Env) (op : List UInt8 × Option (List UInt8)) : Env :=
  match op.2 with
  | some desc => e.addHelp op.1 desc
  | none => e.removeHelp op.1

/-- The texts stand in the order in which they were set last, each key once. -/
theorem helps_eq (e : Env) (hnone : e.m_helps = []) (ops : List (List UInt8 × Option (List UInt8))) :
    (ops.foldl help e).m_helps = History.entries some ops := by
  induction ops using List.reverseRecOn with
  | nil => exact hnone
  | append_singleton ops op ih =>
    obtain ⟨key, val⟩ := op
    rw [List.foldl_append, List.foldl_cons, List.foldl_nil, History.entries_append_some rfl, ← ih]
    cases val with
    | none => exact (List.append_nil _).symm
    | some desc => rfl

end Env
end Flz
