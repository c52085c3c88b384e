import Flz.Lib.Index
import Flz.Lib.Runs

/-! # Modules

`ModuleManager` of `src/module.cc`. A section under the lock is one step. `add` has two of them,
that of `del` and its own, and `delAll` one for the names and one for each of them. `onUnload` runs
between the sections and is left out.
-/
namespace Flz
open Lib

/-- `number` tells objects with the same fields apart. -/
structure Module where
  number : ℕ
  name : String
  version : String
  type : UInt32
  deriving DecidableEq, Repr

/-- `getId`. -/
def Module.id (m : Module) : String := m.name ++ "/" ++ m.version

/-- Where a call is. -/
inductive ModuleCall
  | ended
  /-- In `add`, before `del`. -/
  | adding (m : Module)
  /-- In `add`, before its own section. -/
  | inserting (m : Module)
  | deleting (name : String)
  /-- In `delAll`, before its section. -/
  | copying
  /-- In the loop of `delAll`. -/
  | clearing (names : List String)
  deriving DecidableEq, Repr

structure ModuleManager where
  modules : Dict String Module
  type2Modules : Dict UInt32 (Dict String Module)
  calls : List ModuleCall

inductive ModuleAction
  | add (m : Module)
  | del (name : String)
  | delAll
  /-- The next section of a call. -/
  | proceed (i : ℕ)
  deriving DecidableEq, Repr

namespace ModuleManager

def new : ModuleManager := ⟨∅, ∅, []⟩

/-- The section of `del`. -/
def del (g : ModuleManager) (name : String) : ModuleManager :=
  match g.modules.lookup name with
  | none => g
  | some module =>
    { g with
      modules := g.modules.erase name
      type2Modules := Index.remove module.type module.id g.type2Modules }

/-- The section of `add`. -/
def insert (g : ModuleManager) (m : Module) : ModuleManager :=
  { g with
    modules := g.modules.insert m.id m
    type2Modules := Index.put m.type m.id m g.type2Modules }

def listByType (g : ModuleManager) (type : UInt32) : List Module := Index.values g.type2Modules type

def go (g : ModuleManager) (i : ℕ) (c : ModuleCall) : ModuleManager := { g with calls := g.calls.set i c }

/-- The next section of a call. -/
def advance (g : ModuleManager) (i : ℕ) : ModuleCall → ModuleManager
  | .ended => g
  | .adding m => (g.del m.id).go i (.inserting m)
  | .inserting m => (g.insert m).go i .ended
  | .deleting name => (g.del name).go i .ended
  | .copying => g.go i (.clearing g.modules.keys)
  | .clearing [] => g.go i .ended
  | .clearing (name :: names) => (g.del name).go i (.clearing names)

inductive Step : ModuleManager → ModuleAction → ModuleManager → Prop
  | add {g : ModuleManager} (m : Module) : Step g (.add m) { g with calls := g.calls ++ [.adding m] }
  | del {g : ModuleManager} (name : String) :
    Step g (.del name) { g with calls := g.calls ++ [.deleting name] }
  | delAll {g : ModuleManager} : Step g .delAll { g with calls := g.calls ++ [.copying] }
  | proceed {g : ModuleManager} {i : ℕ} {c : ModuleCall} (h : g.calls[i]? = some c) :
    Step g (.proceed i) (g.advance i c)

/-- A module that can be found. -/
def Live (g : ModuleManager) (m : Module) : Prop := g.modules.lookup m.id = some m

/-- The index by type has the modules that can be found, and each of them once. -/
structure Indexed (g : ModuleManager) : Prop where
  agree : ∀ type id m, Index.find g.type2Modules type id = some m ↔
    g.modules.lookup id = some m ∧ m.type = type
  list : ∀ type m, m ∈ g.listByType type ↔ g.Live m ∧ m.type = type
  once : ∀ type, (g.listByType type).Nodup

/-- A step that does not put a module in the place of one of another type. -/
def Spared (g : ModuleManager) : ModuleAction → Prop
  | .proceed i => ∀ m, g.calls[i]? = some (.inserting m) → ∀ w, g.modules.lookup m.id = some w → w.type = m.type
  | _ => True

/-- The invariant behind `Indexed`. -/
structure Kept (g : ModuleManager) : Prop where
  keyed : ∀ id m, g.modules.lookup id = some m → m.id = id
  agree : Index.Agrees Module.type g.modules g.type2Modules

variable {g g' : ModuleManager} {a : ModuleAction} {i : ℕ} {m : Module} {c : ModuleCall}

theorem Kept.indexed (h : g.Kept) : g.Indexed where
  agree := h.agree
  list type m := by
    rw [listByType, Index.mem_values]
    constructor
    · rintro ⟨id, hfind⟩
      obtain ⟨hlookup, htype⟩ := (h.agree type id m).mp hfind
      rw [← h.keyed id m hlookup] at hlookup
      exact ⟨hlookup, htype⟩
    · intro hm
      exact ⟨m.id, (h.agree type m.id m).mpr hm⟩
  once type := by
    have hkey : ∀ id m, Index.find g.type2Modules type id = some m → m.id = id := fun id m hfind =>
      h.keyed id m ((h.agree type id m).mp hfind).1
    exact Index.values_nodup hkey

theorem Kept.of_eq (h : g.Kept) (hmodules : g'.modules = g.modules)
    (htypes : g'.type2Modules = g.type2Modules) : g'.Kept :=
  ⟨by rw [hmodules]; exact h.keyed, by rw [hmodules, htypes]; exact h.agree⟩

theorem Kept.del (h : g.Kept) (name : String) : (g.del name).Kept := by
  rw [ModuleManager.del]
  split
  · exact h
  · rename_i module hmodule
    obtain rfl := h.keyed name module hmodule
    refine ⟨fun id m hm => ?_, h.agree.remove hmodule⟩
    by_cases hid : id = module.id
    · subst hid
      rw [AList.lookup_erase] at hm
      cases hm
    · rw [AList.lookup_erase_ne hid] at hm
      exact h.keyed id m hm

/-- The section of `add` keeps the invariant exactly when it does not replace a module of another
type. -/
theorem Kept.insert_iff (h : g.Kept) (m : Module) :
    (g.insert m).Kept ↔ ∀ w, g.modules.lookup m.id = some w → w.type = m.type := by
  rw [← h.agree.put_iff]
  refine ⟨fun hkept => hkept.agree, fun hagree => ⟨fun id w hw => ?_, hagree⟩⟩
  by_cases hid : id = m.id
  · subst hid
    rw [insert, AList.lookup_insert] at hw
    exact congrArg Module.id (Option.some.inj hw).symm
  · rw [insert, AList.lookup_insert_ne hid] at hw
    exact h.keyed id w hw

theorem Kept.advance (h : g.Kept) (hc : g.calls[i]? = some c) (hspared : g.Spared (.proceed i)) :
    (g.advance i c).Kept := by
  cases c with
  | ended => exact h
  | adding m => exact (h.del m.id).of_eq rfl rfl
  | inserting m => exact ((h.insert_iff m).mpr (hspared m hc)).of_eq rfl rfl
  | deleting name => exact (h.del name).of_eq rfl rfl
  | copying => exact h.of_eq rfl rfl
  | clearing names =>
    cases names with
    | nil => exact h.of_eq rfl rfl
    | cons name names => exact (h.del name).of_eq rfl rfl

theorem Kept.step (h : g.Kept) (hs : Step g a g') (hspared : g.Spared a) : g'.Kept := by
  cases hs with
  | add m => exact h.of_eq rfl rfl
  | del name => exact h.of_eq rfl rfl
  | delAll => exact h.of_eq rfl rfl
  | proceed hc => exact h.advance hc hspared

theorem kept_new : new.Kept where
  keyed id m hm := by
    rw [new, AList.lookup_empty] at hm
    cases hm
  agree := Index.agrees_empty

/-- In a run in which no module takes the place of one of another type, the index by type has
exactly the modules that can be found. -/
theorem modules_indexed {as : List ModuleAction} (h : Run (fun g a g' => Step g a g' ∧ g.Spared a) new as g) :
    g.Indexed := by
  have hkept : g.Kept := h.keeps (P := Kept) (fun _ _ _ ht hs => ht.step hs.1 hs.2) kept_new
  exact hkept.indexed

/-- A module is replaced by one of the same type. -/
theorem replaced_indexed : ∃ as g, Run Step new as g ∧ g.listByType 1 = [⟨1, "a", "2", 1⟩] ∧ g.Indexed := by
  have hrun : Run (fun g a g' => Step g a g' ∧ g.Spared a) new [] new := .nil
  have hrun := hrun.snoc ⟨.add ⟨0, "a", "2", 1⟩, trivial⟩
  have hrun := hrun.snoc ⟨.add ⟨1, "a", "2", 1⟩, trivial⟩
  have hrun := hrun.snoc ⟨.proceed (i := 0) rfl, nofun⟩
  have hrun := hrun.snoc ⟨.proceed (i := 1) rfl, nofun⟩
  have hrun := hrun.snoc ⟨.proceed (i := 0) rfl, fun _ _ _ hw => by cases hw⟩
  have hrun := hrun.snoc ⟨.proceed (i := 1) rfl, fun m hm w hw => by cases hm; cases hw; rfl⟩
  have hsteps := hrun.keeps_history (P := fun as g => Run Step new as g)
    (fun _ _ _ _ ht hs => ht.snoc hs.1) .nil
  exact ⟨_, _, hsteps, rfl, modules_indexed hrun⟩

/-- Two modules of one name and version but of different types are added at once. -/
theorem types_mixed : ¬ ∀ as g, Run Step new as g → g.Indexed := by
  intro hall
  have hrun := Run.nil.snoc (s := new) (Step.add ⟨0, "a", "2", 0⟩)
  have hrun := hrun.snoc (.add ⟨1, "a", "2", 1⟩)
  have hrun := hrun.snoc (.proceed (i := 0) rfl)
  have hrun := hrun.snoc (.proceed (i := 1) rfl)
  have hrun := hrun.snoc (.proceed (i := 0) rfl)
  have hrun := hrun.snoc (.proceed (i := 1) rfl)
  have hfind := ((hall _ _ hrun).agree 0 "a/2" ⟨0, "a", "2", 0⟩).mp rfl
  cases hfind.1

end ModuleManager
end Flz
