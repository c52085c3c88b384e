import Flz.Hook.FdCtx
import Flz.Lib.Runs
import Mathlib.Data.Nat.Basic
import Mathlib.Data.List.Basic
import Mathlib.Logic.Function.Basic

/-! # The contexts of the process

`FdManager` of `src/fd_manager.cc`. A section under the lock is one step; `get` with `auto_create`
has two of them when there is no context yet. Descriptors are not negative.
-/
namespace Flz
open Lib

/-- Where a call is. -/
inductive FdCall
  | ended
  /-- Before the section under the read lock. -/
  | getting (fd : ℕ) (auto_create : Bool)
  /-- Between the two locks. -/
  | creating (fd : ℕ)
  | deleting (fd : ℕ)
  deriving DecidableEq, Repr

/-- What a `get` has returned; `epoch` is how often `del` had been there before. -/
structure FdReturn where
  fd : ℕ
  auto_create : Bool
  epoch : ℕ
  ctx : Option ℕ
  deriving DecidableEq, Repr

/-- `objects` are the contexts in the order of construction. -/
structure FdManager where
  datas : List (Option ℕ)
  objects : List FdCtx
  calls : List FdCall
  returned : List FdReturn
  dels : ℕ → ℕ

inductive FdManagerAction
  | get (fd : ℕ) (auto_create : Bool)
  | del (fd : ℕ)
  /-- The next section of a call, with what `fstat` says. -/
  | proceed (i : ℕ) (stat : Option Bool)
  | setUserNonblock (o : ℕ) (v : Bool)
  | setTimeout (o : ℕ) (type : ℤ) (v : UInt64)
  deriving DecidableEq, Repr

namespace FdManager

def new : FdManager where
  datas := List.replicate 64 none
  objects := []
  calls := []
  returned := []
  dels _ := 0

/-- `m_datas[fd]`, where there is one. -/
def slot (g : FdManager) (fd : ℕ) : Option ℕ := g.datas[fd]?.join

def go (g : FdManager) (i : ℕ) (c : FdCall) : FdManager := { g with calls := g.calls.set i c }

def ret (g : FdManager) (i fd : ℕ) (auto_create : Bool) (ctx : Option ℕ) : FdManager :=
  { g with returned := g.returned ++ [FdReturn.mk fd auto_create (g.dels fd) ctx] }.go i .ended

/-- `get` under the read lock. -/
def find (g : FdManager) (i fd : ℕ) (auto_create : Bool) : FdManager :=
  if g.datas.length ≤ fd then
    if auto_create then g.go i (.creating fd) else g.ret i fd auto_create none
  else if (g.slot fd).isSome || !auto_create then g.ret i fd auto_create (g.slot fd)
  else g.go i (.creating fd)

def resize (datas : List (Option ℕ)) (n : ℕ) : List (Option ℕ) :=
  datas.take n ++ List.replicate (n - datas.length) none

/-- `get` under the write lock. -/
def create (g : FdManager) (i fd : ℕ) (stat : Option Bool) : FdManager :=
  let datas := if g.datas.length ≤ fd then resize g.datas (fd * 3 / 2) else g.datas
  { g with
    datas := datas.set fd (some g.objects.length)
    objects := g.objects ++ [FdCtx.new fd stat] }.ret i fd true (some g.objects.length)

def del (g : FdManager) (i fd : ℕ) : FdManager :=
  { g with
    datas := if g.datas.length ≤ fd then g.datas else g.datas.set fd none
    dels := Function.update g.dels fd (g.dels fd + 1) }.go i .ended

def advance (g : FdManager) (i : ℕ) (stat : Option Bool) : FdCall → FdManager
  | .ended => g
  | .getting fd auto_create => g.find i fd auto_create
  | .creating fd => g.create i fd stat
  | .deleting fd => g.del i fd

/-- A member of a context is set through a pointer to it. -/
def update (g : FdManager) (o : ℕ) (f : FdCtx → FdCtx) : FdManager :=
  { g with objects := g.objects.modify o f }

inductive Step : FdManager → FdManagerAction → FdManager → Prop
  | get {g : FdManager} (fd : ℕ) (auto_create : Bool) :
    Step g (.get fd auto_create) { g with calls := g.calls ++ [.getting fd auto_create] }
  | del {g : FdManager} (fd : ℕ) : Step g (.del fd) { g with calls := g.calls ++ [.deleting fd] }
  | proceed {g : FdManager} {i : ℕ} {c : FdCall} (stat : Option Bool) (h : g.calls[i]? = some c) :
    Step g (.proceed i stat) (g.advance i stat c)
  | setUserNonblock {g : FdManager} (o : ℕ) (v : Bool) :
    Step g (.setUserNonblock o v) (g.update o fun c => { c with userNonblock := v })
  | setTimeout {g : FdManager} (o : ℕ) (type : ℤ) (v : UInt64) :
    Step g (.setTimeout o type v) (g.update o (·.setTimeout type v))

/-- Between two `del` of a descriptor there is one context, and whoever asks for one with
`auto_create` gets it. -/
structure Single (g : FdManager) : Prop where
  same : ∀ r ∈ g.returned, ∀ q ∈ g.returned, r.fd = q.fd → r.epoch = q.epoch → ∀ o p, r.ctx = some o →
    q.ctx = some p → o = p
  given : ∀ r ∈ g.returned, r.auto_create = true → ∃ o, r.ctx = some o ∧ o < g.objects.length

/-- A step that does not put a context in the place of another one. -/
def Spared (g : FdManager) : FdManagerAction → Prop
  | .proceed i _ => ∀ fd, g.calls[i]? = some (.creating fd) → g.slot fd = none
  | _ => True

/-- The invariant behind `Single`: what has been returned since the last `del` is still there. -/
structure Kept (g : FdManager) : Prop where
  room : 64 ≤ g.datas.length
  built : ∀ fd o, g.slot fd = some o → o < g.objects.length
  epoch : ∀ r ∈ g.returned, r.epoch ≤ g.dels r.fd
  present : ∀ r ∈ g.returned, ∀ o, r.ctx = some o → r.epoch = g.dels r.fd → g.slot r.fd = some o
  single : g.Single

variable {g g' : FdManager} {a : FdManagerAction} {i fd : ℕ} {c : FdCall}

theorem resize_length (datas : List (Option ℕ)) {n : ℕ} (h : datas.length ≤ n) :
    (resize datas n).length = n := by
  simp only [resize, List.length_append, List.length_take, List.length_replicate]
  omega

theorem resize_getElem? (datas : List (Option ℕ)) {n : ℕ} (h : datas.length ≤ n) (k : ℕ) :
    (resize datas n)[k]?.join = datas[k]?.join := by
  rw [resize, List.take_of_length_le h]
  by_cases hk : k < datas.length
  · rw [List.getElem?_append_left hk]
  · have hle : datas.length ≤ k := Nat.not_lt.mp hk
    rw [List.getElem?_append_right hle, List.getElem?_replicate, List.getElem?_eq_none hle]
    split <;> rfl

/-- The slots behind `create`. -/
theorem slot_create (h : 64 ≤ g.datas.length) (stat : Option Bool) (k : ℕ) :
    (g.create i fd stat).slot k = if k = fd then some g.objects.length else g.slot k := by
  have hset : ∀ datas : List (Option ℕ), fd < datas.length → (∀ k, datas[k]?.join = g.slot k) →
      (datas.set fd (some g.objects.length))[k]?.join = if k = fd then some g.objects.length else g.slot k := by
    intro datas hlt hslot
    by_cases hk : k = fd
    · subst hk
      rw [List.getElem?_set_self hlt, if_pos rfl]
      rfl
    · rw [List.getElem?_set_ne (Ne.symm hk), if_neg hk, hslot]
  change ((if g.datas.length ≤ fd then resize g.datas (fd * 3 / 2) else g.datas).set fd
    (some g.objects.length))[k]?.join = _
  split
  · rename_i hle
    have hgrow : g.datas.length ≤ fd * 3 / 2 := by omega
    refine hset _ ?_ (resize_getElem? g.datas hgrow)
    rw [resize_length g.datas hgrow]
    omega
  · rename_i hlt
    exact hset _ (Nat.not_le.mp hlt) fun k => rfl

theorem slot_del (k : ℕ) : (g.del i fd).slot k = if k = fd then none else g.slot k := by
  change (if g.datas.length ≤ fd then g.datas else g.datas.set fd none)[k]?.join = _
  by_cases hk : k = fd
  · subst hk
    rw [if_pos rfl]
    split
    · rename_i hle
      rw [List.getElem?_eq_none hle]
      rfl
    · rename_i hlt
      rw [List.getElem?_set_self (Nat.not_le.mp hlt)]
      rfl
  · rw [if_neg hk]
    split
    · rfl
    · rw [List.getElem?_set_ne (Ne.symm hk)]
      rfl

theorem Kept.frame (h : g.Kept) (hdatas : g'.datas = g.datas) (hobjects : g'.objects.length = g.objects.length)
    (hreturned : g'.returned = g.returned) (hdels : g'.dels = g.dels) : g'.Kept := by
  have hslot (k : ℕ) : g'.slot k = g.slot k := by rw [slot, slot, hdatas]
  refine ⟨by rw [hdatas]; exact h.room, fun k o ho => ?_, ?_, ?_, ?_, ?_⟩
  · rw [hobjects]
    exact h.built k o ((hslot k).symm.trans ho)
  · rw [hreturned, hdels]
    exact h.epoch
  · simp only [hreturned, hdels, hslot]
    exact h.present
  · rw [hreturned]
    exact h.single.same
  · rw [hreturned, hobjects]
    exact h.single.given

/-- A context that stands in its slot is returned. -/
theorem Kept.ret (h : g.Kept) {auto_create : Bool} {ctx : Option ℕ} (hctx : ∀ o, ctx = some o → g.slot fd = some o)
    (hgiven : auto_create = true → ctx ≠ none) : (g.ret i fd auto_create ctx).Kept := by
  have hmem : ∀ r, r ∈ (g.ret i fd auto_create ctx).returned ↔
      r ∈ g.returned ∨ r = ⟨fd, auto_create, g.dels fd, ctx⟩ := fun r => by
    simp [FdManager.ret, go]
  have hnew : ∀ q ∈ g.returned, fd = q.fd → g.dels fd = q.epoch → ∀ o p, ctx = some o →
      q.ctx = some p → o = p := by
    intro q hq hfd hepoch o p ho hp
    have hslot := h.present q hq p hp (by rw [← hepoch, hfd])
    rw [← hfd, hctx o ho] at hslot
    exact Option.some.inj hslot
  refine ⟨h.room, h.built, fun r hr => ?_, fun r hr o ho hepoch => ?_, fun r hr q hq hfd hepoch o p ho hp => ?_,
    fun r hr hauto => ?_⟩
  · rcases (hmem r).mp hr with hr | rfl
    · exact h.epoch r hr
    · exact Nat.le_refl _
  · rcases (hmem r).mp hr with hr | rfl
    · exact h.present r hr o ho hepoch
    · exact hctx o ho
  · rcases (hmem r).mp hr with hr | rfl <;> rcases (hmem q).mp hq with hq | rfl
    · exact h.single.same r hr q hq hfd hepoch o p ho hp
    · exact (hnew r hr hfd.symm hepoch.symm p o hp ho).symm
    · exact hnew q hq hfd hepoch o p ho hp
    · exact Option.some.inj (ho.symm.trans hp)
  · rcases (hmem r).mp hr with hr | rfl
    · exact h.single.given r hr hauto
    · obtain ⟨o, ho⟩ := Option.ne_none_iff_exists'.mp (hgiven hauto)
      exact ⟨o, ho, h.built fd o (hctx o ho)⟩

theorem Kept.find (h : g.Kept) (auto_create : Bool) : (g.find i fd auto_create).Kept := by
  rw [FdManager.find]
  split
  · cases auto_create with
    | true => exact h.frame rfl rfl rfl rfl
    | false => exact h.ret nofun nofun
  · split
    · rename_i hreturn
      refine h.ret (fun o ho => ho) fun hauto hnone => ?_
      rw [hauto, hnone] at hreturn
      cases hreturn
    · exact h.frame rfl rfl rfl rfl

/-- A context is put in an empty slot. -/
theorem Kept.create (h : g.Kept) (hempty : g.slot fd = none) (stat : Option Bool) :
    (g.create i fd stat).Kept := by
  have hslot : ∀ k, (g.create i fd stat).slot k = if k = fd then some g.objects.length else g.slot k :=
    slot_create h.room stat
  have hput : ({ g with
      datas := (if g.datas.length ≤ fd then resize g.datas (fd * 3 / 2) else g.datas).set fd
        (some g.objects.length)
      objects := g.objects ++ [FdCtx.new fd stat] } : FdManager).Kept := by
    refine ⟨?_, fun k o ho => ?_, h.epoch, fun r hr o ho hepoch => ?_, h.single.same, fun r hr hauto => ?_⟩
    · have hroom := h.room
      rw [List.length_set]
      split
      · rw [resize_length g.datas (by omega)]
        omega
      · exact hroom
    · have ho' : (if k = fd then some g.objects.length else g.slot k) = some o := (hslot k).symm.trans ho
      rw [List.length_append, List.length_singleton]
      split at ho'
      · obtain rfl := Option.some.inj ho'
        exact Nat.lt_succ_self _
      · exact Nat.lt_succ_of_lt (h.built k o ho')
    · have hold := h.present r hr o ho hepoch
      refine (hslot r.fd).trans ?_
      rw [if_neg, hold]
      intro hfd
      rw [hfd, hempty] at hold
      cases hold
    · obtain ⟨o, ho, hlt⟩ := h.single.given r hr hauto
      refine ⟨o, ho, ?_⟩
      rw [List.length_append]
      exact Nat.lt_of_lt_of_le hlt (Nat.le_add_right _ _)
  refine hput.ret (fun o ho => ?_) nofun
  rw [← ho]
  exact (hslot fd).trans (if_pos rfl)

theorem Kept.del (h : g.Kept) : (g.del i fd).Kept := by
  refine ⟨?_, fun k o ho => ?_, fun r hr => ?_, fun r hr o ho hepoch => ?_, h.single.same, h.single.given⟩
  · change 64 ≤ (if g.datas.length ≤ fd then g.datas else g.datas.set fd none).length
    split
    · exact h.room
    · rw [List.length_set]
      exact h.room
  · rw [slot_del] at ho
    split at ho
    · cases ho
    · exact h.built k o ho
  · have hle := h.epoch r hr
    change r.epoch ≤ Function.update g.dels fd (g.dels fd + 1) r.fd
    by_cases hfd : r.fd = fd
    · rw [hfd, Function.update_self]
      rw [hfd] at hle
      exact Nat.le_succ_of_le hle
    · rw [Function.update_of_ne hfd]
      exact hle
  · have hepoch' : r.epoch = Function.update g.dels fd (g.dels fd + 1) r.fd := hepoch
    by_cases hfd : r.fd = fd
    · have hle := h.epoch r hr
      rw [hfd, Function.update_self] at hepoch'
      rw [hfd] at hle
      omega
    · rw [Function.update_of_ne hfd] at hepoch'
      rw [slot_del, if_neg hfd]
      exact h.present r hr o ho hepoch'

theorem Kept.advance (h : g.Kept) {stat : Option Bool} (hc : g.calls[i]? = some c)
    (hspared : g.Spared (.proceed i stat)) : (g.advance i stat c).Kept := by
  cases c with
  | ended => exact h
  | getting fd auto_create => exact h.find auto_create
  | creating fd => exact h.create (hspared fd hc) stat
  | deleting fd => exact h.del

theorem Kept.step (h : g.Kept) (hs : Step g a g') (hspared : g.Spared a) : g'.Kept := by
  cases hs with
  | get fd auto_create => exact h.frame rfl rfl rfl rfl
  | del fd => exact h.frame rfl rfl rfl rfl
  | proceed stat hc => exact h.advance hc hspared
  | setUserNonblock o v => exact h.frame rfl (List.length_modify ..) rfl rfl
  | setTimeout o type v => exact h.frame rfl (List.length_modify ..) rfl rfl

theorem kept_new : new.Kept where
  room := by decide
  built fd o ho := by
    have hnone : new.slot fd = none := by
      rw [slot, new, List.getElem?_replicate]
      split <;> rfl
    rw [hnone] at ho
    cases ho
  epoch r hr := by cases hr
  present r hr := by cases hr
  single := ⟨nofun, nofun⟩

/-- In a run in which no context takes the place of another one, everybody gets the same one. -/
theorem contexts_single {as : List FdManagerAction}
    (h : Run (fun g a g' => Step g a g' ∧ g.Spared a) new as g) : g.Single := by
  have hkept : g.Kept := h.keeps (P := Kept) (fun _ _ _ ht hs => ht.step hs.1 hs.2) kept_new
  exact hkept.single

/-- A socket is used, closed and opened again. -/
theorem reopened_single : ∃ as g, Run Step new as g ∧ g.Single ∧ g.returned =
    [⟨70, true, 0, some 0⟩, ⟨70, true, 0, some 0⟩, ⟨70, true, 1, some 1⟩] := by
  have hrun : Run (fun g a g' => Step g a g' ∧ g.Spared a) new [] new := .nil
  have hrun := hrun.snoc ⟨.get 70 true, trivial⟩
  have hrun := hrun.snoc ⟨.proceed (i := 0) none rfl, nofun⟩
  have hrun := hrun.snoc ⟨.proceed (i := 0) (some true) rfl, fun fd hfd => by cases hfd; rfl⟩
  have hrun := hrun.snoc ⟨.get 70 true, trivial⟩
  have hrun := hrun.snoc ⟨.proceed (i := 1) none rfl, nofun⟩
  have hrun := hrun.snoc ⟨.del 70, trivial⟩
  have hrun := hrun.snoc ⟨.proceed (i := 2) none rfl, nofun⟩
  have hrun := hrun.snoc ⟨.get 70 true, trivial⟩
  have hrun := hrun.snoc ⟨.proceed (i := 3) none rfl, nofun⟩
  have hrun := hrun.snoc ⟨.proceed (i := 3) (some true) rfl, fun fd hfd => by cases hfd; rfl⟩
  have hsteps := hrun.keeps_history (P := fun as g => Run Step new as g)
    (fun _ _ _ _ ht hs => ht.snoc hs.1) .nil
  exact ⟨_, _, hsteps, contexts_single hrun, rfl⟩

/-- Two threads that find no context make one each. -/
theorem contexts_doubled : ¬ ∀ as g, Run Step new as g → g.Single := by
  intro hall
  have hrun := Run.nil.snoc (s := new) (Step.get 5 true)
  have hrun := hrun.snoc (.get 5 true)
  have hrun := hrun.snoc (.proceed (i := 0) none rfl)
  have hrun := hrun.snoc (.proceed (i := 1) none rfl)
  have hrun := hrun.snoc (.proceed (i := 0) (some true) rfl)
  have hrun := hrun.snoc (.proceed (i := 1) (some true) rfl)
  have hsame := (hall _ _ hrun).same ⟨5, true, 0, some 0⟩ (by decide) ⟨5, true, 0, some 1⟩ (by decide)
    rfl rfl 0 1 rfl rfl
  cases hsame

end FdManager
end Flz
