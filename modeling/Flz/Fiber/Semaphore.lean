import Flz.Lib.Runs
import Mathlib.Algebra.Ring.Nat
import Mathlib.Data.List.Nodup
import Mathlib.Logic.Function.Basic

/-! # Semaphores for fibers

`FiberSemaphore` of `src/mutex.cc`. A section under the lock is one step; a fiber is a number, and
goes by the scheduler that it waits with.
-/
namespace Flz
open Lib

structure FiberSemaphore where
  concurrency : UInt64
  waiters : List (ℕ × ℕ)
  deriving DecidableEq, Repr

namespace FiberSemaphore

/-- `FiberSemaphore(initial_concurrency)`. -/
def new (initialConcurrency : UInt64) : FiberSemaphore where
  concurrency := initialConcurrency
  waiters := []

def tryWait (s : FiberSemaphore) : Bool × FiberSemaphore :=
  if s.concurrency > 0 then (true, { s with concurrency := s.concurrency - 1 }) else (false, s)

/-- The section of `wait`; the fiber goes on, or it yields. -/
def wait (s : FiberSemaphore) (scheduler fiber : ℕ) : Bool × FiberSemaphore :=
  if s.concurrency > 0 then (true, { s with concurrency := s.concurrency - 1 })
  else (false, { s with waiters := s.waiters ++ [(scheduler, fiber)] })

/-- `notify`: the fiber that is scheduled, if there is one. -/
def notify (s : FiberSemaphore) : Option (ℕ × ℕ) × FiberSemaphore :=
  match s.waiters with
  | next :: waiters => (some next, { s with waiters := waiters })
  | [] => (none, { s with concurrency := s.concurrency + 1 })

theorem notify_nil {s : FiberSemaphore} (h : s.waiters = []) :
    s.notify = (none, ⟨s.concurrency + 1, []⟩) := by
  simp only [notify, h]

theorem notify_cons {s : FiberSemaphore} {next : ℕ × ℕ} {waiters : List (ℕ × ℕ)}
    (h : s.waiters = next :: waiters) : s.notify = (some next, ⟨s.concurrency, waiters⟩) := by
  simp only [notify, h]

end FiberSemaphore

/-- Where a fiber is that uses a semaphore. -/
inductive WaitPoint
  /-- In its own code. -/
  | running
  /-- In `wait` behind the section, before the yield. -/
  | yielding
  | suspended
  deriving DecidableEq, Repr

/-- `scheduled` are the entries for the fibers that `notify` has scheduled, and `since` tells the
order in which fibers came to wait. -/
structure SemaphoreUse where
  sem : FiberSemaphore
  points : ℕ → WaitPoint
  scheduled : List (ℕ × ℕ)
  since : ℕ → ℕ
  arrivals : ℕ
  waits : ℕ
  tries : ℕ
  notifies : ℕ

/-- What a fiber does, or a scheduler with it. -/
inductive SemaphoreAction
  | wait (scheduler f : ℕ)
  | tryWait (f : ℕ)
  | notify (f : ℕ)
  | yield (f : ℕ)
  | resume (scheduler f : ℕ)
  deriving DecidableEq, Repr

namespace SemaphoreUse

def new (initialConcurrency : UInt64) : SemaphoreUse where
  sem := .new initialConcurrency
  points _ := .running
  scheduled := []
  since _ := 0
  arrivals := 0
  waits := 0
  tries := 0
  notifies := 0

def wait (g : SemaphoreUse) (scheduler f : ℕ) : SemaphoreUse :=
  let (ok, sem) := g.sem.wait scheduler f
  if ok then { g with sem := sem, waits := g.waits + 1 }
  else
    { g with
      sem := sem
      points := Function.update g.points f .yielding
      since := Function.update g.since f g.arrivals
      arrivals := g.arrivals + 1 }

def tryWait (g : SemaphoreUse) : SemaphoreUse :=
  let (ok, sem) := g.sem.tryWait
  { g with sem := sem, tries := if ok then g.tries + 1 else g.tries }

def notify (g : SemaphoreUse) : SemaphoreUse :=
  let (next, sem) := g.sem.notify
  { g with sem := sem, scheduled := g.scheduled ++ next.toList, notifies := g.notifies + 1 }

/-- `YieldToHold()` and what the scheduler does to the state of the fiber. -/
def yield (g : SemaphoreUse) (f : ℕ) : SemaphoreUse :=
  { g with points := Function.update g.points f .suspended }

/-- A scheduler takes an entry and resumes the fiber, behind its wait. -/
def resume (g : SemaphoreUse) (scheduler f : ℕ) : SemaphoreUse :=
  { g with
    scheduled := g.scheduled.erase (scheduler, f)
    points := Function.update g.points f .running
    waits := g.waits + 1 }

/-- A step; an entry is passed over as long as its fiber is running. -/
inductive Step : SemaphoreUse → SemaphoreAction → SemaphoreUse → Prop
  | wait {g : SemaphoreUse} {f : ℕ} (scheduler : ℕ) (h : g.points f = .running) :
    Step g (.wait scheduler f) (g.wait scheduler f)
  | tryWait {g : SemaphoreUse} {f : ℕ} (h : g.points f = .running) : Step g (.tryWait f) g.tryWait
  | notify {g : SemaphoreUse} {f : ℕ} (h : g.points f = .running) : Step g (.notify f) g.notify
  | yield {g : SemaphoreUse} {f : ℕ} (h : g.points f = .yielding) : Step g (.yield f) (g.yield f)
  | resume {g : SemaphoreUse} {scheduler f : ℕ} (h : (scheduler, f) ∈ g.scheduled)
    (hf : g.points f = .suspended) : Step g (.resume scheduler f) (g.resume scheduler f)

/-- A fiber waits that has not been scheduled. -/
def Waits (g : SemaphoreUse) (f : ℕ) : Prop := g.points f ≠ .running ∧ f ∉ g.scheduled.map Prod.snd

/-- The fiber that has waited longest is scheduled, and nothing else happens. -/
def Wakes (g g' : SemaphoreUse) : Prop :=
  ∃ scheduler f, g.Waits f ∧ (∀ k, g.Waits k → k ≠ f → g.since f < g.since k) ∧
    g.sem.waiters = (scheduler, f) :: g'.sem.waiters ∧ g'.scheduled = g.scheduled ++ [(scheduler, f)] ∧
    g'.sem.concurrency = g.sem.concurrency ∧ g'.points = g.points

/-- There is one more permit, and nothing else happens. -/
def Permits (g g' : SemaphoreUse) : Prop :=
  g'.sem.concurrency.toNat = g.sem.concurrency.toNat + 1 ∧ g'.sem.waiters = g.sem.waiters ∧
    g'.scheduled = g.scheduled ∧ g'.points = g.points

/-- What a semaphore promises besides. -/
structure Correct (initialConcurrency : UInt64) (g : SemaphoreUse) : Prop where
  bounded : g.waits + g.tries ≤ initialConcurrency.toNat + g.notifies
  exclusive : g.sem.waiters ≠ [] → g.sem.concurrency = 0
  once : (g.sem.waiters.map Prod.snd).Nodup

/-- The invariant behind it: the fibers that wait and the entries in the order of their arrival. -/
structure Accounted (initialConcurrency : UInt64) (g : SemaphoreUse) : Prop where
  copies : ∀ f, (g.sem.waiters.map Prod.snd).count f + (g.scheduled.map Prod.snd).count f =
    if g.points f = .running then 0 else 1
  exclusive : g.sem.waiters ≠ [] → g.sem.concurrency = 0
  sorted : g.sem.waiters.Pairwise fun e e' => g.since e.2 < g.since e'.2
  arrived : ∀ e ∈ g.sem.waiters, g.since e.2 < g.arrivals
  permits : g.waits + g.tries + g.scheduled.length + g.sem.concurrency.toNat ≤
    initialConcurrency.toNat + g.notifies

variable {initialConcurrency : UInt64} {g g' : SemaphoreUse} {a : SemaphoreAction} {f scheduler : ℕ}

theorem accounted_new (initialConcurrency : UInt64) : (new initialConcurrency).Accounted initialConcurrency where
  copies _ := rfl
  exclusive h := absurd rfl h
  sorted := List.Pairwise.nil
  arrived _ h := by cases h
  permits := by simp [new, FiberSemaphore.new]

theorem Accounted.correct (h : g.Accounted initialConcurrency) : g.Correct initialConcurrency where
  bounded := by
    have hpermits := h.permits
    omega
  exclusive := h.exclusive
  once := by
    refine List.nodup_iff_count_le_one.mpr fun f => ?_
    have hcopies := h.copies f
    split at hcopies <;> omega

/-! ## The steps -/

theorem toNat_pred {n : UInt64} (h : n > 0) : (n - 1).toNat + 1 = n.toNat := by
  have hn : 0 < n.toNat := UInt64.lt_iff_toNat_lt.mp h
  have hle : (1 : UInt64) ≤ n := UInt64.le_iff_toNat_le.mpr hn
  rw [UInt64.toNat_sub_of_le _ _ hle]
  exact Nat.sub_add_cancel hn

theorem toNat_succ_le (n : UInt64) : (n + 1).toNat ≤ n.toNat + 1 := by
  rw [UInt64.toNat_add]
  exact Nat.mod_le _ _

/-- Nobody waits where there is a permit. -/
theorem Accounted.waiters_empty (h : g.Accounted initialConcurrency) (hpos : g.sem.concurrency > 0) :
    g.sem.waiters = [] := by
  by_contra hne
  rw [h.exclusive hne] at hpos
  exact absurd hpos (by decide)

/-- A fiber goes on with a permit, counted by `wait` or by `tryWait`. -/
theorem Accounted.take_permit (h : g.Accounted initialConcurrency) (hpos : g.sem.concurrency > 0) {waits tries : ℕ}
    (hcount : waits + tries = g.waits + g.tries + 1) :
    { g with
      sem := { g.sem with concurrency := g.sem.concurrency - 1 }
      waits := waits
      tries := tries : SemaphoreUse }.Accounted initialConcurrency := by
  have hpermits := h.permits
  have hpred := toNat_pred hpos
  have hempty := h.waiters_empty hpos
  exact ⟨h.copies, fun hne => absurd hempty hne, h.sorted, h.arrived, by dsimp only; omega⟩

theorem Accounted.wait (h : g.Accounted initialConcurrency) (hf : g.points f = .running) (scheduler : ℕ) :
    (g.wait scheduler f).Accounted initialConcurrency := by
  have hcopies := h.copies f
  have hpermits := h.permits
  rw [if_pos hf] at hcopies
  rw [SemaphoreUse.wait, FiberSemaphore.wait]
  by_cases hpos : g.sem.concurrency > 0
  · simp only [if_pos hpos, if_true]
    exact h.take_permit hpos (by omega)
  · have hzero : g.sem.concurrency = 0 := UInt64.le_zero_iff.mp (UInt64.not_lt.mp hpos)
    have hnot : ∀ e ∈ g.sem.waiters, e.2 ≠ f := by
      rintro e he rfl
      have hmem : 0 < (g.sem.waiters.map Prod.snd).count e.2 :=
        List.count_pos_iff.mpr (List.mem_map_of_mem he)
      omega
    simp only [if_neg hpos, Bool.false_eq_true, if_false]
    refine ⟨fun k => ?_, fun _ => hzero, ?_, fun e he => ?_, hpermits⟩
    · have hk := h.copies k
      dsimp only
      rw [List.map_append, List.count_append, List.map_singleton, List.count_singleton]
      by_cases hkf : k = f
      · subst hkf
        simp only [Function.update_self, beq_self_eq_true, if_true]
        rw [if_neg (by decide)]
        omega
      · simp only [Function.update_of_ne hkf]
        rw [if_neg (by simpa using Ne.symm hkf)]
        exact hk
    · refine List.pairwise_append.mpr ⟨?_, List.pairwise_singleton _ _, ?_⟩
      · refine h.sorted.imp_of_mem fun ha hb hlt => ?_
        dsimp only
        rw [Function.update_of_ne (hnot _ ha), Function.update_of_ne (hnot _ hb)]
        exact hlt
      · intro e he e' he'
        dsimp only
        rw [List.mem_singleton.mp he', Function.update_of_ne (hnot e he), Function.update_self]
        exact h.arrived e he
    · rcases List.mem_append.mp he with he | he
      · dsimp only
        rw [Function.update_of_ne (hnot e he)]
        exact Nat.lt_succ_of_lt (h.arrived e he)
      · dsimp only
        rw [List.mem_singleton.mp he, Function.update_self]
        exact Nat.lt_succ_self _

theorem Accounted.tryWait (h : g.Accounted initialConcurrency) :
    g.tryWait.Accounted initialConcurrency := by
  have hpermits := h.permits
  rw [SemaphoreUse.tryWait, FiberSemaphore.tryWait]
  by_cases hpos : g.sem.concurrency > 0
  · simp only [if_pos hpos, if_true]
    exact h.take_permit hpos (by omega)
  · simp only [if_neg hpos]
    exact ⟨h.copies, h.exclusive, h.sorted, h.arrived, hpermits⟩

theorem Accounted.notify (h : g.Accounted initialConcurrency) :
    g.notify.Accounted initialConcurrency := by
  have hpermits := h.permits
  cases hwaiters : g.sem.waiters with
  | nil =>
    have hsucc := toNat_succ_le g.sem.concurrency
    rw [SemaphoreUse.notify, FiberSemaphore.notify_nil hwaiters]
    refine ⟨fun k => ?_, fun hne => absurd rfl hne, List.Pairwise.nil,
      fun _ hd => absurd hd List.not_mem_nil, ?_⟩
    · have hk := h.copies k
      rw [hwaiters] at hk
      simpa using hk
    · simp only [Option.toList, List.append_nil]
      omega
  | cons e waiters =>
    have hsorted := h.sorted
    rw [hwaiters] at hsorted
    rw [SemaphoreUse.notify, FiberSemaphore.notify_cons hwaiters]
    refine ⟨fun k => ?_, fun _ => h.exclusive (by rw [hwaiters]; exact List.cons_ne_nil _ _),
      hsorted.of_cons, fun d hd => h.arrived d (by rw [hwaiters]; exact List.mem_cons_of_mem e hd), ?_⟩
    · have hk := h.copies k
      rw [hwaiters] at hk
      simp only [List.map_cons, List.count_cons, Option.toList, List.map_append, List.map_nil,
        List.count_append, List.count_nil] at hk ⊢
      omega
    · simp only [Option.toList, List.length_append, List.length_singleton]
      omega

theorem Accounted.yield (h : g.Accounted initialConcurrency) (hf : g.points f = .yielding) :
    (g.yield f).Accounted initialConcurrency := by
  refine ⟨fun k => ?_, h.exclusive, h.sorted, h.arrived, h.permits⟩
  have hk := h.copies k
  by_cases hkf : k = f
  · subst hkf
    rw [if_neg (by rw [hf]; decide)] at hk
    simp only [SemaphoreUse.yield, Function.update_self]
    exact hk
  · simp only [SemaphoreUse.yield, Function.update_of_ne hkf]
    exact hk

theorem Accounted.resume (h : g.Accounted initialConcurrency) (hmem : (scheduler, f) ∈ g.scheduled)
    (hf : g.points f = .suspended) : (g.resume scheduler f).Accounted initialConcurrency := by
  have hperm := List.perm_cons_erase hmem
  refine ⟨fun k => ?_, h.exclusive, h.sorted, h.arrived, ?_⟩
  · have hk := h.copies k
    rw [(hperm.map Prod.snd).count_eq, List.map_cons, List.count_cons] at hk
    by_cases hkf : k = f
    · subst hkf
      simp only [beq_self_eq_true, if_true, hf, reduceCtorEq, if_false] at hk
      simp only [SemaphoreUse.resume, Function.update_self, if_true]
      omega
    · simp only [SemaphoreUse.resume, Function.update_of_ne hkf]
      rw [if_neg (by simpa using Ne.symm hkf)] at hk
      exact hk
  · have hlength := hperm.length_eq
    have hpermits := h.permits
    rw [List.length_cons] at hlength
    simp only [SemaphoreUse.resume]
    omega

theorem Accounted.step (h : g.Accounted initialConcurrency) (hs : Step g a g') :
    g'.Accounted initialConcurrency := by
  cases hs with
  | wait scheduler hf => exact h.wait hf scheduler
  | tryWait hf => exact h.tryWait
  | notify hf => exact h.notify
  | yield hf => exact h.yield hf
  | resume hmem hf => exact h.resume hmem hf

theorem Accounted.mem_waiters (h : g.Accounted initialConcurrency) (hf : g.Waits f) :
    f ∈ g.sem.waiters.map Prod.snd := by
  have hcopies := h.copies f
  rw [if_neg hf.1, List.count_eq_zero_of_not_mem hf.2] at hcopies
  exact List.count_pos_iff.mp (by omega)

theorem Accounted.waits (h : g.Accounted initialConcurrency) (hf : f ∈ g.sem.waiters.map Prod.snd) :
    g.Waits f := by
  have hcopies := h.copies f
  have hpos := List.count_pos_iff.mpr hf
  refine ⟨fun hrunning => ?_, fun hmem => ?_⟩
  · rw [if_pos hrunning] at hcopies
    omega
  · have hpos' := List.count_pos_iff.mpr hmem
    split at hcopies <;> omega

/-- The queue of the waiters is first in, first out. -/
theorem Accounted.wakes (h : g.Accounted initialConcurrency) (hne : g.sem.waiters ≠ []) :
    g.Wakes g.notify := by
  obtain ⟨⟨scheduler, f⟩, waiters, hwaiters⟩ := List.exists_cons_of_ne_nil hne
  have hsorted := h.sorted
  have hnotify := FiberSemaphore.notify_cons hwaiters
  rw [hwaiters] at hsorted
  refine ⟨scheduler, f, h.waits ?_, fun k hk hkf => ?_, ?_, ?_, ?_, ?_⟩
  · rw [hwaiters]
    exact List.mem_cons_self
  · have hmem := h.mem_waiters hk
    rw [hwaiters, List.map_cons] at hmem
    obtain ⟨e, he, rfl⟩ := List.mem_map.mp ((List.mem_cons.mp hmem).resolve_left hkf)
    exact (List.pairwise_cons.mp hsorted).1 e he
  all_goals
    simp only [SemaphoreUse.notify, hnotify, hwaiters, Option.toList]

theorem notify_permits (hnil : g.sem.waiters = []) (hroom : g.sem.concurrency.toNat + 1 < 2 ^ 64) :
    g.Permits g.notify := by
  rw [SemaphoreUse.notify, FiberSemaphore.notify_nil hnil]
  refine ⟨?_, hnil.symm, List.append_nil _, rfl⟩
  dsimp only
  rw [UInt64.toNat_add]
  exact Nat.mod_eq_of_lt hroom

/-- A semaphore counts right, and serves the fibers in their order, as long as the permits have
room in a `size_t`. -/
theorem semaphore_correct {as : List SemaphoreAction} (h : Run Step (new initialConcurrency) as g) :
    g.Correct initialConcurrency ∧ ∀ f g', Step g (.notify f) g' →
      (g.sem.waiters ≠ [] ∨ g.sem.concurrency.toNat + 1 < 2 ^ 64) → g.Wakes g' ∨ g.Permits g' := by
  have haccounted : g.Accounted initialConcurrency :=
    h.keeps (P := Accounted initialConcurrency) (fun _ _ _ ht hstep => ht.step hstep)
      (accounted_new initialConcurrency)
  refine ⟨haccounted.correct, fun f g' hstep hroom => ?_⟩
  cases hstep with
  | notify hf =>
    by_cases hne : g.sem.waiters = []
    · exact Or.inr (notify_permits hne (hroom.resolve_left (fun hnot => hnot hne)))
    · exact Or.inl (haccounted.wakes hne)

/-- A fiber is woken between its section and its yield. -/
theorem early_notify_wakes : ∃ as g, Run Step (new 0) as g ∧ g.points 1 = .yielding ∧ g.Correct 0 ∧
    (g.Wakes g.notify ∨ g.Permits g.notify) := by
  have hrun := (Run.nil.snoc (s := new 0) (Step.wait (f := 1) 7 rfl)).snoc (.tryWait (f := 2) rfl)
  have hcorrect := semaphore_correct hrun
  exact ⟨_, _, hrun, rfl, hcorrect.1, hcorrect.2 2 _ (.notify rfl) (Or.inr (by decide))⟩

/-- A semaphore that is made with all the permits that there can be loses them. -/
theorem full_notify_loses : ¬ ∀ initialConcurrency as g, Run Step (new initialConcurrency) as g →
    ∀ f g', Step g (.notify f) g' → g.Wakes g' ∨ g.Permits g' := by
  intro hall
  rcases hall 18446744073709551615 [] _ .nil 0 _ (.notify rfl) with ⟨_, _, _, _, hwaiters, _⟩ | hpermits
  · cases hwaiters
  · exact absurd hpermits.1 (by decide)

end SemaphoreUse
end Flz
