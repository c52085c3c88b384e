import Flz.Http.ConnectionPool

/-! # Limits of connection pools

The limits that `HttpConnectionPool` is constructed with, on its runs with a clock and with the
time at which every connection was created.
-/
namespace Flz
open Lib

/-- A pool; `born` is when a connection was created. -/
structure TimedPool where
  pool : HttpConnectionPool
  maxSize : ℕ
  clock : ℕ
  born : ℕ → ℕ

inductive TimedAction
  | tick (now : ℕ)
  | act (a : PoolAction)

/-- The clock reading of a step. -/
def PoolAction.reads : PoolAction → Option ℕ
  | .getConnection _ now | .release _ _ now => some now
  | _ => none

def PoolAction.creates : PoolAction → Bool
  | .connect _ ok => ok
  | _ => false

namespace HttpConnectionPool
variable {g g' : HttpConnectionPool} {a : PoolAction} {connected : ℕ → Bool} {now o : ℕ}

theorem takeLoop_eq (invalid : ℕ → Bool) (conns : List ℕ) : (takeLoop invalid conns).1 =
    conns.takeWhile invalid ∧ (takeLoop invalid conns).2.1 = conns.find? (!invalid ·) := by
  induction conns with
  | nil => exact ⟨rfl, rfl⟩
  | cons o conns ih =>
    rw [takeLoop]
    by_cases h : invalid o
    · simp [h, ih.1, ih.2]
    · simp [h]

/-- The call that a section of `getConnection` begins. -/
theorem getConnection_last (g : HttpConnectionPool) (connected : ℕ → Bool) (now : ℕ) :
    (g.getConnection connected now).calls.getLast? =
      some (.clearing (g.conns.takeWhile (g.invalid connected now))
        (g.conns.takeWhile (g.invalid connected now)).length
        (g.conns.find? (!g.invalid connected now ·))) := by
  have hloop := takeLoop_eq (g.invalid connected now) g.conns
  rw [← hloop.1, ← hloop.2]
  simp [getConnection, begin]

/-- No time of creation is set. -/
def Unset (g : HttpConnectionPool) : Prop := ∀ o, (g.objects o).createTime = 0

theorem Unset.step (h : g.Unset) (hs : Step g a g') : g'.Unset := by
  intro p
  cases hs with
  | @connect i ok hc =>
    cases ok with
    | false => exact h p
    | true =>
      simp only [HttpConnectionPool.connect, if_true, go, Function.update_apply]
      split
      · rfl
      · exact h p
  | @release i o connected now hc =>
    have hobjects : (g.release i o connected now).objects p =
        Function.update g.objects o { g.objects o with request := (g.objects o).request + 1 } p := by
      rw [HttpConnectionPool.release]
      split <;> rfl
    rw [hobjects, Function.update_apply]
    split
    · exact h o
    · exact h p
  | _ => exact h p

theorem Unset.invalid_iff (h : g.Unset) :
    g.invalid connected now o = true ↔ connected o = false ∨ now < g.maxAliveTime := by
  simp [HttpConnectionPool.invalid, h o]

/-- A step that creates a connection gives it the next number, and deletes none; another one creates none. -/
theorem Step.created_deleted (hs : Step g a g') :
    a.creates = true ∧ g'.created = g.created + 1 ∧ g'.deleted = g.deleted ∨
      a.creates = false ∧ g'.created = g.created ∧ g.deleted ⊆ g'.deleted := by
  cases hs with
  | @connect i ok hc =>
    cases ok with
    | false => exact .inr ⟨rfl, rfl, fun _ hp => hp⟩
    | true => exact .inl ⟨rfl, rfl, rfl⟩
  | clear hc => exact .inr ⟨rfl, rfl, List.subset_append_left _ _⟩
  | drop hc => exact .inr ⟨rfl, rfl, List.subset_append_left _ _⟩
  | @release i o connected now hc =>
    refine .inr ⟨rfl, ?_⟩
    rw [HttpConnectionPool.release]
    split <;> exact ⟨rfl, fun _ hp => hp⟩
  | _ => exact .inr ⟨rfl, rfl, fun _ hp => hp⟩

end HttpConnectionPool

namespace TimedPool

/-- `HttpConnectionPool(.., max_size, max_alive_time, max_request)`. -/
def new (maxSize maxAliveTime maxRequest : ℕ) : TimedPool where
  pool := .new maxAliveTime maxRequest
  maxSize := maxSize
  clock := 0
  born _ := 0

/-- The times of creation behind a step. -/
def bear (g : TimedPool) (a : PoolAction) : ℕ → ℕ :=
  if a.creates then Function.update g.born g.pool.created g.clock else g.born

inductive Step : TimedPool → TimedAction → TimedPool → Prop
  | tick {g : TimedPool} {now : ℕ} (h : g.clock ≤ now) : Step g (.tick now) { g with clock := now }
  | act {g : TimedPool} {a : PoolAction} {pool : HttpConnectionPool}
    (h : HttpConnectionPool.Step g.pool a pool) (hreads : ∀ now ∈ a.reads, now = g.clock) :
    Step g (.act a) { g with pool := pool, born := g.bear a }

/-- How many connections there are. -/
def live (g : TimedPool) : ℕ := (List.range g.pool.created).countP fun o => o ∉ g.pool.deleted

/-- A connection that is to be kept, when its requests are as many as given. -/
def Fit (g : TimedPool) (o : ℕ) (connected : Bool) (request : ℕ) : Prop :=
  connected = true ∧ request < g.pool.maxRequest ∧ g.clock < g.born o + g.pool.maxAliveTime

/-- A step that obeys the limits: no connection that is handed out is too old, one that is fit is
not given up in a section of `getConnection`, which takes one of the pool then, nor by its release,
and there are not too many. -/
structure Obeyed (g : TimedPool) (a : TimedAction) (g' : TimedPool) : Prop where
  young : ∀ connected now left invalid o, a = .act (.getConnection connected now) →
    g'.pool.calls.getLast? = some (.clearing left invalid (some o)) →
      g.clock ≤ g.born o + g.pool.maxAliveTime
  reused : ∀ connected now, a = .act (.getConnection connected now) →
    ∀ o ∈ g.pool.conns, g.Fit o (connected o) (g.pool.objects o).request →
      ∃ left invalid p, g'.pool.calls.getLast? = some (.clearing left invalid (some p)) ∧ o ∉ left
  kept : ∀ i connected now o, a = .act (.release i connected now) →
    g.pool.calls[i]? = some (.held o) → g.Fit o connected ((g.pool.objects o).request + 1) →
      g'.pool.calls[i]? = some (.returning o)
  bounded : g'.live ≤ g'.maxSize

/-- What the steps are given when the limits are obeyed although a connection counts as created
when the clock was started, and as old before its time is over. -/
def Spared (g : TimedPool) : TimedAction → Prop
  | .tick _ => True
  | .act (.getConnection connected now) =>
    if now < g.pool.maxAliveTime then
      ∀ o ∈ g.pool.conns, ¬ g.Fit o (connected o) (g.pool.objects o).request
    else ∀ o ∈ g.pool.conns.find? connected, now ≤ g.born o + g.pool.maxAliveTime
  | .act (.release i connected now) => now ≤ g.pool.maxAliveTime →
    ∀ o, g.pool.calls[i]? = some (.held o) → ¬ g.Fit o connected ((g.pool.objects o).request + 1)
  | .act (.connect _ ok) => ok = true → g.live < g.maxSize
  | .act _ => True

variable {g g' : TimedPool} {a : TimedAction}

/-- The invariant of the runs that obey the limits. -/
structure Limited (g : TimedPool) : Prop where
  accounted : g.pool.Accounted
  unset : g.pool.Unset
  bounded : g.live ≤ g.maxSize

/-- Only a connect makes more connections, one at a time. -/
theorem Limited.bounded_iff (h : g.Limited) {pool : HttpConnectionPool} {a : PoolAction}
    (hs : HttpConnectionPool.Step g.pool a pool) (born : ℕ → ℕ) :
    ({ g with pool := pool, born := born } : TimedPool).live ≤ g.maxSize ↔
      (a.creates = true → g.live < g.maxSize) := by
  obtain ⟨hcreates, hcreated, hdeleted⟩ | ⟨hcreates, hcreated, hdeleted⟩ := hs.created_deleted
  · have hnew : g.pool.created ∉ g.pool.deleted := by
      have hcopies := h.accounted.copies g.pool.created
      rw [if_neg (Nat.lt_irrefl _), HttpConnectionPool.copies] at hcopies
      exact List.count_eq_zero.mp (by omega)
    simp [live, hcreated, hdeleted, List.range_succ, List.countP_append, hnew, hcreates, Nat.succ_le_iff]
  · have hle : ({ g with pool := pool, born := born } : TimedPool).live ≤ g.live := by
      rw [live, live]
      dsimp only
      rw [hcreated]
      refine List.countP_mono_left fun p _ hp => ?_
      simp only [decide_eq_true_eq] at hp ⊢
      exact fun hdel => hp (hdeleted hdel)
    simp [hcreates, hle.trans h.bounded]

/-- What the limits say of a section of `getConnection` that takes `ptr` and gives up `out`. -/
theorem obeyed_taking_iff {connected : ℕ → Bool} {now invalid : ℕ} {out : List ℕ} {ptr : Option ℕ}
    (hlast : g'.pool.calls.getLast? = some (.clearing out invalid ptr)) (hlive : g'.live ≤ g'.maxSize) :
    Obeyed g (.act (.getConnection connected now)) g' ↔
      (∀ o ∈ ptr, g.clock ≤ g.born o + g.pool.maxAliveTime) ∧
        ∀ o ∈ g.pool.conns, g.Fit o (connected o) (g.pool.objects o).request → ptr.isSome ∧ o ∉ out := by
  constructor
  · intro h
    refine ⟨fun o ho => ?_, fun o ho hfit => ?_⟩
    · cases ho
      exact h.young connected now out invalid o rfl hlast
    · obtain ⟨left, invalid', p, hp, hleft⟩ := h.reused connected now rfl o ho hfit
      rw [hlast] at hp
      cases hp
      exact ⟨rfl, hleft⟩
  · rintro ⟨hyoung, hreused⟩
    refine ⟨?_, ?_, nofun, hlive⟩
    · rintro _ _ left invalid' o - hp
      rw [hlast] at hp
      cases hp
      exact hyoung o rfl
    · rintro _ _ ⟨⟩ o ho hfit
      obtain ⟨hptr, hout⟩ := hreused o ho hfit
      obtain ⟨p, rfl⟩ := Option.isSome_iff_exists.mp hptr
      exact ⟨out, invalid, p, hlast, hout⟩

theorem Limited.obeyed_getConnection (h : g.Limited) (connected : ℕ → Bool)
    (hcalls : g'.pool.calls = (g.pool.getConnection connected g.clock).calls)
    (hlive : g'.live ≤ g'.maxSize) :
    Obeyed g (.act (.getConnection connected g.clock)) g' ↔
      g.Spared (.act (.getConnection connected g.clock)) := by
  have hlast := g.pool.getConnection_last connected g.clock
  rw [← hcalls] at hlast
  rw [obeyed_taking_iff hlast hlive]
  simp only [Spared]
  split
  · rename_i hearly
    have hinvalid : ∀ o, g.pool.invalid connected g.clock o = true := fun o =>
      h.unset.invalid_iff.mpr (.inr hearly)
    have hptr : g.pool.conns.find? (!g.pool.invalid connected g.clock ·) = none :=
      List.find?_eq_none.mpr fun o _ => by simp [hinvalid o]
    simp [hptr]
  · rename_i hlate
    have hinvalid : g.pool.invalid connected g.clock = fun o => !connected o := by
      funext o
      rw [Bool.eq_iff_iff, h.unset.invalid_iff]
      simp [hlate]
    simp only [hinvalid, Bool.not_not]
    refine and_iff_left fun o ho hfit => ⟨List.find?_isSome.mpr ⟨o, ho, hfit.1⟩, fun hout => ?_⟩
    have hnot := List.all_eq_true.mp List.all_takeWhile o hout
    rw [hfit.1] at hnot
    cases hnot

/-- What the limits say of a release. -/
theorem Limited.obeyed_release (h : g.Limited) {i o : ℕ} (hc : g.pool.calls[i]? = some (.held o))
    (connected : Bool) (hcalls : g'.pool.calls = (g.pool.release i o connected g.clock).calls)
    (hlive : g'.live ≤ g'.maxSize) :
    Obeyed g (.act (.release i connected g.clock)) g' ↔
      g.Spared (.act (.release i connected g.clock)) := by
  have hlt := (List.getElem?_eq_some_iff.mp hc).1
  have hcall : g'.pool.calls[i]? = some (if connected = false ∨ g.clock ≤ g.pool.maxAliveTime ∨
      g.pool.maxRequest ≤ (g.pool.objects o).request + 1 then .dropping o else .returning o) := by
    rw [hcalls, HttpConnectionPool.release]
    simp only [h.unset o, Nat.zero_add, Bool.or_eq_true, Bool.not_eq_true', decide_eq_true_eq, ge_iff_le,
      or_assoc]
    split <;> simp [HttpConnectionPool.go, hlt]
  constructor
  · intro hobeyed hearly p hp hfit
    obtain rfl : o = p := by
      rw [hc] at hp
      cases hp
      rfl
    have hkept := hobeyed.kept i connected g.clock o rfl hc hfit
    rw [hcall, if_pos (.inr (.inl hearly))] at hkept
    cases hkept
  · intro hspared
    refine ⟨?_, ?_, ?_, hlive⟩
    · rintro _ _ _ _ _ ⟨⟩
    · rintro _ _ ⟨⟩
    rintro _ _ _ p ⟨⟩ hp hfit
    obtain rfl : o = p := by
      rw [hc] at hp
      cases hp
      rfl
    rw [hcall, if_neg]
    rintro (hconnected | hearly | hrequest)
    · exact absurd hfit.1 (by simp [hconnected])
    · exact hspared hearly o hc hfit
    · exact absurd hfit.2.1 (Nat.not_lt_of_le hrequest)

/-- The steps that obey the limits. -/
theorem Limited.obeyed_iff (h : g.Limited) (hs : Step g a g') : Obeyed g a g' ↔ g.Spared a := by
  cases hs with
  | tick hclock => exact iff_of_true ⟨nofun, nofun, nofun, h.bounded⟩ trivial
  | @act a pool hs hreads =>
    have hlive := h.bounded_iff hs (g.bear a)
    cases hs with
    | getConnection connected now =>
      obtain rfl := hreads now rfl
      exact h.obeyed_getConnection connected rfl (hlive.mpr nofun)
    | @release i o connected now hc =>
      obtain rfl := hreads now rfl
      refine h.obeyed_release hc connected rfl (hlive.mpr nofun)
    | connect ok hc => exact ⟨fun hobeyed => hlive.mp hobeyed.bounded, fun hok => ⟨nofun, nofun, nofun, hlive.mpr hok⟩⟩
    | _ => exact iff_of_true ⟨nofun, nofun, nofun, hlive.mpr nofun⟩ trivial

/-- The runs that obey the limits are those whose steps are spared. -/
theorem obeyed_iff_spared {maxSize maxAliveTime maxRequest : ℕ} {as : List TimedAction} :
    Run (fun g a g' => Step g a g' ∧ Obeyed g a g') (new maxSize maxAliveTime maxRequest) as g ↔
      Run (fun g a g' => Step g a g' ∧ g.Spared a) (new maxSize maxAliveTime maxRequest) as g := by
  refine Run.congr (P := Limited) (fun t a u ht => ?_) (fun t a u ht hs => ?_) ?_
  · exact and_congr_right fun hs => ht.obeyed_iff hs
  · obtain ⟨hs, hobeyed⟩ := hs
    refine ⟨?_, ?_, hobeyed.bounded⟩
    · cases hs with
      | tick hclock => exact ht.accounted
      | act hs hreads => exact ht.accounted.step hs
    · cases hs with
      | tick hclock => exact ht.unset
      | act hs hreads => exact ht.unset.step hs
  · exact ⟨HttpConnectionPool.accounted_new _ _, fun _ => rfl, Nat.zero_le _⟩

/-- What a section of `getConnection` that obeys the limits takes is not too old behind it either. -/
theorem Obeyed.young_behind {connected : ℕ → Bool} {now invalid o : ℕ} {left : List ℕ}
    (h : Obeyed g (.act (.getConnection connected now)) g')
    (hs : Step g (.act (.getConnection connected now)) g')
    (hlast : g'.pool.calls.getLast? = some (.clearing left invalid (some o))) :
    g'.clock ≤ g'.born o + g'.pool.maxAliveTime := by
  have hyoung := h.young connected now left invalid o rfl hlast
  cases hs with
  | act hs hreads =>
    cases hs
    exact hyoung

/-- A connection that was created at 50 is taken at 70, although it may only be 10 old. -/
theorem stale_taken : ∃ as g, Run Step (new 1 10 2) as g ∧
    ¬ Run (fun g a g' => Step g a g' ∧ Obeyed g a g') (new 1 10 2) as g := by
  have hrun := Run.nil.snoc (s := new 1 10 2) (Step.tick (show 0 ≤ 50 by decide))
  have hrun := hrun.snoc (.act (.getConnection (fun _ => true) 50) (by rintro now ⟨⟩; rfl))
  have hrun := hrun.snoc (.act (.uncountInvalid (i := 0) rfl) nofun)
  have hrun := hrun.snoc (.act (.connect (i := 0) true rfl) nofun)
  have hrun := hrun.snoc (.act (.count (i := 0) rfl) nofun)
  have hrun := hrun.snoc (.act (.release (i := 0) true 50 rfl) (by rintro now ⟨⟩; rfl))
  have hrun := hrun.snoc (.act (.giveBack (i := 0) rfl) nofun)
  have hrun := hrun.snoc (.tick (show 50 ≤ 70 by decide))
  have hrun := hrun.snoc (.act (.getConnection (fun _ => true) 70) (by rintro now ⟨⟩; rfl))
  refine ⟨_, _, hrun, fun h => ?_⟩
  obtain ⟨t, -, hs, hobeyed⟩ := Run.snoc_iff.mp h
  exact absurd (hobeyed.young_behind hs rfl) (by decide)

end TimedPool
end Flz
