import Flz.Scheduler.Rounds
import Mathlib.Algebra.BigOperators.Group.Finset.Piecewise
import Mathlib.Data.List.Nodup

/-! # Entries and their workers

Every entry is in the queue or has been removed, once and by one worker, which starts it; the
active workers are counted. With the fibers, this makes the scheduler exclusive.
-/
namespace Flz
open Lib

/-- The entry that the worker has removed and not started yet. -/
def WorkerPoint.pending : WorkerPoint → Option Entry
  | .chosen e | .round .resuming e _ => some e
  | _ => none

/-- Between the removal of an entry and the return of `swapIn()`. -/
def WorkerPoint.active : WorkerPoint → Bool
  | .chosen _ | .dropping => true
  | .round .resuming _ _ | .round .executing _ _ | .round .leaving _ _ | .round .returning _ _ => true
  | _ => false

namespace Scheduler

/-- How many workers are active. -/
def active (s : Scheduler) : ℕ := ((Finset.range s.workers).filter fun w => (s.points w).active = true).card

/-- Worker `w` is in the code of fiber `f`. -/
def Executes (s : Scheduler) (w f : ℕ) : Prop :=
  ∃ e, s.points w = .round .executing e f ∨ s.points w = .round .leaving e f

/-- What has become of the entries. -/
structure Ledger (s : Scheduler) (k : Watch) : Prop where
  serials : (s.fibers.map Entry.serial ++ k.removed.map fun x => x.1.serial).Perm (List.range s.count)
  pinned : ∀ x ∈ k.removed, x.1.thread = none ∨ x.1.thread = some x.2
  pending : ∀ w e, (s.points w).pending = some e → (e, w) ∈ k.removed ∧ (e, w) ∉ k.started
  removed : ∀ x ∈ k.removed, x ∈ k.started ∨ (s.points x.2).pending = some x.1
  started : ∀ x ∈ k.started, x ∈ k.removed
  once : (k.started.map fun x => x.1.serial).Nodup

/-- The active workers are counted, and who is not a worker does nothing. -/
structure Counted (s : Scheduler) : Prop where
  active : s.activeThreadCount = s.active
  out : ∀ w, s.workers ≤ w → s.points w = .out

/-- A step in which only worker `w` goes on. -/
structure Turn (s : Scheduler) (w : ℕ) (t : Scheduler) : Prop where
  others : ∀ v, v ≠ w → t.points v = s.points v
  threadCount : t.threadCount = s.threadCount
  useCaller : t.useCaller = s.useCaller

/-- The entries stay. -/
structure Keeps (s t : Scheduler) : Prop where
  fibers : t.fibers = s.fibers
  count : t.count = s.count

section
variable {s t : Scheduler} {k k' : Watch} {v w f : ℕ} {e : Entry} {p : WorkerPoint} {a : Action}
  {task : Task} {thread : Option ℕ} {phase : Phase}

/-! ## What the steps of a worker do -/

theorem turn_go {t : Scheduler} (hpoints : t.points = s.points) (hthreads : t.threadCount = s.threadCount)
    (hcaller : t.useCaller = s.useCaller) : s.Turn w (t.go w p) where
  others v hv := by rw [go_points_of_ne hv, hpoints]
  threadCount := hthreads
  useCaller := hcaller

theorem turn_self : s.Turn w s where
  others _ _ := rfl
  threadCount := rfl
  useCaller := rfl

theorem turn_pop : s.Turn w (s.pop w) := by
  rw [pop]
  split
  · exact turn_go rfl rfl rfl
  · exact turn_go rfl rfl rfl

theorem turn_choose : s.Turn w (s.choose w e) := by
  rw [choose]
  split
  · split
    · exact turn_go rfl rfl rfl
    · exact turn_go rfl rfl rfl
  · split
    · exact turn_go rfl rfl rfl
    · exact turn_go rfl rfl rfl

theorem keeps_choose : s.Keeps (s.choose w e) := by
  rw [choose]
  split
  · split
    · exact ⟨rfl, rfl⟩
    · exact ⟨rfl, rfl⟩
  · split
    · exact ⟨rfl, rfl⟩
    · exact ⟨rfl, rfl⟩

theorem choose_active : ((s.choose w e).points w).active = true ∧
    (s.choose w e).activeThreadCount = s.activeThreadCount := by
  rw [choose]
  split
  · split
    · exact ⟨by rw [go_points_self]; rfl, rfl⟩
    · exact ⟨by rw [go_points_self]; rfl, rfl⟩
  · split
    · exact ⟨by rw [go_points_self]; rfl, rfl⟩
    · exact ⟨by rw [go_points_self]; rfl, rfl⟩

theorem choose_pending (hp : s.points w = .chosen e) (h : s.Safe k) :
    ((s.choose w e).points w).pending = some e := by
  obtain ⟨serial, task, thread⟩ := e
  cases task with
  | fiber f =>
    have htaken : (s.standing k f).Taken := (h f).allows_at hp rfl
    have hchoose : s.choose w ⟨serial, .fiber f, thread⟩ =
        s.go w (.round .resuming ⟨serial, .fiber f, thread⟩ f) := if_pos htaken.waits.not_ended
    rw [hchoose, go_points_self]
    rfl
  | cb c =>
    rw [choose]
    dsimp only
    split
    · rw [go_points_self]
      rfl
    · rw [go_points_self]
      rfl

theorem turn_swapIn : s.Turn w (s.swapIn w e f) := by
  rw [swapIn]
  split
  · exact turn_go rfl rfl rfl
  · exact turn_go rfl rfl rfl

theorem swapIn_active : ((s.swapIn w e f).points w).active = true ∧
    (s.swapIn w e f).activeThreadCount = s.activeThreadCount := by
  rw [swapIn]
  split
  · exact ⟨by rw [go_points_self]; rfl, rfl⟩
  · exact ⟨by rw [go_points_self]; rfl, rfl⟩

theorem turn_YieldToReady : s.Turn w (s.YieldToReady w e f) := by
  rw [YieldToReady]
  split
  · exact turn_self
  · exact turn_go rfl rfl rfl

theorem YieldToReady_point (hp : s.points w = .round .executing e f) :
    ((s.YieldToReady w e f).points w).active = true ∧ ((s.YieldToReady w e f).points w).pending = none ∧
      (s.YieldToReady w e f).activeThreadCount = s.activeThreadCount ∧ s.Keeps (s.YieldToReady w e f) := by
  rw [YieldToReady]
  split
  · exact ⟨by rw [hp]; rfl, by rw [hp]; rfl, rfl, rfl, rfl⟩
  · exact ⟨by rw [go_points_self]; rfl, by rw [go_points_self]; rfl, rfl, rfl, rfl⟩

theorem turn_YieldToHold : s.Turn w (s.YieldToHold w e f) := by
  rw [YieldToHold]
  split
  · exact turn_self
  · exact turn_go rfl rfl rfl

theorem YieldToHold_point (hp : s.points w = .round .executing e f) :
    ((s.YieldToHold w e f).points w).active = true ∧ ((s.YieldToHold w e f).points w).pending = none ∧
      (s.YieldToHold w e f).activeThreadCount = s.activeThreadCount ∧ s.Keeps (s.YieldToHold w e f) := by
  rw [YieldToHold]
  split
  · exact ⟨by rw [hp]; rfl, by rw [hp]; rfl, rfl, rfl, rfl⟩
  · exact ⟨by rw [go_points_self]; rfl, by rw [go_points_self]; rfl, rfl, rfl, rfl⟩

theorem turn_settle : s.Turn w (s.settle w e f) := by
  rw [settle]
  split
  · exact turn_go rfl rfl rfl
  split
  · exact turn_go rfl rfl rfl
  split
  · exact turn_go rfl rfl rfl
  · exact turn_go rfl rfl rfl

theorem settle_point : ((s.settle w e f).points w).active = false ∧ ((s.settle w e f).points w).pending = none ∧
    (s.settle w e f).activeThreadCount = s.activeThreadCount ∧ s.Keeps (s.settle w e f) := by
  rw [settle]
  split
  · exact ⟨by rw [go_points_self]; rfl, by rw [go_points_self]; rfl, rfl, rfl, rfl⟩
  split
  · exact ⟨by rw [go_points_self]; rfl, by rw [go_points_self]; rfl, rfl, rfl, rfl⟩
  split
  · exact ⟨by rw [go_points_self]; rfl, by rw [go_points_self]; rfl, rfl, rfl, rfl⟩
  · exact ⟨by rw [go_points_self]; rfl, by rw [go_points_self]; rfl, rfl, rfl, rfl⟩

theorem turn_release : s.Turn w (s.release w e) := by
  rw [release]
  split
  · exact turn_go rfl rfl rfl
  · exact turn_go rfl rfl rfl

theorem release_point : (s.release w e).points w = .top ∧
    (s.release w e).activeThreadCount = s.activeThreadCount ∧ s.Keeps (s.release w e) := by
  rw [release]
  split
  · exact ⟨go_points_self, rfl, rfl, rfl⟩
  · exact ⟨go_points_self, rfl, rfl, rfl⟩

theorem turn_idleIn : s.Turn w (s.idleIn w) := by
  rw [idleIn]
  split
  · exact turn_go rfl rfl rfl
  · exact turn_go rfl rfl rfl

theorem idleIn_point : ((s.idleIn w).points w).active = false ∧ ((s.idleIn w).points w).pending = none ∧
    (s.idleIn w).activeThreadCount = s.activeThreadCount ∧ s.Keeps (s.idleIn w) := by
  rw [idleIn]
  split
  · exact ⟨by rw [go_points_self]; rfl, by rw [go_points_self]; rfl, rfl, rfl, rfl⟩
  · exact ⟨by rw [go_points_self]; rfl, by rw [go_points_self]; rfl, rfl, rfl, rfl⟩

theorem turn_idle : s.Turn w (s.idle w) := by
  rw [idle]
  split
  · exact turn_go rfl rfl rfl
  · exact turn_go rfl rfl rfl

theorem idle_point : (s.idle w).points w = .idled ∧
    (s.idle w).activeThreadCount = s.activeThreadCount ∧ s.Keeps (s.idle w) := by
  rw [idle]
  split
  · exact ⟨go_points_self, rfl, rfl, rfl⟩
  · exact ⟨go_points_self, rfl, rfl, rfl⟩

/-! ## The ledger -/

theorem Ledger.serial_inj (h : s.Ledger k) {x y : Entry × ℕ} (hx : x ∈ k.removed) (hy : y ∈ k.removed)
    (heq : x.1.serial = y.1.serial) : x = y := by
  have hnodup := (h.serials.nodup_iff.mpr List.nodup_range).of_append_right
  exact List.inj_on_of_nodup_map hnodup hx hy heq

/-- A step that neither removes nor starts an entry. -/
theorem Ledger.still (h : s.Ledger k) (hkeeps : s.Keeps t)
    (hpending : ∀ v, (t.points v).pending = (s.points v).pending)
    (hlists : k'.removed = k.removed ∧ k'.started = k.started) : t.Ledger k' where
  serials := by
    rw [hkeeps.fibers, hkeeps.count, hlists.1]
    exact h.serials
  pinned := by
    rw [hlists.1]
    exact h.pinned
  pending v e hp := by
    rw [hlists.1, hlists.2]
    exact h.pending v e ((hpending v).symm.trans hp)
  removed x hx := by
    rw [hlists.1] at hx
    rw [hlists.2, hpending]
    exact h.removed x hx
  started := by
    rw [hlists.1, hlists.2]
    exact h.started
  once := by
    rw [hlists.2]
    exact h.once

/-- A worker goes on with the same entry or none. -/
theorem Turn.pending (h : s.Turn w t) (hp : (t.points w).pending = (s.points w).pending) (v : ℕ) :
    (t.points v).pending = (s.points v).pending := by
  by_cases hvw : v = w
  · rw [hvw]
    exact hp
  · rw [h.others v hvw]

theorem Ledger.schedule (h : s.Ledger k) : (s.schedule task thread).Ledger k where
  serials := by
    have hrange : List.range (s.count + 1) = List.range s.count ++ [s.count] := List.range_succ
    rw [Scheduler.schedule, List.map_append, hrange, List.append_assoc]
    refine (List.Perm.append_left _ List.perm_append_comm).trans ?_
    rw [← List.append_assoc]
    exact h.serials.append_right [s.count]
  pinned := h.pinned
  pending := h.pending
  removed := h.removed
  started := h.started
  once := h.once

theorem Ledger.pop (h : s.Ledger k) (hp : s.points w = .top) : (s.pop w).Ledger (k.after s (.pop w)) := by
  have hturn : s.Turn w (s.pop w) := turn_pop
  rw [Scheduler.pop] at hturn ⊢
  rw [Watch.after]
  cases hscan : scan (s.suits w) s.fibers with
  | none =>
    rw [hscan] at hturn
    exact h.still ⟨rfl, rfl⟩ (hturn.pending (by rw [hp, go_points_self]; rfl)) ⟨rfl, rfl⟩
  | some found =>
    rw [hscan] at hturn
    obtain ⟨e, fibers⟩ := found
    obtain ⟨hsuits, hperm⟩ := scan_spec hscan
    dsimp only at hturn ⊢
    have hserials : (fibers.map Entry.serial ++ (k.removed ++ [(e, w)]).map fun x => x.1.serial).Perm
        (List.range s.count) := by
      refine List.Perm.trans ?_ h.serials
      rw [List.map_append, ← List.append_assoc]
      refine List.perm_append_comm.trans ?_
      exact ((hperm.map Entry.serial).append_right _).symm
    have hnew : (e, w) ∉ k.removed := by
      intro hmem
      have hnodup := (hserials.nodup_iff.mpr List.nodup_range).of_append_right
      rw [List.map_append, List.nodup_append] at hnodup
      exact hnodup.2.2 _ (List.mem_map_of_mem hmem) _ List.mem_cons_self rfl
    refine ⟨hserials, fun x hx => ?_, fun v e' hpending => ?_, fun x hx => ?_, fun x hx => ?_, h.once⟩
    · rcases List.mem_append.mp hx with hx | hx
      · exact h.pinned x hx
      · obtain rfl := List.mem_singleton.mp hx
        rw [suits, Bool.and_eq_true, Bool.or_eq_true] at hsuits
        exact hsuits.1.imp eq_of_beq eq_of_beq
    · by_cases hvw : v = w
      · subst hvw
        rw [go_points_self] at hpending
        obtain rfl := Option.some.inj hpending
        exact ⟨List.mem_append_right _ List.mem_cons_self, fun hmem => hnew (h.started _ hmem)⟩
      · rw [hturn.others v hvw] at hpending
        obtain ⟨hmem, hnot⟩ := h.pending v e' hpending
        exact ⟨List.mem_append_left _ hmem, hnot⟩
    · rcases List.mem_append.mp hx with hx | hx
      · refine (h.removed x hx).imp id (fun hpending => ?_)
        have hne : x.2 ≠ w := by
          intro heq
          rw [heq, hp] at hpending
          cases hpending
        rw [hturn.others _ hne]
        exact hpending
      · obtain rfl := List.mem_singleton.mp hx
        refine .inr ?_
        rw [go_points_self]
        rfl
    · exact List.mem_append_left _ (h.started x hx)

theorem Ledger.swapIn (h : s.Ledger k) (hsafe : s.Safe k) (hp : s.points w = .round .resuming e f) :
    (s.swapIn w e f).Ledger (k.after s (.swapIn w)) := by
  obtain ⟨hstate, hafter⟩ := hsafe.after_swapIn hp
  obtain ⟨hremoved, hnot⟩ := h.pending w e (by rw [hp]; rfl)
  rw [hafter, Scheduler.swapIn, if_neg hstate]
  refine ⟨h.serials, h.pinned, fun v e' hv => ?_, fun x hx => ?_, fun x hx => ?_, ?_⟩
  · by_cases hvw : v = w
    · subst hvw
      rw [go_points_self] at hv
      cases hv
    · rw [go_points_of_ne hvw] at hv
      obtain ⟨hmem, hnot'⟩ := h.pending v e' hv
      refine ⟨hmem, fun hstarted => ?_⟩
      rcases List.mem_append.mp hstarted with hold | hnew
      · exact hnot' hold
      · obtain ⟨-, hvw'⟩ := Prod.mk.inj (List.mem_singleton.mp hnew)
        exact hvw hvw'
  · rcases h.removed x hx with hstarted | hpending
    · exact .inl (List.mem_append_left _ hstarted)
    · by_cases hxw : x.2 = w
      · refine .inl (List.mem_append_right _ (List.mem_singleton.mpr ?_))
        rw [hxw, hp] at hpending
        exact Prod.ext (Option.some.inj hpending).symm hxw
      · rw [go_points_of_ne hxw]
        exact .inr hpending
  · rcases List.mem_append.mp hx with hold | hnew
    · exact h.started x hold
    · rw [List.mem_singleton.mp hnew]
      exact hremoved
  · rw [List.map_append, List.nodup_append]
    refine ⟨h.once, List.nodup_singleton _, fun n hn m hm => ?_⟩
    obtain ⟨x, hx, rfl⟩ := List.mem_map.mp hn
    obtain rfl := List.mem_singleton.mp hm
    intro heq
    have hsame := h.serial_inj (h.started x hx) hremoved heq
    rw [hsame] at hx
    exact hnot hx

/-- Only the removal and the start of an entry go into the lists. -/
theorem after_lists (hpop : ∀ w, a ≠ .pop w) (hswap : ∀ w, a ≠ .swapIn w) :
    (k.after s a).removed = k.removed ∧ (k.after s a).started = k.started := by
  cases a with
  | schedule task thread => cases task <;> exact ⟨rfl, rfl⟩
  | pop w => exact absurd rfl (hpop w)
  | swapIn w => exact absurd rfl (hswap w)
  | choose w | YieldToReady w | finish w =>
    rw [Watch.after]
    split
    · exact ⟨rfl, rfl⟩
    · exact ⟨rfl, rfl⟩
  | _ => exact ⟨rfl, rfl⟩

theorem Ledger.step {x y : Scheduler × Watch} (h : x.1.Ledger x.2) (hsafe : x.1.Safe x.2)
    (hstep : WatchedStep x a y) : y.1.Ledger y.2 := by
  obtain ⟨s, k⟩ := x
  obtain ⟨t, k'⟩ := y
  obtain ⟨hs, hk, -⟩ := hstep
  dsimp only at h hsafe hs hk ⊢
  subst hk
  have hlists (hpop : ∀ w, a ≠ .pop w) (hswap : ∀ w, a ≠ .swapIn w) :
      (k.after s a).removed = k.removed ∧ (k.after s a).started = k.started := after_lists hpop hswap
  cases hs with
  | newFiber => exact h.still ⟨rfl, rfl⟩ (fun _ => rfl) ⟨rfl, rfl⟩
  | schedule task thread =>
    have hsched : (s.schedule task thread).Ledger k := h.schedule
    exact hsched.still ⟨rfl, rfl⟩ (fun _ => rfl) (hlists (fun _ => nofun) (fun _ => nofun))
  | requestStop => exact h.still ⟨rfl, rfl⟩ (fun _ => rfl) ⟨rfl, rfl⟩
  | callRoot hroot hstop hout hnot =>
    exact h.still ⟨rfl, rfl⟩ ((turn_go rfl rfl rfl).pending (by rw [go_points_self, hout]; rfl)) ⟨rfl, rfl⟩
  | pop hp => exact h.pop hp
  | choose hp =>
    refine h.still keeps_choose (turn_choose.pending ?_) (hlists (fun _ => nofun) (fun _ => nofun))
    rw [choose_pending hp hsafe, hp]
    rfl
  | drop hp =>
    exact h.still ⟨rfl, rfl⟩ (Turn.pending (t := s.uncount _ _) (turn_go rfl rfl rfl) (by rw [uncount, go_points_self, hp]; rfl)) ⟨rfl, rfl⟩
  | swapIn hp => exact h.swapIn hsafe hp
  | YieldToReady hp =>
    obtain ⟨-, hpending, -, hkeeps⟩ := YieldToReady_point hp
    exact h.still hkeeps (turn_YieldToReady.pending (by rw [hpending, hp]; rfl)) (hlists (fun _ => nofun) (fun _ => nofun))
  | YieldToHold hp =>
    obtain ⟨-, hpending, -, hkeeps⟩ := YieldToHold_point hp
    exact h.still hkeeps (turn_YieldToHold.pending (by rw [hpending, hp]; rfl)) ⟨rfl, rfl⟩
  | finish thrown hp =>
    refine h.still ⟨rfl, rfl⟩ (Turn.pending (s := s) (t := s.finish _ _ _ thrown) (turn_go rfl rfl rfl) ?_)
      (hlists (fun _ => nofun) (fun _ => nofun))
    rw [finish, go_points_self, hp]
    rfl
  | swapOut hp =>
    exact h.still ⟨rfl, rfl⟩ ((turn_go rfl rfl rfl).pending (by rw [go_points_self, hp]; rfl)) ⟨rfl, rfl⟩
  | uncount hp =>
    exact h.still ⟨rfl, rfl⟩ (Turn.pending (t := s.uncount _ _) (turn_go rfl rfl rfl) (by rw [uncount, go_points_self, hp]; rfl)) ⟨rfl, rfl⟩
  | settle hp =>
    obtain ⟨-, hpending, -, hkeeps⟩ := settle_point
    exact h.still hkeeps (turn_settle.pending (by rw [hpending, hp]; rfl)) ⟨rfl, rfl⟩
  | reschedule hp =>
    obtain ⟨hpoint, -, hkeeps⟩ := release_point
    refine h.schedule.still hkeeps (turn_release.pending ?_) ⟨rfl, rfl⟩
    rw [hpoint]
    exact (congrArg WorkerPoint.pending hp).symm
  | hold hp =>
    obtain ⟨hpoint, -, hkeeps⟩ := release_point
    refine h.still ⟨hkeeps.fibers, hkeeps.count⟩ (turn_release.pending ?_) ⟨rfl, rfl⟩
    rw [hpoint]
    exact (congrArg WorkerPoint.pending hp).symm
  | idleIn hp =>
    obtain ⟨-, hpending, -, hkeeps⟩ := idleIn_point
    exact h.still hkeeps (turn_idleIn.pending (by rw [hpending, hp]; rfl)) ⟨rfl, rfl⟩
  | idle hp =>
    obtain ⟨hpoint, -, hkeeps⟩ := idle_point
    exact h.still hkeeps (turn_idle.pending (by rw [hpoint, hp]; rfl)) ⟨rfl, rfl⟩
  | idleOut hp =>
    exact h.still ⟨rfl, rfl⟩ (Turn.pending (t := s.idleOut _) (turn_go rfl rfl rfl) (by rw [idleOut, go_points_self, hp]; rfl)) ⟨rfl, rfl⟩

/-! ## The count -/

theorem Turn.workers (h : s.Turn w t) : t.workers = s.workers := by
  rw [Scheduler.workers, Scheduler.workers, h.threadCount, h.useCaller]

theorem Turn.active (h : s.Turn w t) (hw : w < s.workers) :
    t.active + ((s.points w).active).toNat = s.active + ((t.points w).active).toNat := by
  have hmem : w ∈ Finset.range s.workers := Finset.mem_range.mpr hw
  have hsum (t : Scheduler) (ht : t.workers = s.workers) : t.active =
      (t.points w).active.toNat + ∑ v ∈ (Finset.range s.workers).erase w, (t.points v).active.toNat := by
    rw [Finset.add_sum_erase _ (fun v => (t.points v).active.toNat) hmem, Scheduler.active, ht,
      Finset.card_filter]
    refine Finset.sum_congr rfl (fun v _ => ?_)
    cases (t.points v).active <;> rfl
  have hrest : ∑ v ∈ (Finset.range s.workers).erase w, (t.points v).active.toNat =
      ∑ v ∈ (Finset.range s.workers).erase w, (s.points v).active.toNat := by
    refine Finset.sum_congr rfl (fun v hv => ?_)
    rw [h.others v (Finset.ne_of_mem_erase hv)]
  rw [hsum t h.workers, hsum s rfl, hrest]
  omega

theorem Counted.lt (h : s.Counted) (hp : s.points w = p) (hne : p ≠ .out) : w < s.workers := by
  by_contra hge
  exact hne (hp.symm.trans (h.out w (Nat.le_of_not_lt hge)))

theorem Counted.turn (h : s.Counted) (hturn : s.Turn w t) (hw : w < s.workers)
    (hcount : t.activeThreadCount + ((s.points w).active).toNat =
      s.activeThreadCount + ((t.points w).active).toNat) : t.Counted where
  active := by
    have hactive := hturn.active hw
    have hcounted := h.active
    omega
  out v hv := by
    rw [hturn.workers] at hv
    rw [hturn.others v (by omega)]
    exact h.out v hv

theorem Counted.pos (h : s.Counted) (hw : w < s.workers) (hactive : (s.points w).active = true) :
    0 < s.activeThreadCount := by
  rw [h.active, Scheduler.active, Finset.card_pos]
  exact ⟨w, Finset.mem_filter.mpr ⟨Finset.mem_range.mpr hw, hactive⟩⟩

theorem Counted.uncount (h : s.Counted) (hw : w < s.workers) (hbefore : (s.points w).active = true)
    (hafter : p.active = false) : (s.uncount w p).Counted := by
  refine h.turn (turn_go rfl rfl rfl) hw ?_
  have hpos := h.pos hw hbefore
  rw [Scheduler.uncount, go_points_self, hbefore, hafter]
  change s.activeThreadCount - 1 + 1 = s.activeThreadCount + 0
  omega

theorem Counted.pop (h : s.Counted) (hp : s.points w = .top) : (s.pop w).Counted := by
  refine h.turn turn_pop (h.lt hp (by decide)) ?_
  rw [hp, Scheduler.pop]
  split
  · rw [go_points_self]
    rfl
  · rw [go_points_self]
    rfl

theorem Counted.release (h : s.Counted) (hw : w < s.workers) (hactive : (s.points w).active = false) :
    (s.release w e).Counted := by
  obtain ⟨hpoint, hcount, -⟩ := release_point (s := s) (w := w) (e := e)
  refine h.turn turn_release hw ?_
  rw [hpoint, hcount, hactive]
  rfl

theorem Counted.step (h : s.Counted) (hstep : s.Step a t) : t.Counted := by
  cases hstep with
  | newFiber | schedule | requestStop => exact ⟨h.active, h.out⟩
  | callRoot hroot hstop hout hnot =>
    have hw : s.threadCount < s.workers := by
      rw [workers, hroot]
      exact Nat.lt_succ_self _
    refine h.turn (turn_go rfl rfl rfl) hw ?_
    rw [go_points_self, hout]
    rfl
  | pop hp => exact h.pop hp
  | choose hp =>
    obtain ⟨hactive, hcount⟩ := choose_active
    refine h.turn turn_choose (h.lt hp nofun) ?_
    rw [hactive, hcount, hp]
    rfl
  | drop hp => exact h.uncount (h.lt hp nofun) (by rw [hp]; rfl) rfl
  | swapIn hp =>
    obtain ⟨hactive, hcount⟩ := swapIn_active
    refine h.turn turn_swapIn (h.lt hp nofun) ?_
    rw [hactive, hcount, hp]
    rfl
  | YieldToReady hp =>
    obtain ⟨hactive, -, hcount, -⟩ := YieldToReady_point hp
    refine h.turn turn_YieldToReady (h.lt hp nofun) ?_
    rw [hactive, hcount, hp]
    rfl
  | YieldToHold hp =>
    obtain ⟨hactive, -, hcount, -⟩ := YieldToHold_point hp
    refine h.turn turn_YieldToHold (h.lt hp nofun) ?_
    rw [hactive, hcount, hp]
    rfl
  | finish thrown hp =>
    refine h.turn (turn_go rfl rfl rfl) (h.lt hp nofun) ?_
    rw [finish, go_points_self, hp]
    rfl
  | swapOut hp =>
    refine h.turn (turn_go rfl rfl rfl) (h.lt hp nofun) ?_
    rw [go_points_self, hp]
    rfl
  | uncount hp => exact h.uncount (h.lt hp nofun) (by rw [hp]; rfl) rfl
  | settle hp =>
    obtain ⟨hactive, -, hcount, -⟩ := settle_point
    refine h.turn turn_settle (h.lt hp nofun) ?_
    rw [hactive, hcount, hp]
    rfl
  | reschedule hp =>
    rename_i w f e
    have hsched : (s.schedule (.fiber f) none).Counted := ⟨h.active, h.out⟩
    exact hsched.release (h.lt hp nofun) (congrArg WorkerPoint.active hp)
  | hold hp =>
    rename_i w f e
    have hset : (s.setState f .HOLD).Counted := ⟨h.active, h.out⟩
    exact hset.release (h.lt hp nofun) (congrArg WorkerPoint.active hp)
  | idleIn hp =>
    obtain ⟨hactive, -, hcount, -⟩ := idleIn_point
    refine h.turn turn_idleIn (h.lt hp nofun) ?_
    rw [hactive, hcount, hp]
    rfl
  | idle hp =>
    obtain ⟨hpoint, hcount, -⟩ := idle_point
    refine h.turn turn_idle (h.lt hp nofun) ?_
    rw [hpoint, hcount, hp]
    rfl
  | idleOut hp =>
    refine h.turn (turn_go rfl rfl rfl) (h.lt hp nofun) ?_
    rw [idleOut, go_points_self, hp]
    rfl

/-! ## Runs -/

/-- A scheduler whose workers go round. -/
structure Sound (s : Scheduler) (k : Watch) : Prop where
  safe : s.Safe k
  ledger : s.Ledger k
  counted : s.Counted

theorem active_start (threadCount : ℕ) (useCaller : Bool) : (start threadCount useCaller).Counted where
  active := by
    have hempty : ((Finset.range (start threadCount useCaller).workers).filter
        fun w => ((start threadCount useCaller).points w).active = true) = ∅ := by
      refine Finset.filter_false_of_mem (fun w _ => ?_)
      rw [start]
      dsimp only
      split <;> decide
    rw [Scheduler.active, hempty]
    rfl
  out w hw := by
    refine if_neg ?_
    rw [workers] at hw
    change threadCount + _ ≤ w at hw
    omega

theorem sound_start (threadCount : ℕ) (useCaller : Bool) : (start threadCount useCaller).Sound .start where
  safe := safe_start threadCount useCaller
  ledger := by
    refine ⟨List.Perm.refl _, fun x hx => (by cases hx), fun w e hp => ?_, fun x hx => (by cases hx),
      fun x hx => (by cases hx), List.nodup_nil⟩
    rw [start] at hp
    dsimp only at hp
    split at hp <;> cases hp
  counted := active_start threadCount useCaller

theorem Sound.step {x y : Scheduler × Watch} (h : x.1.Sound x.2) (hstep : WatchedStep x a y) : y.1.Sound y.2 where
  safe := h.safe.step hstep
  ledger := h.ledger.step h.safe hstep
  counted := h.counted.step hstep.step

theorem Executes.holds (h : s.Executes w f) : s.Holds w f := by
  obtain ⟨e, hp | hp⟩ := h
  · exact .round hp
  · exact .round hp

/-- No fiber is executed by two workers; every entry is in the queue or has been removed by one
worker, which it may be pinned to and which alone starts it; and the active workers are counted. -/
theorem workers_exclusive {threadCount : ℕ} {useCaller : Bool} {log : List Action}
    (h : Run WatchedStep (start threadCount useCaller, .start) log (s, k)) :
    (∀ v w f, s.Executes v f → s.Executes w f → v = w) ∧
    (∀ e w, (e, w) ∈ k.removed → (e, w) ∈ k.started ∨ (s.points w).pending = some e) ∧
    (∀ e w, (e, w) ∈ k.started → (e, w) ∈ k.removed) ∧
    (k.started.map fun x => x.1.serial).Nodup ∧
    (∀ e w, (e, w) ∈ k.removed → e.thread = none ∨ e.thread = some w) ∧
    (s.fibers.map Entry.serial ++ k.removed.map fun x => x.1.serial).Perm (List.range s.count) ∧
    s.activeThreadCount = s.active := by
  have hsound : s.Sound k :=
    h.keeps (P := fun x => x.1.Sound x.2) (fun _ _ _ hx hstep => hx.step hstep)
      (sound_start threadCount useCaller)
  refine ⟨fun v w f hv hw => (hsound.safe f).unique v w hv.holds hw.holds, fun e w => hsound.ledger.removed (e, w),
    fun e w => hsound.ledger.started (e, w), hsound.ledger.once, fun e w => hsound.ledger.pinned (e, w),
    hsound.ledger.serials, hsound.counted.active⟩

theorem workers_exclusive_callback : ∃ s k, Run WatchedStep (start 2 true, .start)
    [.schedule (.cb 7) none, .pop 1, .choose 1, .swapIn 1] (s, k) ∧ s.Executes 1 0 ∧
    (∀ v, s.Executes v 0 → v = 1) ∧ s.activeThreadCount = s.active := by
  have hrun : ∃ s k, Run WatchedStep (start 2 true, .start)
      [.schedule (.cb 7) none, .pop 1, .choose 1, .swapIn 1] (s, k) ∧ s.Executes 1 0 := by
    exact ⟨_, _, .cons (t := (_, _)) ⟨.schedule _ _, rfl, trivial⟩
      (.cons (t := (_, _)) ⟨.pop rfl, rfl, trivial⟩
        (.cons (t := (_, _)) ⟨.choose rfl, rfl, trivial⟩
          (.cons (t := (_, _)) ⟨.swapIn rfl, rfl, trivial⟩ .nil))), ⟨0, .cb 7, none⟩, .inl rfl⟩
  obtain ⟨s, k, hs, hexec⟩ := hrun
  obtain ⟨hunique, -, -, -, -, -, hactive⟩ := workers_exclusive hs
  exact ⟨s, k, hs, hexec, fun v hv => hunique v 1 0 hv hexec, hactive⟩

end
end Scheduler
end Flz
