import Flz.Timer.Expiry

/-! # What the calls on a timer return

`cancel`, `refresh` and `reset` of `src/timer.cc` in any state that the calls lead to: with callbacks that
may be empty, with deadlines that go beyond 64 bits, and with a clock that goes back. `cancel` and
`refresh` look at the callback, and `reset` looks at nothing when it is asked for what is there.
-/
namespace Flz
open Lib
variable {κ : Type}

/-- A call on a timer, with the clock readings it makes. -/
inductive TimerCall
  | cancel
  | refresh (now : ℕ)
  | reset (ms : ℕ) (fromNow : Bool) (now : ℕ)
  deriving DecidableEq, Repr

namespace TimerManager

/-- The states that calls lead to. A new timer lies where none is. -/
inductive Reached : TimerManager κ → Prop
  | new (now : ℕ) : Reached (new now)
  | addTimer {s : TimerManager κ} (h : Reached s) (addr ms : ℕ) (cb : Option κ) (recurring : Bool)
    (now : ℕ) (haddr : ∀ j u, s.objects j = some u → u.addr ≠ addr) :
    Reached (s.addTimer addr ms cb recurring now).2
  | cancel {s s' : TimerManager κ} {i : ℕ} {done : Bool} (h : Reached s)
    (hc : s.cancel i = some (done, s')) : Reached s'
  | refresh {s s' : TimerManager κ} {i now : ℕ} {done : Bool} (h : Reached s)
    (hc : s.refresh i now = some (done, s')) : Reached s'
  | reset {s s' : TimerManager κ} {i ms now : ℕ} {fromNow done atFront : Bool} (h : Reached s)
    (hc : s.reset i ms fromNow now = some (done, atFront, s')) : Reached s'
  | listExpiredCb {s s' : TimerManager κ} {cbs : List (ℕ × Option κ)} (h : Reached s) (now probe : ℕ)
    (hc : s.listExpiredCb now probe = some (cbs, s')) : Reached s'
  | getNextTimer {s s' : TimerManager κ} {now ms : ℕ} (h : Reached s)
    (hc : s.getNextTimer now = some (ms, s')) : Reached s'
  | release {s s' : TimerManager κ} {i : ℕ} (h : Reached s) (hc : s.release i = some s') : Reached s'

/-- A call returns true when the timer is in the set, and does nothing when it returns false. -/
def Truthful (s : TimerManager κ) (i : ℕ) : TimerCall → Prop
  | .cancel => ∃ done s', s.cancel i = some (done, s') ∧ (done = true ↔ i ∈ s.timers) ∧
      (done = false → s' = s)
  | .refresh now => ∃ done s', s.refresh i now = some (done, s') ∧ (done = true ↔ i ∈ s'.timers) ∧
      (done = false → s' = s)
  | .reset ms fromNow now => ∃ done atFront s', s.reset i ms fromNow now = some (done, atFront, s') ∧
      (done = true ↔ i ∈ s'.timers ∧ ∃ t, s'.objects i = some t ∧ t.ms = ms) ∧ (done = false → s' = s)

/-- A timer in the set has a callback, and one that is asked for what it has is in the set. -/
def Pending (s : TimerManager κ) (i : ℕ) (t : Timer κ) : TimerCall → Prop
  | .cancel => i ∈ s.timers → t.cb ≠ none
  | .refresh _ => i ∈ s.timers → t.cb ≠ none
  | .reset ms fromNow _ =>
    if ms = t.ms ∧ fromNow = false then i ∈ s.timers else i ∈ s.timers → t.ms = ms → t.cb ≠ none

/-! ## The calls -/

variable {s s' : TimerManager κ} {out expired : List ℕ} {i now probe : ℕ} {t : Timer κ}

theorem Holds.addTimer (h : Holds [] s) {addr : ℕ} (ms : ℕ) (cb : Option κ) (recurring : Bool)
    (haddr : ∀ j u, s.objects j = some u → u.addr ≠ addr) :
    Holds [] (s.addTimer addr ms cb recurring now).2 := by
  have hnew := h.construct (t := ⟨addr, recurring, ms, uint64 (now + ms), cb⟩) haddr
  exact hnew.insertTimer (put_self _ _ _) List.not_mem_nil

theorem Holds.mem (h : Holds [] s) (hi : s.objects i = some t) (hcb : t.cb ≠ none) : i ∈ s.timers :=
  (h.pending i t hi hcb).resolve_left List.not_mem_nil

theorem Holds.changed (h : Holds [] s) (hi : s.objects i = some t) {u : Timer κ} (haddr : u.addr = t.addr) :
    Holds [i] ({ s with timers := s.timers.filter (· ≠ i) }.put i u) :=
  (h.erase i).put_same List.mem_cons_self hi haddr

theorem Holds.cancel (h : Holds [] s) {done : Bool} (hc : s.cancel i = some (done, s')) : Holds [] s' := by
  cases hi : s.objects i with
  | none =>
    rw [TimerManager.cancel, hi] at hc
    cases hc
  | some t =>
    by_cases hcb : t.cb = none
    · rw [cancel_none hi hcb] at hc
      cases hc
      exact h
    · rw [cancel_eq h.sorted hi hcb (h.mem hi hcb)] at hc
      cases hc
      refine (h.changed hi (u := { t with cb := none }) rfl).close fun u hu => ?_
      rw [put_self, Option.some.injEq] at hu
      rw [← hu]

theorem Holds.refresh (h : Holds [] s) {done : Bool} (hc : s.refresh i now = some (done, s')) :
    Holds [] s' := by
  cases hi : s.objects i with
  | none =>
    rw [TimerManager.refresh, hi] at hc
    cases hc
  | some t =>
    by_cases hcb : t.cb = none
    · rw [refresh_none hi hcb] at hc
      cases hc
      exact h
    · rw [refresh_eq h.sorted hi hcb (h.mem hi hcb)] at hc
      cases hc
      exact (h.changed hi (u := { t with next := uint64 (now + t.ms) }) rfl).insert (put_self _ _ _)
        List.not_mem_nil

theorem Holds.reset (h : Holds [] s) {ms : ℕ} {fromNow done atFront : Bool}
    (hc : s.reset i ms fromNow now = some (done, atFront, s')) : Holds [] s' := by
  cases hi : s.objects i with
  | none =>
    rw [TimerManager.reset, hi] at hc
    cases hc
  | some t =>
    by_cases hchange : ms = t.ms ∧ fromNow = false
    · obtain ⟨rfl, rfl⟩ := hchange
      rw [reset_same hi] at hc
      cases hc
      exact h
    · by_cases hcb : t.cb = none
      · rw [reset_none hi hcb hchange] at hc
        cases hc
        exact h
      · rw [reset_change h.sorted hi hcb (h.mem hi hcb) hchange] at hc
        cases hc
        exact (h.changed hi (u := { t with
          ms := ms, next := uint64 ((if fromNow then now else subUInt64 t.next t.ms) + ms) }) rfl).insertTimer
            (put_self _ _ _) List.not_mem_nil

theorem Holds.collect (hnodup : expired.Nodup) (h : Holds expired s) {cbs : List (ℕ × Option κ)}
    (hc : collect now expired s = some (cbs, s')) : Holds [] s' := by
  induction expired generalizing s cbs with
  | nil =>
    cases hc
    exact h
  | cons i expired ih =>
    obtain ⟨hnot, hnodup⟩ := List.nodup_cons.mp hnodup
    obtain ⟨t, hi, hc⟩ := Option.bind_eq_some_iff.mp hc
    obtain ⟨s₁, hrearm, hc⟩ := Option.bind_eq_some_iff.mp hc
    obtain ⟨⟨more, s₂⟩, hcollect, hc⟩ := Option.bind_eq_some_iff.mp hc
    cases hc
    refine ih hnodup ?_ hcollect
    rw [rearm] at hrearm
    split at hrearm
    · rw [setNext_eq (h.not_mem List.mem_cons_self)] at hrearm
      cases hrearm
      exact (h.put_same (u := { t with next := uint64 (now + t.ms) }) List.mem_cons_self hi rfl).insert
        (put_self _ _ _) hnot
    · cases hrearm
      refine (h.put_same (u := { t with cb := none }) List.mem_cons_self hi rfl).close fun u hu => ?_
      rw [put_self, Option.some.injEq] at hu
      rw [← hu]

theorem Holds.listExpiredCb (h : Holds [] s) {cbs : List (ℕ × Option κ)}
    (hc : s.listExpiredCb now probe = some (cbs, s')) : Holds [] s' := by
  cases htimers : s.timers with
  | nil =>
    rw [TimerManager.listExpiredCb, htimers] at hc
    cases hc
    exact h
  | cons first rest =>
    obtain ⟨-, t, ht⟩ := h.present first (htimers ▸ List.mem_cons_self)
    rw [listExpiredCb_cons htimers ht] at hc
    have hsplit := List.suffix_iff_eq_append.mp
      (expiredEnd_suffix s now probe (s.detectClockRollover now).1)
    split at hc
    · cases hc
      exact ⟨h.sorted, h.present, h.pending, h.distinct, h.fresh⟩
    · refine (h.open hsplit now).collect ?_ hc
      have hnodup := h.sorted.nodup
      rw [← hsplit] at hnodup
      exact (List.nodup_append.mp hnodup).1

theorem Reached.holds (h : Reached s) : Holds [] s := by
  induction h with
  | new now => exact ⟨List.Pairwise.nil, fun i hi => absurd hi List.not_mem_nil, fun i t hi => (by cases hi),
      fun i j t u hi => (by cases hi), fun i _ => rfl⟩
  | addTimer h addr ms cb recurring now haddr ih => exact ih.addTimer ms cb recurring haddr
  | cancel h hc ih => exact ih.cancel hc
  | refresh h hc ih => exact ih.refresh hc
  | reset h hc ih => exact ih.reset hc
  | listExpiredCb h now probe hc ih => exact ih.listExpiredCb hc
  | @getNextTimer s s' now ms h hc ih =>
    have hstate : s' = { s with tickled := false } := by
      rw [TimerManager.getNextTimer] at hc
      split at hc
      · cases hc
        rfl
      · obtain ⟨t, -, hc⟩ := Option.bind_eq_some_iff.mp hc
        cases hc
        rfl
    rw [hstate]
    exact ⟨ih.sorted, ih.present, ih.pending, ih.distinct, ih.fresh⟩
  | @release s s' i h hc ih =>
    rw [TimerManager.release] at hc
    split at hc
    · cases hc
    · rename_i hnot
      cases hc
      exact ih.release hnot

/-! ## What they return -/

theorem truthful_cancel (h : Holds [] s) (hi : s.objects i = some t) :
    Truthful s i .cancel ↔ Pending s i t .cancel := by
  by_cases hcb : t.cb = none
  · simp [Truthful, Pending, cancel_none hi hcb, hcb]
  · have hmem := h.mem hi hcb
    refine iff_of_true ⟨true, _, cancel_eq h.sorted hi hcb hmem, iff_of_true rfl hmem, ?_⟩ fun _ => hcb
    intro hfalse
    cases hfalse

theorem truthful_refresh (h : Holds [] s) (hi : s.objects i = some t) (now : ℕ) :
    Truthful s i (.refresh now) ↔ Pending s i t (.refresh now) := by
  by_cases hcb : t.cb = none
  · simp [Truthful, Pending, refresh_none hi hcb, hcb]
  · have hback := (h.changed hi (u := { t with next := uint64 (now + t.ms) }) rfl).mem_insert (put_self _ _ _)
    refine iff_of_true
      ⟨true, _, refresh_eq h.sorted hi hcb (h.mem hi hcb) now, iff_of_true rfl hback, ?_⟩ fun _ => hcb
    intro hfalse
    cases hfalse

theorem truthful_reset (h : Holds [] s) (hi : s.objects i = some t) (ms : ℕ) (fromNow : Bool) (now : ℕ) :
    Truthful s i (.reset ms fromNow now) ↔ Pending s i t (.reset ms fromNow now) := by
  by_cases hchange : ms = t.ms ∧ fromNow = false
  · obtain ⟨rfl, rfl⟩ := hchange
    simp [Truthful, Pending, reset_same hi, hi]
  · by_cases hcb : t.cb = none
    · simp [Truthful, Pending, reset_none hi hcb hchange, hchange, hcb, hi]
    · have hchanged := h.changed hi (u := { t with
        ms := ms, next := uint64 ((if fromNow then now else subUInt64 t.next t.ms) + ms) }) rfl
      have hrun := reset_change h.sorted hi hcb (h.mem hi hcb) hchange now
      have hback := hchanged.mem_insertTimer (put_self _ _ _)
      have hobj := congrFun (insertTimer_objects ({ s with timers := s.timers.filter (· ≠ i) }.put i { t with
        ms := ms, next := uint64 ((if fromNow then now else subUInt64 t.next t.ms) + ms) }) i).1 i
      rw [Pending, if_neg hchange]
      refine iff_of_true ⟨true, _, _, hrun,
        iff_of_true rfl ⟨hback, _, hobj.trans (put_self _ _ _), rfl⟩, ?_⟩ fun _ _ => hcb
      intro hfalse
      cases hfalse

/-- A call tells the truth exactly when the timer is pending for what it looks at. -/
theorem calls_truthful_iff (h : Reached s) (hi : s.objects i = some t) (c : TimerCall) :
    Truthful s i c ↔ Pending s i t c := by
  cases c with
  | cancel => exact truthful_cancel h.holds hi
  | refresh now => exact truthful_refresh h.holds hi now
  | reset ms fromNow now => exact truthful_reset h.holds hi ms fromNow now

/-- A timer that recurs has expired once, and is reset. -/
theorem calls_truthful_recurring : ∃ s : TimerManager ℕ, s.timers = [0] ∧
    ((s.reset 0 70 true 60).map fun r => r.1) = some true ∧
    (Truthful s 0 (.reset 70 true 60) ↔ Pending s 0 ⟨2, true, 5, 55, some 8⟩ (.reset 70 true 60)) := by
  have hadd := (Reached.new (κ := ℕ) 10).addTimer 2 5 (some 8) true 10 (fun j u hj => by cases hj)
  have h := hadd.listExpiredCb 50 9 rfl
  exact ⟨_, rfl, rfl, calls_truthful_iff h rfl _⟩

/-- A timer that does not recur has expired: it is not in the set, and a reset to its old time says yes. -/
theorem reset_untruthful : ∃ s : TimerManager ℕ, Reached s ∧ s.timers = [] ∧
    s.reset 0 5 false 60 = some (true, false, s) ∧ ¬ Truthful s 0 (.reset 5 false 60) := by
  have hadd := (Reached.new (κ := ℕ) 10).addTimer 2 5 (some 8) false 10 (fun j u hj => by cases hj)
  have h := hadd.listExpiredCb 50 9 rfl
  refine ⟨_, h, rfl, rfl, ?_⟩
  rintro ⟨done, atFront, s', hrun, hdone, -⟩
  have hsame := Option.some.inj hrun
  cases hsame
  exact absurd (hdone.mp rfl).1 List.not_mem_nil

end TimerManager
end Flz
