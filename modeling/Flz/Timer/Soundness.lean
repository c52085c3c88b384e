import Flz.Timer.Runs

/-! # What holds in every run of the timers

A timer that does not recur is emitted at most once and not before its deadline, and not at all
after it has been cancelled.
-/
namespace Flz
open Lib
variable {κ : Type}

/-- The timers that a call emits. -/
def TimerEvent.emitted : TimerEvent κ → List ℕ
  | .listExpiredCb _ _ cbs => cbs.map Prod.fst
  | _ => []

/-- How often a timer has been emitted. -/
def emissions (log : List (TimerEvent κ)) (i : ℕ) : ℕ := (log.flatMap TimerEvent.emitted).count i

/-- A timer that is added as one that does not recur. -/
def OneShot (log : List (TimerEvent κ)) (i : ℕ) : Prop :=
  ∃ addr ms cb now, TimerEvent.addTimer i addr ms cb false now ∈ log

section
variable {A : Armed κ} {s s' : TimerManager κ} {e : TimerEvent κ} {i : ℕ} {a : Arming κ}
  {log : List (TimerEvent κ)}
open TimerManager

theorem armedBy_append (log : List (TimerEvent κ)) (e : TimerEvent κ) :
    armedBy (log ++ [e]) = (armedBy log).after e := List.foldl_append

theorem emissions_append (log : List (TimerEvent κ)) (e : TimerEvent κ) (i : ℕ) :
    emissions (log ++ [e]) i = emissions log i + e.emitted.count i := by
  rw [emissions, List.flatMap_append, List.count_append, List.flatMap_singleton]
  rfl

theorem refines_new (now : ℕ) : Refines (armedBy []) (TimerManager.new (κ := κ) now) :=
  ⟨keeps_new now, fun _ => trivial⟩

theorem armed_lt_count (h : Refines A s) (hA : A i = some a) : i < s.count := by
  have hagree := h.agree i
  rw [hA] at hagree
  obtain ⟨t, ht, -⟩ := hagree.object
  exact h.keeps.holds.lt_count ht

/-- Only a new timer is armed that was not. -/
theorem after_armed (hnew : ∀ addr ms cb recurring now, e ≠ .addTimer i addr ms cb recurring now)
    (ha : (A.after e) i = some a) : ∃ b, A i = some b ∧ b.recurring = a.recurring := by
  have hupdate : ∀ (f : Arming κ → Arming κ) (k : ℕ), (∀ b, (f b).recurring = b.recurring) →
      Function.update A k ((A k).map f) i = some a → ∃ b, A i = some b ∧ b.recurring = a.recurring := by
    intro f k hf hk
    by_cases hik : i = k
    · subst hik
      rw [Function.update_self] at hk
      obtain ⟨b, hb, rfl⟩ := Option.map_eq_some_iff.mp hk
      exact ⟨b, hb, (hf b).symm⟩
    · rw [Function.update_of_ne hik] at hk
      exact ⟨a, hk, rfl⟩
  cases e with
  | addTimer k addr ms cb recurring now =>
    have hik : i ≠ k := by
      rintro rfl
      exact hnew addr ms cb recurring now rfl
    rw [Armed.after, Function.update_of_ne hik] at ha
    exact ⟨a, ha, rfl⟩
  | cancel k done =>
    by_cases hik : i = k
    · subst hik
      rw [Armed.after, Function.update_self] at ha
      cases ha
    · rw [Armed.after, Function.update_of_ne hik] at ha
      exact ⟨a, ha, rfl⟩
  | refresh k now done => exact hupdate (fun b => { b with start := now }) k (fun _ => rfl) ha
  | reset k ms fromNow now done =>
    exact hupdate (fun b => { b with start := if fromNow then now else b.start, ms := ms }) k
      (fun _ => rfl) ha
  | listExpiredCb now probe cbs =>
    obtain ⟨b, hb, hel⟩ := Option.bind_eq_some_iff.mp ha
    refine ⟨b, hb, ?_⟩
    rw [Arming.elapse] at hel
    split at hel
    · cases hel
      rfl
    · split at hel
      · cases hel
        rfl
      · cases hel
  | getNextTimer now => exact ⟨a, ha, rfl⟩
  | release k => exact ⟨a, ha, rfl⟩

/-- A timer is emitted at most once by one call, and only when it waits; it then waits no longer
unless it recurs. -/
theorem emitted_count (h : A.Returns e) (i : ℕ) : e.emitted.count i ≤ 1 ∧
    (e.emitted.count i ≠ 0 → ∃ a, A i = some a ∧ (a.recurring = false → (A.after e) i = none)) := by
  cases e with
  | listExpiredCb now probe cbs =>
    obtain ⟨hnodup, hmem⟩ := h
    refine ⟨List.nodup_iff_count_le_one.mp hnodup i, fun hne => ?_⟩
    obtain ⟨⟨j, c⟩, hj, rfl⟩ := List.mem_map.mp (List.count_pos_iff.mp (Nat.pos_of_ne_zero hne))
    obtain ⟨a, hA, hle, -⟩ := (hmem j c).mp hj
    refine ⟨a, hA, fun hrec => ?_⟩
    rw [Armed.after]
    dsimp only
    rw [hA, Option.bind_some, Arming.elapse, if_neg (Nat.not_lt.mpr hle), hrec]
    rfl
  | _ => exact ⟨Nat.zero_le 1, fun hne => absurd rfl hne⟩

theorem step_addTimer {addr ms now : ℕ} {cb : κ} {recurring : Bool}
    (h : TimerManager.Step s (.addTimer i addr ms cb recurring now) s') : i = s.count := by
  cases h
  rfl

/-- What is known of a state from the calls that led to it. -/
structure Traced (log : List (TimerEvent κ)) (s : TimerManager κ) : Prop where
  refines : Refines (armedBy log) s
  added : ∀ i addr ms cb recurring now, .addTimer i addr ms cb recurring now ∈ log → i < s.count
  emitted : ∀ i, s.count ≤ i → emissions log i = 0
  oneShot : ∀ i, OneShot log i → emissions log i ≤ 1 ∧
    ∀ a, armedBy log i = some a → a.recurring = false ∧ emissions log i = 0

theorem Traced.step (h : Traced log s) (hstep : TimerManager.Step s e s') : Traced (log ++ [e]) s' := by
  obtain ⟨hrefines, hreturns, hcount⟩ := h.refines.step hstep
  have hemitted := fun i => emitted_count hreturns i
  refine ⟨?_, ?_, ?_, ?_⟩
  · rw [armedBy_append]
    exact hrefines
  · intro i addr ms cb recurring now hmem
    rcases List.mem_append.mp hmem with hmem | hmem
    · have := h.added i addr ms cb recurring now hmem
      omega
    · obtain rfl := List.mem_singleton.mp hmem
      rw [step_addTimer hstep, hcount]
      exact Nat.lt_succ_self _
  · intro i hi
    rw [emissions_append, h.emitted i (by omega), Nat.zero_add]
    by_contra hne
    obtain ⟨a, hA, -⟩ := (hemitted i).2 hne
    have := armed_lt_count h.refines hA
    omega
  · intro i hone
    rw [emissions_append, armedBy_append]
    by_cases hnew : ∃ addr ms cb recurring now, e = .addTimer i addr ms cb recurring now
    · obtain ⟨addr, ms, cb, recurring, now, rfl⟩ := hnew
      have hi := step_addTimer hstep
      have hzero : emissions log i = 0 := h.emitted i (by omega)
      have hnone : (TimerEvent.addTimer i addr ms cb recurring now).emitted.count i = 0 := rfl
      rw [hzero, hnone]
      refine ⟨Nat.zero_le 1, fun a ha => ⟨?_, rfl⟩⟩
      rw [Armed.after, Function.update_self] at ha
      cases ha
      obtain ⟨addr', ms', cb', now', hmem⟩ := hone
      rcases List.mem_append.mp hmem with hmem | hmem
      · have := h.added i addr' ms' cb' false now' hmem
        omega
      · cases List.mem_singleton.mp hmem
        rfl
    · have hold : OneShot log i := by
        obtain ⟨addr, ms, cb, now, hmem⟩ := hone
        rcases List.mem_append.mp hmem with hmem | hmem
        · exact ⟨addr, ms, cb, now, hmem⟩
        · exact absurd ⟨addr, ms, cb, false, now, (List.mem_singleton.mp hmem).symm⟩ hnew
      obtain ⟨hle, harmed⟩ := h.oneShot i hold
      have hnot : ∀ addr ms cb recurring now, e ≠ .addTimer i addr ms cb recurring now :=
        fun addr ms cb recurring now heq => hnew ⟨addr, ms, cb, recurring, now, heq⟩
      by_cases hzero : e.emitted.count i = 0
      · rw [hzero, Nat.add_zero]
        refine ⟨hle, fun a ha => ?_⟩
        obtain ⟨b, hb, hrec⟩ := after_armed hnot ha
        exact ⟨hrec.symm.trans (harmed b hb).1, (harmed b hb).2⟩
      · obtain ⟨a, hA, hnone⟩ := (hemitted i).2 hzero
        obtain ⟨hrec, hnever⟩ := harmed a hA
        have hone := (hemitted i).1
        rw [hnever, Nat.zero_add]
        refine ⟨hone, fun b hb => ?_⟩
        rw [hnone hrec] at hb
        cases hb

theorem traced_new (now : ℕ) : Traced [] (TimerManager.new (κ := κ) now) where
  refines := refines_new now
  added _ _ _ _ _ _ hmem := by cases hmem
  emitted _ _ := rfl
  oneShot _ hone := by
    obtain ⟨_, _, _, _, hmem⟩ := hone
    cases hmem

theorem traced_of_run {now : ℕ} (h : Run TimerManager.Step (TimerManager.new now) log s) : Traced log s :=
  h.keeps_history (fun _ _ _ _ htraced hstep => htraced.step hstep) (traced_new now)

/-- A timer that was made and does not wait is never emitted again. -/
theorem not_emitted (hrefines : Refines A s) (hi : i < s.count) (hA : A i = none)
    (h : Run TimerManager.Step s log s') : emissions log i = 0 := by
  have hkept := h.keeps_history (P := fun bs u => Refines (bs.foldl Armed.after A) u ∧ i < u.count ∧
      (bs.foldl Armed.after A) i = none ∧ emissions bs i = 0) ?_ ⟨hrefines, hi, hA, rfl⟩
  · exact hkept.2.2.2
  · rintro bs t e u ⟨hrefines, hi, hA, hzero⟩ hstep
    obtain ⟨hrefines', hreturns, hcount⟩ := hrefines.step hstep
    have hnot : ∀ addr ms cb recurring now, e ≠ .addTimer i addr ms cb recurring now := by
      rintro addr ms cb recurring now rfl
      have := step_addTimer hstep
      omega
    rw [List.foldl_append, List.foldl_cons, List.foldl_nil]
    refine ⟨hrefines', by omega, ?_, ?_⟩
    · cases hafter : (bs.foldl Armed.after A).after e i with
      | none => rfl
      | some a =>
        obtain ⟨b, hb, -⟩ := after_armed hnot hafter
        rw [hA] at hb
        cases hb
    · rw [emissions_append, hzero, Nat.zero_add]
      by_contra hne
      obtain ⟨a, ha, -⟩ := (emitted_count hreturns i).2 hne
      rw [hA] at ha
      cases ha

/-- What the timers promise after some calls. -/
structure Sound (log : List (TimerEvent κ)) (s : TimerManager κ) : Prop where
  /-- A timer is in the set if and only if it has a callback. -/
  member : ∀ i t, s.objects i = some t → (i ∈ s.timers ↔ t.cb ≠ none)
  /-- No call changes a deadline in the set, or erases what is not there. -/
  defined : (∀ i, s.objects i ≠ none → s.cancel i ≠ none ∧ ∀ now, s.refresh i now ≠ none ∧
      ∀ ms fromNow, s.reset i ms fromNow now ≠ none) ∧
    ∀ now probe, (s.detectClockRollover now).1 = false → s.listExpiredCb now probe ≠ none
  /-- One callback is returned for each timer in the set that is due, and no other. -/
  expired : ∀ now probe cbs s', (s.detectClockRollover now).1 = false →
    s.listExpiredCb now probe = some (cbs, s') → (cbs.map Prod.fst).Nodup ∧
      ∀ i c, (i, c) ∈ cbs ↔ i ∈ s.timers ∧ ∃ t, s.objects i = some t ∧ t.next ≤ now ∧ c = t.cb
  /-- A timer that recurs is then armed for `now + ms`, and another is not in the set any more. -/
  rearmed : ∀ now probe cbs s', (s.detectClockRollover now).1 = false →
    s.listExpiredCb now probe = some (cbs, s') → ∀ i c t, (i, c) ∈ cbs → s.objects i = some t →
      (t.recurring = true → i ∈ s'.timers ∧
        s'.objects i = some { t with next := uint64 (now + t.ms) }) ∧
      (t.recurring = false → i ∉ s'.timers)
  /-- A timer that does not recur is emitted at most once. -/
  once : ∀ i, OneShot log i → emissions log i ≤ 1
  /-- Nothing is emitted before its deadline. -/
  punctual : ∀ before now probe cbs after, log = before ++ .listExpiredCb now probe cbs :: after →
    ∀ i c, (i, c) ∈ cbs → ∃ a, armedBy before i = some a ∧ a.deadline ≤ now ∧ c = some a.cb
  /-- A timer that was cancelled in time is not emitted. -/
  cancelled : ∀ before i after, log = before ++ .cancel i true :: after → emissions after i = 0

theorem Refines.defined (h : Refines A s) :
    (∀ i, s.objects i ≠ none → s.cancel i ≠ none ∧ ∀ now, s.refresh i now ≠ none ∧
      ∀ ms fromNow, s.reset i ms fromNow now ≠ none) ∧
    ∀ now probe, (s.detectClockRollover now).1 = false → s.listExpiredCb now probe ≠ none := by
  constructor
  · intro i hi
    obtain ⟨t, ht⟩ := Option.ne_none_iff_exists'.mp hi
    by_cases hcb : t.cb = none
    · refine ⟨by rw [cancel_none ht hcb]; exact Option.some_ne_none _, fun now =>
        ⟨by rw [refresh_none ht hcb]; exact Option.some_ne_none _, fun ms fromNow => ?_⟩⟩
      by_cases hchange : ms = t.ms ∧ fromNow = false
      · rw [hchange.1, hchange.2, reset_same ht]
        exact Option.some_ne_none _
      · rw [reset_none ht hcb hchange]
        exact Option.some_ne_none _
    · obtain ⟨s₁, hcancel, -⟩ := cancel_spec h.keeps ht hcb
      refine ⟨by rw [hcancel]; exact Option.some_ne_none _, fun now => ⟨?_, fun ms fromNow => ?_⟩⟩
      · obtain ⟨s₂, hrefresh, -⟩ := refresh_spec h.keeps ht hcb now
        rw [hrefresh]
        exact Option.some_ne_none _
      · by_cases hchange : ms = t.ms ∧ fromNow = false
        · rw [hchange.1, hchange.2, reset_same ht]
          exact Option.some_ne_none _
        · obtain ⟨front, s₃, hreset, -⟩ := reset_spec h.keeps ht hcb hchange now
          rw [hreset]
          exact Option.some_ne_none _
  · intro now probe hroll
    obtain ⟨s', hrun, -⟩ := listExpiredCb_spec h.keeps (fun _ => hroll) probe
    rw [hrun]
    exact Option.some_ne_none _

theorem Refines.expired (h : Refines A s) {now probe : ℕ} {cbs : List (ℕ × Option κ)}
    (hroll : (s.detectClockRollover now).1 = false) (hc : s.listExpiredCb now probe = some (cbs, s')) :
    (cbs.map Prod.fst).Nodup ∧
      ∀ i c, (i, c) ∈ cbs ↔ i ∈ s.timers ∧ ∃ t, s.objects i = some t ∧ t.next ≤ now ∧ c = t.cb := by
  obtain ⟨s₁, hrun, hexp⟩ := listExpiredCb_spec h.keeps (fun _ => hroll) probe
  rw [hrun] at hc
  cases hc
  refine ⟨?_, fun i c => ?_⟩
  · exact h.keeps.due_nodup now
  · rw [List.mem_map]
    constructor
    · rintro ⟨j, hj, heq⟩
      cases heq
      obtain ⟨hmem, hdue⟩ := List.mem_filter.mp hj
      obtain ⟨-, t, ht, -⟩ := (h.keeps.member i).mp hmem
      rw [isDue, ht, Option.any_some, decide_eq_true_iff] at hdue
      refine ⟨hmem, t, ht, hdue, ?_⟩
      rw [callback, ht]
      rfl
    · rintro ⟨hmem, t, ht, hle, rfl⟩
      refine ⟨i, List.mem_filter.mpr ⟨hmem, ?_⟩, ?_⟩
      · rw [isDue, ht, Option.any_some, decide_eq_true_iff]
        exact hle
      · rw [callback, ht]
        rfl

theorem Refines.rearmed (h : Refines A s) {now probe : ℕ} {cbs : List (ℕ × Option κ)}
    (hroll : (s.detectClockRollover now).1 = false) (hc : s.listExpiredCb now probe = some (cbs, s'))
    {c : Option κ} {t : Timer κ} (hmem : (i, c) ∈ cbs) (ht : s.objects i = some t) :
    (t.recurring = true → i ∈ s'.timers ∧ s'.objects i = some { t with next := uint64 (now + t.ms) }) ∧
      (t.recurring = false → i ∉ s'.timers) := by
  obtain ⟨hin, u, hu, -⟩ := ((h.expired hroll hc).2 i c).mp hmem
  obtain ⟨s₁, hrun, hexp⟩ := listExpiredCb_spec h.keeps (fun _ => hroll) probe
  rw [hrun] at hc
  cases hc
  obtain ⟨j, hj, heq⟩ := List.mem_map.mp hmem
  cases heq
  have hobj : s'.objects i = some (t.expire now) := by
    rw [hexp.objects]
    dsimp only
    rw [if_pos hj, ht]
    rfl
  have hcb := (h.keeps.member_nil ht).mp hin
  rw [Timer.expire] at hobj
  constructor
  · intro hrec
    rw [if_pos hrec] at hobj
    exact ⟨(hexp.keeps.member_nil hobj).mpr hcb, hobj⟩
  · intro hrec
    rw [if_neg (by rw [hrec]; exact Bool.false_ne_true)] at hobj
    exact fun hmem' => (hexp.keeps.member_nil hobj).mp hmem' rfl

/-- The timers keep their promise in every run. -/
theorem timers_sound {now₀ : ℕ} (h : Run TimerManager.Step (TimerManager.new now₀) log s) : Sound log s := by
  have htraced := traced_of_run h
  refine ⟨fun i t ht => htraced.refines.keeps.member_nil ht, htraced.refines.defined,
    fun now probe cbs s' hroll hc => htraced.refines.expired hroll hc,
    fun now probe cbs s' hroll hc i c t hmem ht => htraced.refines.rearmed hroll hc hmem ht,
    fun i hone => (htraced.oneShot i hone).1, ?_, ?_⟩
  · rintro before now probe cbs after rfl i c hmem
    obtain ⟨u, v, hbefore, hstep, -⟩ := h.split_cons
    exact (((traced_of_run hbefore).refines.step hstep).returns.2 i c).mp hmem
  · rintro before i after rfl
    obtain ⟨u, v, hbefore, hstep, hafter⟩ := h.split_cons
    have hrefines := (traced_of_run hbefore).refines
    obtain ⟨hrefines', hreturns, hcount⟩ := hrefines.step hstep
    obtain ⟨a, hA⟩ := Option.isSome_iff_exists.mp (Eq.symm hreturns)
    have hlt := armed_lt_count hrefines hA
    refine not_emitted hrefines' (by omega) ?_ hafter
    rw [Armed.after, Function.update_self]

end

/-- A timer that recurs, up to its cancellation. -/
theorem timers_sound_recurring : ∃ s : TimerManager ℕ, Sound
    [.addTimer 0 64 10 7 true 0, .listExpiredCb 10 48 [(0, some 7)],
      .listExpiredCb 20 80 [(0, some 7)], .cancel 0 true] s := by
  have hfits : ∀ (s : TimerManager ℕ) (t : Timer ℕ) (now probe : ℕ) (cbs : List (ℕ × Option ℕ)),
      s.due now = [0] → s.objects 0 = some t → now + t.ms < 2 ^ 64 →
      s.Fits (.listExpiredCb now probe cbs) := by
    intro s t now probe cbs hdue ht hlt i u hu hi
    rw [hdue, List.mem_singleton] at hi
    rw [hi, ht] at hu
    cases hu
    exact hlt
  have hadd : TimerManager.Step (TimerManager.new 0) (.addTimer 0 64 10 7 true 0) _ :=
    .addTimer (fun _ _ h => by cases h) (by decide : 0 + 10 < 2 ^ 64)
  have hrun := Run.snoc (Run.snoc (Run.single hadd)
    (.listExpiredCb (fun _ => rfl) rfl (hfits _ _ 10 48 _ rfl rfl (by decide))))
    (.listExpiredCb (fun _ => rfl) rfl (hfits _ _ 20 80 _ rfl rfl (by decide)))
  exact ⟨_, timers_sound (hrun.snoc (.cancel rfl))⟩

end Flz
