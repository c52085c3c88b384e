import Flz.Scheduler.Fibers

/-! # Rounds of fibers

Every step keeps all fibers safe.
-/
namespace Flz
open Lib
namespace Scheduler
variable {s t : Scheduler} {k k' : Watch} {u v w f g : ℕ} {e : Entry} {p : WorkerPoint} {a : Action}
  {phase : Phase} {task : Task} {thread : Option ℕ}

/-! ## The queue -/

theorem scan_spec {suits : Entry → Bool} {fibers others : List Entry}
    (h : scan suits fibers = some (e, others)) : suits e = true ∧ fibers.Perm (e :: others) := by
  induction fibers generalizing others with
  | nil => cases h
  | cons x fibers ih =>
    rw [scan] at h
    split at h
    · rename_i hx
      cases h
      exact ⟨hx, .refl _⟩
    · obtain ⟨⟨chosen, rest⟩, hscan, heq⟩ := Option.map_eq_some_iff.mp h
      cases heq
      obtain ⟨hsuits, hperm⟩ := ih hscan
      exact ⟨hsuits, (hperm.cons x).trans (.swap e x rest)⟩

theorem queued_schedule_self : (s.schedule (.fiber f) thread).queued f = s.queued f + 1 := by
  rw [queued, schedule, List.countP_append, List.countP_singleton, if_pos (by simp)]
  rfl

theorem queued_schedule_of_ne (h : task ≠ .fiber f) : (s.schedule task thread).queued f = s.queued f := by
  rw [queued, schedule, List.countP_append, List.countP_singleton, if_neg (by simpa using h)]
  rfl

theorem standing_congr (hqueued : t.queued f = s.queued f) (hstate : t.state f = s.state f)
    (hwoken : k'.woken f = k.woken f) (halive : k'.alive f = k.alive f) :
    t.standing k' f = s.standing k f := by
  rw [standing, standing, hqueued, hstate, hwoken, halive]

/-! ## Holders -/

theorem Holds.round (h : s.points w = .round phase e f) : s.Holds w f := by
  rw [Holds, h]
  rfl

theorem Holds.chosen {serial : ℕ} (h : s.points w = .chosen ⟨serial, .fiber f, thread⟩) : s.Holds w f := by
  rw [Holds, h]
  rfl

theorem SafeAt.lt (h : s.SafeAt k f) (hw : s.Holds w f) : f < s.fiberCount := by
  by_contra hge
  exact (h.fresh (Nat.le_of_not_lt hge)).2.1 w hw

theorem SafeAt.inOwn (h : s.SafeAt k f) (hw : s.Holds w f) (hcb : s.cbFiber w = some f) : s.InOwn w f :=
  (h.spare w hcb).resolve_right (fun hfree => hfree.1 w hw)

/-- Where a fiber is in its worker's own one, its entry holds a callback. -/
theorem SafeAt.isCb (h : s.SafeAt k f) (hp : s.points w = .round phase e f) (hcb : s.cbFiber w = some f) :
    e.task.isCb = true := by
  obtain ⟨phase', e', hp', he'⟩ := h.inOwn (.round hp) hcb
  rw [hp] at hp'
  cases hp'
  exact he'

theorem SafeAt.allows_at (h : s.SafeAt k f) (hp : s.points w = p) (hheld : p.held = some f) :
    p.Allows (s.standing k f) := by
  subst hp
  exact h.allows w hheld

theorem SafeAt.lt_of_alive (h : s.SafeAt k f) (halive : k.alive f = true) : f < s.fiberCount := by
  by_contra hge
  exact Bool.false_ne_true ((h.fresh (Nat.le_of_not_lt hge)).1.symm.trans halive)

/-- A worker whose own fiber is alive holds it. -/
theorem SafeAt.holds_own (h : s.SafeAt k f) (halive : k.alive f = true) (hcb : s.cbFiber w = some f) :
    s.Holds w f := by
  rcases h.spare w hcb with hown | hfree
  · exact hown.holds
  · exact absurd (hfree.2.alive.symm.trans halive) Bool.false_ne_true

/-- Nobody holds a fiber that is in the queue with its context saved. -/
theorem SafeAt.free_of_queued (h : s.SafeAt k f) (hqueued : s.queued f ≠ 0) (hstate : s.state f ≠ .RUNNING) :
    ∀ v, ¬ s.Holds v f :=
  fun v hv => hqueued ((h.allows v hv).queued hv hstate)

theorem SafeAt.parked_of_queued (h : s.SafeAt k f) (hqueued : s.queued f ≠ 0)
    (hstate : s.state f ≠ .RUNNING) : (s.standing k f).Parked :=
  (h.free (h.free_of_queued hqueued hstate)).resolve_right (fun hdead => hqueued hdead.queued)

/-- A step of worker `w` that is about fiber `f`. -/
theorem Safe.move (h : s.Safe k) (hpoints : t.points = Function.update s.points w p)
    (hbefore : ∀ g, s.Holds w g → g = f) (hafter : ∀ g, p.held = some g → g = f)
    (hcb : ∀ v g, v ≠ w ∨ g ≠ f → (t.cbFiber v = some g ↔ s.cbFiber v = some g))
    (hstanding : ∀ g, g ≠ f → t.standing k' g = s.standing k g) (hcount : s.fiberCount ≤ t.fiberCount)
    (hat : t.SafeAt k' f) : t.Safe k' := by
  intro g
  by_cases hg : g = f
  · rw [hg]
    exact hat
  · refine Spares.safeAt ⟨fun v hv => ?_, fun v => hcb v g (.inr hg), hstanding g hg, hcount⟩ (h g)
    by_cases hvw : v = w
    · subst hvw
      rcases hv with hv | hv
      · exact absurd (hbefore g hv) hg
      · rw [Holds, hpoints, Function.update_self] at hv
        exact absurd (hafter g hv) hg
    · rw [hpoints, Function.update_of_ne hvw]

/-- A step of worker `w` that is about no fiber. -/
theorem Safe.still (h : s.Safe k) (hpoints : t.points = Function.update s.points w p)
    (hbefore : (s.points w).held = none) (hafter : p.held = none)
    (hcb : t.cbFiber = s.cbFiber) (hstanding : ∀ g, t.standing k' g = s.standing k g)
    (hcount : s.fiberCount ≤ t.fiberCount) : t.Safe k' := by
  intro g
  refine Spares.safeAt ⟨fun v hv => ?_, fun v => by rw [hcb], hstanding g, hcount⟩ (h g)
  by_cases hvw : v = w
  · subst hvw
    rw [Holds, Holds, hpoints, Function.update_self, hbefore, hafter] at hv
    rcases hv with hv | hv <;> cases hv
  · rw [hpoints, Function.update_of_ne hvw]

theorem Safe.go (h : s.Safe k) (hbefore : (s.points w).held = none) (hafter : p.held = none) :
    (s.go w p).Safe k :=
  h.still (t := s.go w p) rfl hbefore hafter rfl (fun _ => rfl) (Nat.le_refl _)

/-- A step of worker `w` that goes on with its fiber `f`. -/
theorem Safe.round {phase' : Phase} (h : s.Safe k) (hp : s.points w = .round phase e f)
    (hpoints : t.points = Function.update s.points w (.round phase' e f))
    (hcb : t.cbFiber = s.cbFiber) (hcount : t.fiberCount = s.fiberCount)
    (hstanding : ∀ g, g ≠ f → t.standing k' g = s.standing k g)
    (hallows : (WorkerPoint.round phase' e f).Allows (t.standing k' f)) : t.Safe k' := by
  have hw : s.Holds w f := .round hp
  have hpoint : t.points w = .round phase' e f := by rw [hpoints, Function.update_self]
  refine h.move hpoints (fun g hg => ?_) (fun g hg => (Option.some.inj hg).symm) (fun v g _ => by rw [hcb])
    hstanding (Nat.le_of_eq hcount.symm) ?_
  · rw [Holds, hp] at hg
    exact (Option.some.inj hg).symm
  · have halone : t.Alone w f := ((h f).alone hw).step
      (fun v hv => by rw [hpoints, Function.update_of_ne hv]) (fun v _ => by rw [hcb])
    refine halone.held (by rw [hcount]; exact (h f).lt hw) (.round hpoint) ?_ ?_ ?_
    · rw [hpoint]
      exact hallows
    · intro phase₀ e₀ he₀
      rw [hpoint] at he₀
      cases he₀
      rw [hcb]
      exact (h f).entry w phase e hp
    · intro hf
      rw [hcb] at hf
      exact ⟨phase', e, hpoint, (h f).isCb hp hf⟩

/-- A step of worker `w` that gives fiber `f` up. -/
theorem Safe.leave (h : s.Safe k) (hp : s.points w = .round phase e f)
    (hpoints : t.points = Function.update s.points w .top)
    (hcb : ∀ v g, v ≠ w ∨ g ≠ f → (t.cbFiber v = some g ↔ s.cbFiber v = some g))
    (hcount : t.fiberCount = s.fiberCount) (hstanding : ∀ g, g ≠ f → t.standing k' g = s.standing k g)
    (hfree : (t.standing k' f).Parked ∨ (t.standing k' f).Dead)
    (hspare : t.cbFiber w = some f → (t.standing k' f).Dead) : t.Safe k' := by
  have hw : s.Holds w f := .round hp
  refine h.move hpoints (fun g hg => ?_) (fun g hg => by cases hg) hcb hstanding (Nat.le_of_eq hcount.symm) ?_
  · rw [Holds, hp] at hg
    exact (Option.some.inj hg).symm
  · have halone := (h f).alone hw
    have halone' : t.Alone w f := by
      refine ⟨fun v hv hholds => halone.holds v hv ?_, fun v hv hcbv => ?_⟩
      · rw [Holds, hpoints, Function.update_of_ne hv] at hholds
        exact hholds
      · exact halone.cbFiber v hv ((hcb v f (.inl hv)).mp hcbv)
    refine halone'.freed (by rw [hcount]; exact (h f).lt hw) (fun hholds => ?_) hfree hspare
    rw [Holds, hpoints, Function.update_self] at hholds
    cases hholds

/-! ## Steps outside of the workers -/

theorem Safe.newFiber (h : s.Safe k) : s.newFiber.Safe (k.after s .newFiber) := by
  obtain ⟨halive, hholds, hcb⟩ := (h s.fiberCount).fresh (Nat.le_refl _)
  intro g
  by_cases hg : g = s.fiberCount
  · subst hg
    have hdead : (s.standing k s.fiberCount).Dead :=
      ((h s.fiberCount).free hholds).resolve_left (fun hparked => by
        have hcontra := hparked.alive
        rw [standing, halive] at hcontra
        cases hcontra)
    have halone : s.newFiber.Alone 0 s.fiberCount := ⟨fun v _ => hholds v, fun v _ => hcb v⟩
    refine halone.freed (Nat.lt_succ_self _) (hholds 0) (.inl ⟨.inl ?_, ?_, ?_⟩) (fun hf => absurd hf (hcb 0))
    · exact Function.update_self ..
    · have hwoken : k.woken s.fiberCount = false := hdead.woken
      have hqueued : s.queued s.fiberCount = 0 := hdead.queued
      change s.queued s.fiberCount = (k.woken s.fiberCount).toNat
      rw [hwoken, hqueued]
      rfl
    · exact Function.update_self ..
  · refine Spares.safeAt (s := s) (k := k) ⟨fun v _ => rfl, fun v => Iff.rfl, ?_, Nat.le_succ _⟩ (h g)
    exact standing_congr rfl (Function.update_of_ne hg ..) rfl (Function.update_of_ne hg ..)

theorem Safe.schedule (h : s.Safe k) (hmatched : s.Matched k (.schedule task thread)) :
    (s.schedule task thread).Safe (k.after s (.schedule task thread)) := by
  intro g
  have hspares (hg : task ≠ .fiber g) (hwoken : (k.after s (.schedule task thread)).woken g = k.woken g)
      (halive : (k.after s (.schedule task thread)).alive g = k.alive g) :
      (s.schedule task thread).SafeAt (k.after s (.schedule task thread)) g := by
    refine Spares.safeAt (s := s) (k := k) ⟨fun v _ => rfl, fun v => Iff.rfl, ?_, Nat.le_refl _⟩ (h g)
    exact standing_congr (queued_schedule_of_ne hg) rfl hwoken halive
  cases task with
  | cb c => exact hspares (fun hg => by cases hg) rfl rfl
  | fiber f =>
    by_cases hg : g = f
    · subst hg
      obtain ⟨halive, hwoken⟩ := hmatched
      have hqueued : ((s.schedule (.fiber g) thread).standing (k.wake g) g).queued =
          (s.standing k g).queued + 1 := queued_schedule_self
      have hwoken' : ((s.schedule (.fiber g) thread).standing (k.wake g) g).woken = true :=
        Function.update_self ..
      have hdead (hd : (s.standing k g).Dead) : False := by
        have hcontra : k.alive g = false := hd.alive
        rw [halive] at hcontra
        cases hcontra
      have hg := h g
      refine ⟨hg.unique, fun w hw => ?_, fun hfree => ?_, hg.entry, fun w hw => ?_, hg.owner,
        fun hcount => ?_⟩
      · exact (hg.allows w hw).schedule hwoken halive rfl hqueued hwoken' rfl
      · exact .inl (((hg.free hfree).resolve_right hdead).schedule hwoken rfl hqueued hwoken' rfl)
      · exact .inl ((hg.spare w hw).resolve_right (fun hor => hdead hor.2))
      · have hcontra := (hg.fresh hcount).1
        rw [halive] at hcontra
        cases hcontra
    · refine hspares (fun heq => hg (by cases heq; rfl)) ?_ rfl
      exact Function.update_of_ne hg ..

/-! ## Steps of a worker -/

theorem Safe.pop (h : s.Safe k) (hp : s.points w = .top) : (s.pop w).Safe (k.after s (.pop w)) := by
  rw [Scheduler.pop, Watch.after]
  have hheld : (s.points w).held = none := by rw [hp]; rfl
  cases hscan : scan (s.suits w) s.fibers with
  | none => exact h.go hheld rfl
  | some found =>
    obtain ⟨⟨serial, task, thread⟩, fibers⟩ := found
    obtain ⟨hsuits, hperm⟩ := scan_spec hscan
    dsimp only
    generalize ht : ({ s with fibers := fibers, activeThreadCount := s.activeThreadCount + 1 }.go w
      (.chosen ⟨serial, task, thread⟩)) = t
    have hpoints : t.points = Function.update s.points w (.chosen ⟨serial, task, thread⟩) := by
      rw [← ht]
      rfl
    have hcb : t.cbFiber = s.cbFiber := by rw [← ht]; rfl
    have hcount : t.fiberCount = s.fiberCount := by rw [← ht]; rfl
    have hqueued (g : ℕ) : s.queued g = t.queued g + if task = .fiber g then 1 else 0 := by
      rw [queued, hperm.countP_eq, List.countP_cons, ← ht]
      simp only [decide_eq_true_eq]
      rfl
    have hsame (g : ℕ) (hg : task ≠ .fiber g) : t.standing k g = s.standing k g := by
      have hq := hqueued g
      rw [if_neg hg, Nat.add_zero] at hq
      rw [standing, standing, hq, ← ht]
      rfl
    cases task with
    | cb c =>
      exact h.still (p := .chosen ⟨serial, .cb c, thread⟩) hpoints hheld rfl hcb
        (fun g => hsame g (fun heq => by cases heq)) (Nat.le_of_eq hcount.symm)
    | fiber f =>
      have hstate : s.state f ≠ .RUNNING := by
        rw [suits, Bool.and_eq_true] at hsuits
        simpa using hsuits.2
      have hqf := hqueued f
      rw [if_pos rfl] at hqf
      have hin : s.queued f ≠ 0 := by omega
      have hnot := (h f).free_of_queued hin hstate
      have hparked := (h f).parked_of_queued hin hstate
      have htaken := hparked.taken (y := t.standing k f) (by rw [← ht]; rfl) hqf rfl rfl
      refine h.move (f := f) (p := .chosen ⟨serial, .fiber f, thread⟩) hpoints (fun g hg => ?_)
        (fun g hg => (Option.some.inj hg).symm) (fun v g _ => by rw [hcb])
        (fun g hg => hsame g (fun heq => hg (by cases heq; rfl))) (Nat.le_of_eq hcount.symm) ?_
      · rw [Holds, hheld] at hg
        cases hg
      · have hpoint : t.points w = .chosen ⟨serial, .fiber f, thread⟩ := by
          rw [hpoints, Function.update_self]
        have halone : t.Alone w f := by
          refine ⟨fun v hv hholds => hnot v ?_, fun v hv hcbv => ?_⟩
          · rw [Holds, hpoints, Function.update_of_ne hv] at hholds
            exact hholds
          · rw [hcb] at hcbv
            exact hnot v ((h f).holds_own hparked.alive hcbv)
        have hlt : f < t.fiberCount := by
          rw [hcount]
          exact (h f).lt_of_alive hparked.alive
        refine halone.held hlt (.chosen hpoint) ?_ (fun phase e he => ?_) (fun hf => ?_)
        · rw [hpoint]
          exact htaken
        · rw [hpoint] at he
          cases he
        · rw [hcb] at hf
          exact absurd ((h f).holds_own hparked.alive hf) (hnot w)

/-- A worker takes a callback into its own fiber. -/
theorem Safe.own (h : s.Safe k) (hheld : (s.points w).held = none) (halone : s.Alone w f)
    (hcb : e.task.isCb = true) (hdead : (s.standing k f).Dead) (hf : f < t.fiberCount)
    (hpoints : t.points = Function.update s.points w (.round .resuming e f))
    (hown : t.cbFiber w = some f)
    (hothers : ∀ v g, v ≠ w ∨ g ≠ f → (t.cbFiber v = some g ↔ s.cbFiber v = some g))
    (hfibers : t.fibers = s.fibers) (hstate : t.state = Function.update s.state f .INIT)
    (hcount : s.fiberCount ≤ t.fiberCount) :
    t.Safe ({ k with alive := Function.update k.alive f true }.wake f) := by
  have hpoint : t.points w = .round .resuming e f := by rw [hpoints, Function.update_self]
  have hqueued (g : ℕ) : t.queued g = s.queued g := by rw [queued, queued, hfibers]
  refine h.move hpoints (fun g hg => ?_) (fun g hg => (Option.some.inj hg).symm) hothers (fun g hg => ?_)
    hcount ?_
  · rw [Holds, hheld] at hg
    cases hg
  · refine standing_congr (hqueued g) ?_ (Function.update_of_ne hg ..) (Function.update_of_ne hg ..)
    rw [hstate, Function.update_of_ne hg]
  · have halone' : t.Alone w f := by
      refine ⟨fun v hv hholds => halone.holds v hv ?_, fun v hv hcbv => ?_⟩
      · rw [Holds, hpoints, Function.update_of_ne hv] at hholds
        exact hholds
      · exact halone.cbFiber v hv ((hothers v f (.inl hv)).mp hcbv)
    refine halone'.held hf (.round hpoint) ?_ (fun phase e' he => ?_) (fun _ => ⟨.resuming, e, hpoint, hcb⟩)
    · rw [hpoint]
      refine ⟨.inl ?_, ?_, ?_, ?_⟩
      · change t.state f = .INIT
        rw [hstate, Function.update_self]
      · exact (hqueued f).trans hdead.queued
      · exact Function.update_self ..
      · exact Function.update_self ..
    · rw [hpoint] at he
      cases he
      exact .inr ⟨hcb, hown⟩

theorem Safe.choose (h : s.Safe k) (hp : s.points w = .chosen e) :
    (s.choose w e).Safe (k.after s (.choose w)) := by
  obtain ⟨serial, task, thread⟩ := e
  cases task with
  | fiber f =>
    have hw : s.Holds w f := .chosen hp
    have htaken : (s.standing k f).Taken := (h f).allows_at hp rfl
    have hafter : k.after s (.choose w) = k := by
      rw [Watch.after, hp]
    have hchoose : s.choose w ⟨serial, .fiber f, thread⟩ =
        s.go w (.round .resuming ⟨serial, .fiber f, thread⟩ f) := if_pos htaken.waits.not_ended
    rw [hchoose, hafter]
    have hpoint : (s.go w (.round .resuming ⟨serial, .fiber f, thread⟩ f)).points w =
        .round .resuming ⟨serial, .fiber f, thread⟩ f := Function.update_self ..
    refine h.move (f := f) rfl (fun g hg => ?_) (fun g hg => (Option.some.inj hg).symm)
      (fun v g _ => Iff.rfl) (fun g _ => rfl) (Nat.le_refl _) ?_
    · rw [Holds, hp] at hg
      exact (Option.some.inj hg).symm
    · refine Alone.held (((h f).alone hw).step (fun v hv => Function.update_of_ne hv ..) (fun v _ => rfl))
        ((h f).lt hw) (.round hpoint) ?_ (fun phase e he => ?_) (fun hcb => ?_)
      · rw [hpoint]
        exact htaken
      · rw [hpoint] at he
        cases he
        exact .inl rfl
      · obtain ⟨phase, e, he, -⟩ := (h f).inOwn hw hcb
        rw [hp] at he
        cases he
  | cb c =>
    have hheld : (s.points w).held = none := by rw [hp]; rfl
    have hafter : k.after s (.choose w) =
        { k with alive := Function.update k.alive (s.ownFiber w) true }.wake (s.ownFiber w) := by
      rw [Watch.after, hp]
    rw [hafter, Scheduler.choose]
    dsimp only
    cases hcb : s.cbFiber w with
    | some f =>
      have hown : s.ownFiber w = f := by rw [ownFiber, hcb]; rfl
      rw [hown]
      have hspare := ((h f).spare w hcb).resolve_left (fun hown => by
        obtain ⟨phase, e, he, -⟩ := hown
        rw [hp] at he
        cases he)
      refine h.own hheld ⟨fun v _ => hspare.1 v, fun v hv hcbv => hv ((h f).owner v w hcbv hcb)⟩ rfl
        hspare.2 ?_ rfl hcb (fun v g _ => Iff.rfl) rfl rfl (Nat.le_refl _)
      by_contra hge
      exact ((h f).fresh (Nat.le_of_not_lt hge)).2.2 w hcb
    | none =>
      have hown : s.ownFiber w = s.fiberCount := by rw [ownFiber, hcb]; rfl
      rw [hown]
      obtain ⟨halive, hholds, hcbs⟩ := (h s.fiberCount).fresh (Nat.le_refl _)
      have hdead : (s.standing k s.fiberCount).Dead :=
        ((h s.fiberCount).free hholds).resolve_left (fun hparked =>
          Bool.false_ne_true (halive.symm.trans hparked.alive))
      refine h.own hheld ⟨fun v _ => hholds v, fun v _ => hcbs v⟩ rfl hdead (Nat.lt_succ_self _) rfl
        (Function.update_self ..) (fun v g hvg => ?_) rfl rfl (Nat.le_succ _)
      by_cases hvw : v = w
      · subst hvw
        have hgf : g ≠ s.fiberCount := hvg.resolve_left (fun hne => hne rfl)
        change Function.update s.cbFiber v (some s.fiberCount) v = some g ↔ _
        rw [Function.update_self, hcb]
        exact iff_of_false (fun heq => hgf (Option.some.inj heq).symm) (fun heq => by cases heq)
      · change Function.update s.cbFiber w (some s.fiberCount) v = some g ↔ _
        rw [Function.update_of_ne hvw]

/-- The fiber that is taken is not running, so that it is started. -/
theorem Safe.after_swapIn (h : s.Safe k) (hp : s.points w = .round .resuming e f) : s.state f ≠ .RUNNING ∧
    k.after s (.swapIn w) =
      { k with woken := Function.update k.woken f false, started := k.started ++ [(e, w)] } := by
  have htaken : (s.standing k f).Taken := (h f).allows_at hp rfl
  have hstate : s.state f ≠ .RUNNING := htaken.waits.ne_running
  rw [Watch.after, hp]
  exact ⟨hstate, if_neg hstate⟩

theorem Safe.swapIn (h : s.Safe k) (hp : s.points w = .round .resuming e f) :
    (s.swapIn w e f).Safe (k.after s (.swapIn w)) := by
  have htaken : (s.standing k f).Taken := (h f).allows_at hp rfl
  obtain ⟨hstate, hafter⟩ := h.after_swapIn hp
  rw [hafter, Scheduler.swapIn, if_neg hstate]
  refine h.round hp rfl rfl rfl (fun g hg => ?_) ⟨Function.update_self .., ?_, htaken.alive⟩
  · exact standing_congr rfl (Function.update_of_ne hg ..) (Function.update_of_ne hg ..) rfl
  · have hwoken : Function.update k.woken f false f = false := Function.update_self ..
    change s.queued f = (Function.update k.woken f false f).toNat
    rw [hwoken]
    exact htaken.queued

theorem Safe.YieldToReady (h : s.Safe k) (hp : s.points w = .round .executing e f)
    (hmatched : s.Matched k (.YieldToReady w)) :
    (s.YieldToReady w e f).Safe (k.after s (.YieldToReady w)) := by
  have hruns : (s.standing k f).Runs := (h f).allows_at hp rfl
  have hstate : s.state f = .RUNNING := hruns.state
  have hwoken := hmatched _ _ _ hp
  have hafter : k.after s (.YieldToReady w) = k.wake f := by rw [Watch.after, hp]
  rw [hafter, Scheduler.YieldToReady, if_neg (not_not.mpr hstate)]
  refine h.round hp rfl rfl rfl (fun g hg => ?_) (.inl ⟨Function.update_self .., ?_, ?_, hruns.alive⟩)
  · exact standing_congr rfl (Function.update_of_ne hg ..) (Function.update_of_ne hg ..) rfl
  · have hqueued : s.queued f = (k.woken f).toNat := hruns.queued
    rw [hwoken] at hqueued
    exact hqueued
  · exact Function.update_self ..

theorem Safe.YieldToHold (h : s.Safe k) (hp : s.points w = .round .executing e f) :
    (s.YieldToHold w e f).Safe k := by
  have hruns : (s.standing k f).Runs := (h f).allows_at hp rfl
  have hstate : s.state f = .RUNNING := hruns.state
  rw [Scheduler.YieldToHold, if_neg (not_not.mpr hstate)]
  exact h.round (t := s.go w _) hp rfl rfl rfl (fun g _ => rfl) (.inl hruns)

theorem Safe.finish (h : s.Safe k) (hp : s.points w = .round .executing e f) (thrown : Bool)
    (hmatched : s.Matched k (.finish w thrown)) :
    (s.finish w e f thrown).Safe (k.after s (.finish w thrown)) := by
  have hruns : (s.standing k f).Runs := (h f).allows_at hp rfl
  have hwoken := hmatched _ _ _ hp
  have hafter : k.after s (.finish w thrown) = { k with alive := Function.update k.alive f false } := by
    rw [Watch.after, hp]
  rw [hafter]
  refine h.round hp rfl rfl rfl (fun g hg => ?_) (.inr ⟨⟨?_, hwoken, Function.update_self ..⟩, ?_⟩)
  · exact standing_congr rfl (Function.update_of_ne hg ..) rfl (Function.update_of_ne hg ..)
  · have hqueued : s.queued f = (k.woken f).toNat := hruns.queued
    rw [hwoken] at hqueued
    exact hqueued
  · have hstate : (s.finish w e f thrown).state f = if thrown then .EXCEPT else .END :=
      Function.update_self ..
    change (s.finish w e f thrown).state f = .END ∨ (s.finish w e f thrown).state f = .EXCEPT
    rw [hstate]
    cases thrown with
    | true => exact .inr rfl
    | false => exact .inl rfl

theorem Safe.swapOut (h : s.Safe k) (hp : s.points w = .round .leaving e f) :
    (s.go w (.round .returning e f)).Safe k :=
  h.round (t := s.go w _) hp rfl rfl rfl (fun _ _ => rfl) (.inr ((h f).allows_at hp rfl))

theorem Safe.uncount (h : s.Safe k) (hp : s.points w = .round .returning e f) :
    (s.uncount w (.round .counted e f)).Safe k :=
  h.round (t := s.uncount w _) hp rfl rfl rfl (fun _ _ => rfl) ((h f).allows_at (p := .round .returning e f) hp rfl)

theorem Safe.settle (h : s.Safe k) (hp : s.points w = .round .counted e f) :
    (s.settle w e f).Safe k := by
  have hallows : (s.standing k f).Runs ∨ (s.standing k f).Handed ∨ (s.standing k f).Over :=
    (h f).allows_at (p := .round .counted e f) hp rfl
  rw [Scheduler.settle]
  obtain hruns | hhanded | hover := hallows
  · have hstate : s.state f = .RUNNING := hruns.state
    rw [hstate, if_neg (by decide), if_pos (by decide)]
    exact h.round (t := s.go w _) hp rfl rfl rfl (fun g _ => rfl) hruns
  · have hstate : s.state f = .READY := hhanded.state
    rw [if_pos hstate]
    exact h.round (t := s.go w _) hp rfl rfl rfl (fun g _ => rfl) hhanded
  · have hready : s.state f ≠ .READY := by
      rcases hover.state with hs | hs
      · exact fun heq => by cases heq.symm.trans hs
      · exact fun heq => by cases heq.symm.trans hs
    have hended : ¬ (s.state f ≠ .END ∧ s.state f ≠ .EXCEPT) :=
      fun hnot => hover.state.elim hnot.1 hnot.2
    rw [if_neg hready, if_neg hended]
    split
    · have hdead : ((s.setState f .INIT).standing k f).Dead := ⟨hover.queued, hover.woken, hover.alive⟩
      exact h.leave (t := (s.setState f .INIT).go w .top) hp rfl (fun v g _ => Iff.rfl) rfl
        (fun g hg => standing_congr rfl (Function.update_of_ne hg ..) rfl rfl) (.inr hdead) (fun _ => hdead)
    · exact h.leave (t := s.go w .top) hp rfl (fun v g _ => Iff.rfl) rfl (fun g _ => rfl)
        (.inr hover.toDead) (fun _ => hover.toDead)

/-- The fiber is scheduled again or put on hold, and the worker has no own one any more. -/
theorem Safe.release (h : s.Safe k) (hp : s.points w = .round phase e f) (hpoints : t.points = s.points)
    (hcb : t.cbFiber = s.cbFiber) (hcount : t.fiberCount = s.fiberCount)
    (hstanding : ∀ g, g ≠ f → t.standing k g = s.standing k g) (hparked : (t.standing k f).Parked) :
    (t.release w e).Safe k := by
  have hsame (g : ℕ) : (t.release w e).standing k g = t.standing k g := by
    rw [Scheduler.release]
    split <;> rfl
  refine h.leave hp (?_ : (t.release w e).points = _) (fun v g hvg => ?_) ?_ (fun g hg => ?_) ?_ (fun hf => ?_)
  · rw [Scheduler.release, ← hpoints]
    split <;> rfl
  · rw [Scheduler.release]
    split
    · rename_i hcbe
      change Function.update t.cbFiber w none v = some g ↔ _
      by_cases hvw : v = w
      · subst hvw
        have hown : s.cbFiber v = some f := by
          refine ((h f).entry v phase e hp).elim (fun htask => ?_) And.right
          rw [htask] at hcbe
          cases hcbe
        rw [Function.update_self, hown]
        refine iff_of_false (fun heq => by cases heq) (fun heq => ?_)
        exact hvg.elim (fun hne => hne rfl) (fun hne => hne (Option.some.inj heq).symm)
      · rw [Function.update_of_ne hvw, hcb]
    · change t.cbFiber v = some g ↔ _
      rw [hcb]
  · rw [← hcount, Scheduler.release]
    split <;> rfl
  · rw [hsame, hstanding g hg]
  · rw [hsame]
    exact .inl hparked
  · rw [Scheduler.release] at hf
    split at hf
    · change Function.update t.cbFiber w none w = some f at hf
      rw [Function.update_self] at hf
      cases hf
    · rename_i hcbe
      exact absurd ((h f).isCb hp ((congrFun hcb w).symm.trans hf)) hcbe

theorem Safe.reschedule (h : s.Safe k) (hp : s.points w = .round .rescheduling e f) :
    (s.reschedule w e f).Safe k := by
  have hhanded : (s.standing k f).Handed := (h f).allows_at (p := .round .rescheduling e f) hp rfl
  refine h.release (t := s.schedule (.fiber f) none) hp rfl rfl rfl (fun g hg => ?_) ⟨?_, ?_, hhanded.alive⟩
  · exact standing_congr (queued_schedule_of_ne (fun heq => hg (by cases heq; rfl))) rfl rfl rfl
  · exact .inr (.inl hhanded.state)
  · have hzero : s.queued f = 0 := hhanded.queued
    have hwoken : k.woken f = true := hhanded.woken
    change (s.schedule (.fiber f) none).queued f = (k.woken f).toNat
    rw [queued_schedule_self, hzero, hwoken]
    rfl

theorem Safe.hold (h : s.Safe k) (hp : s.points w = .round .holding e f) : (s.hold w e f).Safe k := by
  have hruns : (s.standing k f).Runs := (h f).allows_at (p := .round .holding e f) hp rfl
  refine h.release (t := s.setState f .HOLD) hp rfl rfl rfl (fun g hg => ?_) ⟨?_, hruns.queued, hruns.alive⟩
  · exact standing_congr rfl (Function.update_of_ne hg ..) rfl rfl
  · exact .inr (.inr (Function.update_self ..))

/-- A point at which a worker has no fiber. -/
theorem held_none {q : WorkerPoint} (hp : s.points w = q) (hq : q.held = none) : (s.points w).held = none := by
  rw [hp, hq]

theorem Safe.step {x y : Scheduler × Watch} (h : x.1.Safe x.2) (hstep : WatchedStep x a y) : y.1.Safe y.2 := by
  obtain ⟨s, k⟩ := x
  obtain ⟨t, k'⟩ := y
  obtain ⟨hs, hk, hmatched⟩ := hstep
  dsimp only at h hs hk hmatched ⊢
  subst hk
  cases hs with
  | newFiber => exact h.newFiber
  | schedule task thread => exact h.schedule hmatched
  | requestStop =>
    exact fun g => Spares.safeAt (s := s) (k := k) ⟨fun v _ => rfl, fun v => Iff.rfl, rfl, Nat.le_refl _⟩ (h g)
  | callRoot hroot hstop hout hnot => exact h.go (held_none hout rfl) rfl
  | pop hp => exact h.pop hp
  | choose hp => exact h.choose hp
  | drop hp =>
    exact h.still (t := s.uncount _ _) rfl (held_none hp rfl) rfl rfl (fun _ => rfl) (Nat.le_refl _)
  | swapIn hp => exact h.swapIn hp
  | YieldToReady hp => exact h.YieldToReady hp hmatched
  | YieldToHold hp => exact h.YieldToHold hp
  | finish thrown hp => exact h.finish hp thrown hmatched
  | swapOut hp => exact h.swapOut hp
  | uncount hp => exact h.uncount hp
  | settle hp => exact h.settle hp
  | reschedule hp => exact h.reschedule hp
  | hold hp => exact h.hold hp
  | idleIn hp =>
    rw [idleIn]
    split
    · exact h.go (held_none hp rfl) rfl
    · exact h.still rfl (held_none hp rfl) rfl rfl (fun _ => rfl) (Nat.le_refl _)
  | idle hp =>
    rw [idle]
    split
    · exact h.still rfl (held_none hp rfl) rfl rfl (fun _ => rfl) (Nat.le_refl _)
    · exact h.go (held_none hp rfl) rfl
  | idleOut hp => exact h.still (t := s.idleOut _) rfl (held_none hp rfl) rfl rfl (fun _ => rfl) (Nat.le_refl _)

theorem safe_start (threadCount : ℕ) (useCaller : Bool) : (start threadCount useCaller).Safe .start := by
  intro f
  have hnobody (w : ℕ) : ¬ (start threadCount useCaller).Holds w f := by
    intro hw
    rw [Holds, start] at hw
    dsimp only at hw
    split at hw <;> cases hw
  refine ⟨fun v w hv => absurd hv (hnobody v), fun w hw => absurd hw (hnobody w), fun _ => .inr ⟨rfl, rfl, rfl⟩,
    fun w phase e hp => absurd (.round hp) (hnobody w), fun w hw => (by cases hw), fun v w hv => (by cases hv),
    fun _ => ⟨rfl, hnobody, fun w hw => (by cases hw)⟩⟩

end Scheduler
end Flz
