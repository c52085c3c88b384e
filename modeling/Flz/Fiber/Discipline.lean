import Flz.Fiber.Model

/-! # Where control continues when a fiber leaves

A note is kept beside the thread: for each fiber the continuation that the latest `call()` or
`swapIn()` of it saved, and whether the fiber has itself resumed another one since. Control
returns to that continuation exactly when it has not, for the one slot holds one continuation.
-/
namespace Flz.FiberThread

/-- What an observer knows of the fibers. -/
structure Note where
  savedBy : ℕ → Option Context
  nested : ℕ → Bool

def Note.start : Note := ⟨fun _ => none, fun _ => false⟩

/-- The fiber that an operation switches to by `call()` or `swapIn()`. -/
def resumes (t : FiberThread) : Op → Option ℕ
  | .call n => some n
  | .swapIn n => if t.state (.fiber n) = .RUNNING then none else some n
  | _ => none

/-- The note after the running fiber resumed fiber `n`. -/
def Note.resumed (note : Note) (t : FiberThread) (n : ℕ) : Note where
  savedBy := Function.update note.savedBy n (some (.saved t.running t.clock))
  nested := fun m => if m = n then false else if t.running = .fiber m then true else note.nested m

def observe (t : FiberThread) (note : Note) (op : Op) : Note :=
  match resumes t op with
  | none => note
  | some n => note.resumed t n

/-- The operation switches away from the running fiber by `swapOut()` or `back()`. -/
def Leaves (t : FiberThread) : Op → Prop
  | .swapOut | .back | .terminate _ => True
  | .yieldToReady | .yieldToHold => t.state t.current = .RUNNING
  | _ => False

/-- A fiber that leaves continues whoever resumed it, where it did so. -/
def ReturnsToResumer (t : FiberThread) (note : Note) (op : Op) : Prop :=
  ∀ n, t.running = .fiber n → Leaves t op → note.savedBy n = some (exec t op).resumedAt

/-- A fiber that leaves has resumed no other since it was resumed itself. -/
def LeavesUnnested (t : FiberThread) (note : Note) (op : Op) : Prop :=
  ∀ n, t.running = .fiber n → Leaves t op → note.nested n = false

/-- A fiber does not resume itself, and `swapIn()` does not find the fiber running. -/
def ResumesOther (t : FiberThread) (_ : Note) : Op → Prop
  | .call n => t.running ≠ .fiber n
  | .swapIn n => t.running ≠ .fiber n ∧ t.state (.fiber n) ≠ .RUNNING
  | _ => True

/-- The condition holds at every step of a run. -/
def Throughout (p : FiberThread → Note → Op → Prop) : FiberThread → Note → List Op → Prop
  | _, _, [] => True
  | t, note, op :: ops => p t note op ∧ Throughout p (exec t op) (observe t note op) ops

/-- What holds in every state of a run without nesting. -/
structure Inv (t : FiberThread) (note : Note) : Prop where
  ctx_old : ∀ w v k, t.ctx w = .saved v k → k < t.clock
  saved_old : ∀ n v k, note.savedBy n = some (.saved v k) → k < t.clock
  own_stack : ∀ n, (t.ctx (.fiber n)).stack = .fiber n
  slot_nested : ∀ n, (t.ctx .main).stack = .fiber n → note.nested n = true ∧ note.savedBy n ≠ none
  slot_lost : ∀ n c, note.savedBy n = some c → note.nested n = true → t.ctx .main ≠ c
  here : ∀ n, t.running = .fiber n → ∃ c, note.savedBy n = some c ∧
    (note.nested n = false → t.ctx .main = c ∧ t.current = .fiber n)
  at_main : t.running = .main → t.current = .main

theorem start_inv (useCaller : ℕ → Bool) : Inv (start useCaller) .start where
  ctx_old := by
    intro w v k h
    cases w with
    | main =>
      obtain ⟨-, rfl⟩ := Context.saved.inj h
      exact Nat.one_pos
    | fiber n => cases h
  saved_old := by
    intro n v k h
    cases h
  own_stack := fun _ => rfl
  slot_nested := by
    intro n h
    cases h
  slot_lost := by
    intro n c h
    cases h
  here := by
    intro n h
    cases h
  at_main := fun _ => rfl

section
variable {t : FiberThread} {note : Note} {op : Op}

theorem Note.resumed_savedBy_self {n : ℕ} :
    (note.resumed t n).savedBy n = some (.saved t.running t.clock) := Function.update_self _ _ _

theorem Note.resumed_savedBy_of_ne {n m : ℕ} (h : m ≠ n) :
    (note.resumed t n).savedBy m = note.savedBy m := Function.update_of_ne h _ _

theorem Note.resumed_nested_self {n : ℕ} : (note.resumed t n).nested n = false := if_pos rfl

theorem Note.resumed_nested_running {n m : ℕ} (h : m ≠ n) (hrun : t.running = .fiber m) :
    (note.resumed t n).nested m = true := (if_neg h).trans (if_pos hrun)

/-- The label of a switch is new. -/
theorem Inv.fresh (h : Inv t note) {n : ℕ} {c : Context} (hc : note.savedBy n = some c) (w : Who) :
    Context.saved w t.clock ≠ c := by
  rintro rfl
  exact Nat.lt_irrefl _ (h.saved_old n w t.clock hc)

/-- A switch to fiber `n` from another stack. -/
theorem Inv.resume (h : Inv t note) {n : ℕ} (hne : t.running ≠ .fiber n) :
    Inv (call n t) (note.resumed t n) := by
  have hslot : (call n t).ctx .main = .saved t.running t.clock := by simp [call]
  have hrest : ∀ m, (call n t).ctx (.fiber m) = t.ctx (.fiber m) := by
    intro m
    simp [call]
  have hrun : (call n t).running = .fiber n := by
    simp [call, h.own_stack]
  have hclock : (call n t).clock = t.clock + 1 := rfl
  refine ⟨?_, ?_, ?_, ?_, ?_, ?_, ?_⟩
  · intro w v k hw
    rw [hclock]
    cases w with
    | main =>
      rw [hslot] at hw
      obtain ⟨-, rfl⟩ := Context.saved.inj hw
      exact Nat.lt_succ_self _
    | fiber m =>
      rw [hrest] at hw
      exact Nat.lt_succ_of_lt (h.ctx_old _ v k hw)
  · intro m v k hm
    rw [hclock]
    by_cases hmn : m = n
    · subst hmn
      rw [Note.resumed_savedBy_self] at hm
      obtain ⟨-, rfl⟩ := Context.saved.inj (Option.some.inj hm)
      exact Nat.lt_succ_self _
    · rw [Note.resumed_savedBy_of_ne hmn] at hm
      exact Nat.lt_succ_of_lt (h.saved_old m v k hm)
  · intro m
    rw [hrest]
    exact h.own_stack m
  · intro m hm
    rw [hslot] at hm
    have hrunm : t.running = .fiber m := hm
    have hmn : m ≠ n := by
      rintro rfl
      exact hne hrunm
    obtain ⟨c, hc, -⟩ := h.here m hrunm
    refine ⟨Note.resumed_nested_running hmn hrunm, ?_⟩
    rw [Note.resumed_savedBy_of_ne hmn, hc]
    exact Option.some_ne_none c
  · intro m c hm hnest
    rw [hslot]
    by_cases hmn : m = n
    · subst hmn
      rw [Note.resumed_nested_self] at hnest
      cases hnest
    · rw [Note.resumed_savedBy_of_ne hmn] at hm
      exact h.fresh hm _
  · intro m hm
    rw [hrun] at hm
    obtain rfl := Who.fiber.inj hm
    exact ⟨_, Note.resumed_savedBy_self, fun _ => ⟨hslot, rfl⟩⟩
  · intro hm
    rw [hrun] at hm
    cases hm

/-- A fiber leaves that has resumed no other. -/
theorem Inv.leave (h : Inv t note) {n : ℕ} (hrun : t.running = .fiber n) :
    Inv (swapOut (.fiber n) t) note := by
  have hslot : (swapOut (.fiber n) t).ctx .main = t.ctx .main := by simp [swapOut]
  have hto : (swapOut (.fiber n) t).running = (t.ctx .main).stack := by simp [swapOut]
  have hclock : (swapOut (.fiber n) t).clock = t.clock + 1 := rfl
  refine ⟨?_, ?_, ?_, ?_, ?_, ?_, ?_⟩
  · intro w v k hw
    rw [hclock]
    by_cases hwn : w = .fiber n
    · subst hwn
      simp only [swapOut, swapcontext_ctx, Function.update_self] at hw
      obtain ⟨-, rfl⟩ := Context.saved.inj hw
      exact Nat.lt_succ_self _
    · simp only [swapOut, swapcontext_ctx, Function.update_of_ne hwn, SetThis_ctx] at hw
      exact Nat.lt_succ_of_lt (h.ctx_old w v k hw)
  · intro m v k hm
    rw [hclock]
    exact Nat.lt_succ_of_lt (h.saved_old m v k hm)
  · intro m
    by_cases hmn : m = n
    · subst hmn
      simp [swapOut, hrun, Context.stack]
    · simp [swapOut, hmn, h.own_stack]
  · intro m hm
    rw [hslot] at hm
    exact h.slot_nested m hm
  · intro m c hm hnest
    rw [hslot]
    exact h.slot_lost m c hm hnest
  · intro m hm
    rw [hto] at hm
    obtain ⟨hnest, hsaved⟩ := h.slot_nested m hm
    obtain ⟨c, hc⟩ := Option.ne_none_iff_exists'.mp hsaved
    refine ⟨c, hc, fun hfalse => ?_⟩
    rw [hnest] at hfalse
    cases hfalse
  · intro _
    rfl

/-- The thread's own fiber swaps itself out: it goes on at once. -/
theorem Inv.leave_main (h : Inv t note) (hrun : t.running = .main) :
    Inv (swapOut .main t) note := by
  have hslot : (swapOut .main t).ctx .main = .saved .main t.clock := by simp [swapOut, hrun]
  have hrest : ∀ m, (swapOut .main t).ctx (.fiber m) = t.ctx (.fiber m) := by
    intro m
    simp [swapOut]
  have hto : (swapOut .main t).running = .main := by simp [swapOut, hrun, Context.stack]
  have hclock : (swapOut .main t).clock = t.clock + 1 := rfl
  refine ⟨?_, ?_, ?_, ?_, ?_, ?_, ?_⟩
  · intro w v k hw
    rw [hclock]
    cases w with
    | main =>
      rw [hslot] at hw
      obtain ⟨-, rfl⟩ := Context.saved.inj hw
      exact Nat.lt_succ_self _
    | fiber m =>
      rw [hrest] at hw
      exact Nat.lt_succ_of_lt (h.ctx_old _ v k hw)
  · intro m v k hm
    rw [hclock]
    exact Nat.lt_succ_of_lt (h.saved_old m v k hm)
  · intro m
    rw [hrest]
    exact h.own_stack m
  · intro m hm
    rw [hslot] at hm
    cases hm
  · intro m c hm _
    rw [hslot]
    exact h.fresh hm _
  · intro m hm
    rw [hto] at hm
    cases hm
  · intro _
    rfl

/-- States and entry points of fibers do not matter. -/
theorem Inv.setState (h : Inv t note) (w : Who) (s : FiberState) : Inv (t.setState w s) note :=
  ⟨h.ctx_old, h.saved_old, h.own_stack, h.slot_nested, h.slot_lost, h.here, h.at_main⟩

theorem Inv.reset (h : Inv t note) (n : ℕ) : Inv (t.reset n) note := by
  refine ⟨?_, h.saved_old, ?_, ?_, ?_, ?_, h.at_main⟩
  · intro w v k hw
    by_cases hwn : w = .fiber n
    · subst hwn
      simp [FiberThread.reset] at hw
    · simp only [FiberThread.reset, Function.update_of_ne hwn] at hw
      exact h.ctx_old w v k hw
  · intro m
    by_cases hmn : m = n
    · subst hmn
      simp [FiberThread.reset, Context.stack]
    · simp [FiberThread.reset, hmn, h.own_stack]
  · intro m hm
    exact h.slot_nested m (by simpa [FiberThread.reset] using hm)
  · intro m c hm hnest
    simpa [FiberThread.reset] using h.slot_lost m c hm hnest
  · intro m hm
    simpa [FiberThread.reset] using h.here m hm

/-! ## One step -/

theorem back_eq (w : Who) (t : FiberThread) : back w t = swapOut w t := rfl

/-- An operation that leaves is a `swapOut` of some fiber, after a change of its state perhaps:
of the running fiber unless it goes through `t_fiber`. -/
theorem exec_leaves {n : ℕ} (hrun : t.running = .fiber n) (hl : Leaves t op) :
    ∃ w s, exec t op = swapOut w (t.setState w s) ∧ (w = .fiber n ∨ w = t.current) := by
  have hself : ∀ w, t.setState w (t.state w) = t := by
    intro w
    simp [FiberThread.setState]
  cases op with
  | swapOut => exact ⟨.fiber n, t.state (.fiber n), by rw [hself, exec, hrun], Or.inl rfl⟩
  | back => exact ⟨.fiber n, t.state (.fiber n), by rw [hself, exec, hrun, back_eq], Or.inl rfl⟩
  | terminate s =>
    refine ⟨.fiber n, s, ?_, Or.inl rfl⟩
    rw [exec, hrun]
    dsimp only
    rw [terminate, back_eq]
    split <;> rfl
  | yieldToReady =>
    have hstate : t.state t.current = .RUNNING := hl
    refine ⟨t.current, .READY, ?_, Or.inr rfl⟩
    rw [exec, YieldToReady, if_neg (not_not_intro hstate)]
  | yieldToHold =>
    have hstate : t.state t.current = .RUNNING := hl
    refine ⟨t.current, t.state t.current, ?_, Or.inr rfl⟩
    rw [hself, exec, YieldToHold, if_neg (not_not_intro hstate)]
  | call n => cases hl
  | swapIn n => cases hl
  | setState n s => cases hl
  | reset n => cases hl

theorem observe_leaves (hl : Leaves t op) : observe t note op = note := by
  cases op with
  | call n => cases hl
  | swapIn n => cases hl
  | _ => rfl

/-- A fiber that leaves returns to its resumer exactly when it has resumed no other. -/
theorem Inv.returns_iff (h : Inv t note) : ReturnsToResumer t note op ↔ LeavesUnnested t note op := by
  refine forall_congr' fun n => forall_congr' fun hrun => forall_congr' fun hl => ?_
  obtain ⟨w, s, hexec, hw⟩ := exec_leaves hrun hl
  obtain ⟨c, hc, hhere⟩ := h.here n hrun
  rw [hexec, hc, Option.some.injEq]
  constructor
  · intro heq
    by_contra hnest
    rw [Bool.not_eq_false] at hnest
    by_cases hwm : w = .main
    · subst hwm
      simp only [swapOut, swapcontext_resumedAt, Function.update_self, SetThis_running,
        setState_running, SetThis_clock, setState_clock] at heq
      exact h.fresh hc _ heq.symm
    · simp only [swapOut, swapcontext_resumedAt, Function.update_of_ne (Ne.symm hwm), SetThis_ctx,
        setState_ctx] at heq
      exact h.slot_lost n c hc hnest heq.symm
  · intro hnest
    obtain ⟨hslot, hcur⟩ := hhere hnest
    have hwn : w = .fiber n := hw.elim id (fun h' => h'.trans hcur)
    subst hwn
    simp [swapOut, hslot]

/-- What every step of a run without nesting keeps. -/
theorem Inv.step (h : Inv t note) (hother : ResumesOther t note op) (hun : LeavesUnnested t note op) :
    Inv (exec t op) (observe t note op) := by
  by_cases hl : Leaves t op
  · rw [observe_leaves hl]
    cases hrun : t.running with
    | fiber n =>
      obtain ⟨w, s, hexec, hw⟩ := exec_leaves hrun hl
      obtain ⟨c, -, hhere⟩ := h.here n hrun
      have hwn : w = .fiber n := hw.elim id (fun h' => h'.trans (hhere (hun n hrun hl)).2)
      rw [hexec, hwn]
      exact (h.setState _ _).leave hrun
    | main =>
      have hcur := h.at_main hrun
      cases op with
      | swapOut =>
        rw [exec, hrun]
        exact h.leave_main hrun
      | back =>
        rw [exec, hrun, back_eq]
        exact h.leave_main hrun
      | terminate s =>
        rw [exec, hrun]
        exact h
      | yieldToReady =>
        have hstate : t.state t.current = .RUNNING := hl
        rw [exec, YieldToReady, if_neg (not_not_intro hstate), hcur]
        exact (h.setState _ _).leave_main hrun
      | yieldToHold =>
        have hstate : t.state t.current = .RUNNING := hl
        rw [exec, YieldToHold, if_neg (not_not_intro hstate), hcur]
        exact h.leave_main hrun
      | call n => cases hl
      | swapIn n => cases hl
      | setState n s => cases hl
      | reset n => cases hl
  · cases op with
    | call n => exact h.resume hother
    | swapIn n =>
      obtain ⟨hne, hstate⟩ := hother
      have hres : resumes t (.swapIn n) = some n := if_neg hstate
      rw [observe, hres, exec, swapIn, if_neg hstate]
      exact h.resume hne
    | setState n s => exact h.setState _ _
    | reset n => exact h.reset n
    | swapOut => exact absurd trivial hl
    | back => exact absurd trivial hl
    | terminate s => exact absurd trivial hl
    | yieldToReady =>
      have hstate : t.state t.current ≠ .RUNNING := hl
      rw [exec, YieldToReady, if_pos hstate]
      exact h
    | yieldToHold =>
      have hstate : t.state t.current ≠ .RUNNING := hl
      rw [exec, YieldToHold, if_pos hstate]
      exact h

theorem Inv.throughout_iff (h : Inv t note) {ops : List Op}
    (hother : Throughout ResumesOther t note ops) :
    Throughout ReturnsToResumer t note ops ↔ Throughout LeavesUnnested t note ops := by
  induction ops generalizing t note with
  | nil => exact Iff.rfl
  | cons op ops ih =>
    obtain ⟨hop, hops⟩ := hother
    rw [Throughout, Throughout, h.returns_iff]
    exact and_congr_right fun hun => ih (h.step hop hun) hops

end

/-- In every run, all fibers that leave return to their resumers exactly when none of them has
resumed another fiber in between. -/
theorem run_returns_iff (useCaller : ℕ → Bool) {ops : List Op}
    (hother : Throughout ResumesOther (start useCaller) .start ops) :
    Throughout ReturnsToResumer (start useCaller) .start ops ↔
      Throughout LeavesUnnested (start useCaller) .start ops :=
  (start_inv useCaller).throughout_iff hother

/-- The thread resumes a fiber, which yields, is put on hold and resumed once more until it ends. -/
theorem run_returns_iff_twice :
    Throughout ReturnsToResumer (start fun _ => false) .start
      [.swapIn 0, .yieldToHold, .setState 0 .HOLD, .swapIn 0, .terminate .END] := by
  have hother : Throughout ResumesOther (start fun _ => false) .start
      [.swapIn 0, .yieldToHold, .setState 0 .HOLD, .swapIn 0, .terminate .END] :=
    ⟨⟨by decide, by decide⟩, trivial, trivial, ⟨by decide, by decide⟩, trivial, trivial⟩
  refine (run_returns_iff (fun _ => false) hother).mpr
    ⟨fun _ _ hl => hl.elim, ?_, fun _ _ hl => hl.elim, fun _ _ hl => hl.elim, ?_, trivial⟩
  · rintro n ⟨⟩ -
    decide
  · rintro n ⟨⟩ -
    decide

/-- A thread calls the root fiber 0, which swaps the idle fiber 1 in; both terminate. -/
theorem root_fiber_not_returned :
    ¬ Throughout ReturnsToResumer (start fun n => n = 0) .start
      [.call 0, .swapIn 1, .terminate .END, .terminate .END] := by
  rintro ⟨-, -, -, hlast, -⟩
  have h := hlast 0 (by decide) trivial
  revert h
  decide

/-! ## The root fiber of a scheduler -/

/-- What `Scheduler::run` does with a task or with the idle fiber: it is swapped in, and it swaps
itself out in the end. -/
def schedulerRound (n : ℕ) : List Op := [.setState n .HOLD, .swapIn n, .swapOut]

section
variable {t : FiberThread} {root n : ℕ}

theorem schedulerRound_spec (hrun : t.running = .fiber root)
    (hown : ∀ m, (t.ctx (.fiber m)).stack = .fiber m) (hne : n ≠ root) :
    ((schedulerRound n).foldl exec t).running = .fiber root ∧
      (∀ m, (((schedulerRound n).foldl exec t).ctx (.fiber m)).stack = .fiber m) ∧
      (((schedulerRound n).foldl exec t).ctx .main).stack = .fiber root := by
  have hstate : (setState (.fiber n) .HOLD t).state (.fiber n) ≠ .RUNNING := by
    simp [setState]
  have hin : exec (exec t (.setState n .HOLD)) (.swapIn n) = call n (setState (.fiber n) .HOLD t) := by
    rw [exec, exec, swapIn, if_neg hstate, call]
  have hmain : (call n (setState (.fiber n) .HOLD t)).ctx .main = .saved (.fiber root) t.clock := by
    simp [call, hrun]
  have hctx : ∀ m, (call n (setState (.fiber n) .HOLD t)).ctx (.fiber m) = t.ctx (.fiber m) := by
    intro m
    simp [call]
  have hto : (call n (setState (.fiber n) .HOLD t)).running = .fiber n := by
    simp [call, hown]
  simp only [schedulerRound, List.foldl_cons, List.foldl_nil, hin]
  rw [exec, hto]
  refine ⟨?_, ?_, ?_⟩
  · simp [swapOut, hmain, Context.stack]
  · intro m
    by_cases hmn : m = n
    · subst hmn
      simp [swapOut, hto, Context.stack]
    · simp [swapOut, hmn, hctx, hown]
  · simp [swapOut, hmain, Context.stack]

/-- When the root fiber of a `use_caller` scheduler has run any tasks or the idle fiber, the end of
`run()` does not lead back to `stop()`: control stays on the root fiber's own stack. -/
theorem root_fiber_stranded (useCaller : ℕ → Bool) (root : ℕ) {tasks : List ℕ} (hne : tasks ≠ [])
    (hroot : root ∉ tasks) (state : FiberState) :
    ((Op.call root :: (tasks.flatMap schedulerRound ++ [.terminate state])).foldl exec
      (start useCaller)).running = .fiber root := by
  have hrounds : ∀ (tasks : List ℕ) (t : FiberThread), root ∉ tasks → t.running = .fiber root →
      (∀ m, (t.ctx (.fiber m)).stack = .fiber m) →
      (tasks ≠ [] ∨ (t.ctx .main).stack = .fiber root) →
      ((tasks.flatMap schedulerRound).foldl exec t).running = .fiber root ∧
        (((tasks.flatMap schedulerRound).foldl exec t).ctx .main).stack = .fiber root := by
    intro tasks
    induction tasks with
    | nil =>
      intro t _ hrun _ hslot
      exact ⟨hrun, hslot.resolve_left (fun h => h rfl)⟩
    | cons n tasks ih =>
      intro t hnot hrun hown _
      obtain ⟨hn, hnot'⟩ := not_or.mp (fun h => hnot (List.mem_cons.mpr h))
      obtain ⟨hrun', hown', hslot'⟩ := schedulerRound_spec hrun hown (Ne.symm hn)
      rw [List.flatMap_cons, List.foldl_append]
      exact ih _ hnot' hrun' hown' (Or.inr hslot')
  obtain ⟨hrun, hslot⟩ := hrounds tasks (call root (start useCaller)) hroot
    (by simp [call, start, Context.stack]) (fun m => by simp [call, start, Context.stack])
    (Or.inl hne)
  rw [List.foldl_cons, List.foldl_append, List.foldl_cons, List.foldl_nil]
  change (exec ((tasks.flatMap schedulerRound).foldl exec (call root (start useCaller)))
    (.terminate state)).running = .fiber root
  rw [exec, hrun]
  dsimp only
  rw [terminate, back_eq, ite_self]
  simp [swapOut, hslot]

end

end Flz.FiberThread
