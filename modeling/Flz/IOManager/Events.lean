import Flz.IOManager.Model

/-! # Registered events

Events are triggered for tasks that wait, and all that are registered are counted, as long as no
report names a registered event together with one that has gone meanwhile.
-/
namespace Flz
open Lib

/-- The contexts that a point names. -/
def Point.objects : Point → List ℕ
  | .addEvent _ c _ _ | .delEvent _ c _ | .cancelEvent _ c _ | .cancelAll _ c => [c]
  | .dispatch report reports => report.ctx :: reports.map Report.ctx
  | .ready _ | .resizing .. => []

def Point.registration : Point → Option Registration
  | .resizing _ _ r | .addEvent _ _ _ r => some r
  | _ => none

namespace IOManager

/-- Who registers an event belongs to a scheduler; of the events that a report is taken for all
are registered, or none is, or `epoll_ctl` fails. -/
def Orderly (s : IOManager) : IOAction → Prop
  | .addEvent _ _ _ r => r.scheduler ≠ none
  | .context t ok => ∀ report reports c, s.points t = .dispatch report reports →
      s.contexts[report.ctx]? = some c → ok = true → c.Fresh (report.real c)
  | _ => True

def OrderlyStep (s : IOManager) (a : IOAction) (s' : IOManager) : Prop := s.Orderly a ∧ s.Step a s'

structure Valid (s : IOManager) (p : Point) : Prop where
  objects : ∀ c ∈ p.objects, c < s.contexts.length
  registration : ∀ r, p.registration = some r → r.scheduler ≠ none

structure Sound (s : IOManager) : Prop where
  wired : ∀ c ∈ s.contexts, c.Wired
  table : ∀ c ∈ s.fdContexts, c < s.contexts.length
  points : ∀ t, s.Valid (s.points t)
  pending : s.pendingEventCount = s.total

section
variable {s s' : IOManager} {a : IOAction} {t c size : ℕ} {p : Point} {ctx : FdContext} {o : Outcome}
  {ok : Bool} {f : IOFault} {log : List IOAction}

theorem sum_map_set {α : Type} (w : α → ℕ) {x y : α} (l : List α) (i : ℕ) (h : l[i]? = some x) :
    ((l.set i y).map w).sum + w x = (l.map w).sum + w y := by
  induction l generalizing i with
  | nil => cases h
  | cons z l ih =>
    cases i with
    | zero =>
      obtain rfl := Option.some.inj h
      simp only [List.set_cons_zero, List.map_cons, List.sum_cons]
      omega
    | succ i =>
      have htail := ih i h
      simp only [List.set_cons_succ, List.map_cons, List.sum_cons]
      omega

theorem total_contextResize : (s.contextResize size).total = s.total := by
  have hnew : ((List.range' s.fdContexts.length (size - s.fdContexts.length)).map
      ((fun c => c.events.card) ∘ FdContext.new)).sum = 0 := by
    refine List.sum_eq_zero_iff_forall_eq_nat.mpr (fun n hn => ?_)
    obtain ⟨fd, -, rfl⟩ := List.mem_map.mp hn
    rfl
  rw [total, contextResize, List.map_append, List.sum_append, List.map_map, hnew]
  rfl

theorem go_points_self : (s.go t p).points t = p := Function.update_self ..

theorem go_points_of_ne {k : ℕ} (h : k ≠ t) : (s.go t p).points k = s.points k := Function.update_of_ne h ..

theorem Sound.go (h : s.Sound) (hp : s.Valid p) (t : ℕ) : (s.go t p).Sound where
  wired := h.wired
  table := h.table
  points := by
    intro k
    by_cases hkt : k = t
    · rw [hkt, go_points_self]
      exact ⟨hp.objects, hp.registration⟩
    · rw [go_points_of_ne hkt]
      exact ⟨(h.points k).objects, (h.points k).registration⟩
  pending := h.pending

theorem Sound.contextResize (h : s.Sound) (size : ℕ) : (s.contextResize size).Sound := by
  have hlength : (s.contextResize size).contexts.length =
      s.contexts.length + (size - s.fdContexts.length) := by
    rw [IOManager.contextResize, List.length_append, List.length_map, List.length_range']
  refine ⟨fun c hc => ?_, fun c hc => ?_, fun t => ⟨fun c hc => ?_, (h.points t).registration⟩, ?_⟩
  · rcases List.mem_append.mp hc with hold | hnew
    · exact h.wired c hold
    · obtain ⟨fd, -, rfl⟩ := List.mem_map.mp hnew
      exact FdContext.Wired.new fd
  · rw [hlength]
    rcases List.mem_append.mp hc with hold | hnew
    · have hlt := h.table c (List.mem_of_mem_take hold)
      omega
    · obtain ⟨k, hk, rfl⟩ := List.mem_range'.mp hnew
      omega
  · rw [hlength]
    have hlt := (h.points t).objects c hc
    omega
  · rw [total_contextResize]
    exact h.pending

theorem sound_new : new.Sound := by
  refine Sound.contextResize ⟨?_, ?_, ?_, rfl⟩ 32
  · intro c hc
    cases hc
  · intro c hc
    cases hc
  · intro t
    exact ⟨fun c hc => (by cases hc), fun r hr => (by cases hr)⟩

theorem Sound.commit (h : s.Sound) (hc : s.contexts[c]? = some ctx) (ho : ctx.Keeps o) :
    (s.commit t c o).Sound := by
  have hlength : (s.commit t c o).contexts.length = s.contexts.length := List.length_set
  refine ⟨fun x hx => ?_, fun k hk => ?_, fun k => ?_, ?_⟩
  · rcases List.mem_or_eq_of_mem_set hx with hold | rfl
    · exact h.wired x hold
    · exact ho.wired
  · rw [hlength]
    exact h.table k hk
  · by_cases hkt : k = t
    · have hpoint : (s.commit t c o).points k = (s.points t).next o.done := by
        rw [hkt]
        exact Function.update_self ..
      have hvalid := h.points t
      rw [hpoint]
      cases hp : s.points t with
      | dispatch report reports =>
        rw [hp] at hvalid
        cases reports with
        | nil => exact ⟨fun x hx => (by cases hx), fun r hr => (by cases hr)⟩
        | cons report' reports =>
          refine ⟨fun x hx => ?_, fun r hr => (by cases hr)⟩
          rw [hlength]
          exact hvalid.objects x (List.mem_cons_of_mem _ hx)
      | _ => exact ⟨fun x hx => (by cases hx), fun r hr => (by cases hr)⟩
    · have hpoint : (s.commit t c o).points k = s.points k := Function.update_of_ne hkt ..
      rw [hpoint]
      refine ⟨fun x hx => ?_, (h.points k).registration⟩
      rw [hlength]
      exact (h.points k).objects x hx
  · have hsum := sum_map_set (fun c => c.events.card) (y := o.ctx) s.contexts c hc
    have hpending := h.pending
    have hkeeps := ho.pending
    change s.pendingEventCount + o.pending = ((s.contexts.set c o.ctx).map fun c => c.events.card).sum
    rw [total] at hpending
    omega

theorem Enters.valid (h : s.Sound) (ha : s.Orderly a) (hp : s.Enters a p) : s.Valid p := by
  cases hp with
  | ready done => exact ⟨fun c hc => (by cases hc), fun r hr => (by cases hr)⟩
  | resizing t fd event r =>
    refine ⟨fun c hc => (by cases hc), fun r' hr' => ?_⟩
    obtain rfl := Option.some.inj hr'
    exact ha
  | addEvent t event r hc =>
    refine ⟨fun k hk => ?_, fun r' hr' => ?_⟩
    · obtain rfl := List.mem_singleton.mp hk
      exact h.table k (List.mem_of_getElem? hc)
    · obtain rfl := Option.some.inj hr'
      exact ha
  | delEvent t event hc | cancelEvent t event hc | cancelAll t hc =>
    refine ⟨fun k hk => ?_, fun r hr => (by cases hr)⟩
    obtain rfl := List.mem_singleton.mp hk
    exact h.table k (List.mem_of_getElem? hc)
  | idle t hrs =>
    rename_i rs
    cases rs with
    | nil => exact ⟨fun c hc => (by cases hc), fun r hr => (by cases hr)⟩
    | cons report reports =>
      refine ⟨fun k hk => ?_, fun r hr => (by cases hr)⟩
      have hk' : k ∈ (report :: reports).map Report.ctx := hk
      obtain ⟨r, hr, rfl⟩ := List.mem_map.mp hk'
      have hany := List.all_eq_true.mp hrs r hr
      cases hc : s.contexts[r.ctx]? with
      | none =>
        rw [hc] at hany
        cases hany
      | some c => exact (List.getElem?_eq_some_iff.mp hc).1

/-- The section of a context, for a thread that is in order. -/
theorem Sound.locked (h : s.Sound) (ha : s.Orderly (.context t ok)) (htarget : target (s.points t) = some c)
    (hc : s.contexts[c]? = some ctx) :
    (∃ o, locked ctx ok (s.points t) = .ok o ∧ ctx.Keeps o) ∨
      IOManager.locked ctx ok (s.points t) = .error .addEvent ∨
      IOManager.locked ctx ok (s.points t) = .error .notRunning := by
  have hwired := h.wired ctx (List.mem_of_getElem? hc)
  have hvalid := h.points t
  cases hp : s.points t with
  | ready done =>
    rw [hp] at htarget
    cases htarget
  | resizing fd event r =>
    rw [hp] at htarget
    cases htarget
  | addEvent fd c event r =>
    rw [hp] at hvalid
    exact hwired.addEvent (hvalid.registration r rfl)
  | delEvent fd c event => exact .inl ⟨_, rfl, hwired.delEvent event ok⟩
  | cancelEvent fd c event => exact .inl (hwired.cancelEvent event ok)
  | cancelAll fd c => exact .inl (hwired.cancelAll ok)
  | dispatch report reports =>
    rw [hp] at htarget
    obtain rfl := Option.some.inj htarget
    exact .inl (hwired.dispatch (ha report reports ctx hp hc))

theorem Sound.target_lt (h : s.Sound) (htarget : target (s.points t) = some c) : c < s.contexts.length := by
  refine (h.points t).objects c ?_
  cases hp : s.points t with
  | ready | resizing =>
    rw [hp] at htarget
    cases htarget
  | addEvent | delEvent | cancelEvent | cancelAll | dispatch =>
    rw [hp] at htarget
    obtain rfl := Option.some.inj htarget
    exact List.mem_cons_self

theorem Sound.step (h : s.Sound) (hstep : s.OrderlyStep a s') : s'.Sound := by
  obtain ⟨ha, hexec⟩ := hstep
  have hdoes := exec_does hexec
  generalize hx : (Except.ok s' : Except IOFault IOManager) = x at hdoes
  cases hdoes with
  | enter t hp =>
    obtain rfl := Except.ok.inj hx
    exact h.go (hp.valid h ha) t
  | resize hpoint hc =>
    rename_i t fd c event r
    obtain rfl := Except.ok.inj hx
    have hresized := h.contextResize (fd * 3 / 2)
    refine hresized.go ⟨fun k hk => ?_, fun r' hr' => ?_⟩ t
    · obtain rfl := List.mem_singleton.mp hk
      exact hresized.table k (List.mem_of_getElem? hc)
    · have hvalid := h.points t
      rw [hpoint] at hvalid
      exact hvalid.registration r' hr'
  | context htarget hc ho =>
    obtain rfl := Except.ok.inj hx
    obtain ⟨o', ho', hkeeps⟩ | hfault | hfault := h.locked ha htarget hc
    · rw [ho] at ho'
      obtain rfl := Except.ok.inj ho'
      exact h.commit hc hkeeps
    · rw [ho] at hfault
      cases hfault
    · rw [ho] at hfault
      cases hfault
  | outOfRange | outOfRangeResized | dangling | fault => cases hx

theorem Sound.fault (h : s.Sound) (ha : s.Orderly a) (hexec : s.exec a = some (.error f)) :
    f = .outOfRange ∨ f = .context .addEvent ∨ f = .context .notRunning := by
  have hdoes := exec_does hexec
  generalize hx : (Except.error f : Except IOFault IOManager) = x at hdoes
  cases hdoes with
  | enter | resize | context => cases hx
  | outOfRange | outOfRangeResized =>
    obtain rfl := Except.error.inj hx
    exact .inl rfl
  | dangling htarget hc =>
    have hlt := h.target_lt htarget
    rw [List.getElem?_eq_none_iff] at hc
    omega
  | fault htarget hc ho =>
    obtain rfl := Except.error.inj hx
    obtain ⟨o', ho', -⟩ | hfault | hfault := h.locked ha htarget hc
    · rw [ho] at ho'
      cases ho'
    · rw [ho] at hfault
      exact .inr (.inl (congrArg _ (Except.error.inj hfault)))
    · rw [ho] at hfault
      exact .inr (.inr (congrArg _ (Except.error.inj hfault)))

theorem Sound.exec_stale (h : s.Sound) (ha : ¬ s.Orderly (.context t ok)) :
    s.exec (.context t ok) = some (.error (.context .triggerEvent)) := by
  simp only [Orderly, not_forall] at ha
  obtain ⟨report, reports, ctx, hp, hc, rfl, hstale⟩ := ha
  have hlocked := (h.wired ctx (List.mem_of_getElem? hc)).dispatch_stale hstale
  have htarget : target (s.points t) = some report.ctx := by rw [hp]; rfl
  have hrun : IOManager.locked ctx true (s.points t) = .error .triggerEvent := by rw [hp]; exact hlocked
  rw [exec, htarget]
  dsimp only
  rw [context, hc]
  dsimp only
  rw [hrun]

/-- In orderly runs no missing event is triggered, none through the null pointer, and all that are
registered are counted; what a thread does to a context fails in `triggerEvent` only where it is
not in order. -/
theorem events_sound (h : Run OrderlyStep new log s) :
    s.pendingEventCount = s.total ∧
    (∀ a f, s.Orderly a → s.exec a = some (.error f) → f ≠ .context .triggerEvent ∧ f ≠ .context .nullScheduler) ∧
    ∀ t ok, s.exec (.context t ok) = some (.error (.context .triggerEvent)) ↔ ¬ s.Orderly (.context t ok) := by
  have hsound : s.Sound := h.keeps (fun _ _ _ hs hstep => hs.step hstep) sound_new
  refine ⟨hsound.pending, fun a f ha hexec => ?_, fun t ok => ⟨fun hexec ha => ?_, hsound.exec_stale⟩⟩
  · rcases hsound.fault ha hexec with rfl | rfl | rfl
    · exact ⟨by decide, by decide⟩
    · exact ⟨by decide, by decide⟩
    · exact ⟨by decide, by decide⟩
  · rcases hsound.fault ha hexec with hf | hf | hf
    · cases hf
    · cases hf
    · cases hf

/-- Two events are reported, one is deleted before its context is locked. -/
theorem stale_report_asserts : ∃ s, Run Step new
    [.addEvent 1 5 .READ ⟨some 0, 1, true, none⟩, .context 1 true,
      .addEvent 2 5 .WRITE ⟨some 0, 2, true, none⟩, .context 2 true,
      .epollWait 0 [⟨5, {.READ, .WRITE}, false⟩], .delEvent 3 5 .WRITE, .context 3 true] s ∧
    s.exec (.context 0 true) = some (.error (.context .triggerEvent)) :=
  ⟨_, .cons rfl (.cons rfl (.cons rfl (.cons rfl (.cons rfl (.cons rfl (.cons rfl .nil)))))), rfl⟩

theorem events_sound_registered : ∃ s, Run OrderlyStep new
    [.addEvent 1 5 .READ ⟨some 0, 1, true, none⟩, .context 1 true] s ∧ s.pendingEventCount = s.total ∧
    s.total = 1 := by
  have hrun : ∃ s, Run OrderlyStep new
      [.addEvent 1 5 .READ ⟨some 0, 1, true, none⟩, .context 1 true] s ∧ s.total = 1 :=
    ⟨_, .cons ⟨Option.some_ne_none 0, rfl⟩ (.cons ⟨fun _ _ _ h => (by cases h), rfl⟩ .nil), rfl⟩
  obtain ⟨s, hs, htotal⟩ := hrun
  exact ⟨s, hs, (events_sound hs).1, htotal⟩

end
end IOManager
end Flz
