import Flz.IOManager.Model

/-! # The table of contexts

The table keeps every context at the index of its file descriptor, as long as nobody resizes it to
less than it has become since, or beyond the largest `int`.
-/
namespace Flz
open Lib
namespace IOManager

/-- A resize does not cut the table off, and its size fits into an `int`. -/
def Growing (s : IOManager) : IOAction → Prop
  | .resize t => ∀ fd event r, s.points t = .resizing fd event r →
      s.fdContexts.length ≤ fd * 3 / 2 ∧ fd * 3 / 2 ≤ intMax
  | _ => True

def GrowingStep (s : IOManager) (a : IOAction) (s' : IOManager) : Prop := s.Growing a ∧ s.Step a s'

/-- Whoever looks `fd` up finds context `c`. -/
structure Finds (s : IOManager) (fd c : ℕ) : Prop where
  delEvent : ∀ t event, s.delEvent t fd event = .ok (s.go t (.delEvent fd c event))
  cancelEvent : ∀ t event, s.cancelEvent t fd event = .ok (s.go t (.cancelEvent fd c event))
  cancelAll : ∀ t, s.cancelAll t fd = .ok (s.go t (.cancelAll fd c))

/-- Every context is in the table, at its file descriptor. -/
structure Indexed (s : IOManager) : Prop where
  small : s.fdContexts.length ≤ intMax
  context : ∀ (fd c : ℕ), s.fdContexts[fd]? = some c → ∃ ctx : FdContext, s.contexts[c]? = some ctx ∧ ctx.fd = fd
  index : ∀ (c : ℕ) (ctx : FdContext), s.contexts[c]? = some ctx → s.fdContexts[ctx.fd]? = some c
  adding : ∀ t fd c event r, s.points t = .addEvent fd c event r → s.fdContexts[fd]? = some c

/-- Objects keep their file descriptors, and the table what it has. -/
structure Extends (s s' : IOManager) : Prop where
  table : s.fdContexts <+: s'.fdContexts
  objects : ∀ (c : ℕ) (ctx : FdContext), s.contexts[c]? = some ctx →
    ∃ ctx' : FdContext, s'.contexts[c]? = some ctx' ∧ ctx'.fd = ctx.fd

section
variable {s s' s'' : IOManager} {a : IOAction} {t fd c size : ℕ} {event : Event} {r : Registration}
  {p : Point} {ctx : FdContext} {o : Outcome} {ok : Bool} {f : IOFault} {log log' : List IOAction}

theorem Extends.refl (s : IOManager) : s.Extends s where
  table := List.prefix_refl _
  objects _ ctx h := ⟨ctx, h, rfl⟩

theorem Extends.trans (h : s.Extends s') (h' : s'.Extends s'') : s.Extends s'' where
  table := h.table.trans h'.table
  objects := by
    intro c ctx hc
    obtain ⟨ctx', hc', hfd⟩ := h.objects c ctx hc
    obtain ⟨ctx'', hc'', hfd'⟩ := h'.objects c ctx' hc'
    exact ⟨ctx'', hc'', hfd'.trans hfd⟩

theorem Extends.entry (h : s.Extends s') (hc : s.fdContexts[fd]? = some c) : s'.fdContexts[fd]? = some c := by
  obtain ⟨l, hl⟩ := h.table
  rw [← hl, List.getElem?_append_left (List.getElem?_eq_some_iff.mp hc).1]
  exact hc

theorem Indexed.finds (h : s.Indexed) (hc : s.fdContexts[fd]? = some c) : s.Finds fd c := by
  have hlt : fd < s.fdContexts.length := (List.getElem?_eq_some_iff.mp hc).1
  have hint : ¬ toInt s.fdContexts.length ≤ fd := by
    rw [toInt_eq h.small]
    omega
  refine ⟨fun t event => ?_, fun t event => ?_, fun t => ?_⟩
  · rw [delEvent, if_neg (by omega), fdContext_eq hc]
    rfl
  · rw [cancelEvent, if_neg hint, fdContext_eq hc]
    rfl
  · rw [cancelAll, if_neg hint, fdContext_eq hc]
    rfl

theorem locked_fd (h : locked ctx ok p = .ok o) : o.ctx.fd = ctx.fd := by
  cases p with
  | ready | resizing =>
    obtain rfl := Except.ok.inj h
    rfl
  | addEvent => exact FdContext.addEvent_fd h
  | delEvent =>
    obtain rfl := Except.ok.inj h
    exact FdContext.delEvent_fd
  | cancelEvent => exact FdContext.cancelEvent_fd h
  | cancelAll => exact FdContext.cancelAll_fd h
  | dispatch => exact FdContext.dispatch_fd h

theorem extends_contextResize (hsize : s.fdContexts.length ≤ size) : s.Extends (s.contextResize size) where
  table := by
    rw [contextResize, List.take_of_length_le hsize]
    exact List.prefix_append _ _
  objects := by
    intro c ctx hc
    refine ⟨ctx, ?_, rfl⟩
    rw [contextResize, List.getElem?_append_left (List.getElem?_eq_some_iff.mp hc).1]
    exact hc

theorem extends_commit (hc : s.contexts[c]? = some ctx) (ho : locked ctx ok (s.points t) = .ok o) :
    s.Extends (s.commit t c o) where
  table := List.prefix_refl _
  objects := by
    intro k x hk
    by_cases hkc : k = c
    · subst hkc
      rw [hc] at hk
      obtain rfl := Option.some.inj hk
      refine ⟨o.ctx, ?_, locked_fd ho⟩
      exact List.getElem?_set_self (List.getElem?_eq_some_iff.mp hc).1
    · refine ⟨x, ?_, rfl⟩
      exact (List.getElem?_set_ne (Ne.symm hkc)).trans hk

theorem Indexed.go (h : s.Indexed)
    (hp : ∀ fd c event r, p = .addEvent fd c event r → s.fdContexts[fd]? = some c) (t : ℕ) :
    (s.go t p).Indexed where
  small := h.small
  context := h.context
  index := h.index
  adding := by
    intro k fd c event r hk
    by_cases hkt : k = t
    · subst hkt
      exact hp fd c event r ((Function.update_self ..).symm.trans hk)
    · exact h.adding k fd c event r ((Function.update_of_ne hkt ..).symm.trans hk)

theorem Indexed.contextResize (h : s.Indexed) (hsize : s.fdContexts.length ≤ size) (hint : size ≤ intMax) :
    (s.contextResize size).Indexed := by
  have hext := extends_contextResize hsize
  have hlength : (s.contextResize size).fdContexts.length = size := by
    rw [IOManager.contextResize, List.length_append, List.length_take, List.length_range']
    omega
  have hfresh (k : ℕ) (hk : k < size - s.fdContexts.length) :
      (s.contextResize size).fdContexts[s.fdContexts.length + k]? = some (s.contexts.length + k) := by
    rw [IOManager.contextResize, List.take_of_length_le hsize,
      List.getElem?_append_right (Nat.le_add_right ..), Nat.add_sub_cancel_left,
      List.getElem?_range' hk, Nat.one_mul]
  have hmade (k : ℕ) (hk : k < size - s.fdContexts.length) :
      (s.contextResize size).contexts[s.contexts.length + k]? = some (.new (s.fdContexts.length + k)) := by
    rw [IOManager.contextResize, List.getElem?_append_right (Nat.le_add_right ..), Nat.add_sub_cancel_left,
      List.getElem?_map, List.getElem?_range' hk, Nat.one_mul]
    rfl
  refine ⟨by rw [hlength]; exact hint, fun fd c hc => ?_, fun c ctx hc => ?_, ?_⟩
  · have hlt := (List.getElem?_eq_some_iff.mp hc).1
    by_cases hold : fd < s.fdContexts.length
    · have hentry := hext.entry (List.getElem?_eq_getElem hold)
      rw [hc] at hentry
      obtain rfl := Option.some.inj hentry
      obtain ⟨ctx, hctx, hfd⟩ := h.context fd _ (List.getElem?_eq_getElem hold)
      obtain ⟨ctx', hctx', hfd'⟩ := hext.objects _ ctx hctx
      exact ⟨ctx', hctx', hfd'.trans hfd⟩
    · obtain ⟨k, rfl⟩ := Nat.exists_eq_add_of_le (Nat.le_of_not_lt hold)
      have hk : k < size - s.fdContexts.length := by omega
      rw [hfresh k hk] at hc
      obtain rfl := Option.some.inj hc
      exact ⟨_, hmade k hk, rfl⟩
  · have hlt := (List.getElem?_eq_some_iff.mp hc).1
    by_cases hold : c < s.contexts.length
    · obtain ⟨ctx', hctx', hfd'⟩ := hext.objects c _ (List.getElem?_eq_getElem hold)
      rw [hc] at hctx'
      obtain rfl := Option.some.inj hctx'
      rw [hfd']
      exact hext.entry (h.index c _ (List.getElem?_eq_getElem hold))
    · obtain ⟨k, rfl⟩ := Nat.exists_eq_add_of_le (Nat.le_of_not_lt hold)
      have hk : k < size - s.fdContexts.length := by
        rw [IOManager.contextResize, List.length_append, List.length_map, List.length_range'] at hlt
        omega
      rw [hmade k hk] at hc
      obtain rfl := Option.some.inj hc
      exact hfresh k hk
  · intro t fd c event r hp
    exact hext.entry (h.adding t fd c event r hp)

theorem Indexed.commit (h : s.Indexed) (hc : s.contexts[c]? = some ctx)
    (ho : locked ctx ok (s.points t) = .ok o) : (s.commit t c o).Indexed := by
  have hext := extends_commit hc ho
  refine ⟨h.small, fun fd k hk => ?_, fun k x hk => ?_, fun k fd k' event r hk => ?_⟩
  · obtain ⟨x, hx, rfl⟩ := h.context fd k hk
    exact hext.objects k x hx
  · have hlt := (List.getElem?_eq_some_iff.mp hk).1
    have hlength : (s.commit t c o).contexts.length = s.contexts.length := List.length_set
    rw [hlength] at hlt
    obtain ⟨x', hx', hfd⟩ := hext.objects k _ (List.getElem?_eq_getElem hlt)
    rw [hk] at hx'
    obtain rfl := Option.some.inj hx'
    rw [hfd]
    exact h.index k _ (List.getElem?_eq_getElem hlt)
  · by_cases hkt : k = t
    · subst hkt
      have hnext : (s.points k).next o.done = .addEvent fd k' event r := (Function.update_self ..).symm.trans hk
      cases hp : s.points k with
      | dispatch report reports =>
        rw [hp] at hnext
        cases reports with
        | nil => cases hnext
        | cons report' reports => cases hnext
      | _ =>
        rw [hp] at hnext
        cases hnext
    · exact h.adding k fd k' event r ((Function.update_of_ne hkt ..).symm.trans hk)

theorem Enters.addEvent_entry (h : s.Enters a p) (hp : p = .addEvent fd c event r) :
    s.fdContexts[fd]? = some c := by
  cases h with
  | addEvent t event r hc =>
    cases hp
    exact hc
  | idle t hrs =>
    rename_i rs
    cases rs with
    | nil => cases hp
    | cons report reports => cases hp
  | _ => cases hp

theorem Indexed.step (h : s.Indexed) (hstep : s.GrowingStep a s') : s'.Indexed ∧ s.Extends s' := by
  obtain ⟨ha, hexec⟩ := hstep
  have hdoes := exec_does hexec
  generalize hx : (Except.ok s' : Except IOFault IOManager) = x at hdoes
  cases hdoes with
  | enter t hp =>
    obtain rfl := Except.ok.inj hx
    exact ⟨h.go (fun _ _ _ _ => hp.addEvent_entry) t, List.prefix_refl _, (Extends.refl s).objects⟩
  | resize hpoint hc =>
    rename_i t fd c event r
    obtain rfl := Except.ok.inj hx
    obtain ⟨hsize, hint⟩ := ha fd event r hpoint
    have hext := extends_contextResize hsize
    refine ⟨(h.contextResize hsize hint).go (fun fd' c' event' r' hp => ?_) t, hext.table, hext.objects⟩
    cases hp
    exact hc
  | context htarget hc ho =>
    obtain rfl := Except.ok.inj hx
    exact ⟨h.commit hc ho, extends_commit hc ho⟩
  | outOfRange | outOfRangeResized | dangling | fault => cases hx

theorem indexed_new : new.Indexed := by
  refine Indexed.contextResize ⟨?_, ?_, ?_, ?_⟩ ?_ (by decide)
  · exact Nat.zero_le _
  · intro fd c hc
    cases hc
  · intro c ctx hc
    cases hc
  · intro t fd c event r h
    cases h
  · exact Nat.zero_le _

/-- What growing runs keep, from wherever they start. -/
theorem Indexed.run (h : s.Indexed) (hrun : Run GrowingStep s log s') : s'.Indexed ∧ s.Extends s' := by
  refine hrun.keeps (P := fun s' => s'.Indexed ∧ s.Extends s') ?_ ⟨h, .refl s⟩
  rintro t a u ⟨ht, hst⟩ hstep
  obtain ⟨hu, htu⟩ := ht.step hstep
  exact ⟨hu, hst.trans htu⟩

theorem Indexed.inRange (h : s.Indexed) (hlarge : 32 ≤ s.fdContexts.length) (ha : s.Growing a)
    (hexec : s.exec a = some (.error f)) : f ≠ .outOfRange := by
  have hdoes := exec_does hexec
  generalize hx : (Except.error f : Except IOFault IOManager) = x at hdoes
  cases hdoes with
  | enter | resize | context => cases hx
  | outOfRange hc hfd =>
    rw [List.getElem?_eq_none_iff] at hc
    rw [toInt_eq h.small] at hfd
    omega
  | outOfRangeResized hpoint hc =>
    rename_i fd event r
    obtain ⟨hsize, -⟩ := ha fd event r hpoint
    rw [List.getElem?_eq_none_iff, IOManager.contextResize, List.length_append, List.length_take,
      List.length_range'] at hc
    omega
  | dangling | fault =>
    obtain rfl := Except.error.inj hx
    exact fun hf => by cases hf

/-- In growing runs the table keeps the objects that it has at their indices, every object is
found there by later calls, and no index is out of range. -/
theorem contexts_stay (h : Run GrowingStep new log s) (h' : Run GrowingStep s log' s') :
    s.fdContexts <+: s'.fdContexts ∧
    (∀ (c : ℕ) (ctx : FdContext), s.contexts[c]? = some ctx → s'.Finds ctx.fd c) ∧
    (∀ t fd c event r, s.points t = .addEvent fd c event r →
      (∃ ctx : FdContext, s.contexts[c]? = some ctx ∧ ctx.fd = fd) ∧ s'.Finds fd c) ∧
    ∀ a f, s'.Growing a → s'.exec a = some (.error f) → f ≠ .outOfRange := by
  obtain ⟨hs, hnew⟩ := indexed_new.run h
  obtain ⟨hs', hext⟩ := hs.run h'
  refine ⟨hext.table, fun c ctx hc => hs'.finds (hext.entry (hs.index c ctx hc)), ?_, ?_⟩
  · intro t fd c event r hp
    have hentry := hs.adding t fd c event r hp
    exact ⟨hs.context fd c hentry, hs'.finds (hext.entry hentry)⟩
  · intro a f ha hexec
    exact hs'.inRange ((hnew.trans hext).table.length_le) ha hexec

theorem contexts_stay_registered : ∃ s s', Run GrowingStep new [.addEvent 1 5 .READ ⟨some 0, 1, true, none⟩] s ∧
    Run GrowingStep s [.context 1 true, .addEvent 2 32 .READ ⟨some 0, 2, true, none⟩, .resize 2] s' ∧
    s.fdContexts <+: s'.fdContexts ∧ s'.fdContexts.length = 48 := by
  have hrun : ∃ s s', Run GrowingStep new [.addEvent 1 5 .READ ⟨some 0, 1, true, none⟩] s ∧
      Run GrowingStep s [.context 1 true, .addEvent 2 32 .READ ⟨some 0, 2, true, none⟩, .resize 2] s' ∧
      s'.fdContexts.length = 48 := by
    refine ⟨_, _, .cons ⟨trivial, rfl⟩ .nil, .cons ⟨trivial, rfl⟩ (.cons ⟨trivial, rfl⟩ (.cons ⟨?_, rfl⟩ .nil)), rfl⟩
    rintro fd event r hp
    cases hp
    decide
  obtain ⟨s, s', hs, hs', hlength⟩ := hrun
  exact ⟨s, s', hs, hs', (contexts_stay hs hs').1, hlength⟩

set_option maxRecDepth 4000 in
/-- Two threads have the table resized, the one with the smaller file descriptor last. -/
theorem table_cut_off : ∃ s, Run Step new
    [.addEvent 1 32 .READ ⟨some 0, 1, true, none⟩, .addEvent 2 48 .READ ⟨some 0, 2, true, none⟩,
      .resize 2, .context 2 true, .resize 1] s ∧
    s.contexts[48]? = some ⟨48, {.READ}, ⟨some 0, some 2, none⟩, .empty⟩ ∧
    s.delEvent 3 48 .READ = .ok (s.go 3 (.ready false)) ∧ s.fdContexts[48]? = none :=
  ⟨_, .cons rfl (.cons rfl (.cons rfl (.cons rfl (.cons rfl .nil)))), rfl, rfl, rfl⟩

end
end IOManager
end Flz
