import Flz.Timer.Expiry

/-! # The earliest deadline

What the head of the set says about all deadlines in it, for `getNextTimer` and for an insertion
that is not at the front.
-/
namespace Flz
open Lib
variable {κ : Type}

namespace TimerManager
variable {s s' : TimerManager κ} {out : List ℕ} {i now ms d : ℕ} {t : Timer κ}

def HasDeadline (s : TimerManager κ) (d : ℕ) : Prop :=
  ∃ i ∈ s.timers, ∃ t, s.objects i = some t ∧ t.next = d

theorem Keeps.hasDeadline_iff (h : Keeps [] s) :
    s.HasDeadline d ↔ ∃ i t, s.objects i = some t ∧ t.cb ≠ none ∧ t.next = d := by
  constructor
  · rintro ⟨i, hi, t, ht, hd⟩
    exact ⟨i, t, ht, (h.member_nil ht).mp hi, hd⟩
  · rintro ⟨i, t, ht, hcb, hd⟩
    exact ⟨i, (h.member_nil ht).mpr hcb, t, ht, hd⟩

theorem Keeps.first_le (h : Keeps out s) {rest : List ℕ} (htimers : s.timers = i :: rest)
    (hi : s.objects i = some t) (hd : s.HasDeadline d) : t.next ≤ d := by
  obtain ⟨j, hj, u, hu, rfl⟩ := hd
  exact next_le_of_sorted h.sorted htimers hi hj hu

/-- After the time that it returns, nothing in the set is overdue. -/
theorem getNextTimer_spec (h : Keeps out s) (hc : s.getNextTimer now = some (ms, s')) :
    s' = { s with tickled := false } ∧ (ms = 0 ∨ ∀ d, s.HasDeadline d → now + ms ≤ d) := by
  rw [getNextTimer] at hc
  split at hc
  · rename_i htimers
    cases hc
    refine ⟨rfl, Or.inr ?_⟩
    rintro d ⟨i, hi, -⟩
    rw [htimers] at hi
    cases hi
  · rename_i i rest htimers
    obtain ⟨t, ht, hc⟩ := Option.bind_eq_some_iff.mp hc
    cases hc
    refine ⟨rfl, ?_⟩
    by_cases hdue : now ≥ t.next
    · exact Or.inl (if_pos hdue)
    · refine Or.inr fun d hd => ?_
      have hle := h.first_le htimers ht hd
      rw [if_neg hdue]
      omega

/-- What is not inserted at the front has another deadline before it. -/
theorem insertTimer_behind (h : Keeps (i :: out) s) (hi : s.objects i = some t) (hcb : t.cb ≠ none)
    (hout : i ∉ out) (htickled : s.tickled = false) (hfront : (s.insertTimer i).1 = false) :
    ∃ d, s.HasDeadline d ∧ d ≤ t.next := by
  have hins := h.insert hi hcb hout
  have hmem : i ∈ (s.insert i).timers := (hins.member i).mpr ⟨hout, t, hi, hcb⟩
  have hhead : ((s.insert i).timers.head? == some i && !(s.insert i).tickled) = false := hfront
  cases htimers : (s.insert i).timers with
  | nil =>
    rw [htimers] at hmem
    cases hmem
  | cons j rest =>
    have hji : j ≠ i := by
      rintro rfl
      rw [htimers, List.head?_cons, beq_self_eq_true, Bool.true_and] at hhead
      have htickled' : (s.insert j).tickled = false := htickled
      rw [htickled'] at hhead
      cases hhead
    obtain ⟨hjout, u, hu, hucb⟩ := (hins.member j).mp (htimers ▸ List.mem_cons_self)
    have hj : j ∈ s.timers := (h.member j).mpr ⟨by simp [hji, hjout], u, hu, hucb⟩
    exact ⟨u.next, ⟨j, hj, u, hu, rfl⟩, hins.first_le htimers hu ⟨i, hmem, t, hi, rfl⟩⟩

/-- One timer is new, or has a new deadline. -/
theorem Keeps.hasDeadline_update (h : Keeps [] s) (h' : Keeps [] s')
    (hobj : s'.objects = Function.update s.objects i (some t)) (hd : s'.HasDeadline d) :
    s.HasDeadline d ∨ d = t.next := by
  obtain ⟨j, u, hu, hcb, rfl⟩ := h'.hasDeadline_iff.mp hd
  rw [hobj] at hu
  by_cases hji : j = i
  · rw [hji, Function.update_self] at hu
    cases hu
    exact Or.inr rfl
  · rw [Function.update_of_ne hji] at hu
    exact Or.inl (h.hasDeadline_iff.mpr ⟨j, u, hu, hcb, rfl⟩)

/-- A timer that is out of the set is changed. -/
theorem HasDeadline.of_update (h : Keeps (i :: out) s') (hsub : ∀ j ∈ s'.timers, j ∈ s.timers)
    (hobj : s'.objects = Function.update s.objects i (some t)) (hd : s'.HasDeadline d) :
    s.HasDeadline d := by
  obtain ⟨j, hj, u, hu, hnext⟩ := hd
  have hji : j ≠ i := by
    rintro rfl
    exact ((h.member j).mp hj).1 List.mem_cons_self
  rw [hobj, Function.update_of_ne hji] at hu
  exact ⟨j, hsub j hj, u, hu, hnext⟩

theorem addTimer_behind (h : Keeps [] s) {addr : ℕ} {cb : κ} {recurring : Bool}
    (haddr : ∀ j u, s.objects j = some u → u.addr ≠ addr) (htickled : s.tickled = false)
    (hfront : (s.addTimer addr ms (some cb) recurring now).1 = false) :
    ∃ d, s.HasDeadline d ∧ d ≤ uint64 (now + ms) := by
  have hput := h.construct (t := ⟨addr, recurring, ms, uint64 (now + ms), some cb⟩) haddr
  obtain ⟨d, hd, hle⟩ := insertTimer_behind hput (put_self _ _ _) (Option.some_ne_none cb)
    List.not_mem_nil htickled hfront
  exact ⟨d, hd.of_update hput (fun _ hj => hj) rfl, hle⟩

/-- A reset does nothing, or gives a timer in the set another deadline. -/
theorem reset_cases (h : Keeps [] s) {fromNow done atFront : Bool}
    (hc : s.reset i ms fromNow now = some (done, atFront, s')) : s' = s ∧ atFront = false ∨
      ∃ t d, s.objects i = some t ∧ t.cb ≠ none ∧ ¬ (ms = t.ms ∧ fromNow = false) ∧
        d = uint64 ((if fromNow then now else subUInt64 t.next t.ms) + ms) ∧ Keeps [] s' ∧
        (∀ e, s'.HasDeadline e → s.HasDeadline e ∨ e = d) ∧
        (s.tickled = false → atFront = false → ∃ e, s.HasDeadline e ∧ e ≤ d) := by
  cases hi : s.objects i with
  | none =>
    rw [reset, hi] at hc
    cases hc
  | some t =>
    by_cases hchange : ms = t.ms ∧ fromNow = false
    · obtain ⟨rfl, rfl⟩ := hchange
      rw [reset_same hi] at hc
      cases hc
      exact Or.inl ⟨rfl, rfl⟩
    · by_cases hcb : t.cb = none
      · rw [reset_none hi hcb hchange] at hc
        cases hc
        exact Or.inl ⟨rfl, rfl⟩
      · obtain ⟨s₁, hreset, hkeeps, htimers, htickled, -, hobj⟩ := reset_eq h hi hcb hchange now
        rw [hreset] at hc
        have hinsert : s₁.insertTimer i = (atFront, s') := (Prod.ext_iff.mp (Option.some.inj hc)).2
        obtain ⟨hfront, rfl⟩ := Prod.ext_iff.mp hinsert
        have hself := congrFun hobj i
        rw [Function.update_self] at hself
        have hkeeps' := hkeeps.insertTimer hself hcb List.not_mem_nil
        refine Or.inr ⟨t, _, rfl, hcb, hchange, rfl, hkeeps', fun e he => ?_, fun hs hf => ?_⟩
        · exact h.hasDeadline_update hkeeps' ((insertTimer_objects s₁ i).1.trans hobj) he
        · obtain ⟨e, he, hle⟩ := insertTimer_behind hkeeps hself hcb List.not_mem_nil
            (htickled.trans hs) (hfront.trans hf)
          refine ⟨e, he.of_update hkeeps (fun j hj => ?_) hobj, hle⟩
          rw [htimers] at hj
          exact (List.mem_filter.mp hj).1

end TimerManager
end Flz
