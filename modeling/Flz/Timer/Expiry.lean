import Flz.Timer.Operations

/-! # Expired timers

`listExpiredCb` takes out of the set exactly the timers that are due, wherever the probe lies
among those with the same deadline, and puts those that recur back with a new deadline.
-/
namespace Flz
open Lib
variable {κ : Type}

/-- What is left of a timer that was due. -/
def Timer.expire (now : ℕ) (t : Timer κ) : Timer κ :=
  if t.recurring then { t with next := uint64 (now + t.ms) } else { t with cb := none }

namespace TimerManager
variable {s s' : TimerManager κ} {out expired : List ℕ} {i j now probe : ℕ} {t : Timer κ}

def isDue (s : TimerManager κ) (now i : ℕ) : Bool := (s.objects i).any (fun t => t.next ≤ now)

/-- The timers in the set with a deadline that is not later than `now`. -/
def due (s : TimerManager κ) (now : ℕ) : List ℕ := s.timers.filter (s.isDue now)

def callback (s : TimerManager κ) (i : ℕ) : Option κ := (s.objects i).bind Timer.cb

/-! ## The scan -/

theorem Keeps.pairwise (h : Keeps out s) :
    s.timers.Pairwise (fun i j => ∃ t u, s.objects i = some t ∧ s.objects j = some u ∧
      toLex (t.next, t.addr) < toLex (u.next, u.addr)) := by
  refine List.Pairwise.imp_of_mem (fun {i j} hi hj hij => ?_) h.sorted
  obtain ⟨-, t, ht, -⟩ := (h.member i).mp hi
  obtain ⟨-, u, hu, -⟩ := (h.member j).mp hj
  rw [key, key, ht, hu, Timer.key, Timer.key, WithBot.coe_lt_coe] at hij
  exact ⟨t, u, ht, hu, hij⟩

theorem lex_lt {a b c d : ℕ} : toLex (a, b) < toLex (c, d) ↔ a < c ∨ a = c ∧ b < d :=
  Prod.Lex.toLex_lt_toLex

theorem expiredEnd_suffix (s : TimerManager κ) (now probe : ℕ) (rollover : Bool) :
    s.expiredEnd now probe rollover <:+ s.timers := by
  refine (List.dropWhile_suffix _).trans ?_
  cases rollover with
  | true => exact List.nil_suffix
  | false => exact List.dropWhile_suffix _

theorem expiredEnd_eq (h : Keeps out s) (now probe : ℕ) :
    s.expiredEnd now probe false = s.timers.filter (fun i => !s.isDue now i) := by
  have hpairs := h.pairwise
  have hbefore : ∀ i t, s.objects i = some t →
      Timer.Comparator (s.objects i) (some ⟨probe, false, 0, now, none⟩) =
        decide (t.next < now ∨ t.next = now ∧ t.addr < probe) := by
    intro i t ht
    rw [Timer.Comparator_eq, ht, Timer.key, Timer.key]
    simp only [WithBot.coe_lt_coe, lex_lt]
  have hfirst : s.timers.dropWhile
      (fun i => Timer.Comparator (s.objects i) (some ⟨probe, false, 0, now, none⟩)) =
      s.timers.filter
        (fun i => !Timer.Comparator (s.objects i) (some ⟨probe, false, 0, now, none⟩)) := by
    refine OrderedSet.dropWhile_eq_filter hpairs ?_
    rintro i j ⟨t, u, ht, hu, hlt⟩ hj
    rw [hbefore j u hu, decide_eq_true_iff] at hj
    rw [hbefore i t ht, decide_eq_true_iff]
    rw [lex_lt] at hlt
    omega
  have hmem : ∀ i ∈ s.timers.filter
      (fun i => !Timer.Comparator (s.objects i) (some ⟨probe, false, 0, now, none⟩)),
      ∃ t, s.objects i = some t ∧ ¬ (t.next < now ∨ t.next = now ∧ t.addr < probe) := by
    intro i hi
    obtain ⟨hi, hnot⟩ := List.mem_filter.mp hi
    obtain ⟨-, t, ht, -⟩ := (h.member i).mp hi
    rw [hbefore i t ht, Bool.not_eq_true', decide_eq_false_iff_not] at hnot
    exact ⟨t, ht, hnot⟩
  have hsecond := OrderedSet.dropWhile_eq_filter
    (l := s.timers.filter
      (fun i => !Timer.Comparator (s.objects i) (some ⟨probe, false, 0, now, none⟩)))
    (p := fun i => (s.objects i).any (fun t => t.next == now))
    (R := fun i j => (s.objects j).any (fun t => t.next == now) = true →
      (s.objects i).any (fun t => t.next == now) = true) ?_ (fun _ _ hij => hij)
  · rw [expiredEnd, if_neg Bool.false_ne_true, hfirst]
    refine hsecond.trans ?_
    rw [List.filter_filter]
    refine List.filter_congr fun i hi => ?_
    obtain ⟨-, t, ht, -⟩ := (h.member i).mp hi
    rw [hbefore i t ht, isDue, ht, Option.any_some, Option.any_some, Bool.eq_iff_iff]
    simp only [Bool.and_eq_true, Bool.not_eq_true', beq_eq_false_iff_ne, decide_eq_false_iff_not]
    omega
  · refine List.Pairwise.imp_of_mem (fun {i j} hi hj hij hnow => ?_) (hpairs.filter _)
    obtain ⟨t, u, ht, hu, hlt⟩ := hij
    obtain ⟨t', ht', hge⟩ := hmem i hi
    rw [ht] at ht'
    cases ht'
    rw [hu, Option.any_some, beq_iff_eq] at hnow
    rw [ht, Option.any_some, beq_iff_eq]
    rw [lex_lt] at hlt
    omega

theorem due_mono (h : Keeps out s) (now : ℕ) :
    s.timers.Pairwise (fun i j => s.isDue now j = true → s.isDue now i = true) := by
  refine h.pairwise.imp fun {i j} hij hj => ?_
  obtain ⟨t, u, ht, hu, hlt⟩ := hij
  rw [isDue, hu, Option.any_some, decide_eq_true_iff] at hj
  rw [isDue, ht, Option.any_some, decide_eq_true_iff]
  rw [lex_lt] at hlt
  omega

/-- The timers in front of the end of the scan are those that are due. -/
theorem expired_eq (h : Keeps out s) (now probe : ℕ) :
    s.timers.take (s.timers.length - (s.expiredEnd now probe false).length) = s.due now := by
  have hdrop := OrderedSet.dropWhile_eq_filter (due_mono h now) (fun _ _ hij => hij)
  have htake := OrderedSet.takeWhile_eq_filter (due_mono h now) (fun _ _ hij => hij)
  have hsplit : s.due now ++ s.timers.filter (fun i => !s.isDue now i) = s.timers := by
    rw [due, ← htake, ← hdrop]
    exact List.takeWhile_append_dropWhile
  have hlen := congrArg List.length hsplit
  rw [List.length_append] at hlen
  rw [expiredEnd_eq h, ← hlen, Nat.add_sub_cancel]
  conv_lhs => rw [← hsplit]
  exact List.take_left

/-! ## The loop -/

theorem rearm_spec (h : Keeps (i :: out) s) (hi : s.objects i = some t) (hcb : t.cb ≠ none)
    (hout : i ∉ out) (now : ℕ) : ∃ s', s.rearm now i t = some s' ∧ Keeps out s' ∧ s'.count = s.count ∧
      s'.objects = Function.update s.objects i (some (t.expire now)) := by
  by_cases hrec : t.recurring = true
  · obtain ⟨hset, hput⟩ := h.setNext List.mem_cons_self hi rfl (uint64 (now + t.ms))
    have hself := put_self s i { t with next := uint64 (now + t.ms) }
    refine ⟨_, ?_, hput.insert hself hcb hout, rfl, ?_⟩
    · rw [rearm, if_pos hrec, hset]
      rfl
    · rw [Timer.expire, if_pos hrec]
      rfl
  · have hput := h.put_same (u := { t with cb := none }) List.mem_cons_self hi rfl
    refine ⟨_, if_neg hrec, hput.close fun u hu => ?_, rfl, ?_⟩
    · rw [put_self, Option.some.injEq] at hu
      rw [← hu]
    · rw [Timer.expire, if_neg hrec]
      rfl

/-- Every timer that has been taken out is emitted once, and is then done with or armed again. -/
theorem collect_spec (hnodup : expired.Nodup) (h : Keeps expired s)
    (hcb : ∀ i ∈ expired, ∃ t, s.objects i = some t ∧ t.cb ≠ none) (now : ℕ) :
    ∃ s', collect now expired s = some (expired.map (fun i => (i, s.callback i)), s') ∧
      Keeps [] s' ∧ s'.count = s.count ∧
      s'.objects = fun j => if j ∈ expired then (s.objects j).map (Timer.expire now) else s.objects j := by
  induction expired generalizing s with
  | nil => exact ⟨s, rfl, h, rfl, by funext j; exact (if_neg List.not_mem_nil).symm⟩
  | cons i expired ih =>
    obtain ⟨hnot, hnodup⟩ := List.nodup_cons.mp hnodup
    obtain ⟨t, ht, htcb⟩ := hcb i List.mem_cons_self
    obtain ⟨s₁, hstep, hkeeps, hcount, hobj⟩ := rearm_spec h ht htcb hnot now
    have hother : ∀ j ∈ expired, s₁.objects j = s.objects j := by
      intro j hj
      have hji : j ≠ i := fun heq => hnot (heq ▸ hj)
      rw [hobj, Function.update_of_ne hji]
    obtain ⟨s', hrest, hkeeps', hcount', hobj'⟩ := ih hnodup hkeeps fun j hj => by
      rw [hother j hj]
      exact hcb j (List.mem_cons_of_mem i hj)
    refine ⟨s', ?_, hkeeps', hcount'.trans hcount, ?_⟩
    · have hcbs : expired.map (fun j => (j, s₁.callback j)) =
          expired.map (fun j => (j, s.callback j)) :=
        List.map_congr_left fun j hj => by rw [callback, callback, hother j hj]
      have hself : s.callback i = t.cb := by
        rw [callback, ht]
        rfl
      rw [collect, ht, Option.bind_eq_bind, Option.bind_some, hstep, Option.bind_eq_bind,
        Option.bind_some, hrest, hcbs, List.map_cons, hself]
      rfl
    · funext j
      rw [hobj']
      dsimp only
      by_cases hji : j = i
      · subst hji
        rw [if_neg hnot, if_pos List.mem_cons_self, hobj, Function.update_self, ht]
        rfl
      · have hiff : j ∈ i :: expired ↔ j ∈ expired := by rw [List.mem_cons, or_iff_right hji]
        rw [hobj, Function.update_of_ne hji]
        simp only [hiff]

/-- What a call does. -/
structure Expires (s : TimerManager κ) (now : ℕ) (s' : TimerManager κ) : Prop where
  keeps : Keeps [] s'
  count : s'.count = s.count
  objects : s'.objects =
    fun j => if j ∈ s.due now then (s.objects j).map (Timer.expire now) else s.objects j

theorem expires_of_nil (h : Keeps [] s) (hdue : s.due now = []) (previouseTime : ℕ) :
    Expires s now { s with previouseTime := previouseTime } where
  keeps := ⟨h.sorted, h.member, h.distinct, h.fresh⟩
  count := rfl
  objects := by
    funext j
    rw [hdue]
    exact (if_neg List.not_mem_nil).symm

theorem listExpiredCb_cons {first : ℕ} {rest : List ℕ} (htimers : s.timers = first :: rest)
    (hfirst : s.objects first = some t) (now probe : ℕ) : s.listExpiredCb now probe =
      if !(s.detectClockRollover now).1 && t.next > now then some ([], (s.detectClockRollover now).2)
      else collect now (s.timers.take
          (s.timers.length - (s.expiredEnd now probe (s.detectClockRollover now).1).length))
        { s with
          timers := s.expiredEnd now probe (s.detectClockRollover now).1
          previouseTime := now } := by
  rw [listExpiredCb, htimers]
  change ((s.objects first).bind _) = _
  rw [hfirst, Option.bind_some, ← htimers]
  rfl

/-- A timer is called once. -/
theorem Keeps.due_nodup (h : Keeps [] s) (now : ℕ) :
    (((s.due now).map fun i => (i, s.callback i)).map Prod.fst).Nodup := by
  have hid : (Prod.fst ∘ fun i => (i, s.callback i)) = id := rfl
  rw [List.map_map, hid, List.map_id]
  exact h.sorted.nodup.filter _

theorem listExpiredCb_spec (h : Keeps [] s)
    (hroll : s.timers ≠ [] → (s.detectClockRollover now).1 = false) (probe : ℕ) : ∃ s', s.listExpiredCb now probe =
      some ((s.due now).map (fun i => (i, s.callback i)), s') ∧ Expires s now s' := by
  cases htimers : s.timers with
  | nil =>
    have hdue : s.due now = [] := by
      rw [due, htimers]
      rfl
    refine ⟨s, ?_, expires_of_nil h hdue s.previouseTime⟩
    rw [listExpiredCb, htimers, hdue]
    rfl
  | cons first rest =>
    obtain ⟨-, t, ht, -⟩ := (h.member first).mp (htimers ▸ List.mem_cons_self)
    rw [htimers] at hroll
    have hroll := hroll (List.cons_ne_nil first rest)
    by_cases hlate : t.next > now
    · have hdue : s.due now = [] := by
        have hmono := due_mono h now
        rw [htimers] at hmono
        have hfirst : s.isDue now first = false := by
          rw [isDue, ht, Option.any_some, decide_eq_false (Nat.not_le.mpr hlate)]
        rw [due, htimers, List.filter_eq_nil_iff]
        intro j hj hjdue
        rcases List.mem_cons.mp hj with rfl | hj
        · rw [hfirst] at hjdue
          cases hjdue
        · rw [(List.pairwise_cons.mp hmono).1 j hj hjdue] at hfirst
          cases hfirst
      refine ⟨{ s with previouseTime := now }, ?_, expires_of_nil h hdue now⟩
      rw [listExpiredCb_cons htimers ht, hroll, decide_eq_true hlate, hdue]
      rfl
    · have hmem : ∀ i, i ∈ s.due now ↔ i ∈ s.timers ∧ s.isDue now i = true := fun i => List.mem_filter
      have hopen : Keeps (s.due now)
          { s with timers := s.expiredEnd now probe false, previouseTime := now } := by
        have hsplit := List.suffix_iff_eq_append.mp (expiredEnd_suffix s now probe false)
        rw [expired_eq h] at hsplit
        have hrest := h.open hsplit
        exact ⟨hrest.sorted, hrest.member, hrest.distinct, hrest.fresh⟩
      have hcb : ∀ i ∈ s.due now, ∃ t, s.objects i = some t ∧ t.cb ≠ none := fun i hi =>
        ((h.member i).mp ((hmem i).mp hi).1).2
      obtain ⟨s', hcollect, hkeeps', hcount, hobj⟩ :=
        collect_spec (h.sorted.nodup.filter _) hopen hcb now
      refine ⟨s', ?_, ⟨hkeeps', hcount, hobj⟩⟩
      rw [listExpiredCb_cons htimers ht, hroll, decide_eq_false hlate, expired_eq h]
      exact hcollect

/-- The set is kept also when the clock has gone back. -/
theorem Keeps.listExpiredCb (h : Keeps [] s) {cbs : List (ℕ × Option κ)}
    (hc : s.listExpiredCb now probe = some (cbs, s')) : Keeps [] s' := by
  cases htimers : s.timers with
  | nil =>
    rw [TimerManager.listExpiredCb, htimers] at hc
    cases hc
    exact h
  | cons first rest =>
    obtain ⟨-, t, ht, -⟩ := (h.member first).mp (htimers ▸ List.mem_cons_self)
    rw [listExpiredCb_cons htimers ht] at hc
    split at hc
    · cases hc
      exact ⟨h.sorted, h.member, h.distinct, h.fresh⟩
    · have hsplit := List.suffix_iff_eq_append.mp
        (expiredEnd_suffix s now probe (s.detectClockRollover now).1)
      have hrest := h.open hsplit
      have hopen := Keeps.mk (s := { s with
          timers := s.expiredEnd now probe (s.detectClockRollover now).1
          previouseTime := now }) hrest.sorted hrest.member hrest.distinct hrest.fresh
      have hnodup := h.sorted.nodup
      rw [← hsplit] at hnodup
      obtain ⟨s₁, hcollect, hkeeps, -⟩ := collect_spec hnodup.of_append_left hopen
        (fun i hi => ((h.member i).mp (List.mem_of_mem_take hi)).2) now
      rw [hcollect] at hc
      cases hc
      exact hkeeps

end TimerManager
end Flz
