import Flz.Timer.Model
import Mathlib.Data.Prod.Lex
import Mathlib.Order.WithBot

/-! # The set of timers

Every operation takes a timer out of the set before it changes its deadline, so the set stays in
order, and it holds exactly the timers with a callback.
-/
namespace Flz
open Lib
variable {κ : Type}

/-- The key by which the comparator orders. -/
def Timer.key : Option (Timer κ) → WithBot (ℕ ×ₗ ℕ)
  | none => ⊥
  | some t => ((toLex (t.next, t.addr) : ℕ ×ₗ ℕ) : WithBot (ℕ ×ₗ ℕ))

theorem Timer.Comparator_eq (lhs rhs : Option (Timer κ)) :
    Timer.Comparator lhs rhs = decide (Timer.key lhs < Timer.key rhs) := by
  cases lhs with
  | none =>
    cases rhs with
    | none => exact (decide_eq_false (lt_irrefl _)).symm
    | some r => exact (decide_eq_true (WithBot.bot_lt_coe _)).symm
  | some l =>
    cases rhs with
    | none => exact (decide_eq_false not_lt_bot).symm
    | some r =>
      rw [Bool.eq_iff_iff, decide_eq_true_iff, Timer.key, Timer.key, WithBot.coe_lt_coe,
        Prod.Lex.toLex_lt_toLex]
      simp only [Timer.Comparator]
      split
      · simp_all
      · split
        · simp_all
          omega
        · have heq : l.next = r.next := by omega
          simp [heq]

namespace TimerManager
variable {s s' : TimerManager κ} {out : List ℕ} {i j : ℕ} {t : Timer κ}

def key (s : TimerManager κ) (i : ℕ) : WithBot (ℕ ×ₗ ℕ) := Timer.key (s.objects i)

theorem less_eq (s : TimerManager κ) (i j : ℕ) : s.less i j = decide (s.key i < s.key j) :=
  Timer.Comparator_eq _ _

/-- The set while the timers `out` are taken out of it. -/
structure Keeps (out : List ℕ) (s : TimerManager κ) : Prop where
  sorted : OrderedSet.Sorted s.key s.timers
  member : ∀ i, i ∈ s.timers ↔ i ∉ out ∧ ∃ t, s.objects i = some t ∧ t.cb ≠ none
  distinct : ∀ i j t u, s.objects i = some t → s.objects j = some u → t.addr = u.addr → i = j
  fresh : ∀ i, s.count ≤ i → s.objects i = none

theorem put_self (s : TimerManager κ) (i : ℕ) (t : Timer κ) : (s.put i t).objects i = some t :=
  Function.update_self ..

theorem put_other (s : TimerManager κ) {i j : ℕ} (t : Timer κ) (h : j ≠ i) :
    (s.put i t).objects j = s.objects j := Function.update_of_ne h ..

/-! ## Deadlines in the set -/

/-- Two timers lie at two addresses. -/
def Distinct (s : TimerManager κ) : Prop :=
  ∀ i j t u, s.objects i = some t → s.objects j = some u → t.addr = u.addr → i = j

theorem Distinct.key_ne (h : s.Distinct) (hi : s.objects i = some t) {u : Timer κ} (hj : s.objects j = some u)
    (hne : j ≠ i) : s.key j ≠ s.key i := by
  intro heq
  rw [key, key, hj, hi, Timer.key, Timer.key, WithBot.coe_inj, toLex_inj, Prod.mk.injEq] at heq
  exact hne (h j i u t hj hi heq.2)

theorem Distinct.put (h : s.Distinct) (haddr : ∀ j u, j ≠ i → s.objects j = some u → u.addr ≠ t.addr) :
    (s.put i t).Distinct := by
  intro j k u v hj hk huv
  by_cases hji : j = i
  · subst hji
    by_cases hki : k = j
    · exact hki.symm
    · rw [put_self, Option.some.injEq] at hj
      rw [put_other s t hki] at hk
      exact absurd (huv.symm.trans (congrArg Timer.addr hj.symm)) (haddr k v hki hk)
  · rw [put_other s t hji] at hj
    by_cases hki : k = i
    · subst hki
      rw [put_self, Option.some.injEq] at hk
      exact absurd (huv.trans (congrArg Timer.addr hk.symm)) (haddr j u hji hj)
    · rw [put_other s t hki] at hk
      exact h j k u v hj hk huv

/-- An object outside the set has no say in its order. -/
theorem sorted_put (h : OrderedSet.Sorted s.key s.timers) (hnot : i ∉ s.timers) (t : Timer κ) :
    OrderedSet.Sorted (s.put i t).key s.timers := by
  refine h.congr fun j hj => ?_
  have hne : j ≠ i := by
    rintro rfl
    exact hnot hj
  rw [key, key, put_other s t hne]

/-- The first timer has the earliest deadline. -/
theorem next_le_of_sorted (h : OrderedSet.Sorted s.key s.timers) {rest : List ℕ} (htimers : s.timers = i :: rest)
    (hi : s.objects i = some t) {u : Timer κ} (hj : j ∈ s.timers) (hu : s.objects j = some u) :
    t.next ≤ u.next := by
  rw [htimers] at hj h
  rcases List.mem_cons.mp hj with rfl | hj
  · rw [hi] at hu
    exact le_of_eq (congrArg Timer.next (Option.some.inj hu))
  · have hlt := (List.pairwise_cons.mp h).1 j hj
    rw [key, key, hi, hu, Timer.key, Timer.key, WithBot.coe_lt_coe, Prod.Lex.toLex_lt_toLex] at hlt
    omega

/-- A timer that is in the set is found, and can be taken out. -/
theorem find_isNone (h : OrderedSet.Sorted s.key s.timers) (hi : i ∈ s.timers) :
    (OrderedSet.find s.less i s.timers).isNone = false := by
  obtain ⟨rest, hrest⟩ := OrderedSet.find_of_mem s.less_eq h hi
  rw [hrest]
  rfl

theorem erase_eq (h : OrderedSet.Sorted s.key s.timers) (hi : i ∈ s.timers) :
    s.erase i = some { s with timers := s.timers.filter (· ≠ i) } := by
  rw [TimerManager.erase, OrderedSet.erase_of_mem s.less_eq h hi]
  rfl

theorem not_mem_filter (s : TimerManager κ) (i : ℕ) : i ∉ s.timers.filter (· ≠ i) := by simp

theorem setNext_eq (hnot : i ∉ s.timers) (u : Timer κ) (next : ℕ) :
    s.setNext i u next = some (s.put i { u with next := next }) := if_neg hnot

theorem cancel_none (hi : s.objects i = some t) (hcb : t.cb = none) : s.cancel i = some (false, s) := by
  rw [cancel, hi, Option.bind_eq_bind, Option.bind_some, hcb]
  rfl

/-- The callback is not a part of the key. -/
theorem cancel_eq (h : OrderedSet.Sorted s.key s.timers) (hi : s.objects i = some t) (hcb : t.cb ≠ none)
    (hmem : i ∈ s.timers) : s.cancel i =
      some (true, { s with timers := s.timers.filter (· ≠ i) }.put i { t with cb := none }) := by
  have hsorted : OrderedSet.Sorted (s.put i { t with cb := none }).key s.timers := by
    refine h.congr fun j _ => ?_
    by_cases hji : j = i
    · rw [key, key, hji, put_self, hi]
      rfl
    · rw [key, key, put_other s _ hji]
  have herase := erase_eq (s := s.put i { t with cb := none }) hsorted hmem
  rw [cancel, hi, Option.bind_eq_bind, Option.bind_some, if_pos (Option.isSome_iff_ne_none.mpr hcb), herase]
  rfl

theorem refresh_none (hi : s.objects i = some t) (hcb : t.cb = none) (now : ℕ) :
    s.refresh i now = some (false, s) := by
  rw [refresh, hi, Option.bind_eq_bind, Option.bind_some, hcb]
  rfl

theorem refresh_eq (h : OrderedSet.Sorted s.key s.timers) (hi : s.objects i = some t) (hcb : t.cb ≠ none)
    (hmem : i ∈ s.timers) (now : ℕ) : s.refresh i now =
      some (true, ({ s with timers := s.timers.filter (· ≠ i) }.put i
        { t with next := uint64 (now + t.ms) }).insert i) := by
  rw [refresh, hi, Option.bind_eq_bind, Option.bind_some, if_neg (by simpa using hcb), find_isNone h hmem,
    if_neg Bool.false_ne_true, erase_eq h hmem, Option.bind_eq_bind, Option.bind_some,
    setNext_eq (not_mem_filter s i)]
  rfl

theorem reset_same (hi : s.objects i = some t) (now : ℕ) :
    s.reset i t.ms false now = some (true, false, s) := by
  rw [reset, hi, Option.bind_eq_bind, Option.bind_some, if_pos ⟨rfl, rfl⟩]
  rfl

theorem reset_none (hi : s.objects i = some t) (hcb : t.cb = none) {ms : ℕ} {fromNow : Bool}
    (hchange : ¬ (ms = t.ms ∧ fromNow = false)) (now : ℕ) :
    s.reset i ms fromNow now = some (false, false, s) := by
  rw [reset, hi, Option.bind_eq_bind, Option.bind_some, if_neg hchange, hcb]
  rfl

/-- A timer is taken out, changed, and inserted again. -/
theorem reset_change (h : OrderedSet.Sorted s.key s.timers) (hi : s.objects i = some t) (hcb : t.cb ≠ none)
    (hmem : i ∈ s.timers) {ms : ℕ} {fromNow : Bool} (hchange : ¬ (ms = t.ms ∧ fromNow = false)) (now : ℕ) :
    s.reset i ms fromNow now = some (true, ({ s with timers := s.timers.filter (· ≠ i) }.put i { t with
      ms := ms
      next := uint64 ((if fromNow then now else subUInt64 t.next t.ms) + ms) }).insertTimer i) := by
  rw [reset, hi, Option.bind_eq_bind, Option.bind_some, if_neg hchange, if_neg (by simpa using hcb),
    find_isNone h hmem, if_neg Bool.false_ne_true, erase_eq h hmem, Option.bind_eq_bind, Option.bind_some]
  dsimp only
  rw [setNext_eq (not_mem_filter s i)]
  rfl

theorem insertTimer_eq (s : TimerManager κ) (i : ℕ) :
    (s.insertTimer i).2 = { s.insert i with tickled := (s.insertTimer i).2.tickled } := by
  rw [insertTimer]
  dsimp only
  split <;> rfl

theorem insertTimer_objects (s : TimerManager κ) (i : ℕ) :
    (s.insertTimer i).2.objects = s.objects ∧ (s.insertTimer i).2.count = s.count := by
  rw [insertTimer_eq]
  exact ⟨rfl, rfl⟩

/-! ## The invariant -/

/-- The set while the timers `out` are taken out of it: a timer with a callback is there. -/
structure Holds (out : List ℕ) (s : TimerManager κ) : Prop where
  sorted : OrderedSet.Sorted s.key s.timers
  present : ∀ i ∈ s.timers, i ∉ out ∧ ∃ t, s.objects i = some t
  pending : ∀ i t, s.objects i = some t → t.cb ≠ none → i ∈ out ∨ i ∈ s.timers
  distinct : s.Distinct
  fresh : ∀ i, s.count ≤ i → s.objects i = none

theorem Holds.not_mem (h : Holds out s) (hout : i ∈ out) : i ∉ s.timers := fun hi => (h.present i hi).1 hout

theorem Holds.lt_count (h : Holds out s) (hi : s.objects i = some t) : i < s.count := by
  by_contra hge
  rw [h.fresh i (Nat.not_lt.mp hge)] at hi
  cases hi

theorem Holds.put (h : Holds out s) (hout : i ∈ out) (hcount : i < s.count)
    (haddr : ∀ j u, j ≠ i → s.objects j = some u → u.addr ≠ t.addr) : Holds out (s.put i t) where
  sorted := sorted_put h.sorted (h.not_mem hout) t
  present := by
    intro j hj
    have hji : j ≠ i := fun heq => h.not_mem hout (heq ▸ hj)
    rw [put_other s t hji]
    exact h.present j hj
  pending := by
    intro j u hu hcb
    by_cases hji : j = i
    · exact Or.inl (hji ▸ hout)
    · rw [put_other s t hji] at hu
      exact h.pending j u hu hcb
  distinct := h.distinct.put haddr
  fresh := by
    intro j hj
    have hcount' : s.count ≤ j := hj
    rw [put_other s t (by omega)]
    exact h.fresh j hcount'

theorem Holds.put_same (h : Holds out s) (hout : i ∈ out) (hi : s.objects i = some t) {u : Timer κ}
    (haddr : u.addr = t.addr) : Holds out (s.put i u) := by
  refine h.put hout (h.lt_count hi) fun j v hji hj heq => hji ?_
  exact h.distinct j i v t hj hi (heq.trans haddr)

theorem Holds.insert_keys (h : Holds (i :: out) s) (hi : s.objects i = some t) :
    ∀ j ∈ s.timers, s.key j ≠ s.key i := by
  intro j hj
  obtain ⟨hnot, u, hu⟩ := h.present j hj
  exact h.distinct.key_ne hi hu fun heq => hnot (heq ▸ List.mem_cons_self)

theorem Holds.insert (h : Holds (i :: out) s) (hi : s.objects i = some t) (hout : i ∉ out) :
    Holds out (s.insert i) := by
  have hkeys := h.insert_keys hi
  have hmem : ∀ j, j ∈ (s.insert i).timers ↔ j = i ∨ j ∈ s.timers := fun j =>
    OrderedSet.mem_insert_of_distinct s.less_eq hkeys
  refine ⟨h.sorted.insert s.less_eq hkeys, fun j hj => ?_, fun j u hu hcb => ?_, h.distinct, h.fresh⟩
  · rcases (hmem j).mp hj with rfl | hj
    · exact ⟨hout, t, hi⟩
    · obtain ⟨hnot, hobj⟩ := h.present j hj
      exact ⟨fun hjout => hnot (List.mem_cons_of_mem i hjout), hobj⟩
  · rw [hmem j]
    rcases h.pending j u hu hcb with hj | hj
    · rcases List.mem_cons.mp hj with heq | hj
      · exact Or.inr (Or.inl heq)
      · exact Or.inl hj
    · exact Or.inr (Or.inr hj)

theorem Holds.mem_insert (h : Holds (i :: out) s) (hi : s.objects i = some t) : i ∈ (s.insert i).timers :=
  (OrderedSet.mem_insert_of_distinct s.less_eq (h.insert_keys hi)).mpr (Or.inl rfl)

theorem Holds.mem_insertTimer (h : Holds (i :: out) s) (hi : s.objects i = some t) :
    i ∈ (s.insertTimer i).2.timers := by
  rw [insertTimer_eq]
  exact h.mem_insert hi

theorem Holds.insertTimer (h : Holds (i :: out) s) (hi : s.objects i = some t) (hout : i ∉ out) :
    Holds out (s.insertTimer i).2 := by
  have hins := h.insert hi hout
  rw [insertTimer_eq]
  exact ⟨hins.sorted, hins.present, hins.pending, hins.distinct, hins.fresh⟩

theorem Holds.erase (h : Holds out s) (i : ℕ) : Holds (i :: out) { s with timers := s.timers.filter (· ≠ i) } := by
  refine ⟨h.sorted.filter _, fun j hj => ?_, fun j u hu hcb => ?_, h.distinct, h.fresh⟩
  · obtain ⟨hj, hji⟩ := List.mem_filter.mp hj
    obtain ⟨hnot, hobj⟩ := h.present j hj
    refine ⟨fun hout => ?_, hobj⟩
    rcases List.mem_cons.mp hout with heq | hout
    · exact of_decide_eq_true hji heq
    · exact hnot hout
  · by_cases hji : j = i
    · exact Or.inl (hji ▸ List.mem_cons_self)
    · rcases h.pending j u hu hcb with hj | hj
      · exact Or.inl (List.mem_cons_of_mem i hj)
      · exact Or.inr (List.mem_filter.mpr ⟨hj, decide_eq_true hji⟩)

theorem Holds.close (h : Holds (i :: out) s) (hi : ∀ t, s.objects i = some t → t.cb = none) : Holds out s := by
  refine ⟨h.sorted, fun j hj => ?_, fun j u hu hcb => ?_, h.distinct, h.fresh⟩
  · obtain ⟨hnot, hobj⟩ := h.present j hj
    exact ⟨fun hout => hnot (List.mem_cons_of_mem i hout), hobj⟩
  · rcases h.pending j u hu hcb with hj | hj
    · rcases List.mem_cons.mp hj with rfl | hj
      · exact absurd (hi u hu) hcb
      · exact Or.inl hj
    · exact Or.inr hj

theorem Holds.open (h : Holds [] s) {rest : List ℕ} (hsplit : out ++ rest = s.timers) (previouseTime : ℕ) :
    Holds out { s with timers := rest, previouseTime := previouseTime } := by
  have hsorted := h.sorted
  have hnodup := h.sorted.nodup
  rw [← hsplit] at hsorted hnodup
  refine ⟨(List.pairwise_append.mp hsorted).2.1, fun j hj => ?_, fun j u hu hcb => ?_, h.distinct, h.fresh⟩
  · refine ⟨fun hout => List.disjoint_of_nodup_append hnodup hout hj, (h.present j ?_).2⟩
    rw [← hsplit]
    exact List.mem_append_right out hj
  · have hj := (h.pending j u hu hcb).resolve_left List.not_mem_nil
    rw [← hsplit] at hj
    exact List.mem_append.mp hj

theorem Holds.release (h : Holds [] s) (hnot : i ∉ s.timers) :
    Holds [] { s with objects := Function.update s.objects i none } := by
  have hself : Function.update s.objects i none i = none := Function.update_self ..
  have hother : ∀ j, j ≠ i → Function.update s.objects i none j = s.objects j := fun j hji =>
    Function.update_of_ne hji _ _
  have hback : ∀ j t, Function.update s.objects i none j = some t → s.objects j = some t := by
    intro j t hj
    by_cases hji : j = i
    · rw [hji, hself] at hj
      cases hj
    · rwa [hother j hji] at hj
  refine ⟨?_, fun j hj => ?_, fun j u hu hcb => h.pending j u (hback j u hu) hcb,
    fun j k t u hj hk => h.distinct j k t u (hback j t hj) (hback k u hk), fun j hj => ?_⟩
  · refine h.sorted.congr fun j hj => ?_
    rw [key, key]
    exact congrArg Timer.key (hother j fun hji => hnot (hji ▸ hj))
  · refine ⟨List.not_mem_nil, ?_⟩
    obtain ⟨-, u, hu⟩ := h.present j hj
    exact ⟨u, (hother j fun hji => hnot (hji ▸ hj)).trans hu⟩
  · by_cases hji : j = i
    · rw [hji]
      exact hself
    · exact (hother j hji).trans (h.fresh j hj)

/-- A timer that is constructed and not yet in the set. -/
theorem Holds.construct (h : Holds [] s) (haddr : ∀ j u, s.objects j = some u → u.addr ≠ t.addr) :
    Holds [s.count] ({ s.put s.count t with count := s.count + 1 }) := by
  have hopen : Holds [s.count] { s with count := s.count + 1 } := by
    refine ⟨h.sorted, fun j hj => ?_, fun j u hu hcb => ?_, h.distinct, fun j hj => h.fresh j (Nat.le_of_succ_le hj)⟩
    · obtain ⟨-, u, hu⟩ := h.present j hj
      refine ⟨fun hout => ?_, u, hu⟩
      have hlt := h.lt_count hu
      rw [List.mem_singleton.mp hout] at hlt
      exact Nat.lt_irrefl _ hlt
    · exact Or.inr ((h.pending j u hu hcb).resolve_left List.not_mem_nil)
  exact hopen.put List.mem_cons_self (Nat.lt_succ_self _) (fun j u _ hj => haddr j u hj)

/-! ## Callbacks in the set -/

/-- The invariant is that of any set, and a callback for each timer in it. -/
theorem keeps_iff : Keeps out s ↔ Holds out s ∧ ∀ i ∈ s.timers, ∀ t, s.objects i = some t → t.cb ≠ none := by
  constructor
  · intro h
    refine ⟨⟨h.sorted, fun i hi => ?_, fun i t hi hcb => ?_, h.distinct, h.fresh⟩, fun i hi t ht => ?_⟩
    · obtain ⟨hout, t, ht, -⟩ := (h.member i).mp hi
      exact ⟨hout, t, ht⟩
    · by_cases hout : i ∈ out
      · exact Or.inl hout
      · exact Or.inr ((h.member i).mpr ⟨hout, t, hi, hcb⟩)
    · obtain ⟨-, u, hu, hcb⟩ := (h.member i).mp hi
      rwa [Option.some.inj (ht.symm.trans hu)]
  · rintro ⟨h, hcalled⟩
    refine ⟨h.sorted, fun i => ⟨fun hi => ?_, fun hi => ?_⟩, h.distinct, h.fresh⟩
    · obtain ⟨hout, t, ht⟩ := h.present i hi
      exact ⟨hout, t, ht, hcalled i hi t ht⟩
    · obtain ⟨hout, t, ht, hcb⟩ := hi
      exact (h.pending i t ht hcb).resolve_left hout

theorem Keeps.holds (h : Keeps out s) : Holds out s := (keeps_iff.mp h).1

theorem Keeps.called (h : Keeps out s) : ∀ i ∈ s.timers, ∀ t, s.objects i = some t → t.cb ≠ none :=
  (keeps_iff.mp h).2

theorem Keeps.put_same (h : Keeps out s) (hout : i ∈ out) (hi : s.objects i = some t) {u : Timer κ}
    (haddr : u.addr = t.addr) : Keeps out (s.put i u) := by
  refine keeps_iff.mpr ⟨h.holds.put_same hout hi haddr, fun j hj v hv => ?_⟩
  have hji : j ≠ i := fun heq => h.holds.not_mem hout (heq ▸ hj)
  rw [put_other s u hji] at hv
  exact h.called j hj v hv

theorem Keeps.insert (h : Keeps (i :: out) s) (hi : s.objects i = some t) (hcb : t.cb ≠ none)
    (hout : i ∉ out) : Keeps out (s.insert i) := by
  refine keeps_iff.mpr ⟨h.holds.insert hi hout, fun j hj v hv => ?_⟩
  rcases (OrderedSet.mem_insert_of_distinct s.less_eq (h.holds.insert_keys hi)).mp hj with rfl | hj
  · rwa [Option.some.inj (hv.symm.trans hi)]
  · exact h.called j hj v hv

theorem Keeps.erase (h : Keeps out s) (i : ℕ) :
    Keeps (i :: out) { s with timers := s.timers.filter (· ≠ i) } :=
  keeps_iff.mpr ⟨h.holds.erase i, fun j hj => h.called j (List.mem_filter.mp hj).1⟩

/-- A timer without a callback belongs outside. -/
theorem Keeps.close (h : Keeps (i :: out) s) (hi : ∀ t, s.objects i = some t → t.cb = none) :
    Keeps out s := keeps_iff.mpr ⟨h.holds.close hi, h.called⟩

/-- The first timers are taken out together. -/
theorem Keeps.open (h : Keeps [] s) {rest : List ℕ} (hsplit : out ++ rest = s.timers) :
    Keeps out { s with timers := rest } := by
  refine keeps_iff.mpr ⟨h.holds.open hsplit s.previouseTime, fun j hj => h.called j ?_⟩
  rw [← hsplit]
  exact List.mem_append_right out hj

/-- An object that is not in the set is given up. -/
theorem Keeps.release (h : Keeps [] s) (hnot : i ∉ s.timers) :
    Keeps [] { s with objects := Function.update s.objects i none } := by
  refine keeps_iff.mpr ⟨h.holds.release hnot, fun j hj u hu => ?_⟩
  have hji : j ≠ i := fun heq => hnot (heq ▸ hj)
  exact h.called j hj u ((Function.update_of_ne hji none s.objects).symm.trans hu)

theorem Keeps.setNext (h : Keeps out s) (hout : i ∈ out) (hi : s.objects i = some t) {u : Timer κ}
    (haddr : u.addr = t.addr) (next : ℕ) :
    s.setNext i u next = some (s.put i { u with next := next }) ∧
      Keeps out (s.put i { u with next := next }) := by
  have hnot : i ∉ s.timers := fun hmem => ((h.member i).mp hmem).1 hout
  exact ⟨if_neg hnot, h.put_same hout hi haddr⟩

/-! ## What an operation makes of one timer -/

/-- One timer has become another. -/
structure Becomes (s : TimerManager κ) (i : ℕ) (t : Timer κ) (s' : TimerManager κ) : Prop where
  keeps : Keeps [] s'
  objects : s'.objects = Function.update s.objects i (some t)
  count : s'.count = s.count

theorem Keeps.member_nil (h : Keeps [] s) (hi : s.objects i = some t) : i ∈ s.timers ↔ t.cb ≠ none := by
  rw [h.member i]
  constructor
  · rintro ⟨-, u, hu, hcb⟩
    rw [hi] at hu
    cases hu
    exact hcb
  · exact fun hcb => ⟨List.not_mem_nil, t, hi, hcb⟩

theorem keeps_new (now : ℕ) : Keeps [] (TimerManager.new (κ := κ) now) where
  sorted := List.Pairwise.nil
  member i := iff_of_false List.not_mem_nil (fun h => by
    obtain ⟨-, t, ht, -⟩ := h
    cases ht)
  distinct i j t u hi _ _ := by cases hi
  fresh i _ := rfl

theorem Keeps.insertTimer (h : Keeps (i :: out) s) (hi : s.objects i = some t) (hcb : t.cb ≠ none)
    (hout : i ∉ out) : Keeps out (s.insertTimer i).2 := by
  have hins := h.insert hi hcb hout
  rw [insertTimer_eq]
  exact ⟨hins.sorted, hins.member, hins.distinct, hins.fresh⟩

theorem Keeps.construct (h : Keeps [] s) (haddr : ∀ j u, s.objects j = some u → u.addr ≠ t.addr) :
    Keeps [s.count] ({ s.put s.count t with count := s.count + 1 }) := by
  refine keeps_iff.mpr ⟨h.holds.construct haddr, fun j hj u hu => h.called j hj u ?_⟩
  have hji : j ≠ s.count := by
    rintro rfl
    obtain ⟨-, v, hv⟩ := h.holds.present _ hj
    exact Nat.lt_irrefl _ (h.holds.lt_count hv)
  exact (put_other s t hji).symm.trans hu

theorem addTimer_spec (h : Keeps [] s) {addr : ℕ} (ms now : ℕ) (recurring : Bool) (cb : κ)
    (haddr : ∀ j u, s.objects j = some u → u.addr ≠ addr) :
    Keeps [] (s.addTimer addr ms (some cb) recurring now).2 ∧
      (s.addTimer addr ms (some cb) recurring now).2.objects =
        Function.update s.objects s.count (some ⟨addr, recurring, ms, uint64 (now + ms), some cb⟩) ∧
      (s.addTimer addr ms (some cb) recurring now).2.count = s.count + 1 := by
  have hput := h.construct (t := ⟨addr, recurring, ms, uint64 (now + ms), some cb⟩) haddr
  have hins := hput.insertTimer (put_self _ _ _) (Option.some_ne_none cb) List.not_mem_nil
  obtain ⟨hobj, hcount⟩ := insertTimer_objects
    ({ s with count := s.count + 1 }.put s.count ⟨addr, recurring, ms, uint64 (now + ms), some cb⟩) s.count
  exact ⟨hins, hobj, hcount⟩

theorem cancel_spec (h : Keeps [] s) (hi : s.objects i = some t) (hcb : t.cb ≠ none) :
    ∃ s', s.cancel i = some (true, s') ∧ Becomes s i { t with cb := none } s' := by
  have hput := (h.erase i).put_same (u := { t with cb := none }) List.mem_cons_self hi rfl
  have hclose := hput.close (fun u hu => by
    rw [put_self, Option.some.injEq] at hu
    rw [← hu])
  exact ⟨_, cancel_eq h.sorted hi hcb ((h.member_nil hi).mpr hcb), ⟨hclose, rfl, rfl⟩⟩

theorem refresh_spec (h : Keeps [] s) (hi : s.objects i = some t) (hcb : t.cb ≠ none) (now : ℕ) :
    ∃ s', s.refresh i now = some (true, s') ∧
      Becomes s i { t with next := uint64 (now + t.ms) } s' := by
  have hput := (h.erase i).put_same (u := { t with next := uint64 (now + t.ms) }) List.mem_cons_self hi rfl
  exact ⟨_, refresh_eq h.sorted hi hcb ((h.member_nil hi).mpr hcb) now,
    ⟨hput.insert (put_self _ _ _) hcb List.not_mem_nil, rfl, rfl⟩⟩

/-- What a timer is between its removal and its insertion. -/
theorem reset_eq (h : Keeps [] s) (hi : s.objects i = some t) (hcb : t.cb ≠ none) {ms : ℕ}
    {fromNow : Bool} (hchange : ¬ (ms = t.ms ∧ fromNow = false)) (now : ℕ) :
    ∃ s', s.reset i ms fromNow now = some (true, s'.insertTimer i) ∧ Keeps [i] s' ∧
      s'.timers = s.timers.filter (· ≠ i) ∧ s'.tickled = s.tickled ∧ s'.count = s.count ∧
      s'.objects = Function.update s.objects i (some { t with
        ms := ms, next := uint64 ((if fromNow then now else subUInt64 t.next t.ms) + ms) }) := by
  have hput := (h.erase i).put_same (u := { t with
    ms := ms, next := uint64 ((if fromNow then now else subUInt64 t.next t.ms) + ms) }) List.mem_cons_self hi rfl
  exact ⟨_, reset_change h.sorted hi hcb ((h.member_nil hi).mpr hcb) hchange now, hput, rfl, rfl, rfl, rfl⟩

theorem reset_spec (h : Keeps [] s) (hi : s.objects i = some t) (hcb : t.cb ≠ none) {ms : ℕ}
    {fromNow : Bool} (hchange : ¬ (ms = t.ms ∧ fromNow = false)) (now : ℕ) :
    ∃ atFront s', s.reset i ms fromNow now = some (true, atFront, s') ∧
      Becomes s i { t with
        ms := ms, next := uint64 ((if fromNow then now else subUInt64 t.next t.ms) + ms) } s' := by
  obtain ⟨s₁, hreset, hkeeps, -, -, hcount, hobj⟩ := reset_eq h hi hcb hchange now
  obtain ⟨hobj', hcount'⟩ := insertTimer_objects s₁ i
  have hself := congrFun hobj i
  rw [Function.update_self] at hself
  exact ⟨(s₁.insertTimer i).1, (s₁.insertTimer i).2, hreset,
    ⟨hkeeps.insertTimer hself hcb List.not_mem_nil, hobj'.trans hobj, hcount'.trans hcount⟩⟩

end TimerManager
end Flz
