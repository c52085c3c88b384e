import Flz.Lib.Runs
import Flz.Timer.Expiry

/-! # Runs of the timers

What the timers are for: a timer is armed at some clock reading for some time, and is emitted
when this time has passed. Every run of the operations refines this, at clock readings that go
back by no more than the code tolerates and with deadlines that fit into 64 bits.
-/
namespace Flz
open Lib
variable {κ : Type}

/-- The calls with their arguments, and with what they return. -/
inductive TimerEvent (κ : Type)
  | addTimer (i addr ms : ℕ) (cb : κ) (recurring : Bool) (now : ℕ)
  | cancel (i : ℕ) (done : Bool)
  | refresh (i now : ℕ) (done : Bool)
  | reset (i ms : ℕ) (fromNow : Bool) (now : ℕ) (done : Bool)
  | listExpiredCb (now probe : ℕ) (cbs : List (ℕ × Option κ))
  | getNextTimer (now : ℕ)
  | release (i : ℕ)

namespace TimerManager

/-- The deadlines that a call computes fit into 64 bits. -/
def Fits (s : TimerManager κ) : TimerEvent κ → Prop
  | .addTimer _ _ ms _ _ now => now + ms < 2 ^ 64
  | .refresh i now _ => ∀ t, s.objects i = some t → now + t.ms < 2 ^ 64
  | .reset i ms fromNow now _ =>
    ∀ t, s.objects i = some t → (if fromNow then now else subUInt64 t.next t.ms) + ms < 2 ^ 64
  | .listExpiredCb now _ _ => ∀ i t, s.objects i = some t → i ∈ s.due now → now + t.ms < 2 ^ 64
  | _ => True

/-- A call, on a timer that is there; a new timer lies where none is. -/
inductive Step : TimerManager κ → TimerEvent κ → TimerManager κ → Prop
  | addTimer {s : TimerManager κ} {addr ms now : ℕ} {cb : κ} {recurring : Bool}
    (haddr : ∀ j u, s.objects j = some u → u.addr ≠ addr)
    (hfits : s.Fits (.addTimer s.count addr ms cb recurring now)) :
    Step s (.addTimer s.count addr ms cb recurring now) (s.addTimer addr ms (some cb) recurring now).2
  | cancel {s s' : TimerManager κ} {i : ℕ} {done : Bool} (h : s.cancel i = some (done, s')) :
    Step s (.cancel i done) s'
  | refresh {s s' : TimerManager κ} {i now : ℕ} {done : Bool} (h : s.refresh i now = some (done, s'))
    (hfits : s.Fits (.refresh i now done)) : Step s (.refresh i now done) s'
  | reset {s s' : TimerManager κ} {i ms now : ℕ} {fromNow done atFront : Bool}
    (h : s.reset i ms fromNow now = some (done, atFront, s'))
    (hfits : s.Fits (.reset i ms fromNow now done)) : Step s (.reset i ms fromNow now done) s'
  | listExpiredCb {s s' : TimerManager κ} {now probe : ℕ} {cbs : List (ℕ × Option κ)}
    (hroll : s.timers ≠ [] → (s.detectClockRollover now).1 = false)
    (h : s.listExpiredCb now probe = some (cbs, s'))
    (hfits : s.Fits (.listExpiredCb now probe cbs)) : Step s (.listExpiredCb now probe cbs) s'
  | getNextTimer {s s' : TimerManager κ} {now ms : ℕ} (h : s.getNextTimer now = some (ms, s')) :
    Step s (.getNextTimer now) s'
  | release {s s' : TimerManager κ} {i : ℕ} (h : s.release i = some s') : Step s (.release i) s'

end TimerManager

/-! ## What the timers are for -/

/-- A timer that waits: since when, for how long, and for what. -/
structure Arming (κ : Type) where
  start : ℕ
  ms : ℕ
  recurring : Bool
  cb : κ

def Arming.deadline (a : Arming κ) : ℕ := a.start + a.ms

/-- The timers that wait. -/
abbrev Armed (κ : Type) := ℕ → Option (Arming κ)

/-- What becomes of a timer when the clock reads `now`. -/
def Arming.elapse (now : ℕ) (a : Arming κ) : Option (Arming κ) :=
  if now < a.deadline then some a
  else if a.recurring then some { a with start := now }
  else none

/-- The timers that wait after a call. -/
def Armed.after (A : Armed κ) : TimerEvent κ → Armed κ
  | .addTimer i _ ms cb recurring now => Function.update A i (some ⟨now, ms, recurring, cb⟩)
  | .cancel i _ => Function.update A i none
  | .refresh i now _ => Function.update A i ((A i).map fun a => { a with start := now })
  | .reset i ms fromNow now _ => Function.update A i
      ((A i).map fun a => { a with start := if fromNow then now else a.start, ms := ms })
  | .listExpiredCb now _ _ => fun i => (A i).bind (Arming.elapse now)
  | _ => A

/-- The timers that wait after some calls. -/
def armedBy (log : List (TimerEvent κ)) : Armed κ := log.foldl Armed.after (fun _ => none)

/-- What a call has to return. -/
def Armed.Returns (A : Armed κ) : TimerEvent κ → Prop
  | .cancel i done => done = (A i).isSome
  | .refresh i _ done => done = (A i).isSome
  | .listExpiredCb now _ cbs => (cbs.map Prod.fst).Nodup ∧
      ∀ i c, (i, c) ∈ cbs ↔ ∃ a, A i = some a ∧ a.deadline ≤ now ∧ c = some a.cb
  | _ => True

/-- An object is that of a timer as it waits, or of none. -/
def Agree : Option (Arming κ) → Option (Timer κ) → Prop
  | none, none => True
  | none, some t => t.cb = none
  | some _, none => False
  | some a, some t => t.cb = some a.cb ∧ t.ms = a.ms ∧ t.recurring = a.recurring ∧
      t.next = a.deadline ∧ a.deadline < 2 ^ 64

/-- The code is in a state for the timers that wait. -/
structure Refines (A : Armed κ) (s : TimerManager κ) : Prop where
  keeps : TimerManager.Keeps [] s
  agree : ∀ i, Agree (A i) (s.objects i)

/-- How many timers a call makes. -/
def TimerEvent.made : TimerEvent κ → ℕ
  | .addTimer .. => 1
  | _ => 0

/-- A call of the code does to the timers that wait what it is for. -/
structure Follows (A : Armed κ) (s : TimerManager κ) (e : TimerEvent κ) (s' : TimerManager κ) : Prop where
  refines : Refines (A.after e) s'
  returns : A.Returns e
  count : s'.count = s.count + e.made

section
variable {A : Armed κ} {s s' : TimerManager κ} {e : TimerEvent κ} {i : ℕ} {t : Timer κ} {a : Arming κ}
open TimerManager

theorem Agree.waits {o : Option (Arming κ)} (h : Agree o (some t)) (hcb : t.cb ≠ none) :
    ∃ a, o = some a ∧ t.cb = some a.cb ∧ t.ms = a.ms ∧ t.recurring = a.recurring ∧
      t.next = a.deadline ∧ a.deadline < 2 ^ 64 := by
  cases o with
  | none => exact absurd h hcb
  | some a => exact ⟨a, rfl, h⟩

theorem Agree.done {o : Option (Arming κ)} (h : Agree o (some t)) (hcb : t.cb = none) : o = none := by
  cases o with
  | none => rfl
  | some a =>
    have hsome := h.1
    rw [hcb] at hsome
    cases hsome

theorem Agree.object {o : Option (Timer κ)} (h : Agree (some a) o) : ∃ t, o = some t ∧ t.cb = some a.cb := by
  cases o with
  | none => exact h.elim
  | some t => exact ⟨t, rfl, h.1⟩

theorem Refines.of_becomes (h : Refines A s) (hb : Becomes s i t s') {o : Option (Arming κ)}
    (ho : Agree o (some t)) : Refines (Function.update A i o) s' where
  keeps := hb.keeps
  agree := by
    intro j
    rw [hb.objects]
    by_cases hji : j = i
    · subst hji
      rw [Function.update_self, Function.update_self]
      exact ho
    · rw [Function.update_of_ne hji, Function.update_of_ne hji]
      exact h.agree j

theorem uint64_eq {n : ℕ} (h : n < 2 ^ 64) : uint64 n = n := Nat.mod_eq_of_lt h

theorem subUInt64_deadline (h : a.deadline < 2 ^ 64) : subUInt64 a.deadline a.ms = a.start := by
  rw [Arming.deadline] at h ⊢
  rw [subUInt64, uint64_eq (by omega : a.ms < 2 ^ 64), uint64]
  have hsum : a.start + a.ms + (2 ^ 64 - a.ms) = a.start + 2 ^ 64 := by omega
  rw [hsum, Nat.add_mod_right, Nat.mod_eq_of_lt (by omega)]

theorem update_none (hA : A i = none) (f : Arming κ → Arming κ) :
    Function.update A i ((A i).map f) = A := by
  rw [hA, Option.map_none, ← hA, Function.update_eq_self]

theorem Refines.addTimer (h : Refines A s) {addr ms now : ℕ} {cb : κ} {recurring : Bool}
    (haddr : ∀ j u, s.objects j = some u → u.addr ≠ addr) (hfits : now + ms < 2 ^ 64) :
    Follows A s (.addTimer s.count addr ms cb recurring now)
      (s.addTimer addr ms (some cb) recurring now).2 := by
  obtain ⟨hkeeps, hobj, hcount⟩ := addTimer_spec h.keeps ms now recurring cb haddr
  refine ⟨⟨hkeeps, fun j => ?_⟩, trivial, hcount⟩
  rw [hobj, Armed.after]
  by_cases hj : j = s.count
  · subst hj
    rw [Function.update_self, Function.update_self]
    exact ⟨rfl, rfl, rfl, uint64_eq hfits, hfits⟩
  · rw [Function.update_of_ne hj, Function.update_of_ne hj]
    exact h.agree j

theorem Refines.cancel (h : Refines A s) {done : Bool} (hc : s.cancel i = some (done, s')) :
    Follows A s (.cancel i done) s' := by
  cases hi : s.objects i with
  | none =>
    rw [TimerManager.cancel, hi] at hc
    cases hc
  | some t =>
    have hagree := h.agree i
    rw [hi] at hagree
    by_cases hcb : t.cb = none
    · have hA := hagree.done hcb
      rw [cancel_none hi hcb] at hc
      cases hc
      refine ⟨?_, ?_, rfl⟩
      · rw [Armed.after, ← hA, Function.update_eq_self]
        exact h
      · rw [Armed.Returns, hA]
        rfl
    · obtain ⟨a, hA, -⟩ := hagree.waits hcb
      obtain ⟨s₁, hrun, hb⟩ := cancel_spec h.keeps hi hcb
      rw [hrun] at hc
      cases hc
      refine ⟨h.of_becomes hb rfl, ?_, hb.count⟩
      rw [Armed.Returns, hA]
      rfl

theorem Refines.refresh (h : Refines A s) {now : ℕ} {done : Bool}
    (hc : s.refresh i now = some (done, s')) (hfits : s.Fits (.refresh i now done)) :
    Follows A s (.refresh i now done) s' := by
  cases hi : s.objects i with
  | none =>
    rw [TimerManager.refresh, hi] at hc
    cases hc
  | some t =>
    have hagree := h.agree i
    rw [hi] at hagree
    by_cases hcb : t.cb = none
    · have hA := hagree.done hcb
      rw [refresh_none hi hcb] at hc
      cases hc
      refine ⟨?_, ?_, rfl⟩
      · rw [Armed.after, update_none hA]
        exact h
      · rw [Armed.Returns, hA]
        rfl
    · obtain ⟨a, hA, hcba, hms, hrec, -, -⟩ := hagree.waits hcb
      obtain ⟨s₁, hrun, hb⟩ := refresh_spec h.keeps hi hcb now
      rw [hrun] at hc
      cases hc
      have hfit := hfits t hi
      refine ⟨h.of_becomes hb ?_, ?_, hb.count⟩
      · rw [hA]
        refine ⟨hcba, hms, hrec, ?_, ?_⟩
        · rw [Arming.deadline, ← hms]
          exact uint64_eq hfit
        · rw [Arming.deadline, ← hms]
          exact hfit
      · rw [Armed.Returns, hA]
        rfl

theorem Refines.reset (h : Refines A s) {ms now : ℕ} {fromNow done atFront : Bool}
    (hc : s.reset i ms fromNow now = some (done, atFront, s'))
    (hfits : s.Fits (.reset i ms fromNow now done)) :
    Follows A s (.reset i ms fromNow now done) s' := by
  cases hi : s.objects i with
  | none =>
    rw [TimerManager.reset, hi] at hc
    cases hc
  | some t =>
    have hagree := h.agree i
    rw [hi] at hagree
    by_cases hchange : ms = t.ms ∧ fromNow = false
    · obtain ⟨rfl, rfl⟩ := hchange
      rw [reset_same hi] at hc
      cases hc
      by_cases hcb : t.cb = none
      · refine ⟨?_, trivial, rfl⟩
        rw [Armed.after, update_none (hagree.done hcb)]
        exact h
      · obtain ⟨a, hA, -, hms, -⟩ := hagree.waits hcb
        have hsame : (A i).map (fun a => { a with
            start := if false = true then now else a.start, ms := t.ms }) = A i := by
          rw [hA, Option.map_some, hms]
          rfl
        refine ⟨?_, trivial, rfl⟩
        rw [Armed.after, hsame, Function.update_eq_self]
        exact h
    · by_cases hcb : t.cb = none
      · rw [reset_none hi hcb hchange] at hc
        cases hc
        refine ⟨?_, trivial, rfl⟩
        rw [Armed.after, update_none (hagree.done hcb)]
        exact h
      · obtain ⟨a, hA, hcba, hms, hrec, hnext, hlt⟩ := hagree.waits hcb
        obtain ⟨front, s₁, hrun, hb⟩ := reset_spec h.keeps hi hcb hchange now
        rw [hrun] at hc
        cases hc
        have hfit := hfits t hi
        rw [hnext, hms, subUInt64_deadline hlt] at hfit
        refine ⟨h.of_becomes hb ?_, trivial, hb.count⟩
        rw [hA, hnext, hms, subUInt64_deadline hlt]
        exact ⟨hcba, rfl, hrec, uint64_eq hfit, hfit⟩

theorem Refines.mem_due (h : Refines A s) (now i : ℕ) :
    i ∈ s.due now ↔ ∃ a, A i = some a ∧ a.deadline ≤ now := by
  rw [due, List.mem_filter, h.keeps.member i, isDue]
  have hagree := h.agree i
  constructor
  · rintro ⟨⟨-, t, ht, hcb⟩, hdue⟩
    rw [ht] at hagree hdue
    obtain ⟨a, hA, -, -, -, hnext, -⟩ := hagree.waits hcb
    rw [Option.any_some, decide_eq_true_iff, hnext] at hdue
    exact ⟨a, hA, hdue⟩
  · rintro ⟨a, hA, hdue⟩
    rw [hA] at hagree
    obtain ⟨t, ht, hcb⟩ := hagree.object
    rw [ht] at hagree
    refine ⟨⟨List.not_mem_nil, t, ht, ?_⟩, ?_⟩
    · rw [hcb]
      exact Option.some_ne_none _
    · rw [ht, Option.any_some, decide_eq_true_iff, hagree.2.2.2.1]
      exact hdue

theorem Refines.callback_eq (h : Refines A s) (hA : A i = some a) : s.callback i = some a.cb := by
  have hagree := h.agree i
  rw [hA] at hagree
  obtain ⟨t, ht, hcb⟩ := hagree.object
  rw [callback, ht]
  exact hcb

theorem Agree.expire (h : Agree (some a) (some t)) {now : ℕ} (hle : a.deadline ≤ now)
    (hfit : now + t.ms < 2 ^ 64) : Agree (a.elapse now) (some (t.expire now)) := by
  obtain ⟨hcb, hms, hrec, -, -⟩ := h
  rw [Arming.elapse, if_neg (Nat.not_lt.mpr hle), Timer.expire]
  by_cases hrecurring : a.recurring = true
  · rw [if_pos hrecurring, if_pos (hrec.trans hrecurring)]
    rw [hms] at hfit ⊢
    exact ⟨hcb, rfl, hrec, uint64_eq hfit, hfit⟩
  · rw [if_neg hrecurring, if_neg (hrec ▸ hrecurring)]
    rfl

theorem Refines.listExpiredCb (h : Refines A s) {now probe : ℕ} {cbs : List (ℕ × Option κ)}
    (hroll : s.timers ≠ [] → (s.detectClockRollover now).1 = false)
    (hc : s.listExpiredCb now probe = some (cbs, s')) (hfits : s.Fits (.listExpiredCb now probe cbs)) :
    Follows A s (.listExpiredCb now probe cbs) s' := by
  obtain ⟨s₁, hrun, hexp⟩ := listExpiredCb_spec h.keeps hroll probe
  rw [hrun] at hc
  cases hc
  refine ⟨⟨hexp.keeps, fun i => ?_⟩, ⟨?_, fun i c => ?_⟩, hexp.count⟩
  · have hagree := h.agree i
    rw [hexp.objects, Armed.after]
    by_cases hdue : i ∈ s.due now
    · obtain ⟨a, hA, hle⟩ := (h.mem_due now i).mp hdue
      rw [hA] at hagree
      obtain ⟨t, ht, -⟩ := hagree.object
      have hfit := hfits i t ht hdue
      rw [ht] at hagree
      simp only [if_pos hdue, hA, ht, Option.map_some, Option.bind_some]
      exact hagree.expire hle hfit
    · dsimp only
      rw [if_neg hdue]
      have hkept : (A i).bind (Arming.elapse now) = A i := by
        cases hA : A i with
        | none => rfl
        | some a =>
          have hlt : now < a.deadline := by
            by_contra hge
            exact hdue ((h.mem_due now i).mpr ⟨a, hA, Nat.not_lt.mp hge⟩)
          rw [Option.bind_some, Arming.elapse, if_pos hlt]
      rw [hkept]
      exact hagree
  · exact h.keeps.due_nodup now
  · rw [List.mem_map]
    constructor
    · rintro ⟨j, hj, heq⟩
      cases heq
      obtain ⟨a, hA, hle⟩ := (h.mem_due now i).mp hj
      exact ⟨a, hA, hle, h.callback_eq hA⟩
    · rintro ⟨a, hA, hle, rfl⟩
      exact ⟨i, (h.mem_due now i).mpr ⟨a, hA, hle⟩, by rw [h.callback_eq hA]⟩

theorem Refines.release (h : Refines A s) (hnot : i ∉ s.timers) :
    Refines A { s with objects := Function.update s.objects i none } := by
  refine ⟨h.keeps.release hnot, fun j => ?_⟩
  by_cases hji : j = i
  · subst hji
    have hagree := h.agree j
    dsimp only
    rw [Function.update_self]
    cases hA : A j with
    | none => exact trivial
    | some a =>
      rw [hA] at hagree
      obtain ⟨t, ht, hcb⟩ := hagree.object
      refine absurd ((h.keeps.member_nil ht).mpr ?_) hnot
      rw [hcb]
      exact Option.some_ne_none _
  · dsimp only
    rw [Function.update_of_ne hji]
    exact h.agree j

theorem Refines.getNextTimer (h : Refines A s) {now ms : ℕ}
    (hc : s.getNextTimer now = some (ms, s')) : Follows A s (.getNextTimer now) s' := by
  have hsame : Refines A { s with tickled := false } :=
    ⟨⟨h.keeps.sorted, h.keeps.member, h.keeps.distinct, h.keeps.fresh⟩, h.agree⟩
  rw [TimerManager.getNextTimer] at hc
  split at hc
  · cases hc
    exact ⟨hsame, trivial, rfl⟩
  · obtain ⟨t, -, hc⟩ := Option.bind_eq_some_iff.mp hc
    cases hc
    exact ⟨hsame, trivial, rfl⟩

theorem Refines.step (h : Refines A s) (hstep : TimerManager.Step s e s') : Follows A s e s' := by
  cases hstep with
  | addTimer haddr hfits => exact h.addTimer haddr hfits
  | cancel hc => exact h.cancel hc
  | refresh hc hfits => exact h.refresh hc hfits
  | reset hc hfits => exact h.reset hc hfits
  | listExpiredCb hroll hc hfits => exact h.listExpiredCb hroll hc hfits
  | getNextTimer hc => exact h.getNextTimer hc
  | release hc =>
    unfold TimerManager.release at hc
    split at hc
    · cases hc
    · rename_i hnot
      cases hc
      exact ⟨h.release hnot, trivial, rfl⟩

end
end Flz
