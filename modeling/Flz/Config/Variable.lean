import Flz.Lib.Runs
import Mathlib.Data.List.Nodup
import Mathlib.Logic.Function.Basic

/-! # Variables of the configuration

`ConfigVar::setValue` of `include/config.h`, called by several threads: the comparison and the
callbacks stand under the read lock, the assignment later under the write lock. A callback is one
step, and so is what happens under the write lock.
-/
namespace Flz
open Lib
variable {T : Type}

/-- A call of `setValue(v)`. -/
inductive SetCall (T : Type)
  /-- Under the read lock, with the callbacks that are left. -/
  | notifying (v : T) (left : List ℕ)
  /-- Before the write lock. -/
  | released (v : T)
  | ended
  deriving DecidableEq, Repr

/-- A call that holds the read lock. -/
def SetCall.reads : SetCall T → Bool
  | .notifying _ _ => true
  | _ => false

/-- `cbs` are the keys of `m_cbs`; `heard` are the values that a callback has been called with. -/
structure ConfigVar (T : Type) where
  val : T
  cbs : List ℕ
  cbs_nodup : cbs.Nodup
  calls : List (SetCall T)
  heard : ℕ → List (T × T)

inductive SetAction (T : Type)
  | setValue (v : T)
  | callback (i : ℕ)
  | release (i : ℕ)
  | assign (i : ℕ)

namespace ConfigVar

/-- A variable with its listeners. -/
def new (default_value : T) (cbs : List ℕ) (h : cbs.Nodup) : ConfigVar T where
  val := default_value
  cbs := cbs
  cbs_nodup := h
  calls := []
  heard _ := []

def go (g : ConfigVar T) (i : ℕ) (c : SetCall T) : ConfigVar T := { g with calls := g.calls.set i c }

/-- `setValue(v)` up to its comparison. -/
def setValue [BEq T] (g : ConfigVar T) (v : T) : ConfigVar T :=
  { g with calls := g.calls ++ [if v == g.val then .ended else .notifying v g.cbs] }

/-- `i.second(m_val, v)`. -/
def callback (g : ConfigVar T) (i : ℕ) (v : T) (k : ℕ) (left : List ℕ) : ConfigVar T :=
  { g with heard := Function.update g.heard k (g.heard k ++ [(g.val, v)]) }.go i (.notifying v left)

/-- `m_val = v`. -/
def assign (g : ConfigVar T) (i : ℕ) (v : T) : ConfigVar T := { g with val := v }.go i .ended

inductive Step [BEq T] : ConfigVar T → SetAction T → ConfigVar T → Prop
  | setValue {g : ConfigVar T} (v : T) : Step g (.setValue v) (g.setValue v)
  | callback {g : ConfigVar T} {i k : ℕ} {v : T} {left : List ℕ}
    (h : g.calls[i]? = some (.notifying v (k :: left))) : Step g (.callback i) (g.callback i v k left)
  | release {g : ConfigVar T} {i : ℕ} {v : T} (h : g.calls[i]? = some (.notifying v [])) :
    Step g (.release i) (g.go i (.released v))
  | assign {g : ConfigVar T} {i : ℕ} {v : T} (h : g.calls[i]? = some (.released v))
    (hlock : ∀ c ∈ g.calls, c.reads = false) : Step g (.assign i) (g.assign i v)

end ConfigVar

/-- Changes that follow each other from one value to another. -/
def Chained (a : T) : List (T × T) → T → Prop
  | [], b => a = b
  | e :: es, b => e.1 = a ∧ Chained e.2 es b

theorem Chained.append {a b c : T} {es : List (T × T)} (h : Chained a es b) :
    Chained a (es ++ [(b, c)]) c := by
  induction es generalizing a with
  | nil => exact ⟨h.symm, rfl⟩
  | cons e es ih => exact ⟨h.1, ih h.2⟩

namespace ConfigVar
variable {g g' : ConfigVar T} {a : SetAction T} {as : List (SetAction T)} {init v : T} {i k : ℕ} {left : List ℕ}

/-- No call is in progress. -/
def Idle (g : ConfigVar T) : Prop := ∀ c ∈ g.calls, c = .ended

/-- What every listener has heard are changes from the initial value that follow each other, up to
the stored value when no call is in progress. -/
structure Matched (init : T) (g : ConfigVar T) : Prop where
  chained : ∀ k ∈ g.cbs, ∃ b, Chained init (g.heard k) b
  stored : g.Idle → ∀ k ∈ g.cbs, Chained init (g.heard k) g.val

/-- A call that finds another value does so when no call is in progress. -/
def Spared [BEq T] (g : ConfigVar T) : SetAction T → Prop
  | .setValue v => (v == g.val) = false → g.Idle
  | _ => True

/-- The invariant of the runs with one change at a time. -/
structure Kept (init : T) (g : ConfigVar T) : Prop where
  alone : ∀ (i j : ℕ) (c d : SetCall T), g.calls[i]? = some c → g.calls[j]? = some d → c ≠ .ended →
    d ≠ .ended → i = j
  idle : g.Idle → ∀ k ∈ g.cbs, Chained init (g.heard k) g.val
  notifying : ∀ (i : ℕ) (v : T) (left : List ℕ), g.calls[i]? = some (.notifying v left) →
    left <:+ g.cbs ∧ ∀ k ∈ g.cbs, Chained init (g.heard k) (if k ∈ left then g.val else v)
  released : ∀ (i : ℕ) (v : T), g.calls[i]? = some (.released v) → ∀ k ∈ g.cbs, Chained init (g.heard k) v

theorem kept_new {cbs : List ℕ} (h : cbs.Nodup) : Kept init (new init cbs h) :=
  ⟨nofun, fun _ _ _ => rfl, nofun, nofun⟩

theorem Kept.matched (h : g.Kept init) : g.Matched init where
  chained k hk := by
    by_cases hidle : g.Idle
    · exact ⟨_, h.idle hidle k hk⟩
    · obtain ⟨c, hc, hne⟩ := not_forall₂.mp hidle
      obtain ⟨i, hi⟩ := List.mem_iff_getElem?.mp hc
      cases c with
      | notifying v left => exact ⟨_, (h.notifying i v left hi).2 k hk⟩
      | released v => exact ⟨v, h.released i v hi k hk⟩
      | ended => exact absurd rfl hne
  stored := h.idle

/-- Beside a call in progress there is no other. -/
theorem Kept.others (h : g.Kept init) {c d : SetCall T} {j : ℕ} (hc : g.calls[i]? = some c)
    (hne : c ≠ .ended) (hd : g.calls[j]? = some d) (hij : i ≠ j) : d = .ended := by
  by_contra hd'
  exact hij (h.alone i j c d hc hd hne hd')

/-- A call in progress goes on, with what that makes of the value and of the listeners. -/
theorem Kept.move (h : g.Kept init) {c : SetCall T} (hc : g.calls[i]? = some c) (hne : c ≠ .ended)
    (c' : SetCall T) {val : T} {heard : ℕ → List (T × T)}
    (hidle : c' = .ended → ∀ k ∈ g.cbs, Chained init (heard k) val)
    (hnotifying : ∀ v left, c' = .notifying v left →
      left <:+ g.cbs ∧ ∀ k ∈ g.cbs, Chained init (heard k) (if k ∈ left then val else v))
    (hreleased : ∀ v, c' = .released v → ∀ k ∈ g.cbs, Chained init (heard k) v) :
    Kept init { g with val := val, heard := heard, calls := g.calls.set i c' } := by
  have hlt := (List.getElem?_eq_some_iff.mp hc).1
  have hself : ∀ j d, (g.calls.set i c')[j]? = some d → d ≠ .ended → i = j ∧ c' = d := by
    intro j d hj hd
    rw [List.getElem?_set] at hj
    split at hj
    · rename_i hij
      exact ⟨hij, Option.some.inj hj⟩
    · rename_i hij
      exact absurd (h.others hc hne hj hij) hd
  refine ⟨fun j k d e hj hk hd he => ?_, fun hall => ?_, fun j v left hj => ?_, fun j v hj => ?_⟩
  · exact (hself j d hj hd).1.symm.trans (hself k e hk he).1
  · exact hidle (hall c' (List.mem_set hlt c'))
  · exact hnotifying v left (hself j _ hj nofun).2
  · exact hreleased v (hself j _ hj nofun).2

/-- A call that finds the same value ends at once. -/
theorem Kept.append_ended (h : g.Kept init) : Kept init { g with calls := g.calls ++ [.ended] } := by
  have hold : ∀ (j : ℕ) (d : SetCall T), (g.calls ++ [.ended])[j]? = some d → d ≠ .ended →
      g.calls[j]? = some d := by
    intro j d hj hd
    rw [List.getElem?_append] at hj
    split at hj
    · exact hj
    · exact absurd (List.mem_singleton.mp (List.mem_of_getElem? hj)) hd
  refine ⟨fun j k d e hj hk hd he => ?_, fun hall => ?_, fun j v left hj => ?_, fun j v hj => ?_⟩
  · exact h.alone j k d e (hold j d hj hd) (hold k e hk he) hd he
  · exact h.idle fun c hc => hall c (List.mem_append_left _ hc)
  · exact h.notifying j v left (hold j _ hj nofun)
  · exact h.released j v (hold j _ hj nofun)

/-- A call that finds another value is to call every listener. -/
theorem Kept.append_notifying (h : g.Kept init) (hidle : g.Idle) (v : T) :
    Kept init { g with calls := g.calls ++ [.notifying v g.cbs] } := by
  have hnew : ∀ (j : ℕ) (d : SetCall T), (g.calls ++ [.notifying v g.cbs])[j]? = some d → d ≠ .ended →
      j = g.calls.length ∧ d = .notifying v g.cbs := by
    intro j d hj hd
    rw [List.getElem?_append] at hj
    split at hj
    · exact absurd (hidle d (List.mem_of_getElem? hj)) hd
    · rename_i hle
      rw [List.getElem?_singleton] at hj
      split at hj
      · rename_i hj0
        exact ⟨by omega, (Option.some.inj hj).symm⟩
      · cases hj
  refine ⟨fun j k d e hj hk hd he => ?_, fun hall => ?_, fun j w left hj => ?_, fun j w hj => ?_⟩
  · exact (hnew j d hj hd).1.trans (hnew k e hk he).1.symm
  · exact absurd (hall _ (List.mem_append_right _ (List.mem_singleton_self _))) nofun
  · obtain ⟨-, ⟨⟩⟩ := hnew j _ hj nofun
    refine ⟨List.suffix_refl g.cbs, fun k hk => ?_⟩
    rw [if_pos hk]
    exact h.idle hidle k hk
  · exact absurd (hnew j _ hj nofun).2 nofun

/-- A call begins, the only one if it finds another value. -/
theorem Kept.setValue [BEq T] (h : g.Kept init) (hspared : g.Spared (.setValue v)) :
    (g.setValue v).Kept init := by
  unfold ConfigVar.setValue
  split
  · exact h.append_ended
  · rename_i hne
    exact h.append_notifying (hspared (Bool.eq_false_iff.mpr hne)) v

theorem Kept.callback (h : g.Kept init) (hc : g.calls[i]? = some (.notifying v (k :: left))) :
    (g.callback i v k left).Kept init := by
  obtain ⟨hsuffix, hheard⟩ := h.notifying i v (k :: left) hc
  have hnodup := g.cbs_nodup.sublist hsuffix.sublist
  have hk : k ∉ left := (List.nodup_cons.mp hnodup).1
  refine h.move hc nofun (.notifying v left) nofun ?_ nofun
  rintro _ _ ⟨⟩
  refine ⟨(List.suffix_cons k left).trans hsuffix, fun n hn => ?_⟩
  have hbefore := hheard n hn
  simp only [Function.update_apply]
  by_cases hnk : n = k
  · subst hnk
    rw [if_pos List.mem_cons_self] at hbefore
    rw [if_pos rfl, if_neg hk]
    exact hbefore.append
  · rw [if_neg hnk]
    simpa [List.mem_cons, hnk] using hbefore

theorem Kept.release (h : g.Kept init) (hc : g.calls[i]? = some (.notifying v [])) :
    (g.go i (.released v)).Kept init := by
  refine h.move hc nofun (.released v) nofun nofun ?_
  rintro _ ⟨⟩ n hn
  simpa using (h.notifying i v [] hc).2 n hn

theorem Kept.assign (h : g.Kept init) (hc : g.calls[i]? = some (.released v)) :
    (g.assign i v).Kept init :=
  h.move hc nofun .ended (fun _ => h.released i v hc) nofun nofun

theorem Kept.step [BEq T] (h : g.Kept init) (hs : Step g a g') (ha : g.Spared a) : g'.Kept init := by
  cases hs with
  | setValue v => exact h.setValue ha
  | callback hc => exact h.callback hc
  | release hc => exact h.release hc
  | assign hc hlock => exact h.assign hc

/-- The changes that a listener hears follow each other, and lead to the stored value when no call
is in progress, in the runs in which a call finds another value only when no other is in
progress. -/
theorem notifications_matched [BEq T] {cbs : List ℕ} {h : cbs.Nodup}
    (hrun : Run (fun g a g' => Step g a g' ∧ g.Spared a) (new init cbs h) as g) : g.Matched init :=
  (hrun.keeps (P := Kept init) (fun _ _ _ hkept hs => hkept.step hs.1 hs.2) (kept_new h)).matched

/-- One call with one listener, from its comparison to its assignment. -/
theorem one_change_matched : ∃ g : ConfigVar ℕ,
    (g.val = 1 ∧ g.heard 7 = [(0, 1)]) ∧ g.Matched 0 := by
  have hrun : Run (fun g a g' => Step g a g' ∧ g.Spared a) (new 0 [7] (List.nodup_singleton 7)) [] _ :=
    .nil
  have hset := hrun.snoc ⟨.setValue 1, fun _ => nofun⟩
  have hcall := hset.snoc ⟨.callback (i := 0) (k := 7) (v := 1) rfl, trivial⟩
  have hrelease := hcall.snoc ⟨.release (i := 0) (v := 1) rfl, trivial⟩
  have hassign := hrelease.snoc ⟨.assign (i := 0) (v := 1) rfl (by decide), trivial⟩
  exact ⟨_, ⟨rfl, rfl⟩, notifications_matched hassign⟩

/-- Two calls find the initial value before either assigns, and both changes start from it. -/
theorem not_always_matched : ¬ ∀ (as : List (SetAction ℕ)) (g : ConfigVar ℕ),
    Run Step (new 0 [7] (List.nodup_singleton 7)) as g → g.Matched 0 := by
  intro hall
  have hrun : Run Step (new 0 [7] (List.nodup_singleton 7)) [] _ := .nil
  have hfirst := hrun.snoc (.setValue 1)
  have hsecond := hfirst.snoc (.setValue 2)
  have hheard := hsecond.snoc (.callback (i := 0) (k := 7) (v := 1) rfl)
  have hboth := hheard.snoc (.callback (i := 1) (k := 7) (v := 2) rfl)
  obtain ⟨b, hchained⟩ := (hall _ _ hboth).chained 7 List.mem_cons_self
  exact absurd hchained.2.1 (by decide)

end ConfigVar
end Flz
