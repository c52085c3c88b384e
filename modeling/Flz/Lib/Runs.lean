import Mathlib.Data.List.Induction
import Mathlib.Tactic.Cases

/-! # Runs

The finite runs of a transition system whose steps bear labels, with what holds in all of them.
-/
namespace Flz.Lib
variable {σ α : Type*}

/-- From `s` the steps `as` lead to the state at the end. -/
inductive Run (step : σ → α → σ → Prop) (s : σ) : List α → σ → Prop
  | nil : Run step s [] s
  | snoc {as : List α} {t u : σ} {a : α} (h : Run step s as t) (ha : step t a u) :
    Run step s (as ++ [a]) u

namespace Run
variable {step : σ → α → σ → Prop} {s t u : σ} {a : α} {as bs : List α}

theorem single (ha : step s a t) : Run step s [a] t := snoc nil ha

theorem append (h : Run step s as t) (h' : Run step t bs u) : Run step s (as ++ bs) u := by
  induction h' with
  | nil =>
    rw [List.append_nil]
    exact h
  | snoc _ ha ih =>
    rw [← List.append_assoc]
    exact ih.snoc ha

theorem cons (ha : step s a t) (h : Run step t as u) : Run step s (a :: as) u := (single ha).append h

/-- What every step keeps holds at the end. -/
theorem keeps {P : σ → Prop} (hstep : ∀ t a u, P t → step t a u → P u) (h : Run step s as t)
    (hs : P s) : P t := by
  induction h with
  | nil => exact hs
  | snoc _ ha ih => exact hstep _ _ _ ih ha

/-- The same for what is said of a state and the steps that led to it. -/
theorem keeps_history {P : List α → σ → Prop}
    (hstep : ∀ as t a u, P as t → step t a u → P (as ++ [a]) u) (h : Run step s as t)
    (hs : P [] s) : P as t := by
  induction h with
  | nil => exact hs
  | snoc _ ha ih => exact hstep _ _ _ _ ih ha

/-- A run is one of every system that has its steps. -/
theorem mono {step' : σ → α → σ → Prop} (hstep : ∀ t a u, step t a u → step' t a u) (h : Run step s as t) :
    Run step' s as t :=
  h.keeps_history (P := Run step' s) (fun _ _ _ _ ht ha => ht.snoc (hstep _ _ _ ha)) nil

/-- Two systems have the same runs from where their steps are the same as long as a run goes on. -/
theorem congr {step' : σ → α → σ → Prop} {P : σ → Prop}
    (hiff : ∀ t a u, P t → (step t a u ↔ step' t a u)) (hkeep : ∀ t a u, P t → step t a u → P u)
    (hs : P s) : Run step s as t ↔ Run step' s as t := by
  constructor
  · intro h
    induction h with
    | nil => exact nil
    | snoc h ha ih => exact ih.snoc ((hiff _ _ _ (h.keeps hkeep hs)).mp ha)
  · intro h
    induction h with
    | nil => exact nil
    | snoc _ ha ih => exact ih.snoc ((hiff _ _ _ (ih.keeps hkeep hs)).mpr ha)

/-- A run passes through a state wherever it is divided. -/
theorem split (h : Run step s (as ++ bs) u) : ∃ t, Run step s as t ∧ Run step t bs u := by
  generalize hcs : as ++ bs = cs at h
  induction h generalizing bs with
  | nil =>
    obtain ⟨rfl, rfl⟩ := List.append_eq_nil_iff.mp hcs
    exact ⟨s, nil, nil⟩
  | @snoc cs t u a h ha ih =>
    cases bs using List.reverseRecOn with
    | nil =>
      rw [List.append_nil] at hcs
      subst hcs
      exact ⟨u, h.snoc ha, nil⟩
    | append_singleton bs b _ =>
      rw [← List.append_assoc] at hcs
      obtain ⟨hinit, hlast⟩ := List.append_inj' hcs rfl
      cases hlast
      obtain ⟨v, hv, hvt⟩ := ih hinit
      exact ⟨v, hv, hvt.snoc ha⟩

theorem snoc_iff : Run step s (as ++ [a]) u ↔ ∃ t, Run step s as t ∧ step t a u := by
  constructor
  · intro h
    generalize hcs : as ++ [a] = cs at h
    cases h with
    | nil => exact absurd hcs (List.append_ne_nil_of_right_ne_nil as (List.cons_ne_nil a []))
    | @snoc cs t _ b h hb =>
      obtain ⟨rfl, heq⟩ := List.append_inj' hcs rfl
      cases heq
      exact ⟨t, h, hb⟩
  · rintro ⟨t, h, ha⟩
    exact h.snoc ha

theorem split_cons (h : Run step s (as ++ a :: bs) u) :
    ∃ t v, Run step s as t ∧ step t a v ∧ Run step v bs u := by
  rw [← List.singleton_append, ← List.append_assoc] at h
  obtain ⟨v, hv, hu⟩ := h.split
  obtain ⟨t, ht, ha⟩ := snoc_iff.mp hv
  exact ⟨t, v, ht, ha, hu⟩

/-- A measure that every step makes smaller bounds what is left to do. -/
theorem length_le {P : σ → Prop} {m : σ → ℕ} (hstep : ∀ t a u, P t → step t a u → P u ∧ m u < m t)
    (h : Run step s as t) (hs : P s) : P t ∧ as.length + m t ≤ m s := by
  induction h with
  | nil => exact ⟨hs, by simp⟩
  | @snoc as t u a _ ha ih =>
    obtain ⟨hP, hlt⟩ := hstep _ _ _ ih.1 ha
    refine ⟨hP, ?_⟩
    have hle := ih.2
    rw [List.length_append, List.length_singleton]
    omega

/-- With such a measure a run can go on until there is no step. -/
theorem exists_stuck {P : σ → Prop} {m : σ → ℕ}
    (hstep : ∀ t a u, P t → step t a u → P u ∧ m u < m t) (s : σ) (hs : P s) :
    ∃ as t, Run step s as t ∧ P t ∧ ∀ a u, ¬ step t a u := by
  induction hn : m s using Nat.strongRecOn generalizing s with
  | _ n ih =>
    by_cases hend : ∃ a u, step s a u
    · obtain ⟨a, u, ha⟩ := hend
      obtain ⟨hP, hlt⟩ := hstep s a u hs ha
      obtain ⟨as, t, hrun, ht, hstuck⟩ := ih (m u) (hn ▸ hlt) u hP rfl
      exact ⟨a :: as, t, cons ha hrun, ht, hstuck⟩
    · exact ⟨[], s, nil, hs, fun a u ha => hend ⟨a, u, ha⟩⟩

end Run
/-- A program that acts on a state again. -/
theorem foldlM_append_singleton.{u, v, w} {σ : Type u} {α : Type w} {m : Type u → Type v} [Monad m]
    [LawfulMonad m] (f : σ → α → m σ) (s : σ) (as : List α) (a : α) : (as ++ [a]).foldlM f s = as.foldlM f s >>= fun t => f t a := by
  simp [List.foldlM_append]

/-! ## What is said of every action by those before it -/

def AtEach (P : List α → α → Prop) (as : List α) : Prop := ∀ before a, before ++ [a] <+: as → P before a

section
variable {P Q : List α → α → Prop} {a : α} {as : List α}

theorem atEach_nil (P : List α → α → Prop) : AtEach P [] := by
  intro before a ha
  simp at ha

theorem atEach_append : AtEach P (as ++ [a]) ↔ AtEach P as ∧ P as a := by
  constructor
  · intro h
    exact ⟨fun before b hb => h before b (hb.trans (List.prefix_append as [a])), h as a (List.prefix_refl _)⟩
  · rintro ⟨h, ha⟩ before b hb
    rcases List.prefix_concat_iff.mp hb with heq | hb
    · obtain ⟨rfl, hlast⟩ := List.append_inj' heq rfl
      obtain rfl := List.singleton_inj.mp hlast
      exact ha
    · exact h before b hb

theorem atEach_iff_getElem : AtEach P as ↔ ∀ i : Fin as.length, P (as.take i) as[i] := by
  constructor
  · intro h i
    apply h
    rw [Fin.getElem_fin, List.take_append_getElem i.isLt]
    exact List.take_prefix (i + 1) as
  · rintro h before a ⟨after, rfl⟩
    have hi := h ⟨before.length, by simp⟩
    simpa using hi

instance [∀ before a, Decidable (P before a)] (as : List α) : Decidable (AtEach P as) :=
  decidable_of_iff _ atEach_iff_getElem.symm

/-- The same is said where the two agree as long as what they keep holds. -/
theorem atEach_congr {I : List α → Prop} (hnil : I []) (hkeep : ∀ as a, I as → Q as a → I (as ++ [a]))
    (hiff : ∀ as a, I as → (P as a ↔ Q as a)) (as : List α) : AtEach P as ↔ AtEach Q as := by
  have hboth : (AtEach P as ↔ AtEach Q as) ∧ (AtEach Q as → I as) := by
    induction as using List.reverseRecOn with
    | nil => exact ⟨iff_of_true (atEach_nil P) (atEach_nil Q), fun _ => hnil⟩
    | append_singleton as a ih =>
      rw [atEach_append, atEach_append, ih.1]
      refine ⟨and_congr_right fun h => hiff as a (ih.2 h), fun h => ?_⟩
      exact hkeep as a (ih.2 h.1) h.2
  exact hboth.1

end

end Flz.Lib
