import Mathlib.Data.List.Forall2
import Mathlib.Logic.Relation
import Mathlib.Tactic.Cases

/-! # Results of steps that may throw

What it means that a sequence of steps, or one step for each element of a list, returns.
-/
namespace Flz.Lib.Results
variable {ε α β γ : Type}

theorem bind_eq_ok {x : Except ε α} {f : α → Except ε β} {b : β} : x >>= f = .ok b ↔ ∃ a, x = .ok a ∧ f a = .ok b := by
  cases x with
  | error e => exact iff_of_false (fun h => by cases h) (by rintro ⟨a, ha, -⟩; cases ha)
  | ok a =>
    constructor
    · intro h
      exact ⟨a, rfl, h⟩
    · rintro ⟨a', ha', h⟩
      cases ha'
      exact h

/-- A step for each element returns when all of them do. -/
theorem mapM_eq_ok {f : α → Except ε β} {l : List α} {bs : List β} :
    l.mapM f = .ok bs ↔ List.Forall₂ (fun a b => f a = .ok b) l bs := by
  induction l generalizing bs with
  | nil =>
    rw [List.mapM_nil, List.forall₂_nil_left_iff]
    exact ⟨fun h => (Except.ok.inj h).symm, fun h => congrArg Except.ok h.symm⟩
  | cons a l ih =>
    rw [List.mapM_cons, bind_eq_ok, List.forall₂_cons_left_iff]
    constructor
    · rintro ⟨b, hb, hrest⟩
      obtain ⟨bs', hbs', hcons⟩ := bind_eq_ok.mp hrest
      exact ⟨b, bs', hb, ih.mp hbs', (Except.ok.inj hcons).symm⟩
    · rintro ⟨b, bs', hb, hbs', rfl⟩
      exact ⟨b, hb, bind_eq_ok.mpr ⟨bs', ih.mpr hbs', rfl⟩⟩

/-- Two passes over a list are one. -/
theorem forall₂_comp {R : α → β → Prop} {S : β → γ → Prop} {l : List α} {n : List γ} :
    (∃ m, List.Forall₂ R l m ∧ List.Forall₂ S m n) ↔ List.Forall₂ (Relation.Comp R S) l n := by
  constructor
  · rintro ⟨m, hl, hm⟩
    induction hl generalizing n with
    | nil => exact List.forall₂_nil_left_iff.mp hm ▸ .nil
    | cons hab _ ih =>
      obtain ⟨c, n, hbc, hrest, rfl⟩ := List.forall₂_cons_left_iff.mp hm
      exact .cons ⟨_, hab, hbc⟩ (ih hrest)
  · intro h
    induction h with
    | nil => exact ⟨[], .nil, .nil⟩
    | cons hac _ ih =>
      obtain ⟨b, hab, hbc⟩ := hac
      obtain ⟨m, hl, hm⟩ := ih
      exact ⟨b :: m, .cons hab hl, .cons hbc hm⟩

end Flz.Lib.Results
