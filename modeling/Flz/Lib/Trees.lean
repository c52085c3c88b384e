import Mathlib.Data.List.Basic
import Mathlib.Data.List.Nodup
import Mathlib.Tactic.Cases

/-! # Trees with named branches

What a tree holds is told by the lists of names that lead to its subtrees.
-/
namespace Flz.Lib

/-- A leaf with a label, or branches with their names, in an order. -/
inductive Tree (N L : Type*)
  | leaf (label : L)
  | dir (entries : List (N × Tree N L))

namespace Tree
variable {N L : Type*} {t u : Tree N L} {n : N} {ns : List N} {label : L} {entries : List (N × Tree N L)}

/-- What holds of the leaves, and of a tree if of all its branches, holds of every tree. -/
theorem induction {P : Tree N L → Prop} (leaf : ∀ label, P (leaf label))
    (dir : ∀ entries, (∀ e ∈ entries, P e.2) → P (dir entries)) (t : Tree N L) : P t := by
  have hnil : ∀ e ∈ ([] : List (N × Tree N L)), P e.2 := fun _ he => absurd he List.not_mem_nil
  have hcons : ∀ (e : N × Tree N L) entries, P e.2 → (∀ e ∈ entries, P e.2) → ∀ e' ∈ e :: entries, P e'.2 :=
    fun e entries he hentries => List.forall_mem_cons.mpr ⟨he, hentries⟩
  exact @Tree.rec N L P (fun entries => ∀ e ∈ entries, P e.2) (fun e => P e.2) leaf dir hnil hcons
    (fun _ _ h => h) t

/-- The names lead to the subtree. -/
inductive Reaches : Tree N L → List N → Tree N L → Prop
  | here (t : Tree N L) : Reaches t [] t
  | entry {entries : List (N × Tree N L)} {n : N} {t u : Tree N L} {ns : List N} (hmem : (n, t) ∈ entries)
    (h : Reaches t ns u) : Reaches (dir entries) (n :: ns) u

theorem reaches_nil : Reaches t [] u ↔ t = u := by
  constructor
  · intro h
    cases h
    rfl
  · rintro rfl
    exact .here t

theorem reaches_dir_cons : Reaches (dir entries) (n :: ns) u ↔ ∃ t, (n, t) ∈ entries ∧ Reaches t ns u := by
  constructor
  · intro h
    cases h with
    | entry hmem h => exact ⟨_, hmem, h⟩
  · rintro ⟨t, hmem, h⟩
    exact .entry hmem h

theorem not_reaches_leaf_cons : ¬ Reaches (leaf label) (n :: ns) u := by
  intro h
  cases h

theorem reaches_leaf : Reaches (leaf label) ns u ↔ ns = [] ∧ u = leaf label := by
  cases ns with
  | nil => exact reaches_nil.trans ⟨fun h => ⟨rfl, h.symm⟩, fun h => h.2.symm⟩
  | cons n ns => exact iff_of_false not_reaches_leaf_cons fun h => absurd h.1 (List.cons_ne_nil n ns)

/-- No two branches at one place have the same name. -/
def Distinct (t : Tree N L) : Prop := ∀ ns entries, Reaches t ns (dir entries) → (entries.map Prod.fst).Nodup

theorem Distinct.entry (h : Distinct (dir entries)) (hmem : (n, t) ∈ entries) : Distinct t :=
  fun ns below hreach => h (n :: ns) below (.entry hmem hreach)

theorem Distinct.nodup (h : Distinct (dir entries)) : (entries.map Prod.fst).Nodup := h [] entries (.here _)

/-- A name that occurs anywhere in the tree. -/
def Named (t : Tree N L) (n : N) : Prop := ∃ ns u, Reaches t (ns ++ [n]) u

theorem Named.entry {m : N} (hmem : (n, t) ∈ entries) (h : Named t m) : Named (dir entries) m := by
  obtain ⟨ns, u, hreach⟩ := h
  exact ⟨n :: ns, u, .entry hmem hreach⟩

theorem named_entry (hmem : (n, t) ∈ entries) : Named (dir entries) n := ⟨[], t, .entry hmem (.here t)⟩

end Tree
end Flz.Lib
