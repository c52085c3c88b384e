import Mathlib.Data.List.Basic
import Mathlib.Data.List.Nodup
import Mathlib.Data.List.Pairwise
import Mathlib.Order.Defs.LinearOrder
import Mathlib.Order.Lattice

/-! # Ordered sets

A set as the list of its elements in the order of their keys. The operations compare elements
only; while an element is in the set its key must stay what it is.
-/
namespace Flz.Lib.OrderedSet
variable {α κ : Type} [DecidableEq α] [LinearOrder κ] (less : α → α → Bool) (key : α → κ)

/-- `set.insert(x)`. -/
def insert (x : α) : List α → List α
  | [] => [x]
  | y :: l => if less y x then y :: insert x l else if less x y then x :: y :: l else y :: l

/-- The elements from `set.lower_bound(x)` on, if that is what `set.find(x)` returns. -/
def find (x : α) (l : List α) : Option (List α) :=
  match l.dropWhile (less · x) with
  | [] => none
  | y :: rest => if less x y then none else some (y :: rest)

/-- `set.erase(set.find(x))`; the end of the set cannot be erased. -/
def erase (x : α) (l : List α) : Option (List α) :=
  (find less x l).map (fun rest => l.takeWhile (less · x) ++ rest.tail)

def Sorted (l : List α) : Prop := l.Pairwise (fun a b => key a < key b)

variable {less key} {x y : α} {l : List α}

section
omit [DecidableEq α]

theorem Sorted.nodup (h : Sorted key l) : l.Nodup :=
  List.Pairwise.imp (fun hab heq => absurd (heq ▸ hab) (lt_irrefl _)) h

theorem Sorted.congr {key' : α → κ} (h : Sorted key l) (hkey : ∀ a ∈ l, key' a = key a) :
    Sorted key' l := by
  refine List.Pairwise.imp_of_mem (fun {a b} ha hb hab => ?_) h
  rw [hkey a ha, hkey b hb]
  exact hab

theorem Sorted.filter (h : Sorted key l) (p : α → Bool) : Sorted key (l.filter p) :=
  List.Pairwise.filter p h

theorem mem_insert_of_distinct (hless : ∀ a b, less a b = decide (key a < key b))
    (hx : ∀ a ∈ l, key a ≠ key x) : y ∈ insert less x l ↔ y = x ∨ y ∈ l := by
  induction l with
  | nil => simp [insert]
  | cons a l ih =>
    obtain ⟨ha, hl⟩ := List.forall_mem_cons.mp hx
    rw [insert, hless, hless]
    by_cases hlt : key a < key x
    · rw [decide_eq_true hlt, if_pos rfl, List.mem_cons, ih hl, List.mem_cons, or_left_comm]
    · have hgt : key x < key a := lt_of_le_of_ne (not_lt.mp hlt) (Ne.symm ha)
      rw [decide_eq_false hlt, decide_eq_true hgt, if_neg Bool.false_ne_true, if_pos rfl, List.mem_cons]

theorem Sorted.insert (hless : ∀ a b, less a b = decide (key a < key b)) (h : Sorted key l)
    (hx : ∀ a ∈ l, key a ≠ key x) : Sorted key (insert less x l) := by
  induction l with
  | nil => exact List.pairwise_singleton _ _
  | cons a l ih =>
    obtain ⟨hhead, htail⟩ := List.pairwise_cons.mp h
    obtain ⟨ha, hl⟩ := List.forall_mem_cons.mp hx
    rw [OrderedSet.insert, hless, hless]
    by_cases hlt : key a < key x
    · rw [decide_eq_true hlt, if_pos rfl]
      refine List.pairwise_cons.mpr ⟨fun b hb => ?_, ih htail hl⟩
      rcases (mem_insert_of_distinct hless hl).mp hb with rfl | hb
      · exact hlt
      · exact hhead b hb
    · have hgt : key x < key a := lt_of_le_of_ne (not_lt.mp hlt) (Ne.symm ha)
      rw [decide_eq_false hlt, decide_eq_true hgt, if_neg Bool.false_ne_true, if_pos rfl]
      refine List.pairwise_cons.mpr ⟨fun b hb => ?_, h⟩
      rcases List.mem_cons.mp hb with rfl | hb
      · exact hgt
      · exact lt_trans hgt (hhead b hb)

/-- A scan stops behind the elements with a property that does not come back. -/
theorem dropWhile_eq_filter {R : α → α → Prop} (h : l.Pairwise R) {p : α → Bool}
    (hp : ∀ a b, R a b → p b = true → p a = true) : l.dropWhile p = l.filter (fun a => !p a) := by
  induction l with
  | nil => rfl
  | cons a l ih =>
    obtain ⟨hhead, htail⟩ := List.pairwise_cons.mp h
    cases hpa : p a with
    | true => rw [List.dropWhile_cons_of_pos hpa, List.filter_cons_of_neg (by simp [hpa]), ih htail]
    | false =>
      have hall : ∀ b ∈ a :: l, (!p b) = true := by
        intro b hb
        rcases List.mem_cons.mp hb with rfl | hb
        · rw [hpa, Bool.not_false]
        · cases hpb : p b with
          | false => rfl
          | true => exact absurd (hp a b (hhead b hb) hpb) (by rw [hpa]; exact Bool.false_ne_true)
      rw [List.dropWhile_cons_of_neg (by simp [hpa]), List.filter_eq_self.mpr hall]

theorem takeWhile_eq_filter {R : α → α → Prop} (h : l.Pairwise R) {p : α → Bool}
    (hp : ∀ a b, R a b → p b = true → p a = true) : l.takeWhile p = l.filter p := by
  induction l with
  | nil => rfl
  | cons a l ih =>
    obtain ⟨hhead, htail⟩ := List.pairwise_cons.mp h
    cases hpa : p a with
    | true => rw [List.takeWhile_cons_of_pos hpa, List.filter_cons_of_pos hpa, ih htail]
    | false =>
      have hnone : ∀ b ∈ a :: l, ¬ p b = true := by
        intro b hb hpb
        rcases List.mem_cons.mp hb with rfl | hb
        · rw [hpa] at hpb
          cases hpb
        · rw [hp a b (hhead b hb) hpb] at hpa
          cases hpa
      rw [List.takeWhile_cons_of_neg (by simp [hpa]), List.filter_eq_nil_iff.mpr hnone]

/-- What is in the set is found. -/
theorem find_of_mem (hless : ∀ a b, less a b = decide (key a < key b)) (h : Sorted key l)
    (hx : x ∈ l) : ∃ rest, find less x l = some (x :: rest) := by
  induction l with
  | nil => cases hx
  | cons a l ih =>
    obtain ⟨hhead, htail⟩ := List.pairwise_cons.mp h
    rcases List.mem_cons.mp hx with rfl | hx
    · refine ⟨l, ?_⟩
      rw [find, List.dropWhile_cons_of_neg (by simp [hless])]
      simp only [hless, lt_irrefl, decide_false, Bool.false_eq_true, if_false]
    · obtain ⟨rest, hrest⟩ := ih htail hx
      refine ⟨rest, ?_⟩
      rw [find, List.dropWhile_cons_of_pos (by simp [hless, hhead x hx])]
      exact hrest

end

/-- What is in the set is erased, and nothing else. -/
theorem erase_of_mem (hless : ∀ a b, less a b = decide (key a < key b)) (h : Sorted key l)
    (hx : x ∈ l) : erase less x l = some (l.filter (· ≠ x)) := by
  induction l with
  | nil => cases hx
  | cons a l ih =>
    obtain ⟨hhead, htail⟩ := List.pairwise_cons.mp h
    rcases List.mem_cons.mp hx with rfl | hx
    · have hself : l.filter (· ≠ x) = l :=
        List.filter_eq_self.mpr fun b hb => decide_eq_true fun heq => absurd (heq ▸ hhead b hb) (lt_irrefl _)
      rw [erase, find, List.dropWhile_cons_of_neg (by simp [hless]),
        List.takeWhile_cons_of_neg (by simp [hless]), List.filter_cons_of_neg (by simp), hself]
      simp only [hless, lt_irrefl, decide_false, Bool.false_eq_true, if_false, Option.map_some,
        List.nil_append, List.tail_cons]
    · have hlt : less a x = true := (hless a x).trans (decide_eq_true (hhead x hx))
      have hdrop : (a :: l).dropWhile (less · x) = l.dropWhile (less · x) := by
        rw [List.dropWhile_cons, hlt, if_pos rfl]
      have htake : (a :: l).takeWhile (less · x) = a :: l.takeWhile (less · x) := by
        rw [List.takeWhile_cons, hlt, if_pos rfl]
      have hne : a ≠ x := fun heq => absurd (heq ▸ hhead x hx) (lt_irrefl _)
      have hrest := ih htail hx
      rw [erase, find] at hrest ⊢
      rw [hdrop, htake, List.filter_cons, decide_eq_true hne, if_pos rfl]
      obtain ⟨rest, hfind, htail⟩ := Option.map_eq_some_iff.mp hrest
      rw [hfind, Option.map_some, List.cons_append, htail]

end Flz.Lib.OrderedSet
