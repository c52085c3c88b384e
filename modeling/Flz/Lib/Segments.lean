import Mathlib.Data.List.TakeWhile
import Mathlib.Order.Basic

/-! # Segments with a mark

A text in segments that a separator ends, each of which may have a mark in it with one text before
and one behind. A scan that looks for the mark first, and only then for the separator, finds the
same pairs as long as no segment without the mark stands in front of one with it.
-/
namespace Flz.Lib.Segments
variable {α β : Type} [DecidableEq α]

/-- The text in front of the first `a`. -/
def before (a : α) (t : List α) : List α := t.takeWhile (· ≠ a)

/-- The text behind the first `a`. -/
def after (a : α) (t : List α) : List α := (t.dropWhile (· ≠ a)).tail

section
variable {a : α} {s t : List α}

theorem not_mem_before : a ∉ before a t := by
  intro h
  have hne := List.mem_takeWhile_imp h
  simp at hne

theorem before_subset : before a t ⊆ t := (List.takeWhile_prefix _).subset

theorem after_subset : after a t ⊆ t :=
  ((List.tail_suffix _).trans (List.dropWhile_suffix _)).subset

theorem before_of_not_mem (h : a ∉ t) : before a t = t := by
  refine List.takeWhile_eq_self_iff.mpr fun b hb => ?_
  simpa using ne_of_mem_of_not_mem hb h

theorem after_of_not_mem (h : a ∉ t) : after a t = [] := by
  have hdrop : t.dropWhile (· ≠ a) = [] := by
    refine List.dropWhile_eq_nil_iff.mpr fun b hb => ?_
    simpa using ne_of_mem_of_not_mem hb h
  rw [after, hdrop]
  rfl

theorem dropWhile_eq_cons (h : a ∈ t) : t.dropWhile (· ≠ a) = a :: after a t := by
  induction t with
  | nil => cases h
  | cons b t ih =>
    by_cases hb : b = a
    · simp [after, hb]
    · have ht : a ∈ t := (List.mem_cons.mp h).resolve_left (Ne.symm hb)
      simpa [after, hb] using ih ht

theorem before_append_after (h : a ∈ t) : before a t ++ a :: after a t = t := by
  rw [← dropWhile_eq_cons h]
  exact List.takeWhile_append_dropWhile

theorem take_before : t.take (before a t).length = before a t :=
  (List.prefix_iff_eq_take.mp (List.takeWhile_prefix _)).symm

theorem drop_before (h : a ∈ t) : t.drop (before a t).length = a :: after a t := by
  have hdrop : (before a t ++ a :: after a t).drop (before a t).length = a :: after a t :=
    List.drop_left
  rwa [before_append_after h] at hdrop

theorem before_append_of_mem (h : a ∈ s) : before a (s ++ t) = before a s := by
  induction s with
  | nil => cases h
  | cons b s ih =>
    by_cases hb : b = a
    · simp [before, hb]
    · have hs : a ∈ s := (List.mem_cons.mp h).resolve_left (Ne.symm hb)
      simpa [before, hb] using ih hs

theorem after_append_of_mem (h : a ∈ s) : after a (s ++ t) = after a s ++ t := by
  induction s with
  | nil => cases h
  | cons b s ih =>
    by_cases hb : b = a
    · simp [after, hb]
    · have hs : a ∈ s := (List.mem_cons.mp h).resolve_left (Ne.symm hb)
      simpa [after, hb] using ih hs

theorem before_append (h : a ∉ s) : before a (s ++ a :: t) = s := by
  induction s with
  | nil => simp [before]
  | cons b s ih =>
    obtain ⟨hb, hs⟩ := not_or.mp (List.mem_cons.not.mp h)
    simpa [before, Ne.symm hb] using ih hs

theorem after_append (h : a ∉ s) : after a (s ++ a :: t) = t := by
  induction s with
  | nil => simp [after]
  | cons b s ih =>
    obtain ⟨hb, hs⟩ := not_or.mp (List.mem_cons.not.mp h)
    simpa [after, Ne.symm hb] using ih hs

/-- Equal texts are the same in front of the first `a` and behind it. -/
theorem append_cons_inj {s' t' : List α} (hs : a ∉ s) (hs' : a ∉ s') (h : s ++ a :: t = s' ++ a :: t') :
    s = s' ∧ t = t' := by
  constructor
  · rw [← before_append (t := t) hs, h, before_append hs']
  · rw [← after_append (t := t) hs, h, after_append hs']

omit [DecidableEq α] in
/-- Equal texts are the same up to where a class ends. -/
theorem append_inj_of_class {X : α → Prop} {x y x' y' : List α} (hx : ∀ c ∈ x, X c) (hx' : ∀ c ∈ x', X c)
    (hy : ∀ c ∈ y.head?, ¬ X c) (hy' : ∀ c ∈ y'.head?, ¬ X c) (h : x ++ y = x' ++ y') : x = x' ∧ y = y' := by
  rcases List.append_eq_append_iff.mp h with ⟨m, rfl, hm⟩ | ⟨m, rfl, hm⟩
  · cases m with
    | nil => exact ⟨(List.append_nil x).symm, hm⟩
    | cons c m => exact absurd (hx' c (by simp)) (hy c (by rw [hm]; rfl))
  · cases m with
    | nil => exact ⟨List.append_nil x', hm.symm⟩
    | cons c m => exact absurd (hx c (by simp)) (hy' c (by rw [hm]; rfl))

theorem findIdx?_eq : t.findIdx? (· == a) = if a ∈ t then some (before a t).length else none := by
  induction t with
  | nil => rfl
  | cons b t ih =>
    by_cases hb : b = a
    · simp [List.findIdx?_cons, before, hb]
    · rw [List.findIdx?_cons, ih]
      by_cases ht : a ∈ t
      · simp [before, hb, ht]
      · simp [hb, ht, Ne.symm hb]

theorem after_length_lt (h : a ∈ t) : (after a t).length < t.length := by
  have hlen := congrArg List.length (before_append_after h)
  simp only [List.length_append, List.length_cons] at hlen
  omega

theorem after_length_le : (after a t).length ≤ t.length := by
  by_cases h : a ∈ t
  · exact (after_length_lt h).le
  · simp [after_of_not_mem h]

end

/-- What a segment says, when it has the mark. -/
def field (mark : α) (f : List α → List α → β) (s : List α) : Option β :=
  if mark ∈ s then some (f (before mark s) (after mark s)) else none

/-- What the segments of a text say. -/
def fields (sep mark : α) (f : List α → List α → β) (t : List α) : List β :=
  (t.splitOn sep).filterMap (field mark f)

/-- What a scan for the mark, and from there for the separator, makes of the text. -/
def scan (sep mark : α) (f : List α → List α → β) (t : List α) : List β :=
  if mark ∈ t then
    f (before mark t) (before sep (after mark t)) :: scan sep mark f (after sep (after mark t))
  else []
termination_by t.length
decreasing_by
  rename_i h
  exact after_length_le.trans_lt (after_length_lt h)

/-- No segment without the mark stands in front of one with it. -/
def Tidy (sep mark : α) (t : List α) : Prop :=
  (t.splitOn sep).Pairwise fun a b => mark ∈ b → mark ∈ a

instance (sep mark : α) (t : List α) : Decidable (Tidy sep mark t) :=
  inferInstanceAs (Decidable ((t.splitOn sep).Pairwise fun a b => mark ∈ b → mark ∈ a))

theorem induction (sep : α) {P : List α → Prop} (last : ∀ s, sep ∉ s → P s)
    (more : ∀ s t, sep ∉ s → P t → P (s ++ sep :: t)) (t : List α) : P t := by
  by_cases h : sep ∈ t
  · rw [← before_append_after h]
    exact more _ _ not_mem_before (induction sep last more (after sep t))
  · exact last t h
termination_by t.length
decreasing_by exact after_length_lt h

section
variable {sep mark : α} {f : List α → List α → β} {s t : List α}

theorem splitOn_segment (h : sep ∉ s) : (s ++ sep :: t).splitOn sep = s :: t.splitOn sep :=
  List.splitOn_append_cons_self_of_not_mem h t

theorem mem_iff_segment (hne : mark ≠ sep) : mark ∈ t ↔ ∃ s ∈ t.splitOn sep, mark ∈ s := by
  induction t using induction sep with
  | last s hs => simp [List.splitOn_eq_singleton hs]
  | more s t hs ih => simp [splitOn_segment hs, hne, ih]

theorem not_mem_segment (h : s ∈ t.splitOn sep) : sep ∉ s := by
  induction t using induction sep with
  | last u hu =>
    rw [List.splitOn_eq_singleton hu, List.mem_singleton] at h
    rw [h]
    exact hu
  | more u t hu ih =>
    rw [splitOn_segment hu] at h
    rcases List.mem_cons.mp h with rfl | h
    · exact hu
    · exact ih h

theorem mem_fields {b : β} (h : b ∈ fields sep mark f t) : ∃ u v, sep ∉ u ∧ b = f u v := by
  obtain ⟨s, hs, hb⟩ := List.mem_filterMap.mp h
  rw [field] at hb
  split at hb
  · cases hb
    exact ⟨_, _, fun hu => not_mem_segment hs (before_subset hu), rfl⟩
  · cases hb

theorem scan_of_not_mem (h : mark ∉ t) : scan sep mark f t = [] := by
  rw [scan, if_neg h]

theorem scan_of_mem (h : mark ∈ t) : scan sep mark f t =
    f (before mark t) (before sep (after mark t)) :: scan sep mark f (after sep (after mark t)) := by
  rw [scan, if_pos h]

theorem mem_scan {b : β} (h : b ∈ scan sep mark f t) : ∃ u v, u ⊆ t ∧ b = f u v := by
  induction t using scan.induct sep mark with
  | case1 t hmem ih =>
    rw [scan_of_mem hmem] at h
    rcases List.mem_cons.mp h with rfl | h
    · exact ⟨_, _, before_subset, rfl⟩
    · obtain ⟨u, v, hu, rfl⟩ := ih h
      exact ⟨u, v, List.Subset.trans hu (List.Subset.trans after_subset after_subset), rfl⟩
  | case2 t hmem =>
    rw [scan_of_not_mem hmem] at h
    cases h

/-- A segment with the mark is read as it is. -/
theorem scan_segment (hs : sep ∉ s) (hmark : mark ∈ s) : scan sep mark f (s ++ sep :: t) =
    f (before mark s) (after mark s) :: scan sep mark f t := by
  have hafter : sep ∉ after mark s := fun h => hs (after_subset h)
  rw [scan_of_mem (List.mem_append_left _ hmark), before_append_of_mem hmark, after_append_of_mem hmark,
    before_append hafter, Segments.after_append hafter]

theorem scan_last (hs : sep ∉ s) (hmark : mark ∈ s) :
    scan sep mark f s = [f (before mark s) (after mark s)] := by
  have hafter : sep ∉ after mark s := fun h => hs (after_subset h)
  rw [scan_of_mem hmark, before_of_not_mem hafter, after_of_not_mem hafter,
    scan_of_not_mem (List.not_mem_nil)]

/-- Segments that all have the mark are read one by one. -/
theorem scan_intercalate {ss : List (List α)} (h : ∀ s ∈ ss, sep ∉ s ∧ mark ∈ s) :
    scan sep mark f ([sep].intercalate ss) = ss.map fun s => f (before mark s) (after mark s) := by
  induction ss with
  | nil => exact scan_of_not_mem List.not_mem_nil
  | cons s ss ih =>
    obtain ⟨hs, hmark⟩ := h s List.mem_cons_self
    cases ss with
    | nil => simpa using scan_last hs hmark
    | cons t ss =>
      have hrest := ih fun u hu => h u (List.mem_cons_of_mem _ hu)
      simp only [List.intercalate_cons_cons, List.append_assoc, List.cons_append, List.nil_append]
      rw [scan_segment hs hmark, hrest, List.map_cons (l := t :: ss)]

/-- A segment without the mark becomes part of the next name. -/
theorem scan_swallows (hs : mark ∉ s) (hne : mark ≠ sep) (hmark : mark ∈ t) :
    ∃ u v, sep ∈ u ∧ f u v ∈ scan sep mark f (s ++ sep :: t) := by
  have hmem : mark ∈ s ++ sep :: t := by simp [hmark]
  have hbefore : before mark (s ++ sep :: t) = s ++ sep :: before mark t := by
    rw [← before_append_after hmark, ← List.cons_append, ← List.append_assoc, before_append]
    · rw [before_append not_mem_before]
    · simp [hs, hne, not_mem_before]
  rw [scan_of_mem hmem]
  exact ⟨_, _, by simp [hbefore], List.mem_cons_self⟩

/-- The scan reads the segments, or a name with a separator in it. -/
theorem scan_cases (sep mark : α) (f : List α → List α → β) (hne : mark ≠ sep) (t : List α) :
    (Tidy sep mark t ∧ scan sep mark f t = fields sep mark f t) ∨
      ¬ Tidy sep mark t ∧ ∃ u v, sep ∈ u ∧ f u v ∈ scan sep mark f t := by
  induction t using induction sep with
  | last s hs =>
    refine Or.inl ⟨by simp [Tidy, List.splitOn_eq_singleton hs], ?_⟩
    by_cases hmark : mark ∈ s
    · simp [scan_last hs hmark, fields, List.splitOn_eq_singleton hs, field, hmark]
    · simp [scan_of_not_mem hmark, fields, List.splitOn_eq_singleton hs, field, hmark]
  | more s t hs ih =>
    have htidy : Tidy sep mark (s ++ sep :: t) ↔ (mark ∈ t → mark ∈ s) ∧ Tidy sep mark t := by
      rw [Tidy, splitOn_segment hs, List.pairwise_cons, mem_iff_segment (t := t) hne, Tidy]
      simp
    rw [htidy]
    by_cases hmark : mark ∈ s
    · have hfields : fields sep mark f (s ++ sep :: t) =
          f (before mark s) (after mark s) :: fields sep mark f t := by
        simp [fields, splitOn_segment hs, field, hmark]
      rw [scan_segment hs hmark, hfields]
      rcases ih with ⟨ht, hscan⟩ | ⟨ht, u, v, hu, hmem⟩
      · exact Or.inl ⟨⟨fun _ => hmark, ht⟩, by rw [hscan]⟩
      · exact Or.inr ⟨fun h => ht h.2, u, v, hu, List.mem_cons_of_mem _ hmem⟩
    · by_cases hrest : mark ∈ t
      · exact Or.inr ⟨fun h => hmark (h.1 hrest), scan_swallows hmark hne hrest⟩
      · have hall : mark ∉ s ++ sep :: t := by simp [hmark, hrest, hne]
        have hfields : fields sep mark f (s ++ sep :: t) = fields sep mark f t := by
          simp [fields, splitOn_segment hs, field, hmark]
        rw [scan_of_not_mem hall, hfields]
        rcases ih with ⟨ht, hscan⟩ | ⟨-, u, v, -, hmem⟩
        · exact Or.inl ⟨⟨fun h => absurd h hrest, ht⟩, by rw [← hscan, scan_of_not_mem hrest]⟩
        · rw [scan_of_not_mem hrest] at hmem
          cases hmem

end
end Flz.Lib.Segments
