import Mathlib.Computability.Language

/-! # Machines with embedded actions

Regular machines whose operators embed actions, as scanner generators have them: on the transitions that enter a
machine and on those that leave it. What is left of a machine behind a text are its threads. A transition executes the
actions of all of them, in the order in which they stand in the machine; so does the end of the text with the actions
of the threads that may end there.
-/
namespace Flz.Lib
open scoped Computability

/-- `enter a e` and `leave a e` embed `a` on the transitions that enter and that leave `e`. -/
inductive Machine (α ι : Type)
  | eps
  | one (p : α → Bool)
  | cat (e f : Machine α ι)
  | alt (e f : Machine α ι)
  | star (e : Machine α ι)
  | enter (a : ι) (e : Machine α ι)
  | leave (a : ι) (e : Machine α ι)

namespace Machine
variable {α ι σ ε : Type}

def opt (e : Machine α ι) : Machine α ι := alt e eps

def plus (e : Machine α ι) : Machine α ι := cat e (star e)

/-- `n` times. -/
def times : ℕ → Machine α ι → Machine α ι
  | 0, _ => eps
  | n + 1, e => cat e (times n e)

/-- At most `n` times. -/
def atMost : ℕ → Machine α ι → Machine α ι
  | 0, _ => eps
  | n + 1, e => opt (cat e (atMost n e))

/-- The first of some machines that are not the last one. -/
def anyOf (e : Machine α ι) (es : List (Machine α ι)) : Machine α ι := es.foldl alt e

/-- The actions in the order of the machine: those on entering come before what they enter. -/
def sites : Machine α ι → List ι
  | eps | one _ => []
  | cat e f | alt e f => e.sites ++ f.sites
  | star e => e.sites
  | enter a e => a :: e.sites
  | leave a e => e.sites ++ [a]

def nullable : Machine α ι → Bool
  | eps | star _ => true
  | one _ => false
  | cat e f => e.nullable && f.nullable
  | alt e f => e.nullable || f.nullable
  | enter _ e | leave _ e => e.nullable

/-- What a thread that may end does on leaving. -/
def pending : Machine α ι → List ι
  | eps | one _ => []
  | cat e f => e.pending ++ f.pending
  | alt e f => (if e.nullable then e.pending else []) ++ if f.nullable then f.pending else []
  | star e => if e.nullable then e.pending else []
  | enter _ e => e.pending
  | leave a e => e.pending ++ [a]

/-- The transitions of a thread: their actions, and the threads behind. -/
def step : Machine α ι → α → List (List ι × Machine α ι)
  | eps, _ => []
  | one p, c => if p c then [([], eps)] else []
  | cat e f, c => (e.step c).map (fun x => (x.1, cat x.2 f)) ++
      if e.nullable then (f.step c).map fun x => (e.pending ++ x.1, x.2) else []
  | alt e f, c => e.step c ++ f.step c
  | star e, c => (e.step c).map fun x => (x.1, cat x.2 (star e))
  | enter a e, c => (e.step c).map fun x => (a :: x.1, x.2)
  | leave a e, c => (e.step c).map fun x => (x.1, leave a x.2)

/-- The threads behind a character. -/
def next (ts : List (Machine α ι)) (c : α) : List (Machine α ι) := ts.flatMap fun t => (t.step c).map Prod.snd

def threads (e : Machine α ι) (u : List α) : List (Machine α ι) := u.foldl next [e]

/-- The actions on a transition. -/
def fired (ts : List (Machine α ι)) (c : α) : List ι := ts.flatMap fun t => (t.step c).flatMap Prod.fst

/-- The actions at the end of the text. -/
def left (ts : List (Machine α ι)) : List ι := (ts.filter nullable).flatMap pending

/-- The rest of a text is read at a position; the result is `none` when it is not accepted. -/
def run [DecidableEq ι] (sites : List ι) (act : σ → ℕ → ι → Except ε σ) (ts : List (Machine α ι)) (pos : ℕ) :
    List α → σ → Except ε (Option σ)
  | [], s =>
    if ts.any nullable then do
      return some (← (sites.filter (· ∈ left ts)).foldlM (fun s a => act s pos a) s)
    else return none
  | c :: u, s =>
    if (next ts c).isEmpty then return none
    else do
      let s ← (sites.filter (· ∈ fired ts c)).foldlM (fun s a => act s pos a) s
      run sites act (next ts c) (pos + 1) u s

section
variable {e f : Machine α ι} {c : α} {a : ι} {p : α → Bool} {P : List ι × Machine α ι → Prop}

/-! ## Transitions -/

theorem exists_mem_append {β : Type} {l m : List β} {P : β → Prop} :
    (∃ x ∈ l ++ m, P x) ↔ (∃ x ∈ l, P x) ∨ ∃ x ∈ m, P x := by
  simp only [List.mem_append, or_and_right, exists_or]

theorem exists_mem_map {β γ : Type} {l : List β} {g : β → γ} {P : γ → Prop} :
    (∃ y ∈ l.map g, P y) ↔ ∃ x ∈ l, P (g x) := by
  constructor
  · rintro ⟨y, hy, h⟩
    obtain ⟨x, hx, rfl⟩ := List.mem_map.mp hy
    exact ⟨x, hx, h⟩
  · rintro ⟨x, hx, h⟩
    exact ⟨g x, List.mem_map_of_mem hx, h⟩

theorem exists_step_one : (∃ x ∈ (one p : Machine α ι).step c, P x) ↔ p c = true ∧ P ([], eps) := by
  rw [step]
  by_cases hp : p c = true <;> simp [hp]

theorem exists_step_cat : (∃ x ∈ (cat e f).step c, P x) ↔
    (∃ x ∈ e.step c, P (x.1, cat x.2 f)) ∨ e.nullable = true ∧ ∃ x ∈ f.step c, P (e.pending ++ x.1, x.2) := by
  rw [step, exists_mem_append, exists_mem_map]
  refine or_congr_right ?_
  by_cases hnull : e.nullable = true
  · rw [if_pos hnull, exists_mem_map, and_iff_right hnull]
  · rw [if_neg hnull]
    simp [hnull]

theorem exists_step_alt : (∃ x ∈ (alt e f).step c, P x) ↔ (∃ x ∈ e.step c, P x) ∨ ∃ x ∈ f.step c, P x := by
  rw [step, exists_mem_append]

theorem exists_step_star : (∃ x ∈ (star e).step c, P x) ↔ ∃ x ∈ e.step c, P (x.1, cat x.2 (star e)) := by
  rw [step, exists_mem_map]

theorem exists_step_enter : (∃ x ∈ (enter a e).step c, P x) ↔ ∃ x ∈ e.step c, P (a :: x.1, x.2) := by
  rw [step, exists_mem_map]

theorem exists_step_leave : (∃ x ∈ (leave a e).step c, P x) ↔ ∃ x ∈ e.step c, P (x.1, leave a x.2) := by
  rw [step, exists_mem_map]

end

/-! ## Languages -/

def language : Machine α ι → Language α
  | eps => 1
  | one p => {u | ∃ c, p c = true ∧ u = [c]}
  | cat e f => e.language * f.language
  | alt e f => e.language + f.language
  | star e => e.language∗
  | enter _ e | leave _ e => e.language

section
variable {e f t : Machine α ι} {u v : List α} {c : α} {a b : ι} {p : α → Bool} {P : Machine α ι → Prop}

theorem mem_language_one : u ∈ (one p : Machine α ι).language ↔ ∃ c, p c = true ∧ u = [c] := Iff.rfl

theorem mem_language_cat : u ∈ (cat e f).language ↔ ∃ v w, u = v ++ w ∧ v ∈ e.language ∧ w ∈ f.language := by
  rw [language, Language.mem_mul]
  constructor
  · rintro ⟨v, hv, w, hw, rfl⟩
    exact ⟨v, w, rfl, hv, hw⟩
  · rintro ⟨v, w, rfl, hv, hw⟩
    exact ⟨v, hv, w, hw, rfl⟩

theorem mem_language_alt : u ∈ (alt e f).language ↔ u ∈ e.language ∨ u ∈ f.language := Iff.rfl

theorem mem_language_opt : u ∈ (opt e).language ↔ u ∈ e.language ∨ u = [] := Iff.rfl

theorem nil_mem_star : [] ∈ (star e).language := Language.nil_mem_kstar _

/-- A repetition begins with one that is not empty. -/
theorem cons_mem_star : c :: u ∈ (star e).language ↔
    ∃ v w, u = v ++ w ∧ c :: v ∈ e.language ∧ w ∈ (star e).language := by
  constructor
  · intro h
    obtain ⟨L, hL, hmem⟩ := Language.mem_kstar_iff_exists_nonempty.mp h
    cases L with
    | nil => cases hL
    | cons x L =>
      obtain ⟨hx, hne⟩ := hmem x List.mem_cons_self
      cases x with
      | nil => exact absurd rfl hne
      | cons d x =>
        obtain ⟨rfl, rfl⟩ := List.cons.inj hL
        exact ⟨x, L.flatten, rfl, hx, Language.mem_kstar.mpr ⟨L, rfl, fun y hy =>
          (hmem y (List.mem_cons_of_mem _ hy)).1⟩⟩
  · rintro ⟨v, w, rfl, hv, hw⟩
    obtain ⟨L, rfl, hL⟩ := Language.mem_kstar.mp hw
    exact Language.mem_kstar.mpr ⟨(c :: v) :: L, rfl, List.forall_mem_cons.mpr ⟨hv, hL⟩⟩

theorem nullable_iff : e.nullable = true ↔ [] ∈ e.language := by
  induction e with
  | eps => exact iff_of_true rfl rfl
  | one p => simp [nullable, mem_language_one]
  | cat e f ihe ihf =>
    rw [nullable, Bool.and_eq_true, ihe, ihf, mem_language_cat]
    constructor
    · rintro ⟨he, hf⟩
      exact ⟨[], [], rfl, he, hf⟩
    · rintro ⟨v, w, hvw, hv, hw⟩
      obtain ⟨rfl, rfl⟩ := List.append_eq_nil_iff.mp hvw.symm
      exact ⟨hv, hw⟩
  | alt e f ihe ihf => rw [nullable, Bool.or_eq_true, ihe, ihf, mem_language_alt]
  | star e => exact iff_of_true rfl nil_mem_star
  | enter a e ih => exact ih
  | leave a e ih => exact ih

/-- A text is read by its first character and by what is left then. -/
theorem cons_mem_language : c :: u ∈ e.language ↔ ∃ x ∈ e.step c, u ∈ x.2.language := by
  induction e generalizing u with
  | eps => simp [step, language]
  | one p =>
    rw [mem_language_one, exists_step_one]
    constructor
    · rintro ⟨d, hd, heq⟩
      obtain ⟨rfl, rfl⟩ := List.cons.inj heq
      exact ⟨hd, rfl⟩
    · rintro ⟨hc, hu⟩
      obtain rfl : u = [] := hu
      exact ⟨c, hc, rfl⟩
  | cat e f ihe ihf =>
    rw [mem_language_cat, exists_step_cat]
    simp only [mem_language_cat]
    constructor
    · rintro ⟨v, w, hvw, hv, hw⟩
      cases v with
      | nil =>
        obtain rfl : c :: u = w := hvw
        exact .inr ⟨nullable_iff.mpr hv, ihf.mp hw⟩
      | cons d v =>
        obtain ⟨rfl, rfl⟩ := List.cons.inj hvw
        obtain ⟨x, hx, hv⟩ := ihe.mp hv
        exact .inl ⟨x, hx, v, w, rfl, hv, hw⟩
    · rintro (⟨x, hx, v, w, rfl, hv, hw⟩ | ⟨hnull, hu⟩)
      · exact ⟨c :: v, w, rfl, ihe.mpr ⟨x, hx, hv⟩, hw⟩
      · exact ⟨[], c :: u, rfl, nullable_iff.mp hnull, ihf.mpr hu⟩
  | alt e f ihe ihf => rw [mem_language_alt, ihe, ihf, exists_step_alt]
  | star e ih =>
    rw [cons_mem_star, exists_step_star]
    simp only [mem_language_cat, ih]
    constructor
    · rintro ⟨v, w, rfl, ⟨x, hx, hv⟩, hw⟩
      exact ⟨x, hx, v, w, rfl, hv, hw⟩
    · rintro ⟨x, hx, v, w, rfl, hv, hw⟩
      exact ⟨v, w, rfl, ⟨x, hx, hv⟩, hw⟩
  | enter a e ih =>
    rw [exists_step_enter]
    exact ih
  | leave a e ih =>
    rw [exists_step_leave]
    exact ih

/-! ## Threads -/

theorem mem_foldl_next {ts : List (Machine α ι)} : t ∈ u.foldl next ts ↔ ∃ r ∈ ts, t ∈ r.threads u := by
  induction u generalizing ts with
  | nil => simp [threads]
  | cons c u ih =>
    have hcons : ∀ r : Machine α ι, t ∈ r.threads (c :: u) ↔ ∃ s ∈ next [r] c, t ∈ s.threads u := fun r => ih
    rw [List.foldl_cons, ih]
    simp only [hcons, next, List.mem_flatMap, List.mem_singleton, exists_eq_left]
    constructor
    · rintro ⟨r, ⟨s, hs, hr⟩, ht⟩
      exact ⟨s, hs, r, hr, ht⟩
    · rintro ⟨s, hs, r, hr, ht⟩
      exact ⟨r, ⟨s, hs, hr⟩, ht⟩

theorem mem_threads_nil : t ∈ e.threads [] ↔ t = e := List.mem_singleton

theorem mem_threads_cons : t ∈ e.threads (c :: u) ↔ ∃ x ∈ e.step c, t ∈ x.2.threads u := by
  rw [threads, List.foldl_cons, mem_foldl_next, next, List.flatMap_singleton, exists_mem_map]

theorem threads_append : e.threads (u ++ v) = v.foldl next (e.threads u) := List.foldl_append ..

theorem mem_threads_append : t ∈ e.threads (u ++ v) ↔ ∃ r ∈ e.threads u, t ∈ r.threads v := by
  rw [threads_append, mem_foldl_next]

theorem mem_language_iff : u ∈ e.language ↔ ∃ t ∈ e.threads u, t.nullable = true := by
  induction u generalizing e with
  | nil => simp [mem_threads_nil, nullable_iff]
  | cons c u ih =>
    rw [cons_mem_language]
    simp only [ih, mem_threads_cons]
    constructor
    · rintro ⟨x, hx, t, ht, hnull⟩
      exact ⟨t, ⟨x, hx, ht⟩, hnull⟩
    · rintro ⟨t, ⟨x, hx, ht⟩, hnull⟩
      exact ⟨x, hx, t, ht, hnull⟩

instance decidableLanguage (e : Machine α ι) (u : List α) : Decidable (u ∈ e.language) :=
  decidable_of_iff ((e.threads u).any nullable = true) (by rw [mem_language_iff, List.any_eq_true])

/-- Something is left behind a text. -/
def Alive (e : Machine α ι) (u : List α) : Prop := ∃ t, t ∈ e.threads u

/-- The action is executed on the transition by `c`. -/
def Fires (e : Machine α ι) (u : List α) (c : α) (a : ι) : Prop := ∃ t ∈ e.threads u, ∃ x ∈ t.step c, a ∈ x.1

/-- The action is executed on leaving. -/
def Leaves (e : Machine α ι) (u : List α) (a : ι) : Prop := ∃ t ∈ e.threads u, t.nullable = true ∧ a ∈ t.pending

theorem alive_iff : e.Alive u ↔ ∃ t ∈ e.threads u, True := by simp only [Alive, and_true]

theorem alive_of_mem (h : u ∈ e.language) : e.Alive u := by
  obtain ⟨t, ht, -⟩ := mem_language_iff.mp h
  exact ⟨t, ht⟩

theorem Leaves.mem (h : e.Leaves u a) : u ∈ e.language := by
  obtain ⟨t, ht, hnull, -⟩ := h
  exact mem_language_iff.mpr ⟨t, ht, hnull⟩

theorem Fires.alive (h : e.Fires u c a) : e.Alive (u ++ [c]) := by
  obtain ⟨t, ht, x, hx, -⟩ := h
  exact ⟨x.2, mem_threads_append.mpr ⟨t, ht, mem_threads_cons.mpr ⟨x, hx, mem_threads_nil.mpr rfl⟩⟩⟩

theorem Alive.left (h : e.Alive (u ++ v)) : e.Alive u := by
  obtain ⟨t, ht⟩ := h
  obtain ⟨r, hr, -⟩ := mem_threads_append.mp ht
  exact ⟨r, hr⟩

theorem alive_nil : e.Alive [] := ⟨e, mem_threads_nil.mpr rfl⟩

theorem alive_cons : e.Alive (c :: u) ↔ ∃ x ∈ e.step c, x.2.Alive u := by
  simp only [Alive, mem_threads_cons]
  constructor
  · rintro ⟨t, x, hx, ht⟩
    exact ⟨x, hx, t, ht⟩
  · rintro ⟨x, hx, t, ht⟩
    exact ⟨t, x, hx, ht⟩

theorem alive_singleton : e.Alive [c] ↔ ∃ x, x ∈ e.step c := by
  rw [alive_cons]
  exact ⟨fun ⟨x, hx, _⟩ => ⟨x, hx⟩, fun ⟨x, hx⟩ => ⟨x, hx, alive_nil⟩⟩

/-! ## Threads of each operator -/

theorem exists_threads_nil : (∃ t ∈ e.threads [], P t) ↔ P e := by
  simp only [mem_threads_nil, exists_eq_left]

theorem exists_threads_cons :
    (∃ t ∈ e.threads (c :: u), P t) ↔ ∃ x ∈ e.step c, ∃ t ∈ x.2.threads u, P t := by
  simp only [mem_threads_cons]
  constructor
  · rintro ⟨t, ⟨x, hx, ht⟩, h⟩
    exact ⟨x, hx, t, ht, h⟩
  · rintro ⟨x, hx, t, ht, h⟩
    exact ⟨t, ⟨x, hx, ht⟩, h⟩

/-- Either the first machine is still going, or it has read a part and the second one the rest. -/
theorem exists_threads_cat : (∃ t ∈ (cat e f).threads u, P t) ↔
    (∃ t ∈ e.threads u, P (cat t f)) ∨ ∃ v w, u = v ++ w ∧ w ≠ [] ∧ v ∈ e.language ∧ ∃ t ∈ f.threads w, P t := by
  induction u generalizing e with
  | nil =>
    rw [exists_threads_nil, exists_threads_nil]
    refine ⟨.inl, fun h => h.resolve_right ?_⟩
    rintro ⟨v, w, hvw, hw, -⟩
    exact hw (List.append_eq_nil_iff.mp hvw.symm).2
  | cons c u ih =>
    rw [exists_threads_cons, exists_step_cat, exists_threads_cons]
    simp only [ih]
    constructor
    · rintro (⟨x, hx, ht | ⟨v, w, rfl, hw, hv, ht⟩⟩ | ⟨hnull, ht⟩)
      · exact .inl ⟨x, hx, ht⟩
      · exact .inr ⟨c :: v, w, rfl, hw, cons_mem_language.mpr ⟨x, hx, hv⟩, ht⟩
      · exact .inr ⟨[], c :: u, rfl, List.cons_ne_nil c u, nullable_iff.mp hnull, exists_threads_cons.mpr ht⟩
    · rintro (⟨x, hx, ht⟩ | ⟨v, w, hvw, hw, hv, ht⟩)
      · exact .inl ⟨x, hx, .inl ht⟩
      · cases v with
        | nil =>
          obtain rfl : c :: u = w := hvw
          exact .inr ⟨nullable_iff.mpr hv, exists_threads_cons.mp ht⟩
        | cons d v =>
          obtain ⟨rfl, rfl⟩ := List.cons.inj hvw
          obtain ⟨x, hx, hv⟩ := cons_mem_language.mp hv
          exact .inl ⟨x, hx, .inr ⟨v, w, rfl, hw, hv, ht⟩⟩

theorem exists_threads_alt (hP : P (alt e f) ↔ P e ∨ P f) :
    (∃ t ∈ (alt e f).threads u, P t) ↔ (∃ t ∈ e.threads u, P t) ∨ ∃ t ∈ f.threads u, P t := by
  cases u with
  | nil => rw [exists_threads_nil, exists_threads_nil, exists_threads_nil, hP]
  | cons c u => rw [exists_threads_cons, exists_threads_cons, exists_threads_cons, exists_step_alt]

theorem exists_threads_enter (hP : P (enter a e) ↔ P e) :
    (∃ t ∈ (enter a e).threads u, P t) ↔ ∃ t ∈ e.threads u, P t := by
  cases u with
  | nil => rw [exists_threads_nil, exists_threads_nil, hP]
  | cons c u => rw [exists_threads_cons, exists_threads_cons, exists_step_enter]

theorem exists_threads_leave : (∃ t ∈ (leave a e).threads u, P t) ↔ ∃ t ∈ e.threads u, P (leave a t) := by
  induction u generalizing e with
  | nil => rw [exists_threads_nil, exists_threads_nil]
  | cons c u ih =>
    rw [exists_threads_cons, exists_threads_cons, exists_step_leave]
    simp only [ih]

/-! ### Concatenations -/

theorem alive_cat : (cat e f).Alive u ↔ e.Alive u ∨ ∃ v w, u = v ++ w ∧ v ∈ e.language ∧ f.Alive w := by
  rw [alive_iff, exists_threads_cat, ← alive_iff]
  simp only [← alive_iff]
  refine or_congr_right' fun hdead => ?_
  constructor
  · rintro ⟨v, w, rfl, -, hv, hw⟩
    exact ⟨v, w, rfl, hv, hw⟩
  · rintro ⟨v, w, rfl, hv, hw⟩
    refine ⟨v, w, rfl, ?_, hv, hw⟩
    rintro rfl
    rw [List.append_nil] at hdead
    exact hdead (alive_of_mem hv)

theorem fires_cat : (cat e f).Fires u c a ↔ e.Fires u c a ∨ (e.Leaves u a ∧ f.Alive [c]) ∨
    ∃ v w, u = v ++ w ∧ v ∈ e.language ∧ f.Fires w c a := by
  have hstep : ∀ t : Machine α ι, (∃ x ∈ (cat t f).step c, a ∈ x.1) ↔ (∃ x ∈ t.step c, a ∈ x.1) ∨
      t.nullable = true ∧ ∃ x ∈ f.step c, a ∈ t.pending ∨ a ∈ x.1 := by
    intro t
    rw [exists_step_cat]
    simp only [List.mem_append]
  rw [Fires, exists_threads_cat]
  simp only [hstep]
  constructor
  · rintro (⟨t, ht, hfire | ⟨hnull, x, hx, ha | ha⟩⟩ | ⟨v, w, rfl, -, hv, hw⟩)
    · exact .inl ⟨t, ht, hfire⟩
    · exact .inr (.inl ⟨⟨t, ht, hnull, ha⟩, alive_singleton.mpr ⟨x, hx⟩⟩)
    · exact .inr (.inr ⟨u, [], (List.append_nil u).symm, mem_language_iff.mpr ⟨t, ht, hnull⟩, f,
        mem_threads_nil.mpr rfl, x, hx, ha⟩)
    · exact .inr (.inr ⟨v, w, rfl, hv, hw⟩)
  · rintro (⟨t, ht, hfire⟩ | ⟨⟨t, ht, hnull, ha⟩, halive⟩ | ⟨v, w, rfl, hv, hw⟩)
    · exact .inl ⟨t, ht, .inl hfire⟩
    · obtain ⟨x, hx⟩ := alive_singleton.mp halive
      exact .inl ⟨t, ht, .inr ⟨hnull, x, hx, .inl ha⟩⟩
    · by_cases hempty : w = []
      · subst hempty
        obtain ⟨t, ht, hnull⟩ := mem_language_iff.mp hv
        obtain ⟨x, hx, ha⟩ := exists_threads_nil.mp hw
        rw [List.append_nil]
        exact .inl ⟨t, ht, .inr ⟨hnull, x, hx, .inr ha⟩⟩
      · exact .inr ⟨v, w, rfl, hempty, hv, hw⟩

theorem leaves_cat : (cat e f).Leaves u a ↔ (e.Leaves u a ∧ f.nullable = true) ∨
    ∃ v w, u = v ++ w ∧ v ∈ e.language ∧ f.Leaves w a := by
  have hpending : ∀ t : Machine α ι, ((cat t f).nullable = true ∧ a ∈ (cat t f).pending) ↔
      (t.nullable = true ∧ f.nullable = true) ∧ (a ∈ t.pending ∨ a ∈ f.pending) := by
    intro t
    rw [nullable, pending, Bool.and_eq_true, List.mem_append]
  rw [Leaves, exists_threads_cat]
  simp only [hpending]
  constructor
  · rintro (⟨t, ht, ⟨hnull, hf⟩, ha | ha⟩ | ⟨v, w, rfl, -, hv, hw⟩)
    · exact .inl ⟨⟨t, ht, hnull, ha⟩, hf⟩
    · exact .inr ⟨u, [], (List.append_nil u).symm, mem_language_iff.mpr ⟨t, ht, hnull⟩, f, mem_threads_nil.mpr rfl,
        hf, ha⟩
    · exact .inr ⟨v, w, rfl, hv, hw⟩
  · rintro (⟨⟨t, ht, hnull, ha⟩, hf⟩ | ⟨v, w, rfl, hv, hw⟩)
    · exact .inl ⟨t, ht, ⟨hnull, hf⟩, .inl ha⟩
    · by_cases hempty : w = []
      · subst hempty
        obtain ⟨t, ht, hnull⟩ := mem_language_iff.mp hv
        obtain ⟨hf, ha⟩ := exists_threads_nil.mp hw
        rw [List.append_nil]
        exact .inl ⟨t, ht, ⟨hnull, hf⟩, .inr ha⟩
      · exact .inr ⟨v, w, rfl, hempty, hv, hw⟩

/-! ### Alternatives -/

theorem alive_alt : (alt e f).Alive u ↔ e.Alive u ∨ f.Alive u := by
  rw [alive_iff, alive_iff, alive_iff]
  exact exists_threads_alt (by simp)

theorem fires_alt : (alt e f).Fires u c a ↔ e.Fires u c a ∨ f.Fires u c a := exists_threads_alt exists_step_alt

theorem leaves_alt : (alt e f).Leaves u a ↔ e.Leaves u a ∨ f.Leaves u a := by
  refine exists_threads_alt ?_
  rw [nullable, pending, Bool.or_eq_true, List.mem_append]
  by_cases he : e.nullable = true <;> by_cases hf : f.nullable = true <;> simp [he, hf]

/-! ### Embedded actions -/

theorem alive_enter : (enter a e).Alive u ↔ e.Alive u := by
  rw [alive_iff, alive_iff]
  exact exists_threads_enter Iff.rfl

theorem fires_enter : (enter a e).Fires u c b ↔ (b = a ∧ u = [] ∧ e.Alive [c]) ∨ e.Fires u c b := by
  cases u with
  | nil =>
    rw [Fires, exists_threads_nil, exists_step_enter, Fires, exists_threads_nil, alive_singleton]
    simp only [List.mem_cons, and_or_left, exists_or]
    refine or_congr_left ?_
    constructor
    · rintro ⟨x, hx, hb⟩
      exact ⟨hb, trivial, x, hx⟩
    · rintro ⟨hb, -, x, hx⟩
      exact ⟨x, hx, hb⟩
  | cons d u =>
    rw [Fires, exists_threads_cons, exists_step_enter, Fires, exists_threads_cons]
    simp

theorem leaves_enter : (enter a e).Leaves u b ↔ e.Leaves u b := exists_threads_enter Iff.rfl

theorem alive_leave : (leave a e).Alive u ↔ e.Alive u := by
  rw [alive_iff, alive_iff]
  exact exists_threads_leave (P := fun _ => True)

theorem fires_leave : (leave a e).Fires u c b ↔ e.Fires u c b := by
  rw [Fires, exists_threads_leave]
  simp only [exists_step_leave]
  rfl

theorem leaves_leave : (leave a e).Leaves u b ↔ e.Leaves u b ∨ (b = a ∧ u ∈ e.language) := by
  rw [Leaves, exists_threads_leave, mem_language_iff]
  simp only [nullable, pending, List.mem_append, List.mem_singleton]
  constructor
  · rintro ⟨t, ht, hnull, hb | rfl⟩
    · exact .inl ⟨t, ht, hnull, hb⟩
    · exact .inr ⟨rfl, t, ht, hnull⟩
  · rintro (⟨t, ht, hnull, hb⟩ | ⟨rfl, t, ht, hnull⟩)
    · exact ⟨t, ht, hnull, .inl hb⟩
    · exact ⟨t, ht, hnull, .inr rfl⟩

/-! ### Actions that a machine has, and characters that it reads -/

/-- All characters that the machine reads, and all its actions, are of a kind. -/
def Over (X : α → Prop) (S : ι → Prop) : Machine α ι → Prop
  | eps => True
  | one p => ∀ c, p c = true → X c
  | cat e f | alt e f => e.Over X S ∧ f.Over X S
  | star e => e.Over X S
  | enter a e | leave a e => S a ∧ e.Over X S

section
variable {X : α → Prop} {S S' : ι → Prop}

theorem Over.mono (h : e.Over X S) (hS : ∀ a, S a → S' a) : e.Over X S' := by
  induction e with
  | eps => trivial
  | one p => exact h
  | cat e f ihe ihf => exact ⟨ihe h.1, ihf h.2⟩
  | alt e f ihe ihf => exact ⟨ihe h.1, ihf h.2⟩
  | star e ih => exact ih h
  | enter a e ih => exact ⟨hS a h.1, ih h.2⟩
  | leave a e ih => exact ⟨hS a h.1, ih h.2⟩

theorem Over.imp {Y : α → Prop} (h : e.Over X S) (hX : ∀ c, X c → Y c) : e.Over Y S := by
  induction e with
  | eps => trivial
  | one p => exact fun c hc => hX c (h c hc)
  | cat e f ihe ihf => exact ⟨ihe h.1, ihf h.2⟩
  | alt e f ihe ihf => exact ⟨ihe h.1, ihf h.2⟩
  | star e ih => exact ih h
  | enter a e ih => exact ⟨h.1, ih h.2⟩
  | leave a e ih => exact ⟨h.1, ih h.2⟩

theorem over_sites (e : Machine α ι) : e.Over (fun _ => True) (· ∈ e.sites) := by
  induction e with
  | eps => trivial
  | one p => exact fun _ _ => trivial
  | cat e f ihe ihf => exact ⟨ihe.mono fun _ => List.mem_append_left _, ihf.mono fun _ => List.mem_append_right _⟩
  | alt e f ihe ihf => exact ⟨ihe.mono fun _ => List.mem_append_left _, ihf.mono fun _ => List.mem_append_right _⟩
  | star e ih => exact ih
  | enter a e ih => exact ⟨List.mem_cons_self, ih.mono fun _ => List.mem_cons_of_mem _⟩
  | leave a e ih =>
    exact ⟨List.mem_append_right _ (List.mem_singleton_self a), ih.mono fun _ => List.mem_append_left _⟩

theorem Over.pending (h : e.Over X S) : ∀ a ∈ e.pending, S a := by
  induction e with
  | eps => exact nofun
  | one p => exact nofun
  | cat e f ihe ihf => exact List.forall_mem_append.mpr ⟨ihe h.1, ihf h.2⟩
  | alt e f ihe ihf =>
    refine List.forall_mem_append.mpr ⟨?_, ?_⟩
    · split
      · exact ihe h.1
      · exact nofun
    · split
      · exact ihf h.2
      · exact nofun
  | star e ih =>
    rw [Machine.pending]
    split
    · exact ih h
    · exact nofun
  | enter a e ih => exact ih h.2
  | leave a e ih => exact List.forall_mem_append.mpr ⟨ih h.2, List.forall_mem_singleton.mpr h.1⟩

theorem Over.step (h : e.Over X S) {x : List ι × Machine α ι} (hx : x ∈ e.step c) :
    X c ∧ (∀ a ∈ x.1, S a) ∧ x.2.Over X S := by
  have hnone : ¬ ∃ x ∈ e.step c, ¬ (X c ∧ (∀ a ∈ x.1, S a) ∧ x.2.Over X S) := by
    clear hx
    induction e with
    | eps => simp [Machine.step]
    | one p =>
      rw [exists_step_one]
      exact fun hx => hx.2 ⟨h c hx.1, nofun, trivial⟩
    | cat e f ihe ihf =>
      rw [exists_step_cat]
      rintro (⟨x, hx, hnot⟩ | ⟨-, x, hx, hnot⟩)
      · exact ihe h.1 ⟨x, hx, fun ⟨hc, ha, ho⟩ => hnot ⟨hc, ha, ho, h.2⟩⟩
      · exact ihf h.2 ⟨x, hx, fun ⟨hc, ha, ho⟩ =>
          hnot ⟨hc, List.forall_mem_append.mpr ⟨h.1.pending, ha⟩, ho⟩⟩
    | alt e f ihe ihf =>
      rw [exists_step_alt]
      exact fun hx => hx.elim (ihe h.1) (ihf h.2)
    | star e ih =>
      rw [exists_step_star]
      rintro ⟨x, hx, hnot⟩
      exact ih h ⟨x, hx, fun ⟨hc, ha, ho⟩ => hnot ⟨hc, ha, ho, h⟩⟩
    | enter a e ih =>
      rw [exists_step_enter]
      rintro ⟨x, hx, hnot⟩
      exact ih h.2 ⟨x, hx, fun ⟨hc, ha, ho⟩ => hnot ⟨hc, List.forall_mem_cons.mpr ⟨h.1, ha⟩, ho⟩⟩
    | leave a e ih =>
      rw [exists_step_leave]
      rintro ⟨x, hx, hnot⟩
      exact ih h.2 ⟨x, hx, fun ⟨hc, ha, ho⟩ => hnot ⟨hc, ha, h.1, ho⟩⟩
  by_contra hnot
  exact hnone ⟨x, hx, hnot⟩

theorem Over.threads (h : e.Over X S) (ht : t ∈ e.threads u) : (∀ c ∈ u, X c) ∧ t.Over X S := by
  induction u generalizing e with
  | nil => exact ⟨nofun, mem_threads_nil.mp ht ▸ h⟩
  | cons c u ih =>
    obtain ⟨x, hx, ht⟩ := mem_threads_cons.mp ht
    obtain ⟨hc, -, ho⟩ := h.step hx
    exact ⟨List.forall_mem_cons.mpr ⟨hc, (ih ho ht).1⟩, (ih ho ht).2⟩

theorem Over.alive (h : e.Over X S) (hu : e.Alive u) : ∀ c ∈ u, X c := by
  obtain ⟨t, ht⟩ := hu
  exact (h.threads ht).1

theorem Over.fires (h : e.Over X S) (ha : e.Fires u c a) : S a := by
  obtain ⟨t, ht, x, hx, ha⟩ := ha
  exact ((h.threads ht).2.step hx).2.1 a ha

theorem Over.leaves (h : e.Over X S) (ha : e.Leaves u a) : S a := by
  obtain ⟨t, ht, -, ha⟩ := ha
  exact (h.threads ht).2.pending a ha

end

theorem Fires.mem_sites (h : e.Fires u c a) : a ∈ e.sites := (over_sites e).fires h

theorem Leaves.mem_sites (h : e.Leaves u a) : a ∈ e.sites := (over_sites e).leaves h

/-! ### Machines without actions -/

theorem alive_eps : (eps : Machine α ι).Alive u ↔ u = [] := by
  cases u with
  | nil => exact iff_of_true alive_nil rfl
  | cons c u =>
    rw [alive_cons]
    simp [step]

theorem alive_one : (one p : Machine α ι).Alive u ↔ ∀ c ∈ u, p c = true ∧ u = [c] := by
  cases u with
  | nil => exact iff_of_true alive_nil nofun
  | cons c u =>
    rw [alive_cons, exists_step_one, alive_eps, List.forall_mem_cons]
    refine ⟨fun ⟨hc, hu⟩ => ⟨⟨hc, by rw [hu]⟩, fun d hd => absurd hd (hu ▸ List.not_mem_nil)⟩, fun ⟨⟨hc, hu⟩, _⟩ => ?_⟩
    exact ⟨hc, (List.cons.inj hu).2⟩

theorem alive_one_singleton : (one p : Machine α ι).Alive [c] ↔ p c = true := by
  rw [alive_one, List.forall_mem_singleton]
  exact and_iff_left rfl

theorem not_fires_of_sites (h : e.sites = []) : ¬ e.Fires u c a := fun hfire => by
  have hmem := hfire.mem_sites
  rw [h] at hmem
  cases hmem

theorem not_leaves_of_sites (h : e.sites = []) : ¬ e.Leaves u a := fun hleave => by
  have hmem := hleave.mem_sites
  rw [h] at hmem
  cases hmem

theorem Alive.star_head (h : (star e).Alive (c :: u)) : e.Alive [c] := by
  obtain ⟨x, hx, -⟩ := alive_cons.mp h
  obtain ⟨y, hy, -⟩ := List.mem_map.mp hx
  exact alive_singleton.mpr ⟨y, hy⟩

theorem Alive.cat_head (h : (cat e f).Alive (c :: u)) (he : e.nullable = false) : e.Alive [c] := by
  rcases alive_cat.mp h with h | ⟨v, w, heq, hv, -⟩
  · exact Alive.left (v := u) h
  · cases v with
    | nil =>
      rw [nullable_iff.mpr hv] at he
      cases he
    | cons d v =>
      obtain rfl := (List.cons.inj heq).1
      exact Alive.left (v := v) (alive_of_mem hv)

theorem mem_language_one_cat : u ∈ (cat (one p) f).language ↔ ∃ d w, u = d :: w ∧ p d = true ∧ w ∈ f.language := by
  simp only [mem_language_cat, mem_language_one]
  constructor
  · rintro ⟨_, w, rfl, ⟨d, hd, rfl⟩, hw⟩
    exact ⟨d, w, rfl, hd, hw⟩
  · rintro ⟨d, w, rfl, hd, hw⟩
    exact ⟨[d], w, rfl, ⟨d, hd, rfl⟩, hw⟩

theorem alive_one_cat : (cat (one p) f).Alive (c :: u) ↔ p c = true ∧ f.Alive u := by
  rw [alive_cons, exists_step_cat, exists_step_one, alive_cat]
  simp only [alive_eps, nullable, Bool.false_eq_true, false_and, or_false]
  refine and_congr_right fun _ => ⟨?_, fun hu => .inr ⟨[], u, rfl, rfl, hu⟩⟩
  rintro (rfl | ⟨v, w, rfl, hv, hw⟩)
  · exact alive_nil
  · obtain rfl : v = [] := hv
    exact hw

theorem fires_one_cat : (cat (one p) f).Fires u c a ↔ ∃ d w, u = d :: w ∧ p d = true ∧ f.Fires w c a := by
  rw [fires_cat]
  simp only [mem_language_one]
  constructor
  · rintro (hfire | ⟨hleave, -⟩ | ⟨_, w, rfl, ⟨d, hd, rfl⟩, hw⟩)
    · exact absurd hfire (not_fires_of_sites rfl)
    · exact absurd hleave (not_leaves_of_sites rfl)
    · exact ⟨d, w, rfl, hd, hw⟩
  · rintro ⟨d, w, rfl, hd, hw⟩
    exact .inr (.inr ⟨[d], w, rfl, ⟨d, hd, rfl⟩, hw⟩)

theorem leaves_one_cat : (cat (one p) f).Leaves u a ↔ ∃ d w, u = d :: w ∧ p d = true ∧ f.Leaves w a := by
  rw [leaves_cat]
  simp only [mem_language_one]
  constructor
  · rintro (⟨hleave, -⟩ | ⟨_, w, rfl, ⟨d, hd, rfl⟩, hw⟩)
    · exact absurd hleave (not_leaves_of_sites rfl)
    · exact ⟨d, w, rfl, hd, hw⟩
  · rintro ⟨d, w, rfl, hd, hw⟩
    exact .inr ⟨[d], w, rfl, ⟨d, hd, rfl⟩, hw⟩

section
variable {X : α → Prop} {S : ι → Prop}

theorem over_opt : (opt e).Over X S ↔ e.Over X S := and_iff_left trivial

theorem over_plus : (plus e).Over X S ↔ e.Over X S := and_self_iff

theorem Over.times (h : e.Over X S) (n : ℕ) : (times n e).Over X S := by
  induction n with
  | zero => trivial
  | succ n ih => exact ⟨h, ih⟩

theorem Over.atMost (h : e.Over X S) (n : ℕ) : (atMost n e).Over X S := by
  induction n with
  | zero => trivial
  | succ n ih => exact over_opt.mpr ⟨h, ih⟩

theorem over_anyOf {es : List (Machine α ι)} : (anyOf e es).Over X S ↔ e.Over X S ∧ ∀ f ∈ es, f.Over X S := by
  induction es generalizing e with
  | nil => exact (and_iff_left nofun).symm
  | cons f es ih =>
    have hfold := ih (e := alt e f)
    rw [List.forall_mem_cons, ← and_assoc]
    exact hfold

theorem mem_language_anyOf {es : List (Machine α ι)} :
    u ∈ (anyOf e es).language ↔ u ∈ e.language ∨ ∃ f ∈ es, u ∈ f.language := by
  induction es generalizing e with
  | nil => simp [anyOf]
  | cons f es ih =>
    have hfold := ih (e := alt e f)
    rw [mem_language_alt, or_assoc] at hfold
    rw [List.exists_mem_cons_iff]
    exact hfold

end

end
end Machine
end Flz.Lib
