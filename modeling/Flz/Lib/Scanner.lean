import Mathlib.Data.List.Basic
import Mathlib.Tactic.Cases

/-! # Scanners

A scanner is a finite automaton with a list of actions on every arc, as a parser generator
emits it: it reads, performs the actions of the arc it takes, and leaves after certain actions.
Where it goes does not depend on what the actions do, so a run is the fold of the actions over
a trace, and the trace of a text is put together from those of its pieces.
-/
namespace Flz.Lib
variable {β α ρ ε : Type}

structure Scanner (β α : Type) where
  /-- The actions and the target of the arc for a state and a letter. -/
  arc : ℕ → β → Option (List α × ℕ)
  leaves : α → Bool

inductive Scanner.Ending
  | reading (state : ℕ)
  | left (state : ℕ)
  | stuck
  deriving DecidableEq, Repr

namespace Scanner
variable (m : Scanner β α)

/-- How many letters are read from a state, and how the reading ends. -/
def stop : ℕ → List β → ℕ × Ending
  | s, [] => (0, .reading s)
  | s, b :: bs =>
    match m.arc s b with
    | none => (0, .stuck)
    | some (as, t) =>
      if as.any m.leaves then (1, .left t) else ((stop t bs).1 + 1, (stop t bs).2)

/-- The actions with the positions at which they are performed. -/
def trace : ℕ → ℕ → List β → List (ℕ × α)
  | _, _, [] => []
  | p, s, b :: bs =>
    match m.arc s b with
    | none => []
    | some (as, t) =>
      as.map (Prod.mk p) ++ if as.any m.leaves then [] else trace (p + 1) t bs

/-- The loop itself; `act` is what an action does at a position. -/
def run (act : ℕ → α → ρ → Except ε ρ) : ℕ → ℕ → List β → ρ → Except ε (ℕ × Ending × ρ)
  | p, s, [], r => .ok (p, .reading s, r)
  | p, s, b :: bs, r =>
    match m.arc s b with
    | none => .ok (p, .stuck, r)
    | some (as, t) => do
      let r ← as.foldlM (fun r a => act p a r) r
      if as.any m.leaves then return (p + 1, .left t, r) else run act (p + 1) t bs r

/-- What a trace does to the registers. -/
def perform (act : ℕ → α → ρ → Except ε ρ) (es : List (ℕ × α)) (r : ρ) : Except ε ρ :=
  es.foldlM (fun r e => act e.1 e.2 r) r

theorem perform_append (act : ℕ → α → ρ → Except ε ρ) (es fs : List (ℕ × α)) (r : ρ) :
    perform act (es ++ fs) r = perform act es r >>= perform act fs := List.foldlM_append

/-- What only actions of a kind change is as before where none of them is performed. -/
theorem perform_keeps {γ : Type*} {act : ℕ → α → ρ → Except ε ρ} (g : ρ → γ) (kind : α → Bool)
    (hact : ∀ p a r r', kind a = false → act p a r = .ok r' → g r' = g r) {es : List (ℕ × α)}
    (hes : ∀ e ∈ es, kind e.2 = false) {r r' : ρ} (h : perform act es r = .ok r') : g r' = g r := by
  induction es generalizing r with
  | nil =>
    cases h
    rfl
  | cons e es ih =>
    obtain ⟨he, hes⟩ := List.forall_mem_cons.mp hes
    rw [perform, List.foldlM_cons] at h
    cases hone : act e.1 e.2 r with
    | error x =>
      rw [hone] at h
      cases h
    | ok q =>
      rw [hone] at h
      exact (ih hes h).trans (hact e.1 e.2 r q he hone)

theorem perform_arc (act : ℕ → α → ρ → Except ε ρ) (p : ℕ) (as : List α) (r : ρ) :
    perform act (as.map (Prod.mk p)) r = as.foldlM (fun r a => act p a r) r := by
  induction as generalizing r with
  | nil => rfl
  | cons a as ih =>
    rw [List.map_cons, perform, List.foldlM_cons, List.foldlM_cons]
    exact bind_congr fun r => ih r

/-- A run performs its trace. -/
theorem run_eq (act : ℕ → α → ρ → Except ε ρ) (p s : ℕ) (bs : List β) (r : ρ) :
    m.run act p s bs r = (perform act (m.trace p s bs) r).map
      (fun r => (p + (m.stop s bs).1, (m.stop s bs).2, r)) := by
  induction bs generalizing p s r with
  | nil => rfl
  | cons b bs ih =>
    cases harc : m.arc s b with
    | none =>
      simp only [run, trace, stop, harc]
      rfl
    | some out =>
      obtain ⟨as, t⟩ := out
      simp only [run, trace, stop, harc, perform_append, perform_arc]
      cases as.foldlM (fun r a => act p a r) r with
      | error e => rfl
      | ok r =>
        cases hleave : as.any m.leaves with
        | true =>
          simp only [if_true]
          rfl
        | false =>
          simp only [if_false, Bool.false_eq_true]
          refine (ih (p + 1) t r).trans ?_
          rw [Nat.add_assoc, Nat.add_comm 1]
          rfl

/-! ## Reading to the end of a part -/

/-- From the state `s`, at the position `p` and with the registers `r`, the scanner reads all of
`bs` and is then in the state `t` with the registers `r'`. -/
def Reads (act : ℕ → α → ρ → Except ε ρ) (p s : ℕ) (r : ρ) (bs : List β) (t : ℕ) (r' : ρ) : Prop :=
  m.run act p s bs r = .ok (p + bs.length, .reading t, r')

section
variable {m} {act : ℕ → α → ρ → Except ε ρ} {p s t u : ℕ} {r r' r'' : ρ} {b : β} {bs xs ys : List β}

theorem Reads.nil : m.Reads act p s r [] s r := rfl

theorem run_cons {as : List α} (harc : m.arc s b = some (as, t)) (hstay : as.any m.leaves = false)
    (hact : as.foldlM (fun r a => act p a r) r = .ok r') (bs : List β) :
    m.run act p s (b :: bs) r = m.run act (p + 1) t bs r' := by
  simp only [run, harc, hact, hstay]
  rfl

theorem Reads.cons {as : List α} (harc : m.arc s b = some (as, t)) (hstay : as.any m.leaves = false)
    (hact : as.foldlM (fun r a => act p a r) r = .ok r') (h : m.Reads act (p + 1) t r' bs u r'') :
    m.Reads act p s r (b :: bs) u r'' := by
  rw [Reads, run_cons harc hstay hact, List.length_cons, Nat.add_comm bs.length, ← Nat.add_assoc]
  exact h

/-- The reading of a text begins with the reading of its first part. -/
theorem Reads.run_append (h : m.Reads act p s r xs t r') (ys : List β) :
    m.run act p s (xs ++ ys) r = m.run act (p + xs.length) t ys r' := by
  induction xs generalizing p s r with
  | nil =>
    simp only [Reads, run, Except.ok.injEq, Prod.mk.injEq, Ending.reading.injEq] at h
    obtain ⟨-, rfl, rfl⟩ := h
    rfl
  | cons x xs ih =>
    unfold Reads run at h
    cases harc : m.arc s x with
    | none => simp [harc] at h
    | some out =>
      obtain ⟨as, v⟩ := out
      simp only [harc] at h
      cases hact : as.foldlM (fun r a => act p a r) r with
      | error e =>
        rw [hact] at h
        cases h
      | ok q =>
        rw [hact] at h
        cases hstay : as.any m.leaves with
        | true => simp [hstay, bind, Except.bind, pure, Except.pure] at h
        | false =>
          rw [hstay] at h
          have hrest : m.Reads act (p + 1) v q xs t r' := by
            rw [Reads, Nat.add_assoc, Nat.add_comm 1]
            exact h
          rw [List.cons_append, run_cons harc hstay hact, ih hrest, List.length_cons, Nat.add_assoc,
            Nat.add_comm 1]

theorem Reads.append (hx : m.Reads act p s r xs t r') (hy : m.Reads act (p + xs.length) t r' ys u r'') :
    m.Reads act p s r (xs ++ ys) u r'' := by
  rw [Reads, hx.run_append, List.length_append, ← Nat.add_assoc]
  exact hy

/-- Letters on which the scanner stays where it is and does nothing. -/
theorem Reads.loop (h : ∀ b ∈ bs, m.arc s b = some ([], s)) : m.Reads act p s r bs s r := by
  induction bs generalizing p with
  | nil => exact Reads.nil
  | cons b bs ih =>
    obtain ⟨hb, hbs⟩ := List.forall_mem_cons.mp h
    exact Reads.cons hb rfl rfl (ih hbs)

end

section
variable {m} {s t p : ℕ} {xs ys bs : List β}

theorem stop_le (s : ℕ) (bs : List β) : (m.stop s bs).1 ≤ bs.length := by
  induction bs generalizing s with
  | nil => exact Nat.le_refl 0
  | cons b bs ih =>
    unfold stop
    cases m.arc s b with
    | none => exact Nat.zero_le _
    | some out =>
      dsimp only
      split
      · exact Nat.succ_le_succ (Nat.zero_le _)
      · exact Nat.succ_le_succ (ih out.2)

theorem stop_reading (h : (m.stop s bs).2 = .reading t) : (m.stop s bs).1 = bs.length := by
  induction bs generalizing s with
  | nil => rfl
  | cons b bs ih =>
    unfold stop at h ⊢
    cases harc : m.arc s b with
    | none => simp [harc] at h
    | some out =>
      simp only [harc] at h ⊢
      by_cases hleave : out.1.any m.leaves = true
      · simp [hleave] at h
      · rw [if_neg hleave] at h ⊢
        exact congrArg (· + 1) (ih h)

theorem stop_left_pos (h : (m.stop s bs).2 = .left t) : 0 < (m.stop s bs).1 := by
  cases bs with
  | nil => cases h
  | cons b bs =>
    unfold stop at h ⊢
    cases harc : m.arc s b with
    | none => simp [harc] at h
    | some out =>
      dsimp only
      split
      · exact Nat.zero_lt_one
      · exact Nat.zero_lt_succ _

/-- A scanner that leaves has taken something. -/
theorem stop_left_bounds {k : ℕ} (h : m.stop s bs = (k, .left t)) : 0 < k ∧ k ≤ bs.length := by
  have hpos := stop_left_pos (congrArg Prod.snd h)
  have hle := stop_le (m := m) s bs
  rw [h] at hpos hle
  exact ⟨hpos, hle⟩

theorem stuck_of_stop_zero {b : β} (h : (m.stop s (b :: bs)).1 = 0) : (m.stop s (b :: bs)).2 = .stuck := by
  unfold stop at h ⊢
  cases harc : m.arc s b with
  | none => rfl
  | some out =>
    simp only [harc] at h
    split at h
    · cases h
    · cases h

/-- A scan that is still reading at the end of one part goes on with the next. -/
theorem stop_resume (h : (m.stop s xs).2 = .reading t) (ys : List β) :
    m.stop s (xs ++ ys) = (xs.length + (m.stop t ys).1, (m.stop t ys).2) ∧
      ∀ p, m.trace p s (xs ++ ys) = m.trace p s xs ++ m.trace (p + xs.length) t ys := by
  induction xs generalizing s with
  | nil =>
    cases h
    simp [trace]
  | cons x xs ih =>
    unfold stop at h
    cases harc : m.arc s x with
    | none => simp [harc] at h
    | some out =>
      simp only [harc] at h
      by_cases hleave : out.1.any m.leaves = true
      · simp [hleave] at h
      · rw [if_neg hleave] at h
        obtain ⟨hstop, htrace⟩ := ih h
        refine ⟨?_, fun p => ?_⟩
        · simp only [List.cons_append, stop, harc, if_neg hleave, hstop, List.length_cons]
          rw [Nat.add_right_comm]
        · simp only [List.cons_append, trace, harc, if_neg hleave, htrace, List.append_assoc,
            List.length_cons, Nat.add_assoc, Nat.add_comm 1]

/-- What comes after the end of a scan does not matter. -/
theorem stop_append (h : ∀ t, (m.stop s xs).2 ≠ .reading t) (ys : List β) :
    m.stop s (xs ++ ys) = m.stop s xs ∧ ∀ p, m.trace p s (xs ++ ys) = m.trace p s xs := by
  induction xs generalizing s with
  | nil => exact absurd rfl (h s)
  | cons x xs ih =>
    unfold stop at h
    cases harc : m.arc s x with
    | none => simp [stop, trace, harc]
    | some out =>
      simp only [harc] at h
      by_cases hleave : out.1.any m.leaves = true
      · simp [stop, trace, harc, hleave]
      · rw [if_neg hleave] at h
        obtain ⟨hstop, htrace⟩ := ih h
        simp only [List.cons_append, stop, trace, harc, if_neg hleave, hstop, htrace,
          implies_true, and_self]

theorem trace_add (c p s : ℕ) (bs : List β) :
    m.trace (c + p) s bs = (m.trace p s bs).map (fun e => (c + e.1, e.2)) := by
  induction bs generalizing p s with
  | nil => rfl
  | cons b bs ih =>
    unfold trace
    cases m.arc s b with
    | none => rfl
    | some out =>
      dsimp only
      rw [List.map_append, List.map_map, Nat.add_assoc, ih]
      split <;> rfl

/-- An action of a trace is one of the arc for the letter at its position. -/
theorem mem_trace {i : ℕ} {a : α} (h : (i, a) ∈ m.trace p s bs) :
    ∃ j b s' as t, i = p + j ∧ bs[j]? = some b ∧ m.arc s' b = some (as, t) ∧ a ∈ as := by
  induction bs generalizing p s with
  | nil => cases h
  | cons b bs ih =>
    unfold trace at h
    cases harc : m.arc s b with
    | none => simp [harc] at h
    | some out =>
      simp only [harc, List.mem_append] at h
      rcases h with h | h
      · obtain ⟨a', ha', heq⟩ := List.mem_map.mp h
        cases heq
        exact ⟨0, b, s, out.1, out.2, rfl, rfl, harc, ha'⟩
      · split at h
        · cases h
        · obtain ⟨j, b', s', as, t, rfl, hb, ha⟩ := ih h
          exact ⟨j + 1, b', s', as, t, by omega, hb, ha⟩

theorem position_lt {i : ℕ} {a : α} (h : (i, a) ∈ m.trace 0 s bs) : i < bs.length := by
  obtain ⟨j, b, s', as, t, rfl, hb, -⟩ := mem_trace h
  rw [Nat.zero_add]
  exact (List.getElem?_eq_some_iff.mp hb).1

theorem le_position {i : ℕ} {a : α} (h : (i, a) ∈ m.trace p s bs) : p ≤ i := by
  obtain ⟨j, -, -, -, -, rfl, -⟩ := mem_trace h
  exact Nat.le_add_right p j

theorem trace_pairwise (p s : ℕ) (bs : List β) :
    (m.trace p s bs).Pairwise (fun e f => e.1 ≤ f.1) := by
  induction bs generalizing p s with
  | nil => exact List.Pairwise.nil
  | cons b bs ih =>
    unfold trace
    cases m.arc s b with
    | none => exact List.Pairwise.nil
    | some out =>
      dsimp only
      refine List.pairwise_append.mpr ⟨?_, ?_, ?_⟩
      · exact List.pairwise_map.mpr (List.pairwise_of_forall fun _ _ => Nat.le_refl p)
      · split
        · exact List.Pairwise.nil
        · exact ih (p + 1) out.2
      · intro e he f hf
        obtain ⟨a, -, rfl⟩ := List.mem_map.mp he
        split at hf
        · cases hf
        · exact Nat.le_trans (Nat.le_succ p) (le_position hf)

theorem trace_initial (p s : ℕ) (xs ys : List β) :
    ∃ es, m.trace p s (xs ++ ys) = m.trace p s xs ++ es := by
  by_cases h : ∃ t, (m.stop s xs).2 = .reading t
  · obtain ⟨t, h⟩ := h
    exact ⟨_, (stop_resume h ys).2 p⟩
  · refine ⟨[], ?_⟩
    rw [List.append_nil]
    exact (stop_append (not_exists.mp h) ys).2 p

/-- A scan that is still reading is in a state to which an arc leads that does not leave. -/
theorem reading_of_arcs {good : ℕ → Prop}
    (harcs : ∀ s b as t, m.arc s b = some (as, t) → as.any m.leaves = false → good t) (hs : good s)
    (h : (m.stop s bs).2 = .reading t) : good t := by
  induction bs generalizing s with
  | nil =>
    cases h
    exact hs
  | cons b bs ih =>
    unfold stop at h
    cases harc : m.arc s b with
    | none => simp [harc] at h
    | some out =>
      simp only [harc] at h
      by_cases hleave : out.1.any m.leaves = true
      · simp [hleave] at h
      · rw [if_neg hleave] at h
        exact ih (harcs s b out.1 out.2 harc (Bool.eq_false_iff.mpr hleave)) h

/-- A scan that is still reading has performed no action that leaves. -/
theorem trace_reading (h : (m.stop s bs).2 = .reading t) :
    ∀ e ∈ m.trace p s bs, m.leaves e.2 = false := by
  induction bs generalizing p s with
  | nil => simp [trace]
  | cons b bs ih =>
    unfold stop at h
    unfold trace
    cases harc : m.arc s b with
    | none => simp [harc] at h
    | some out =>
      simp only [harc] at h ⊢
      by_cases hleave : out.1.any m.leaves = true
      · simp [hleave] at h
      · rw [if_neg hleave] at h ⊢
        intro e he
        rcases List.mem_append.mp he with he | he
        · obtain ⟨a, ha, rfl⟩ := List.mem_map.mp he
          by_contra hne
          exact hleave (List.any_eq_true.mpr ⟨a, ha, by simpa using hne⟩)
        · exact ih h e he

/-! ## Actions that need another one before them -/

/-- Actions of a kind, and those that open and close the way for it. -/
structure Gate (α : Type) where
  opens : α → Bool
  closes : α → Bool
  kind : α → Bool

namespace Gate
variable (g : Gate α)

def next (seen : Bool) (a : α) : Bool := g.opens a || (!g.closes a && seen)

/-- Actions of the kind come only while the way is open. -/
def respected : Bool → List α → Bool
  | _, [] => true
  | seen, a :: as => (!g.kind a || seen) && respected (g.next seen a) as

theorem next_of_seen {seen seen' : Bool} (h : seen = true → seen' = true) (a : α)
    (hs : g.next seen a = true) : g.next seen' a = true := by
  unfold next at hs ⊢
  rw [Bool.or_eq_true, Bool.and_eq_true] at hs ⊢
  exact hs.imp id (fun hs => ⟨hs.1, h hs.2⟩)

theorem respected_append (seen : Bool) (as bs : List α) :
    g.respected seen (as ++ bs) =
      (g.respected seen as && g.respected (as.foldl g.next seen) bs) := by
  induction as generalizing seen with
  | nil => rfl
  | cons a as ih =>
    rw [List.cons_append, respected, respected, ih, List.foldl_cons, Bool.and_assoc]

theorem foldl_of_seen {seen seen' : Bool} (h : seen = true → seen' = true) {as : List α}
    (hs : as.foldl g.next seen = true) : as.foldl g.next seen' = true := by
  induction as generalizing seen seen' with
  | nil => exact h hs
  | cons a as ih => exact ih (g.next_of_seen h a) hs

theorem respected_of_seen {seen seen' : Bool} (h : seen = true → seen' = true) {as : List α}
    (hs : g.respected seen as = true) : g.respected seen' as = true := by
  induction as generalizing seen seen' with
  | nil => rfl
  | cons a as ih =>
    rw [respected, Bool.and_eq_true, Bool.or_eq_true] at hs ⊢
    exact ⟨hs.1.imp id h, ih (g.next_of_seen h a) hs.2⟩

end Gate

/-- In the states of `inside` the way is open. -/
def Guards (m : Scanner β α) (g : Gate α) (inside : ℕ → Bool) : Prop :=
  ∀ s b as t, m.arc s b = some (as, t) → g.respected (inside s) as = true ∧
    (inside t = true → as.foldl g.next (inside s) = true)

theorem Guards.trace_respected {g : Gate α} {inside : ℕ → Bool} (h : m.Guards g inside)
    {seen : Bool} (hs : inside s = true → seen = true) (p : ℕ) (bs : List β) :
    g.respected seen ((m.trace p s bs).map Prod.snd) = true := by
  induction bs generalizing p s seen with
  | nil => rfl
  | cons b bs ih =>
    unfold trace
    cases harc : m.arc s b with
    | none => rfl
    | some out =>
      obtain ⟨has, ht⟩ := h s b out.1 out.2 harc
      have hmap : (out.1.map (Prod.mk p)).map Prod.snd = out.1 := by
        rw [List.map_map]
        exact List.map_id out.1
      dsimp only
      rw [List.map_append, hmap, g.respected_append, Bool.and_eq_true]
      refine ⟨g.respected_of_seen hs has, ?_⟩
      split
      · rfl
      · exact ih (fun hin => g.foldl_of_seen hs (ht hin)) (p + 1)

/-! ## Actions that are performed once -/

/-- From the states in `after` on, no action of the kind is performed any more, and one leads
there. -/
def Once (m : Scanner β α) (kind : α → Bool) (after : ℕ → Bool) : Prop :=
  ∀ s b as t, m.arc s b = some (as, t) → (after s = true → after t = true ∧ as.any kind = false) ∧
    (as.any kind = true → after t = true ∧ (as.filter kind).length = 1)

variable {kind : α → Bool} {after : ℕ → Bool}

theorem Once.trace_after (h : m.Once kind after) (hs : after s = true) (p : ℕ) (bs : List β) :
    (m.trace p s bs).filter (fun e => kind e.2) = [] := by
  induction bs generalizing p s with
  | nil => rfl
  | cons b bs ih =>
    unfold trace
    cases harc : m.arc s b with
    | none => rfl
    | some out =>
      obtain ⟨ht, hnone⟩ := (h s b out.1 out.2 harc).1 hs
      have hfilter : (out.1.map (Prod.mk p)).filter (fun e => kind e.2) = [] := by
        rw [List.filter_map, List.map_eq_nil_iff, List.filter_eq_nil_iff]
        exact fun a ha hk => List.any_eq_false.mp hnone a ha hk
      dsimp only
      rw [List.filter_append, hfilter, List.nil_append]
      split
      · rfl
      · exact ih ht (p + 1)

theorem Once.trace_le_one (h : m.Once kind after) (p s : ℕ) (bs : List β) :
    ((m.trace p s bs).filter (fun e => kind e.2)).length ≤ 1 := by
  induction bs generalizing p s with
  | nil => exact Nat.zero_le 1
  | cons b bs ih =>
    unfold trace
    cases harc : m.arc s b with
    | none => exact Nat.zero_le 1
    | some out =>
      obtain ⟨-, hkind⟩ := h s b out.1 out.2 harc
      have hmap : (out.1.map (Prod.mk p)).filter (fun e => kind e.2) =
          (out.1.filter kind).map (Prod.mk p) := List.filter_map
      dsimp only
      rw [List.filter_append, List.length_append, hmap, List.length_map]
      by_cases hany : out.1.any kind = true
      · obtain ⟨ht, hone⟩ := hkind hany
        rw [hone]
        split
        · exact Nat.le_refl 1
        · rw [h.trace_after ht]
          exact Nat.le_refl 1
      · have hnil : out.1.filter kind = [] := by
          rw [List.filter_eq_nil_iff]
          exact fun a ha hk => hany (List.any_eq_true.mpr ⟨a, ha, hk⟩)
        rw [hnil, List.length_nil, Nat.zero_add]
        split
        · exact Nat.zero_le 1
        · exact ih (p + 1) out.2

end

end Scanner
end Flz.Lib
