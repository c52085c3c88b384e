import Flz.Lib.Machine
import Flz.Lib.Segments
import Mathlib.Data.List.Infix

/-! # What a machine executes

The actions that a machine executes on a text, in their order and with their positions. A concatenation executes those
of its first machine and then those of its second one where there is only one way to divide the text.
-/
namespace Flz.Lib.Machine

section
variable {α ι : Type} {e f : Machine α ι} {u v w x : List α} {c : α} {a : ι}

/-- The same further on. -/
def shift (k : ℕ) (evs : List (ℕ × ι)) : List (ℕ × ι) := evs.map fun x => (k + x.1, x.2)

@[simp] theorem shift_zero (evs : List (ℕ × ι)) : shift 0 evs = evs := by simp [shift]

@[simp] theorem shift_nil (k : ℕ) : shift k ([] : List (ℕ × ι)) = [] := rfl

@[simp] theorem shift_cons (k : ℕ) (x : ℕ × ι) (evs : List (ℕ × ι)) : shift k (x :: evs) = (k + x.1, x.2) :: shift k evs :=
  rfl

@[simp] theorem shift_append (k : ℕ) (evs evs' : List (ℕ × ι)) : shift k (evs ++ evs') = shift k evs ++ shift k evs' :=
  List.map_append ..

@[simp] theorem shift_shift (j k : ℕ) (evs : List (ℕ × ι)) : shift j (shift k evs) = shift (j + k) evs := by
  rw [shift, shift, List.map_map, shift]
  simp only [Function.comp_def, Nat.add_assoc]

theorem mem_fired : a ∈ fired (e.threads u) c ↔ e.Fires u c a := by
  simp only [fired, List.mem_flatMap]
  rfl

theorem mem_left : a ∈ left (e.threads u) ↔ e.Leaves u a := by
  simp only [left, List.mem_flatMap, List.mem_filter, Leaves, and_assoc]

/-! ## Concatenations -/

/-- The text is divided between the two machines in one way only. -/
structure Splits (e f : Machine α ι) (u w : List α) : Prop where
  mem : u ∈ e.language
  unique : ∀ v x, x ≠ [] → v ++ x <+: u ++ w → v ∈ e.language → f.Alive x → v = u
  dead : ∀ c ∈ w.head?, ¬ e.Alive (u ++ [c])

/-- The first machine reads only characters of a class, and the rest of the text begins with none. -/
theorem Splits.of_class {X : α → Prop} {S : ι → Prop} (he : e.Over X S) (hf : ∀ c, f.Alive [c] → ¬ X c)
    (hu : u ∈ e.language) (hw : ∀ c ∈ w.head?, ¬ X c) : Splits e f u w := by
  have hover : ∀ v ∈ e.language, ∀ c ∈ v, X c := fun v hv => he.alive (alive_of_mem hv)
  refine ⟨hu, fun v x hx hprefix hv halive => ?_, fun c hc halive => ?_⟩
  · obtain ⟨d, y, rfl⟩ := List.exists_cons_of_ne_nil hx
    have hd : ¬ X d := hf d (Alive.left (v := y) halive)
    obtain ⟨z, hz⟩ := hprefix
    rw [List.append_assoc, List.append_eq_append_iff] at hz
    rcases hz with ⟨m, rfl, hm⟩ | ⟨m, rfl, hm⟩
    · cases m with
      | nil => rw [List.append_nil]
      | cons m ms =>
        obtain rfl := (List.cons.inj hm).1
        exact absurd (hover _ hu d (by simp)) hd
    · cases m with
      | nil => rw [List.append_nil]
      | cons m ms =>
        rw [hm] at hw
        exact absurd (hover _ hv m (by simp)) (hw m rfl)
  · exact hw c hc (he.alive halive c (by simp))

section
variable (h : Splits e f u w)
include h

theorem Splits.fires_left (hx : x ++ [c] <+: u) : (cat e f).Fires x c a ↔ e.Fires x c a := by
  rw [fires_cat]
  refine ⟨fun hfire => ?_, .inl⟩
  have hshort : x.length < u.length := by simpa [Nat.succ_le_iff] using hx.length_le
  rcases hfire with hfire | ⟨hleave, halive⟩ | ⟨v, y, rfl, hv, hfire⟩
  · exact hfire
  · have heq := h.unique x [c] (List.cons_ne_nil c []) (hx.trans (List.prefix_append u w)) hleave.mem halive
    exact absurd (heq ▸ hshort) (Nat.lt_irrefl _)
  · rw [List.append_assoc] at hx
    have heq := h.unique v (y ++ [c]) (by simp) (hx.trans (List.prefix_append u w)) hv hfire.alive
    rw [List.length_append, heq] at hshort
    omega

theorem Splits.fires_right (hx : x ++ [c] <+: w) :
    (cat e f).Fires (u ++ x) c a ↔ (x = [] ∧ e.Leaves u a ∧ f.Alive [c]) ∨ f.Fires x c a := by
  obtain ⟨z, hz⟩ := hx
  have hdead : ∀ d y, x ++ [c] = d :: y → ¬ e.Alive (u ++ [d]) := by
    intro d y hd
    refine h.dead d ?_
    rw [← hz, hd]
    rfl
  have hlong : ∀ y, ¬ e.Alive (u ++ x ++ [c] ++ y) := by
    intro y halive
    obtain ⟨d, ds, hd⟩ := List.exists_cons_of_ne_nil (show x ++ [c] ≠ [] by simp)
    rw [List.append_assoc u, hd, List.append_assoc, List.cons_append, List.append_cons] at halive
    exact hdead d ds hd halive.left
  rw [fires_cat]
  constructor
  · rintro (hfire | ⟨hleave, halive⟩ | ⟨v, y, hvy, hv, hfire⟩)
    · exact absurd (by simpa using hfire.alive) (hlong [])
    · cases x with
      | nil => exact .inl ⟨rfl, by simpa using hleave, halive⟩
      | cons d x =>
        have halive := alive_of_mem hleave.mem
        rw [List.append_cons] at halive
        exact absurd halive.left (hdead d (x ++ [c]) rfl)
    · have hprefix : v ++ (y ++ [c]) <+: u ++ w := by
        rw [← List.append_assoc, ← hvy, List.append_assoc]
        exact ⟨z, by rw [List.append_assoc, hz]⟩
      obtain rfl := h.unique v (y ++ [c]) (by simp) hprefix hv hfire.alive
      rw [List.append_cancel_left hvy]
      exact .inr hfire
  · rintro (⟨rfl, hleave, halive⟩ | hfire)
    · rw [List.append_nil]
      exact .inr (.inl ⟨hleave, halive⟩)
    · exact .inr (.inr ⟨u, x, rfl, h.mem, hfire⟩)

theorem Splits.leaves :
    (cat e f).Leaves (u ++ w) a ↔ (w = [] ∧ e.Leaves u a ∧ f.nullable = true) ∨ f.Leaves w a := by
  rw [leaves_cat]
  constructor
  · rintro (⟨hleave, hnull⟩ | ⟨v, y, hvy, hv, hleave⟩)
    · cases w with
      | nil => exact .inl ⟨rfl, by simpa using hleave, hnull⟩
      | cons d w =>
        have halive := alive_of_mem hleave.mem
        rw [List.append_cons] at halive
        exact absurd halive.left (h.dead d rfl)
    · cases y with
      | nil =>
        rw [List.append_nil] at hvy
        subst hvy
        cases w with
        | nil => exact .inr hleave
        | cons d w =>
          have halive := alive_of_mem hv
          rw [List.append_cons] at halive
          exact absurd halive.left (h.dead d rfl)
      | cons d y =>
        obtain rfl := h.unique v (d :: y) (List.cons_ne_nil d y) ⟨[], by rw [List.append_nil, hvy]⟩ hv
          (alive_of_mem hleave.mem)
        rw [List.append_cancel_left hvy]
        exact .inr hleave
  · rintro (⟨rfl, hleave, hnull⟩ | hleave)
    · rw [List.append_nil]
      exact .inl ⟨hleave, hnull⟩
    · exact .inr ⟨u, w, rfl, h.mem, hleave⟩

end
end

section
variable {α ι : Type} [DecidableEq ι] {e f : Machine α ι} {u v w x : List α} {c : α} {a : ι}

/-! ## Actions with their positions -/

/-- The actions on the transition by a character. -/
def acts (e : Machine α ι) (u : List α) (c : α) : List ι := e.sites.filter (· ∈ fired (e.threads u) c)

/-- The actions on leaving. -/
def outs (e : Machine α ι) (u : List α) : List ι := e.sites.filter (· ∈ left (e.threads u))

/-- The actions on a text that stands behind `u`. -/
def eventsFrom (e : Machine α ι) (u : List α) : List α → List (ℕ × ι)
  | [] => []
  | c :: v => (e.acts u c).map (u.length, ·) ++ eventsFrom e (u ++ [c]) v

def events (e : Machine α ι) (u : List α) : List (ℕ × ι) := e.eventsFrom [] u

/-- With those on leaving. -/
def trace (e : Machine α ι) (u : List α) : List (ℕ × ι) := e.events u ++ (e.outs u).map (u.length, ·)

theorem mem_acts : a ∈ e.acts u c ↔ e.Fires u c a := by
  rw [acts, List.mem_filter, decide_eq_true_eq, mem_fired]
  exact and_iff_right_of_imp Fires.mem_sites

/-- What decides which actions of a machine are executed. -/
theorem filter_fired_eq {g : Machine α ι} {d : α} (h : ∀ a ∈ g.sites, e.Fires u c a ↔ f.Fires v d a) :
    g.sites.filter (· ∈ fired (e.threads u) c) = g.sites.filter (· ∈ fired (f.threads v) d) := by
  refine List.filter_congr fun a ha => decide_eq_decide.mpr ?_
  rw [mem_fired, mem_fired, h a ha]

theorem filter_left_eq {g : Machine α ι} (h : ∀ a ∈ g.sites, e.Leaves u a ↔ f.Leaves v a) :
    g.sites.filter (· ∈ left (e.threads u)) = g.sites.filter (· ∈ left (f.threads v)) := by
  refine List.filter_congr fun a ha => decide_eq_decide.mpr ?_
  rw [mem_left, mem_left, h a ha]

theorem acts_congr (h : ∀ a, e.Fires u c a ↔ f.Fires v c a) (hs : e.sites = f.sites) : e.acts u c = f.acts v c := by
  rw [acts, acts, ← hs]
  exact filter_fired_eq fun a _ => h a

theorem acts_eq_nil (h : ∀ a, ¬ e.Fires u c a) : e.acts u c = [] :=
  List.eq_nil_iff_forall_not_mem.mpr fun a ha => h a (mem_acts.mp ha)

theorem outs_eq_nil (h : ∀ a, ¬ e.Leaves u a) : e.outs u = [] := by
  refine List.filter_eq_nil_iff.mpr fun a _ => ?_
  rw [decide_eq_true_eq, mem_left]
  exact h a

/-- The actions that stand in front of those of `f` are not executed. -/
theorem acts_eq_right {as : List ι} {d : α} (hsites : e.sites = as ++ f.sites) (hnone : ∀ b ∈ as, ¬ e.Fires u c b)
    (h : ∀ b ∈ f.sites, e.Fires u c b ↔ f.Fires v d b) : e.acts u c = f.acts v d := by
  have hfront : as.filter (· ∈ fired (e.threads u) c) = [] := by
    refine List.filter_eq_nil_iff.mpr fun b hb => ?_
    rw [decide_eq_true_eq, mem_fired]
    exact hnone b hb
  rw [acts, hsites, List.filter_append, hfront, List.nil_append]
  exact filter_fired_eq h

theorem outs_eq_right {as : List ι} (hsites : e.sites = as ++ f.sites) (hnone : ∀ b ∈ as, ¬ e.Leaves u b)
    (h : ∀ b ∈ f.sites, e.Leaves u b ↔ f.Leaves v b) : e.outs u = f.outs v := by
  have hfront : as.filter (· ∈ left (e.threads u)) = [] := by
    refine List.filter_eq_nil_iff.mpr fun b hb => ?_
    rw [decide_eq_true_eq, mem_left]
    exact hnone b hb
  rw [outs, hsites, List.filter_append, hfront, List.nil_append]
  exact filter_left_eq h

/-- And those that stand behind. -/
theorem acts_eq_left {as : List ι} {d : α} (hsites : e.sites = f.sites ++ as) (hnone : ∀ b ∈ as, ¬ e.Fires u c b)
    (h : ∀ b ∈ f.sites, e.Fires u c b ↔ f.Fires v d b) : e.acts u c = f.acts v d := by
  have hbehind : as.filter (· ∈ fired (e.threads u) c) = [] := by
    refine List.filter_eq_nil_iff.mpr fun b hb => ?_
    rw [decide_eq_true_eq, mem_fired]
    exact hnone b hb
  rw [acts, hsites, List.filter_append, hbehind, List.append_nil]
  exact filter_fired_eq h

theorem outs_eq_left {as : List ι} (hsites : e.sites = f.sites ++ as) (hnone : ∀ b ∈ as, ¬ e.Leaves u b)
    (h : ∀ b ∈ f.sites, e.Leaves u b ↔ f.Leaves v b) : e.outs u = f.outs v := by
  have hbehind : as.filter (· ∈ left (e.threads u)) = [] := by
    refine List.filter_eq_nil_iff.mpr fun b hb => ?_
    rw [decide_eq_true_eq, mem_left]
    exact hnone b hb
  rw [outs, hsites, List.filter_append, hbehind, List.append_nil]
  exact filter_left_eq h

theorem mem_eventsFrom {n : ℕ} (h : (n, a) ∈ e.eventsFrom u v) : ∃ x c, x ++ [c] <+: v ∧ e.Fires (u ++ x) c a := by
  induction v generalizing u with
  | nil => cases h
  | cons c v ih =>
    rw [eventsFrom, List.mem_append] at h
    rcases h with h | h
    · obtain ⟨b, hb, heq⟩ := List.mem_map.mp h
      obtain rfl : b = a := congrArg Prod.snd heq
      exact ⟨[], c, ⟨v, rfl⟩, by simpa using mem_acts.mp hb⟩
    · obtain ⟨x, d, hx, hfire⟩ := ih h
      exact ⟨c :: x, d, List.cons_prefix_cons.mpr ⟨rfl, hx⟩, by simpa using hfire⟩

/-- Every action of a trace is executed on a transition or on leaving. -/
theorem mem_trace {n : ℕ} (h : (n, a) ∈ e.trace u) : (∃ x c, x ++ [c] <+: u ∧ e.Fires x c a) ∨ e.Leaves u a := by
  rcases List.mem_append.mp h with h | h
  · exact .inl (mem_eventsFrom h)
  · obtain ⟨b, hb, heq⟩ := List.mem_map.mp h
    obtain rfl : b = a := congrArg Prod.snd heq
    exact .inr (mem_left.mp (of_decide_eq_true (List.mem_filter.mp hb).2))

theorem eventsFrom_congr {k : ℕ} (hlength : u.length = k + v.length)
    (h : ∀ x c, x ++ [c] <+: w → e.acts (u ++ x) c = f.acts (v ++ x) c) :
    e.eventsFrom u w = shift k (f.eventsFrom v w) := by
  induction w generalizing u v with
  | nil => rfl
  | cons c w ih =>
    have hhead := h [] c ⟨w, rfl⟩
    rw [List.append_nil, List.append_nil] at hhead
    have htail := ih (u := u ++ [c]) (v := v ++ [c]) (by simp [hlength, Nat.add_assoc]) fun x d hx => by
      have hnext := h (c :: x) d (List.cons_prefix_cons.mpr ⟨rfl, hx⟩)
      rwa [List.append_cons, List.append_cons v c x] at hnext
    rw [eventsFrom, eventsFrom, hhead, htail, shift, shift, List.map_append, List.map_map, hlength]
    rfl

theorem eventsFrom_append : e.eventsFrom u (v ++ w) = e.eventsFrom u v ++ e.eventsFrom (u ++ v) w := by
  induction v generalizing u with
  | nil => rw [List.nil_append, List.append_nil, eventsFrom, List.nil_append]
  | cons c v ih => rw [List.cons_append, eventsFrom, ih, eventsFrom, List.append_assoc, List.append_assoc,
      List.singleton_append]

theorem events_congr (h : ∀ x c, x ++ [c] <+: w → e.acts x c = f.acts x c) : e.events w = f.events w := by
  have hfrom := eventsFrom_congr (u := []) (v := []) (k := 0) rfl h
  rwa [shift_zero] at hfrom

theorem events_eq_nil (h : ∀ x c, x ++ [c] <+: w → ∀ a, ¬ e.Fires x c a) : e.events w = [] := by
  rw [events_congr (f := eps) fun x c hx => ?_]
  · have hnil : ∀ u w : List α, (eps : Machine α ι).eventsFrom u w = [] := by
      intro u w
      induction w generalizing u with
      | nil => rfl
      | cons c w ih => exact ih (u ++ [c])
    exact hnil [] w
  · rw [acts_eq_nil (h x c hx)]
    rfl

/-! ### Concatenations -/

section
variable (h : Splits e f u w) (hd : e.sites.Disjoint f.sites)
include h hd

theorem Splits.acts_left (hx : x ++ [c] <+: u) : (cat e f).acts x c = e.acts x c := by
  refine acts_eq_left rfl (fun a ha hfire => ?_) fun a _ => h.fires_left hx
  exact hd ((h.fires_left hx).mp hfire).mem_sites ha

theorem Splits.acts_right (hx : x ++ [c] <+: w) (hf : x = [] → f.Alive [c]) :
    (cat e f).acts (u ++ x) c = (if x = [] then e.outs u else []) ++ f.acts x c := by
  rw [acts, sites, List.filter_append]
  congr 1
  · rw [outs]
    by_cases hempty : x = []
    · rw [if_pos hempty]
      refine List.filter_congr fun a ha => decide_eq_decide.mpr ?_
      rw [mem_fired, mem_left, h.fires_right hx]
      refine ⟨fun hfire => ?_, fun hleave => .inl ⟨hempty, hleave, hf hempty⟩⟩
      rcases hfire with hfire | hfire
      · exact hfire.2.1
      · exact absurd hfire.mem_sites (hd ha)
    · rw [if_neg hempty]
      refine List.filter_eq_nil_iff.mpr fun a ha => ?_
      rw [decide_eq_true_eq, mem_fired, h.fires_right hx]
      rintro (hfire | hfire)
      · exact hempty hfire.1
      · exact hd ha hfire.mem_sites
  · refine filter_fired_eq fun a ha => ?_
    rw [h.fires_right hx]
    refine ⟨fun hfire => hfire.resolve_left fun hleave => ?_, .inr⟩
    exact hd hleave.2.1.mem_sites ha

/-- Without the actions on leaving, if the text ends where the first machine may end. -/
theorem Splits.events_left : (cat e f).events u = e.events u := events_congr fun _ _ hx => h.acts_left hd hx

theorem Splits.events_append (hf : ∀ c ∈ w.head?, f.Alive [c]) : (cat e f).events (u ++ w) =
    e.events u ++ (if w = [] then [] else (e.outs u).map (u.length, ·)) ++ shift u.length (f.events w) := by
  rw [events, eventsFrom_append, List.nil_append, ← events, h.events_left hd, List.append_assoc]
  congr 1
  cases w with
  | nil => rfl
  | cons c w =>
    have hfirst := h.acts_right hd (x := []) ⟨w, rfl⟩ fun _ => hf c rfl
    have hrest : (cat e f).eventsFrom (u ++ [c]) w = shift u.length (f.eventsFrom [c] w) := by
      refine eventsFrom_congr (by simp) fun x d hx => ?_
      have hnext := h.acts_right hd (x := c :: x) (List.cons_prefix_cons.mpr ⟨rfl, hx⟩) nofun
      rw [if_neg (List.cons_ne_nil c x), List.nil_append] at hnext
      rwa [List.append_assoc]
    rw [List.append_nil, if_pos rfl] at hfirst
    rw [eventsFrom, hfirst, hrest, if_neg (List.cons_ne_nil c w), events, eventsFrom, List.map_append, shift_append,
      List.append_assoc]
    simp [shift, Function.comp_def]

/-- The first machine executes all it has on its part, and then the second one on the rest. -/
theorem Splits.trace_append (hw : w ∈ f.language) :
    (cat e f).trace (u ++ w) = e.trace u ++ shift u.length (f.trace w) := by
  have halive : ∀ c ∈ w.head?, f.Alive [c] := by
    intro c hc
    obtain ⟨ws, rfl⟩ := List.head?_eq_some_iff.mp hc
    exact Alive.left (v := ws) (alive_of_mem hw)
  have houts : (cat e f).outs (u ++ w) = (if w = [] then e.outs u else []) ++ f.outs w := by
    rw [outs, sites, List.filter_append]
    congr 1
    · by_cases hempty : w = []
      · rw [if_pos hempty, outs]
        refine List.filter_congr fun a ha => decide_eq_decide.mpr ?_
        rw [mem_left, mem_left, h.leaves]
        refine ⟨fun hleave => ?_, fun hleave => .inl ⟨hempty, hleave, nullable_iff.mpr (hempty ▸ hw)⟩⟩
        rcases hleave with hleave | hleave
        · exact hleave.2.1
        · exact absurd hleave.mem_sites (hd ha)
      · rw [if_neg hempty]
        refine List.filter_eq_nil_iff.mpr fun a ha => ?_
        rw [decide_eq_true_eq, mem_left, h.leaves]
        rintro (hleave | hleave)
        · exact hempty hleave.1
        · exact hd ha hleave.mem_sites
    · refine filter_left_eq fun a ha => ?_
      rw [h.leaves]
      exact ⟨fun hleave => hleave.resolve_left fun hleave => hd hleave.2.1.mem_sites ha, .inr⟩
  rw [trace, h.events_append hd halive, houts, List.length_append, trace, trace, shift_append]
  by_cases hempty : w = []
  · subst hempty
    simp [shift, Function.comp_def, events, eventsFrom]
  · simp [hempty, shift, Function.comp_def]

end

/-! ### Alternatives -/

/-- The machine executes nothing on the text. -/
structure Silent (e : Machine α ι) (u : List α) : Prop where
  fires : ∀ v c, v ++ [c] <+: u → ∀ a, ¬ e.Fires v c a
  leaves : ∀ a, ¬ e.Leaves u a

omit [DecidableEq ι] in
theorem silent_of_sites (h : e.sites = []) (u : List α) : e.Silent u where
  fires _ _ _ _ := not_fires_of_sites h
  leaves _ := not_leaves_of_sites h

theorem Silent.trace (h : e.Silent u) : e.trace u = [] := by
  rw [Machine.trace, events_eq_nil h.fires, outs_eq_nil h.leaves]
  rfl

theorem trace_alt_left (hd : e.sites.Disjoint f.sites) (hf : f.Silent u) : (alt e f).trace u = e.trace u := by
  have hacts : ∀ v c, v ++ [c] <+: u → (alt e f).acts v c = e.acts v c := by
    intro v c hv
    refine acts_eq_left rfl (fun a ha hfire => ?_) fun a _ => ?_
    · exact (fires_alt.mp hfire).elim (fun hfire => hd hfire.mem_sites ha) (hf.fires v c hv a)
    · rw [fires_alt]
      exact or_iff_left (hf.fires v c hv a)
  have houts : (alt e f).outs u = e.outs u := by
    refine outs_eq_left rfl (fun a ha hleave => ?_) fun a _ => ?_
    · exact (leaves_alt.mp hleave).elim (fun hleave => hd hleave.mem_sites ha) (hf.leaves a)
    · rw [leaves_alt]
      exact or_iff_left (hf.leaves a)
  rw [trace, trace, events_congr hacts, houts]

/-! ### Embedded actions -/

theorem acts_enter (ha : a ∉ e.sites) (hx : x ≠ [] ∨ ¬ e.Alive [c]) : (enter a e).acts x c = e.acts x c := by
  refine acts_eq_right (List.singleton_append ..).symm (List.forall_mem_singleton.mpr fun hfire => ?_) fun b hb => ?_
  · rcases fires_enter.mp hfire with ⟨-, hempty, halive⟩ | hfire
    · exact hx.elim (fun hne => hne hempty) fun hdead => hdead halive
    · exact ha hfire.mem_sites
  · rw [fires_enter]
    refine or_iff_right ?_
    rintro ⟨rfl, -⟩
    exact ha hb

/-- An action on entering comes first. -/
theorem events_enter (ha : a ∉ e.sites) (hc : e.Alive [c]) (u : List α) :
    (enter a e).events (c :: u) = (0, a) :: e.events (c :: u) := by
  have hfirst : (enter a e).acts [] c = a :: e.acts [] c := by
    have hmem : a ∈ fired ((enter a e).threads []) c := mem_fired.mpr (fires_enter.mpr (.inl ⟨rfl, rfl, hc⟩))
    rw [acts, sites, List.filter_cons_of_pos (by simpa using hmem)]
    congr 1
    refine filter_fired_eq fun b hb => ?_
    rw [fires_enter]
    refine or_iff_right ?_
    rintro ⟨rfl, -⟩
    exact ha hb
  have hrest : (enter a e).eventsFrom [c] u = shift 0 (e.eventsFrom [c] u) :=
    eventsFrom_congr rfl fun x d _ => acts_enter ha (.inl (by simp))
  rw [events, eventsFrom, hfirst, List.nil_append, hrest, shift_zero]
  rfl

theorem outs_enter (ha : a ∉ e.sites) (u : List α) : (enter a e).outs u = e.outs u := by
  refine outs_eq_right (List.singleton_append ..).symm (List.forall_mem_singleton.mpr fun hleave => ?_) fun b _ =>
    leaves_enter
  exact ha (leaves_enter.mp hleave).mem_sites

theorem trace_enter (ha : a ∉ e.sites) (hc : e.Alive [c]) (u : List α) :
    (enter a e).trace (c :: u) = (0, a) :: e.trace (c :: u) := by
  rw [trace, events_enter ha hc, outs_enter ha]
  rfl

/-- There is nothing to enter. -/
theorem trace_enter_nil (ha : a ∉ e.sites) : (enter a e).trace [] = e.trace [] := by
  rw [trace, outs_enter ha]
  rfl

theorem events_leave (ha : a ∉ e.sites) (u : List α) : (leave a e).events u = e.events u := by
  refine events_congr fun x c _ => acts_eq_left rfl (List.forall_mem_singleton.mpr fun hfire => ?_) fun b _ => fires_leave
  exact ha (fires_leave.mp hfire).mem_sites

/-- An action on leaving comes last. -/
theorem outs_leave (ha : a ∉ e.sites) (hu : u ∈ e.language) : (leave a e).outs u = e.outs u ++ [a] := by
  have hmem : a ∈ left ((leave a e).threads u) := mem_left.mpr (leaves_leave.mpr (.inr ⟨rfl, hu⟩))
  rw [outs, sites, List.filter_append, List.filter_cons_of_pos (by simpa using hmem), List.filter_nil]
  congr 1
  refine filter_left_eq fun b hb => ?_
  rw [leaves_leave]
  refine or_iff_left ?_
  rintro ⟨rfl, -⟩
  exact ha hb

/-- The actions of a machine that has them only where it is entered and left. -/
def marks (a b : ι) (u : List α) : List (ℕ × ι) := (if u = [] then [] else [(0, a)]) ++ [(u.length, b)]

section
variable {b : ι} (he : e.sites = [])
include he

theorem events_eq_nil_of_sites (u : List α) : e.events u = [] := events_eq_nil fun _ _ _ _ => not_fires_of_sites he

/-- Whether the machine is entered is decided by the first character. -/
theorem events_marked (hab : b ≠ a) [Decidable (∃ c ∈ u.head?, e.Alive [c])] :
    (leave b (enter a e)).events u = if ∃ c ∈ u.head?, e.Alive [c] then [(0, a)] else [] := by
  have ha : a ∉ e.sites := by simp [he]
  have hb : b ∉ (enter a e).sites := by simp [sites, he, hab]
  rw [events_leave hb]
  cases u with
  | nil => exact (if_neg (by simp)).symm
  | cons c u =>
    by_cases hc : e.Alive [c]
    · rw [events_enter ha hc, events_eq_nil_of_sites he, if_pos ⟨c, rfl, hc⟩]
    · have hnone : ¬ ∃ d ∈ (c :: u).head?, e.Alive [d] := by
        rintro ⟨d, hd, halive⟩
        exact hc (Option.some.inj hd ▸ halive)
      have hsame : (enter a e).events (c :: u) = e.events (c :: u) := by
        refine events_congr fun x d hx => acts_enter ha ?_
        cases x with
        | nil => exact .inr ((List.cons_prefix_cons.mp hx).1 ▸ hc)
        | cons y x => exact .inl (List.cons_ne_nil y x)
      rw [if_neg hnone, hsame, events_eq_nil_of_sites he]

theorem outs_marked (hab : b ≠ a) (hu : u ∈ e.language) : (leave b (enter a e)).outs u = [b] := by
  have ha : a ∉ e.sites := by simp [he]
  have hb : b ∉ (enter a e).sites := by simp [sites, he, hab]
  rw [outs_leave hb hu, outs_enter ha, outs_eq_nil fun c => not_leaves_of_sites he]
  rfl

theorem trace_marked (hab : b ≠ a) (hu : u ∈ e.language) : (leave b (enter a e)).trace u = marks a b u := by
  classical
  rw [trace, events_marked he hab, outs_marked he hab hu, marks]
  cases u with
  | nil => rfl
  | cons c u => rw [if_pos ⟨c, rfl, Alive.left (v := u) (alive_of_mem hu)⟩, if_neg (List.cons_ne_nil c u), List.map_singleton]

end

/-! ### Single characters and optional parts -/

section
variable {p : α → Bool} {d : α}

theorem acts_one_cat_nil : (cat (one p) f).acts [] c = [] := by
  refine acts_eq_nil fun a hfire => ?_
  obtain ⟨d, v, hempty, -⟩ := fires_one_cat.mp hfire
  cases hempty

theorem acts_one_cat (hd : p d = true) : (cat (one p) f).acts (d :: x) c = f.acts x c := by
  refine acts_congr (fun a => ?_) rfl
  rw [fires_one_cat]
  refine ⟨fun ⟨_, _, hdx, _, hfire⟩ => ?_, fun hfire => ⟨d, x, rfl, hd, hfire⟩⟩
  obtain ⟨rfl, rfl⟩ := List.cons.inj hdx
  exact hfire

theorem events_one_cat (hd : p d = true) (w : List α) : (cat (one p) f).events (d :: w) = shift 1 (f.events w) := by
  rw [events, eventsFrom, acts_one_cat_nil, events]
  exact eventsFrom_congr rfl fun x c _ => acts_one_cat hd

theorem trace_one_cat (hd : p d = true) (w : List α) : (cat (one p) f).trace (d :: w) = shift 1 (f.trace w) := by
  have houts : (cat (one p) f).outs (d :: w) = f.outs w := by
    refine filter_left_eq (g := f) fun a _ => ?_
    rw [leaves_one_cat]
    refine ⟨fun ⟨_, _, hdw, _, hleave⟩ => ?_, fun hleave => ⟨d, w, rfl, hd, hleave⟩⟩
    obtain ⟨rfl, rfl⟩ := List.cons.inj hdw
    exact hleave
  rw [trace, events_one_cat hd, houts, trace, shift_append, List.length_cons, Nat.add_comm]
  congr 1
  rw [shift, List.map_map]
  rfl

end

/-- A machine that cannot end at once executes nothing on the empty text. -/
theorem trace_nil (h : e.nullable = false) : e.trace [] = [] := by
  rw [trace, outs_eq_nil fun a hleave => ?_]
  · rfl
  · rw [nullable_iff.mpr hleave.mem] at h
    cases h

theorem trace_opt (u : List α) : (opt e).trace u = e.trace u :=
  trace_alt_left (List.disjoint_nil_right _) (silent_of_sites rfl u)

theorem events_opt (u : List α) : (opt e).events u = e.events u := by
  refine events_congr fun x c _ => acts_congr (fun a => ?_) (List.append_nil _)
  rw [opt, fires_alt]
  exact or_iff_left (not_fires_of_sites rfl)

/-! ### A part behind a separator -/

/-- The text of an optional part with a separator in front. -/
def opened (s : α) : Option (List α) → List α
  | none => []
  | some u => s :: u

section
variable [DecidableEq α] {s : α}

omit [DecidableEq ι] in
theorem mem_language_opened :
    u ∈ (opt (cat (one (· == s)) f)).language ↔ ∃ o, u = opened s o ∧ ∀ v ∈ o, v ∈ f.language := by
  rw [mem_language_opt, mem_language_one_cat]
  simp only [beq_iff_eq]
  constructor
  · rintro (⟨d, v, rfl, rfl, hv⟩ | rfl)
    · exact ⟨some v, rfl, fun w hw => Option.some.inj hw ▸ hv⟩
    · exact ⟨none, rfl, nofun⟩
  · rintro ⟨o, rfl, ho⟩
    cases o with
    | none => exact .inr rfl
    | some v => exact .inl ⟨s, v, rfl, rfl, ho v rfl⟩

omit [DecidableEq ι] in
/-- What begins with no separator is not read. -/
theorem alive_opened {c : α} (h : (opt (cat (one (· == s)) f)).Alive (c :: u)) : c = s := by
  rw [opt, alive_alt, alive_one_cat, alive_eps] at h
  rcases h with ⟨hc, -⟩ | h
  · exact eq_of_beq hc
  · cases h

theorem trace_opened (f : Machine α ι) (o : Option (List α)) : (opt (cat (one (· == s)) f)).trace (opened s o) =
    (o.map fun u => shift 1 (f.trace u)).getD [] := by
  rw [trace_opt]
  cases o with
  | none => exact trace_nil rfl
  | some u => exact trace_one_cat (by simp) u

end

/-! ### A part that a separator ends -/

/-- The text of an optional part with a separator behind. -/
def ended (s : α) : Option (List α) → List α
  | none => []
  | some u => u ++ [s]

section
variable [DecidableEq α] {s : α} {b : ι}

omit [DecidableEq ι] in
theorem mem_language_ended : u ∈ (cat (leave a e) (one (· == s))).language ↔ ∃ v, u = v ++ [s] ∧ v ∈ e.language := by
  simp only [mem_language_cat, mem_language_one, beq_iff_eq]
  constructor
  · rintro ⟨v, _, rfl, hv, d, rfl, rfl⟩
    exact ⟨v, rfl, hv⟩
  · rintro ⟨v, rfl, hv⟩
    exact ⟨v, [s], rfl, hv, s, rfl, rfl⟩

omit [DecidableEq ι] in
theorem mem_language_opt_ended :
    u ∈ (opt (cat (leave a e) (one (· == s)))).language ↔ ∃ o, u = ended s o ∧ ∀ v ∈ o, v ∈ e.language := by
  rw [mem_language_opt, mem_language_ended]
  constructor
  · rintro (⟨v, rfl, hv⟩ | rfl)
    · exact ⟨some v, rfl, fun w hw => Option.some.inj hw ▸ hv⟩
    · exact ⟨none, rfl, nofun⟩
  · rintro ⟨o, rfl, ho⟩
    cases o with
    | none => exact .inr rfl
    | some v => exact .inl ⟨v, rfl, ho v rfl⟩

omit [DecidableEq ι] in
theorem not_leaves_ended : ¬ (opt (cat (leave a e) (one (· == s)))).Leaves u b := by
  rw [opt, leaves_alt, leaves_cat]
  rintro ((⟨-, hnull⟩ | ⟨v, w, -, -, hleave⟩) | hleave)
  · cases hnull
  · exact not_leaves_of_sites rfl hleave
  · exact not_leaves_of_sites rfl hleave

omit [DecidableEq ι] in
theorem fires_ended (he : e.sites = []) : (cat (opt (cat (leave a e) (one (· == s)))) f).Fires u c b ↔
    (b = a ∧ u ∈ e.language ∧ c = s) ∨ f.Fires u c b ∨ ∃ v w, u = v ++ s :: w ∧ v ∈ e.language ∧ f.Fires w c b := by
  have hended : (opt (cat (leave a e) (one (· == s)))).Fires u c b ↔ b = a ∧ u ∈ e.language ∧ c = s := by
    rw [opt, fires_alt, or_iff_left (not_fires_of_sites rfl), fires_cat, fires_leave,
      or_iff_right (not_fires_of_sites he), leaves_leave, or_iff_right (not_leaves_of_sites he), alive_one_singleton,
      beq_iff_eq, and_assoc]
    refine or_iff_left ?_
    rintro ⟨v, w, -, -, hfire⟩
    exact not_fires_of_sites rfl hfire
  rw [fires_cat, hended]
  refine or_congr_right ((or_iff_right fun h => not_leaves_ended h.1).trans ?_)
  simp only [mem_language_opt, mem_language_ended]
  constructor
  · rintro ⟨_, w, rfl, ⟨v, rfl, hv⟩ | rfl, hfire⟩
    · exact .inr ⟨v, w, List.append_assoc v [s] w, hv, hfire⟩
    · exact .inl hfire
  · rintro (hfire | ⟨v, w, rfl, hv, hfire⟩)
    · exact ⟨[], u, rfl, .inr rfl, hfire⟩
    · exact ⟨v ++ [s], w, by simp, .inl ⟨v, rfl, hv⟩, hfire⟩

omit [DecidableEq ι] in
theorem leaves_ended : (cat (opt (cat (leave a e) (one (· == s)))) f).Leaves u b ↔
    f.Leaves u b ∨ ∃ v w, u = v ++ s :: w ∧ v ∈ e.language ∧ f.Leaves w b := by
  rw [leaves_cat, or_iff_right fun h => not_leaves_ended h.1]
  simp only [mem_language_opt, mem_language_ended]
  constructor
  · rintro ⟨_, w, rfl, ⟨v, rfl, hv⟩ | rfl, hleave⟩
    · exact .inr ⟨v, w, List.append_assoc v [s] w, hv, hleave⟩
    · exact .inl hleave
  · rintro (hleave | ⟨v, w, rfl, hv, hleave⟩)
    · exact ⟨[], u, rfl, .inr rfl, hleave⟩
    · exact ⟨v ++ [s], w, by simp, .inl ⟨v, rfl, hv⟩, hleave⟩

section
variable (he : e.sites = []) (ha : a ∉ f.sites)
include he ha

omit [DecidableEq ι] he ha in
theorem sites_ended (he : e.sites = []) : (cat (opt (cat (leave a e) (one (· == s)))) f).sites = [a] ++ f.sites := by
  simp [opt, sites, he]

theorem acts_unended (hs : s ∉ x ++ [c]) : (cat (opt (cat (leave a e) (one (· == s)))) f).acts x c = f.acts x c := by
  have hfires : ∀ b, (cat (opt (cat (leave a e) (one (· == s)))) f).Fires x c b ↔ f.Fires x c b := by
    intro b
    rw [fires_ended he]
    refine ⟨?_, fun hfire => .inr (.inl hfire)⟩
    rintro (⟨-, -, rfl⟩ | hfire | ⟨v, w, rfl, -, -⟩)
    · exact absurd (by simp) hs
    · exact hfire
    · exact absurd (by simp) hs
  refine acts_eq_right (sites_ended he) (List.forall_mem_singleton.mpr fun hfire => ?_) fun b _ => hfires b
  exact ha ((hfires a).mp hfire).mem_sites

/-- There is no separator. -/
theorem trace_unended (hs : s ∉ u) : (cat (opt (cat (leave a e) (one (· == s)))) f).trace u = f.trace u := by
  have hleaves : ∀ b, (cat (opt (cat (leave a e) (one (· == s)))) f).Leaves u b ↔ f.Leaves u b := by
    intro b
    rw [leaves_ended]
    refine or_iff_left ?_
    rintro ⟨v, w, rfl, -, -⟩
    exact hs (by simp)
  have houts : (cat (opt (cat (leave a e) (one (· == s)))) f).outs u = f.outs u := by
    refine outs_eq_right (sites_ended he) (List.forall_mem_singleton.mpr fun hleave => ?_) fun b _ => hleaves b
    exact ha ((hleaves a).mp hleave).mem_sites
  rw [trace, events_congr fun x c hx => acts_unended he ha fun h => hs (hx.subset h), houts, trace]

/-- Up to the separator `f` has been executed, too. -/
theorem trace_ended (hs : ∀ v ∈ e.language, s ∉ v) (hf : ∀ x, f.Alive x → s ∉ x) (hu : u ∈ e.language) (w : List α) :
    (cat (opt (cat (leave a e) (one (· == s)))) f).trace (u ++ s :: w) =
      f.events u ++ (u.length, a) :: shift (u.length + 1) (f.trace w) := by
  have hdead : ∀ x, ¬ f.Alive (u ++ s :: x) := fun x h => hf _ h (by simp)
  have hsep : (cat (opt (cat (leave a e) (one (· == s)))) f).acts u s = [a] := by
    have hnone : ∀ b ∈ f.sites, ¬ (cat (opt (cat (leave a e) (one (· == s)))) f).Fires u s b := by
      intro b hb
      rw [fires_ended he]
      rintro (⟨rfl, -, -⟩ | hfire | ⟨v, w, rfl, -, -⟩)
      · exact ha hb
      · exact hdead [] hfire.alive
      · exact hs _ hu (by simp)
    have hfilter := List.filter_eq_nil_iff.mpr fun b hb => mt of_decide_eq_true (mt mem_fired.mp (hnone b hb))
    have hfire : (cat (opt (cat (leave a e) (one (· == s)))) f).Fires u s a := (fires_ended he).mpr (.inl ⟨rfl, hu, rfl⟩)
    have hmem := mem_fired.mpr hfire
    rw [acts, sites_ended he, List.filter_append, hfilter, List.filter_cons_of_pos (by simpa using hmem)]
    rfl
  have hrest : ∀ x c, (cat (opt (cat (leave a e) (one (· == s)))) f).acts (u ++ s :: x) c = f.acts x c := by
    intro x c
    have hfires : ∀ b, (cat (opt (cat (leave a e) (one (· == s)))) f).Fires (u ++ s :: x) c b ↔ f.Fires x c b := by
      intro b
      rw [fires_ended he]
      refine ⟨?_, fun hfire => .inr (.inr ⟨u, x, rfl, hu, hfire⟩)⟩
      rintro (⟨-, hmem, -⟩ | hfire | ⟨v, w, heq, hv, hfire⟩)
      · exact absurd (by simp) (hs _ hmem)
      · exact absurd hfire.alive.left (hdead x)
      · rwa [(Segments.append_cons_inj (hs u hu) (hs v hv) heq).2]
    refine acts_eq_right (sites_ended he) (List.forall_mem_singleton.mpr fun hfire => ?_) fun b _ => hfires b
    exact ha ((hfires a).mp hfire).mem_sites
  have houts : (cat (opt (cat (leave a e) (one (· == s)))) f).outs (u ++ s :: w) = f.outs w := by
    have hleaves : ∀ b, (cat (opt (cat (leave a e) (one (· == s)))) f).Leaves (u ++ s :: w) b ↔ f.Leaves w b := by
      intro b
      rw [leaves_ended]
      refine ⟨?_, fun hleave => .inr ⟨u, w, rfl, hu, hleave⟩⟩
      rintro (hleave | ⟨v, w', heq, hv, hleave⟩)
      · exact absurd (alive_of_mem hleave.mem) (hdead w)
      · rwa [(Segments.append_cons_inj (hs u hu) (hs v hv) heq).2]
    refine outs_eq_right (sites_ended he) (List.forall_mem_singleton.mpr fun hleave => ?_) fun b _ => hleaves b
    exact ha ((hleaves a).mp hleave).mem_sites
  have hevents : (cat (opt (cat (leave a e) (one (· == s)))) f).eventsFrom (u ++ [s]) w =
      shift (u.length + 1) (f.events w) := by
    refine eventsFrom_congr (by simp) fun x c _ => ?_
    rw [List.append_assoc]
    exact hrest x c
  have hfront : (cat (opt (cat (leave a e) (one (· == s)))) f).eventsFrom [] u = f.events u :=
    events_congr fun x c hx => acts_unended he ha fun h => hs u hu (hx.subset h)
  rw [trace, events, eventsFrom_append, hfront, List.nil_append, eventsFrom, hsep, hevents, houts, trace, shift_append,
    List.append_assoc, List.append_assoc]
  simp [shift, Function.comp_def, Nat.add_comm, Nat.add_left_comm]

end

end

end

/-! ## Runs -/

section
variable {α ι σ ε : Type} [DecidableEq ι] {e : Machine α ι} {u v : List α} {c : α} {act : σ → ℕ → ι → Except ε σ}
  {s s' : σ}

omit [DecidableEq ι] in
theorem next_isEmpty_iff : (next (e.threads u) c).isEmpty = true ↔ ¬ e.Alive (u ++ [c]) := by
  rw [List.isEmpty_iff, List.eq_nil_iff_forall_not_mem, Alive, not_exists, threads_append]
  rfl

/-- A run accepts a text of the language, with what its actions come to. -/
theorem run_eq_ok_iff : run e.sites act [e] 0 v s = .ok (some s') ↔
    v ∈ e.language ∧ (e.trace v).foldlM (fun s x => act s x.1 x.2) s = .ok s' := by
  have hmap : ∀ (u : List α) (as : List ι) (s : σ), (as.map (u.length, ·)).foldlM (fun s x => act s x.1 x.2) s =
      as.foldlM (fun s a => act s u.length a) s := fun u as s => List.foldlM_map ..
  have hfrom : ∀ u v s, run e.sites act (e.threads u) u.length v s = .ok (some s') ↔ u ++ v ∈ e.language ∧
      (e.eventsFrom u v ++ (e.outs (u ++ v)).map ((u ++ v).length, ·)).foldlM (fun s x => act s x.1 x.2) s =
        .ok s' := by
    intro u v s
    induction v generalizing u s with
    | nil =>
      rw [run, List.append_nil, eventsFrom, List.nil_append, hmap, outs, mem_language_iff]
      by_cases hnull : (e.threads u).any nullable = true
      · rw [if_pos hnull, and_iff_right (List.any_eq_true.mp hnull)]
        cases (e.sites.filter (· ∈ left (e.threads u))).foldlM (fun s a => act s u.length a) s with
        | error err => exact iff_of_false nofun nofun
        | ok t =>
          constructor <;> rintro ⟨⟩ <;> rfl
      · rw [if_neg hnull]
        exact iff_of_false nofun fun h => hnull (List.any_eq_true.mpr h.1)
    | cons c v ih =>
      rw [run, List.append_cons, eventsFrom]
      by_cases halive : e.Alive (u ++ [c])
      · rw [if_neg (mt next_isEmpty_iff.mp (not_not.mpr halive)), List.append_assoc (List.map _ _), List.foldlM_append,
          hmap, acts]
        cases (e.sites.filter (· ∈ fired (e.threads u) c)).foldlM (fun s a => act s u.length a) s with
        | error err => exact iff_of_false nofun fun h => nomatch h.2
        | ok t =>
          have hnext := ih (u ++ [c]) t
          rw [threads_append, List.length_append] at hnext
          exact hnext
      · rw [if_pos (next_isEmpty_iff.mpr halive)]
        exact iff_of_false nofun fun h => halive (alive_of_mem h.1).left
  exact hfrom [] v s

end
end Flz.Lib.Machine
