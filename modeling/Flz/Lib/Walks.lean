import Flz.Lib.Table

/-! # Walks of a scanner

Where a scanner comes to with a text, when it is enough to know a set of states it can be in.
That the arcs from one set lead to another is checked on the table.
-/
namespace Flz.Lib

/-! ## Differences of classes -/

namespace ByteClass

/-- Whether two classes have a byte in common. -/
def meets (c d : ByteClass) : Bool :=
  List.any c fun r => List.any d fun q => q.1 ≤ r.2 && r.1 ≤ q.2

/-- An interval without another one. -/
def minus (q r : UInt8 × UInt8) : ByteClass :=
  if q.2 < r.1 ∨ r.2 < q.1 then [r]
  else (if r.1 < q.1 then [(r.1, q.1 - 1)] else []) ++ (if q.2 < r.2 then [(q.2 + 1, r.2)] else [])

/-- A class without another one. -/
def diff (c d : ByteClass) : ByteClass := d.foldl (fun c q => c.flatMap (minus q)) c

variable {c d : ByteClass} {b : UInt8}

theorem holds_iff : c.holds b = true ↔ ∃ r ∈ c, r.1 ≤ b ∧ b ≤ r.2 := by
  simp [holds]

theorem meets_of_holds (hc : c.holds b = true) (hd : d.holds b = true) : c.meets d = true := by
  obtain ⟨r, hr, hrb, hbr⟩ := holds_iff.mp hc
  obtain ⟨q, hq, hqb, hbq⟩ := holds_iff.mp hd
  have hlow : q.1 ≤ r.2 := UInt8.le_trans hqb hbr
  have hhigh : r.1 ≤ q.2 := UInt8.le_trans hrb hbq
  refine List.any_eq_true.mpr ⟨r, hr, List.any_eq_true.mpr ⟨q, hq, ?_⟩⟩
  rw [decide_eq_true hlow, decide_eq_true hhigh]
  rfl

theorem holds_minus {q r : UInt8 × UInt8} (hlow : r.1 ≤ b) (hhigh : b ≤ r.2)
    (hq : ¬ (q.1 ≤ b ∧ b ≤ q.2)) : (minus q r).holds b = true := by
  rw [UInt8.le_iff_toNat_le] at hlow hhigh
  rw [UInt8.le_iff_toNat_le, UInt8.le_iff_toNat_le] at hq
  rw [minus]
  split
  · exact holds_iff.mpr ⟨r, List.mem_singleton_self r, hlow, hhigh⟩
  · rename_i hmeet
    rw [UInt8.lt_iff_toNat_lt, UInt8.lt_iff_toNat_lt] at hmeet
    by_cases hbelow : b.toNat < q.1.toNat
    · have hlt : r.1 < q.1 := by
        rw [UInt8.lt_iff_toNat_lt]
        omega
      have hone : (1 : UInt8) ≤ q.1 := by
        rw [UInt8.le_iff_toNat_le]
        exact Nat.lt_of_le_of_lt (Nat.zero_le _) hbelow
      refine holds_iff.mpr ⟨(r.1, q.1 - 1), List.mem_append_left _ (by rw [if_pos hlt]; simp), hlow, ?_⟩
      rw [UInt8.le_iff_toNat_le, UInt8.toNat_sub_of_le _ _ hone]
      exact Nat.le_sub_one_of_lt hbelow
    · have hlt : q.2 < r.2 := by
        rw [UInt8.lt_iff_toNat_lt]
        omega
      have hbound := b.toNat_lt
      refine holds_iff.mpr ⟨(q.2 + 1, r.2), List.mem_append_right _ (by rw [if_pos hlt]; simp), ?_, hhigh⟩
      rw [UInt8.le_iff_toNat_le, UInt8.toNat_add]
      have hone : (1 : UInt8).toNat = 1 := rfl
      omega

theorem holds_diff (hc : c.holds b = true) (hd : d.holds b = false) : (c.diff d).holds b = true := by
  induction d generalizing c with
  | nil => exact hc
  | cons q d ih =>
    rw [holds, List.any_cons, Bool.or_eq_false_iff] at hd
    obtain ⟨hq, hd⟩ := hd
    refine ih ?_ hd
    obtain ⟨r, hr, hlow, hhigh⟩ := holds_iff.mp hc
    have hminus : (minus q r).holds b = true := by
      refine holds_minus hlow hhigh fun hboth => ?_
      simp [hboth.1, hboth.2] at hq
    obtain ⟨r', hr', hboth⟩ := holds_iff.mp hminus
    exact holds_iff.mpr ⟨r', List.mem_flatMap.mpr ⟨r, hr, hr'⟩, hboth⟩

end ByteClass

namespace Scanner
variable {β α : Type} {m : Scanner β α} {s t u p : ℕ} {xs ys bs : List β}

/-- From `s` the scanner reads all of `bs` and is then in `t`. -/
def Walks (m : Scanner β α) (s : ℕ) (bs : List β) (t : ℕ) : Prop := (m.stop s bs).2 = .reading t

theorem Walks.nil : m.Walks s [] s := rfl

theorem Walks.stop_append (h : m.Walks s xs t) (ys : List β) :
    m.stop s (xs ++ ys) = (xs.length + (m.stop t ys).1, (m.stop t ys).2) := (stop_resume h ys).1

theorem Walks.trace_append (h : m.Walks s xs t) (ys : List β) :
    m.trace p s (xs ++ ys) = m.trace p s xs ++ m.trace (p + xs.length) t ys := (stop_resume h ys).2 p

theorem Walks.append (hx : m.Walks s xs t) (hy : m.Walks t ys u) : m.Walks s (xs ++ ys) u := by
  rw [Walks, hx.stop_append]
  exact hy

theorem walks_byte {b : β} {as : List α} (harc : m.arc s b = some (as, t))
    (hstay : as.any m.leaves = false) : m.Walks s [b] t := by
  simp [Walks, stop, harc, hstay]

/-- What is read is walked. -/
theorem Reads.walks {ρ ε : Type} {act : ℕ → α → ρ → Except ε ρ} {r r' : ρ}
    (h : m.Reads act p s r xs t r') : m.Walks s xs t := by
  rw [Reads, run_eq] at h
  cases hperform : perform act (m.trace p s xs) r with
  | error e =>
    rw [hperform] at h
    cases h
  | ok out =>
    rw [hperform] at h
    simp only [Except.map, Except.ok.injEq, Prod.mk.injEq] at h
    exact h.2.1

/-! ## Sets of states -/

variable {rows : List (List (Arc α))} {leaves : α → Bool} {S T : List ℕ} {c d : ByteClass}
  {w : List UInt8} {b : UInt8}

/-- Whether the bytes of a class all have an arc in a row, one that stays in the scanner and leads
to `T`. -/
def rowLeads (leaves : α → Bool) (T : List ℕ) : List (Arc α) → ByteClass → Bool
  | [], c => c.isEmpty
  | a :: row, c =>
    ((!a.actions.any leaves && T.contains a.target) || !c.meets a.bytes) &&
      rowLeads leaves T row (c.diff a.bytes)

/-- Whether this is so in the rows of all states of `S`. -/
def leads (rows : List (List (Arc α))) (leaves : α → Bool) (S : List ℕ) (c : ByteClass) (T : List ℕ) :
    Bool :=
  S.all fun s => rowLeads leaves T (rows.getD s []) c

/-- Whether the bytes of a class all have an arc in a row, and a good one. -/
def rowAll (good : Arc α → Bool) : List (Arc α) → ByteClass → Bool
  | [], c => c.isEmpty
  | a :: row, c => (good a || !c.meets a.bytes) && rowAll good row (c.diff a.bytes)

theorem rowAll_find {good : Arc α → Bool} {row : List (Arc α)} (h : rowAll good row c = true)
    (hb : c.holds b = true) : ∃ a, row.find? (fun a => a.bytes.holds b) = some a ∧ good a = true := by
  induction row generalizing c with
  | nil =>
    rw [rowAll, List.isEmpty_iff] at h
    subst h
    cases hb
  | cons a row ih =>
    rw [rowAll, Bool.and_eq_true, Bool.or_eq_true, Bool.not_eq_true'] at h
    obtain ⟨hfirst, hrest⟩ := h
    cases ha : a.bytes.holds b with
    | true =>
      rcases hfirst with hgood | hno
      · exact ⟨a, List.find?_cons_of_pos ha, hgood⟩
      · rw [ByteClass.meets_of_holds hb ha] at hno
        cases hno
    | false =>
      obtain ⟨a', hfind, hgood⟩ := ih hrest (ByteClass.holds_diff hb ha)
      exact ⟨a', (List.find?_cons_of_neg (by rw [ha]; decide)).trans hfind, hgood⟩

theorem rowLeads_eq (row : List (Arc α)) (c : ByteClass) : rowLeads leaves T row c =
    rowAll (fun a => !a.actions.any leaves && T.contains a.target) row c := by
  induction row generalizing c with
  | nil => rfl
  | cons a row ih => rw [rowLeads, rowAll, ih]

theorem rowLeads_find {row : List (Arc α)} (h : rowLeads leaves T row c = true) (hb : c.holds b = true) :
    ∃ a, row.find? (fun a => a.bytes.holds b) = some a ∧ a.actions.any leaves = false ∧ a.target ∈ T := by
  rw [rowLeads_eq] at h
  obtain ⟨a, hfind, hgood⟩ := rowAll_find h hb
  rw [Bool.and_eq_true, Bool.not_eq_true'] at hgood
  exact ⟨a, hfind, hgood.1, List.contains_iff_mem.mp hgood.2⟩

theorem exists_arc (h : leads rows leaves S c T = true) (hs : s ∈ S) (hb : c.holds b = true) :
    ∃ as t, (ofRows rows leaves).arc s b = some (as, t) ∧ as.any leaves = false ∧ t ∈ T := by
  obtain ⟨a, hfind, hstay, ht⟩ := rowLeads_find (List.all_eq_true.mp h s hs) hb
  exact ⟨a.actions, a.target, Option.map_eq_some_iff.mpr ⟨a, hfind, rfl⟩, hstay, ht⟩

/-- Bytes that lead from a set to another and stay there. -/
theorem exists_walk (hfirst : leads rows leaves S c T = true) (hloop : leads rows leaves T c T = true)
    (hs : s ∈ S) (hne : w ≠ []) (hw : ∀ b ∈ w, c.holds b = true) :
    ∃ t ∈ T, (ofRows rows leaves).Walks s w t := by
  induction w generalizing s S with
  | nil => exact absurd rfl hne
  | cons b w ih =>
    obtain ⟨hb, hw⟩ := List.forall_mem_cons.mp hw
    obtain ⟨as, u, harc, hstay, hu⟩ := exists_arc hfirst hs hb
    by_cases hnil : w = []
    · subst hnil
      exact ⟨u, hu, walks_byte harc hstay⟩
    · obtain ⟨t, ht, hwalk⟩ := ih hloop hu hnil hw
      exact ⟨t, ht, (walks_byte harc hstay).append hwalk⟩

/-- Bytes, if any, that stay in a set. -/
theorem exists_walk_loop (hloop : leads rows leaves S c S = true) (hs : s ∈ S)
    (hw : ∀ b ∈ w, c.holds b = true) : ∃ t ∈ S, (ofRows rows leaves).Walks s w t := by
  by_cases hne : w = []
  · subst hne
    exact ⟨s, hs, Walks.nil⟩
  · exact exists_walk hloop hloop hs hne hw

/-! ## Sets of states, with the actions -/

/-- Whether the arcs for a class from the states of `S` have these actions and lead to `T`. -/
def does [DecidableEq α] (rows : List (List (Arc α))) (S : List ℕ) (c : ByteClass) (as : List α)
    (T : List ℕ) : Bool :=
  S.all fun s => rowAll (fun a => a.actions == as && T.contains a.target) (rows.getD s []) c

section
variable [DecidableEq α] {ρ ε : Type} {act : ℕ → α → ρ → Except ε ρ} {as : List α} {r r' : ρ}

theorem arc_of_does (h : does rows S c as T = true) (hs : s ∈ S) (hb : c.holds b = true) :
    ∃ t ∈ T, (ofRows rows leaves).arc s b = some (as, t) := by
  obtain ⟨a, hfind, hgood⟩ := rowAll_find (List.all_eq_true.mp h s hs) hb
  rw [Bool.and_eq_true, beq_iff_eq] at hgood
  obtain ⟨rfl, ht⟩ := hgood
  exact ⟨a.target, List.contains_iff_mem.mp ht, Option.map_eq_some_iff.mpr ⟨a, hfind, rfl⟩⟩

/-- One byte with its actions. -/
theorem reads_step (h : does rows S c as T = true) (hstay : as.any leaves = false) (hs : s ∈ S)
    (hb : c.holds b = true) (hact : as.foldlM (fun r a => act p a r) r = .ok r') :
    ∃ t ∈ T, (ofRows rows leaves).Reads act p s r [b] t r' := by
  obtain ⟨t, ht, harc⟩ : ∃ t ∈ T, (ofRows rows leaves).arc s b = some (as, t) := arc_of_does h hs hb
  exact ⟨t, ht, Reads.cons harc hstay hact Reads.nil⟩

/-- Bytes, if any, on which nothing happens. -/
theorem reads_loop (hloop : does rows S c [] S = true) (hs : s ∈ S) (hw : ∀ b ∈ w, c.holds b = true) :
    ∃ t ∈ S, (ofRows rows leaves).Reads act p s r w t r := by
  induction w generalizing p s with
  | nil => exact ⟨s, hs, Reads.nil⟩
  | cons b w ih =>
    obtain ⟨hb, hw⟩ := List.forall_mem_cons.mp hw
    obtain ⟨u, hu, harc⟩ : ∃ u ∈ S, (ofRows rows leaves).arc s b = some ([], u) := arc_of_does hloop hs hb
    obtain ⟨t, ht, hread⟩ := ih (p := p + 1) hu hw
    exact ⟨t, ht, Reads.cons harc rfl rfl hread⟩

/-- Bytes of which only the first one has actions. -/
theorem reads_word (hfirst : does rows S c as T = true) (hstay : as.any leaves = false)
    (hloop : does rows T d [] T = true) (hs : s ∈ S) (hb : c.holds b = true)
    (hw : ∀ b ∈ w, d.holds b = true) (hact : as.foldlM (fun r a => act p a r) r = .ok r') :
    ∃ t ∈ T, (ofRows rows leaves).Reads act p s r (b :: w) t r' := by
  obtain ⟨u, hu, harc⟩ : ∃ u ∈ T, (ofRows rows leaves).arc s b = some (as, u) := arc_of_does hfirst hs hb
  obtain ⟨t, ht, hread⟩ : ∃ t ∈ T, (ofRows rows leaves).Reads act (p + 1) u r' w t r' :=
    reads_loop hloop hu hw
  exact ⟨t, ht, Reads.cons harc hstay hact hread⟩

end

/-! ## Words in any case -/

/-- Whether the scanner follows a word from all states of `S`; a letter is a class of bytes. -/
def follows (rows : List (List (Arc α))) (leaves : α → Bool) : List ℕ → List (ByteClass × ℕ) → Bool
  | _, [] => true
  | S, (c, t) :: word => leads rows leaves S c [t] && follows rows leaves [t] word

/-- The state behind a word. -/
def behind (s : ℕ) (word : List (ByteClass × ℕ)) : ℕ := (word.getLast?.map Prod.snd).getD s

theorem behind_cons (s : ℕ) (e : ByteClass × ℕ) (word : List (ByteClass × ℕ)) :
    behind s (e :: word) = behind e.2 word := by
  cases word with
  | nil => rfl
  | cons e' word =>
    rw [behind, behind, List.getLast?_cons_cons]
    cases h : (e' :: word).getLast? with
    | none => simp at h
    | some x => rfl

theorem walks_word {word : List (ByteClass × ℕ)} (h : follows rows leaves S word = true) (hs : s ∈ S)
    (hw : List.Forall₂ (fun b e => ByteClass.holds e.1 b = true) w word) :
    (ofRows rows leaves).Walks s w (behind s word) := by
  induction hw generalizing s S with
  | nil => exact Walks.nil
  | @cons b e w word hb _ ih =>
    obtain ⟨c, t⟩ := e
    rw [follows, Bool.and_eq_true] at h
    obtain ⟨as, u, harc, hstay, hu⟩ := exists_arc h.1 hs hb
    rw [List.mem_singleton] at hu
    subst hu
    rw [behind_cons]
    exact (walks_byte harc hstay).append (ih h.2 List.mem_cons_self)

/-! ## What a state tells of the text -/

/-- Whether an arc for bytes in `c` leads to a state whose label, if it has one, is that of the
state `s` and the letter that `f` makes of these bytes. -/
def arcLabels (f : UInt8 → UInt8) (c : ByteClass) (label : ℕ → Option (List UInt8)) (s : ℕ)
    (a : Arc α) : Bool :=
  !c.meets a.bytes || (label a.target).all fun l =>
    label s == some l.dropLast && a.bytes.all fun r => r.1 == r.2 && l.getLast? == some (f r.1)

/-- Whether this is so for all arcs from states of `S`. -/
def labels (rows : List (List (Arc α))) (f : UInt8 → UInt8) (c : ByteClass)
    (label : ℕ → Option (List UInt8)) (S : List ℕ) : Bool :=
  S.all fun s => (rows.getD s []).all (arcLabels f c label s)

theorem label_arc {f : UInt8 → UInt8} {label : ℕ → Option (List UInt8)}
    (h : labels rows f c label S = true) (hs : s ∈ S) (hb : c.holds b = true) {as : List α}
    (harc : (ofRows rows leaves).arc s b = some (as, t)) {l : List UInt8} (hl : label t = some l) :
    ∃ l', label s = some l' ∧ l = l' ++ [f b] := by
  obtain ⟨a, hfind, heq⟩ := Option.map_eq_some_iff.mp harc
  cases heq
  have hholds : a.bytes.holds b = true := List.find?_some (p := fun a : Arc α => a.bytes.holds b) hfind
  have ha := List.all_eq_true.mp (List.all_eq_true.mp h s hs) a (List.mem_of_find?_eq_some hfind)
  rw [arcLabels, ByteClass.meets_of_holds hb hholds, Bool.not_true, Bool.false_or, hl, Option.all_some,
    Bool.and_eq_true, beq_iff_eq] at ha
  obtain ⟨hinit, hbytes⟩ := ha
  obtain ⟨r, hr, hlow, hhigh⟩ := ByteClass.holds_iff.mp hholds
  have hr' := List.all_eq_true.mp hbytes r hr
  rw [Bool.and_eq_true, beq_iff_eq, beq_iff_eq] at hr'
  obtain ⟨hone, hlast⟩ := hr'
  rw [← hone] at hhigh
  have hbr : b = r.1 := UInt8.le_antisymm hhigh hlow
  have hne : l ≠ [] := by
    intro hnil
    rw [hnil] at hlast
    cases hlast
  rw [List.getLast?_eq_some_getLast hne, Option.some.injEq] at hlast
  refine ⟨l.dropLast, hinit, ?_⟩
  rw [hbr, ← hlast, List.dropLast_append_getLast hne]

theorem label_walk {f : UInt8 → UInt8} {label : ℕ → Option (List UInt8)}
    (hlabels : labels rows f c label S = true) (hloop : leads rows leaves S c S = true) (hs : s ∈ S)
    (hw : ∀ b ∈ w, c.holds b = true) {before : List UInt8}
    (hbefore : ∀ l, label s = some l → l = before) (hwalk : (ofRows rows leaves).Walks s w t)
    {l : List UInt8} (hl : label t = some l) : l = before ++ w.map f := by
  induction w generalizing s before with
  | nil =>
    cases hwalk
    rw [List.map_nil, List.append_nil]
    exact hbefore l hl
  | cons b w ih =>
    obtain ⟨hb, hw⟩ := List.forall_mem_cons.mp hw
    obtain ⟨as, u, harc, hstay, hu⟩ := exists_arc hloop hs hb
    have hstay' : as.any (ofRows rows leaves).leaves = false := hstay
    have hrest : (ofRows rows leaves).Walks u w t := by
      rw [Walks, ← hwalk]
      simp [stop, harc, hstay']
    rw [List.map_cons, List.append_cons]
    refine ih hu hw (fun l' hl' => ?_) hrest
    obtain ⟨l, hlabel, rfl⟩ := label_arc hlabels hs hb harc hl'
    rw [hbefore l hlabel]

end Scanner
end Flz.Lib
