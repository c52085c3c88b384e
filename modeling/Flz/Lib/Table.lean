import Flz.Lib.Scanner

/-! # Scanners of bytes from a table

The row of a state lists its arcs; the first one whose class holds the byte is taken. A property
of all arcs is checked on the table.
-/
namespace Flz.Lib
variable {α : Type}

/-- A set of bytes as a list of closed intervals. -/
abbrev ByteClass := List (UInt8 × UInt8)

namespace ByteClass

def holds (c : ByteClass) (b : UInt8) : Bool := c.any (fun r => r.1 ≤ b && b ≤ r.2)

def byte (b : UInt8) : ByteClass := [(b, b)]

/-- A letter in both cases. -/
def anyCase (upper : UInt8) : ByteClass := [(upper, upper), (upper + 32, upper + 32)]

def any : ByteClass := [(0, 255)]
def digit : ByteClass := [(48, 57)]
def upper : ByteClass := [(65, 90)]
def alpha : ByteClass := [(65, 90), (97, 122)]
def xdigit : ByteClass := [(48, 57), (65, 70), (97, 102)]

end ByteClass

theorem forall_byte {p : UInt8 → Bool} (h : (List.range 256).all (fun n => p (UInt8.ofNat n)) = true)
    (b : UInt8) : p b = true := by
  have hb := List.all_eq_true.mp h b.toNat (List.mem_range.mpr b.toNat_lt)
  rwa [UInt8.ofNat_toNat] at hb

structure Arc (α : Type) where
  bytes : ByteClass
  actions : List α
  target : ℕ

namespace Scanner

/-- The scanner of a table; `leaves` are the actions that leave the loop. -/
def ofRows (rows : List (List (Arc α))) (leaves : α → Bool) : Scanner UInt8 α where
  arc s b := ((rows.getD s []).find? (fun a => a.bytes.holds b)).map (fun a => (a.actions, a.target))
  leaves := leaves

/-- Whether all arcs of a table have a property; `s` is the state of the first row. -/
def checkRows (p : ℕ → Arc α → Bool) : ℕ → List (List (Arc α)) → Bool
  | _, [] => true
  | s, row :: rows => row.all (p s) && checkRows p (s + 1) rows

variable {rows : List (List (Arc α))} {leaves : α → Bool} {p : ℕ → Arc α → Bool}

theorem checkRows_getD {k s : ℕ} {a : Arc α} (h : checkRows p k rows = true)
    (ha : a ∈ rows.getD s []) : p (k + s) a = true := by
  induction rows generalizing k s with
  | nil => cases ha
  | cons row rows ih =>
    rw [checkRows, Bool.and_eq_true] at h
    cases s with
    | zero => exact List.all_eq_true.mp h.1 a ha
    | succ s =>
      have hp := ih h.2 ha
      rwa [Nat.add_assoc, Nat.add_comm 1] at hp

/-- What holds of all arcs of the table holds of the one that is taken. -/
theorem arc_of_checkRows (h : checkRows p 0 rows = true) {s t : ℕ} {b : UInt8} {as : List α}
    (harc : (ofRows rows leaves).arc s b = some (as, t)) :
    ∃ a : Arc α, p s a = true ∧ a.bytes.holds b = true ∧ a.actions = as ∧ a.target = t := by
  obtain ⟨a, hfind, heq⟩ := Option.map_eq_some_iff.mp harc
  cases heq
  have hp := checkRows_getD h (List.mem_of_find?_eq_some hfind)
  rw [Nat.zero_add] at hp
  have hholds : a.bytes.holds b = true := List.find?_some (p := fun a : Arc α => a.bytes.holds b) hfind
  exact ⟨a, hp, hholds, rfl, rfl⟩

/-- While a table is read its states stay below one. -/
theorem reading_of_checkRows {n : ℕ} (h : checkRows (fun _ a => a.actions.any leaves ||
      (decide (0 < a.target) && decide (a.target < n))) 0 rows = true) {s t : ℕ} {bs : List UInt8}
    (hs : 0 < s ∧ s < n) (hread : ((ofRows rows leaves).stop s bs).2 = .reading t) : 0 < t ∧ t < n := by
  have harcs : ∀ s b as t, (ofRows rows leaves).arc s b = some (as, t) → as.any leaves = false →
      0 < t ∧ t < n := by
    intro s b as t harc hstay
    obtain ⟨a, hp, -, rfl, rfl⟩ := arc_of_checkRows h harc
    rw [Bool.or_eq_true, Bool.and_eq_true, decide_eq_true_eq, decide_eq_true_eq] at hp
    exact hp.resolve_left (Bool.eq_false_iff.mp hstay)
  exact reading_of_arcs harcs hs hread

/-- The check for actions that are performed once. -/
def checkOnce (kind : α → Bool) (after : ℕ → Bool) (s : ℕ) (a : Arc α) : Bool :=
  (!after s || (after a.target && !a.actions.any kind)) &&
    (!a.actions.any kind || (after a.target && (a.actions.filter kind).length == 1))

theorem once_of_checkRows {kind : α → Bool} {after : ℕ → Bool}
    (h : checkRows (checkOnce kind after) 0 rows = true) : (ofRows rows leaves).Once kind after := by
  intro s b as t harc
  obtain ⟨a, hp, -, rfl, rfl⟩ := arc_of_checkRows h harc
  rw [checkOnce, Bool.and_eq_true, Bool.or_eq_true, Bool.or_eq_true, Bool.and_eq_true,
    Bool.and_eq_true, Bool.not_eq_true', Bool.not_eq_true', beq_iff_eq] at hp
  obtain ⟨hafter, hkind⟩ := hp
  constructor
  · intro hs
    rcases hafter with h0 | hafter
    · rw [hs] at h0
      cases h0
    · exact hafter
  · intro hany
    rcases hkind with h0 | hkind
    · rw [hany] at h0
      cases h0
    · exact hkind

/-- The check for actions that need another one before them. -/
def checkGuards (g : Gate α) (inside : ℕ → Bool) (s : ℕ) (a : Arc α) : Bool :=
  g.respected (inside s) a.actions && (!inside a.target || a.actions.foldl g.next (inside s))

theorem guards_of_checkRows {g : Gate α} {inside : ℕ → Bool}
    (h : checkRows (checkGuards g inside) 0 rows = true) :
    (ofRows rows leaves).Guards g inside := by
  intro s b as t harc
  obtain ⟨a, hp, -, rfl, rfl⟩ := arc_of_checkRows h harc
  rw [checkGuards, Bool.and_eq_true, Bool.or_eq_true, Bool.not_eq_true'] at hp
  refine ⟨hp.1, fun ht => hp.2.resolve_left ?_⟩
  rw [ht]
  exact Bool.true_eq_false.mp

/-! ## The arcs for a class -/

/-- Whether the arcs from `s` for all bytes of a class are one. -/
def onClass [DecidableEq α] (m : Scanner UInt8 α) (s : ℕ) (c : ByteClass) (out : List α × ℕ) : Bool :=
  (List.range 256).all (fun n => !c.holds (UInt8.ofNat n) || m.arc s (UInt8.ofNat n) == some out)

theorem arc_of_onClass [DecidableEq α] {m : Scanner UInt8 α} {s : ℕ} {c : ByteClass} {out : List α × ℕ}
    (h : m.onClass s c out = true) {b : UInt8} (hb : c.holds b = true) : m.arc s b = some out := by
  have harc := forall_byte (p := fun b => !c.holds b || m.arc s b == some out) h b
  rw [hb] at harc
  exact beq_iff_eq.mp harc

end Scanner
end Flz.Lib
