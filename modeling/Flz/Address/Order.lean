import Flz.Lib.Lexicographic

/-! # The order of addresses

`Address::operator<` and `Address::operator==` of `src/address.cc`.
-/
namespace Flz
open Lib Lexicographic

/-- The objects of the classes, with the memory from `m_addr` on. -/
inductive Address
  | IPv4Address (m_addr : ℕ → UInt8)
  | IPv6Address (m_addr : ℕ → UInt8)
  | UnixAddress (m_addr : ℕ → UInt8) (m_length : UInt32)
  | UnknownAddress (m_addr : ℕ → UInt8)

namespace Address

def getAddr : Address → ℕ → UInt8
  | IPv4Address m_addr | IPv6Address m_addr | UnixAddress m_addr _ | UnknownAddress m_addr => m_addr

/-- `sizeof(m_addr)`, except for what `setAddrLen` sets. -/
def getAddrLen : Address → UInt32
  | IPv4Address _ | UnknownAddress _ => 16
  | IPv6Address _ => 28
  | UnixAddress _ m_length => m_length

/-- The sign of what `memcmp` returns. -/
def memcmp (p q : ℕ → UInt8) (n : ℕ) : Ordering := comparePrefix (fun i => (p i).toNat) (fun i => (q i).toNat) n

/-- `std::min(getAddrLen(), minlen)`, whose second argument is the variable that it initialises. -/
def compared (minlen : UInt32) (a : Address) : ℕ :=
  (if minlen < a.getAddrLen then minlen else a.getAddrLen).toNat

/-- `a < rhs`; `minlen` is what stands in the variable before. -/
def less (minlen : UInt32) (a rhs : Address) : Bool :=
  match memcmp a.getAddr rhs.getAddr (compared minlen a) with
  | .lt => true
  | .gt => false
  | .eq => a.getAddrLen < rhs.getAddrLen

/-- `a == rhs`. -/
def same (a rhs : Address) : Bool :=
  a.getAddrLen == rhs.getAddrLen && memcmp a.getAddr rhs.getAddr a.getAddrLen.toNat == .eq

/-- The number of bytes that both addresses have. -/
def common (a b : Address) : ℕ := min a.getAddrLen.toNat b.getAddrLen.toNat

/-- A strict order that is total up to `==`: first the bytes that both have, then the lengths, and nothing behind
the shorter address is read. -/
structure Ordered (minlen : Address → Address → UInt32) : Prop where
  irreflexive : ∀ a, less (minlen a a) a a = false
  transitive : ∀ a b c, less (minlen a b) a b = true → less (minlen b c) b c = true → less (minlen a c) a c = true
  total : ∀ a b, less (minlen a b) a b = true ∧ same a b = false ∧ less (minlen b a) b a = false ∨
    less (minlen a b) a b = false ∧ same a b = true ∧ less (minlen b a) b a = false ∨
    less (minlen a b) a b = false ∧ same a b = false ∧ less (minlen b a) b a = true
  bytewise : ∀ a b, less (minlen a b) a b = true ↔ memcmp a.getAddr b.getAddr (common a b) = .lt ∨
    memcmp a.getAddr b.getAddr (common a b) = .eq ∧ a.getAddrLen < b.getAddrLen
  inside : ∀ a b, compared (minlen a b) a ≤ common a b

/-- Not more is compared than both have, and where less is compared and found equal the rest decides like the
lengths. -/
structure Harmless (minlen : UInt32) (a b : Address) : Prop where
  inside : compared minlen a ≤ b.getAddrLen.toNat
  less : memcmp a.getAddr b.getAddr (compared minlen a) = .eq → memcmp a.getAddr b.getAddr (common a b) = .lt →
    a.getAddrLen < b.getAddrLen
  greater : memcmp a.getAddr b.getAddr (compared minlen a) = .eq → memcmp a.getAddr b.getAddr (common a b) = .gt →
    b.getAddrLen ≤ a.getAddrLen

/-- The bytes of an address, as numbers. -/
def bytes (a : Address) : List ℕ := entries (fun i => (a.getAddr i).toNat) a.getAddrLen.toNat

section
variable {minlen : UInt32} {a b : Address}

theorem compared_le : compared minlen a ≤ a.getAddrLen.toNat := by
  rw [compared]
  split
  · rename_i hlt
    exact (UInt32.lt_iff_toNat_lt.mp hlt).le
  · exact le_rfl

theorem same_iff : same a b = true ↔ a.bytes = b.bytes := by
  rw [same, Bool.and_eq_true, beq_iff_eq, beq_iff_eq, bytes, bytes, entries_eq_iff, UInt32.toNat_inj]
  rfl

theorem bytes_lt_iff : a.bytes < b.bytes ↔ memcmp a.getAddr b.getAddr (common a b) = .lt ∨
    memcmp a.getAddr b.getAddr (common a b) = .eq ∧ a.getAddrLen < b.getAddrLen := by
  rw [bytes, bytes, entries_lt_iff, UInt32.lt_iff_toNat_lt]
  rfl

/-- Where nothing behind the shorter address is compared. -/
theorem less_iff_bytes_lt (hinside : compared minlen a ≤ common a b) :
    (less minlen a b = true ↔ a.bytes < b.bytes) ↔ Harmless minlen a b := by
  have hle : compared minlen a ≤ b.getAddrLen.toNat := hinside.trans (min_le_right _ _)
  have hdecided (hm : memcmp a.getAddr b.getAddr (compared minlen a) ≠ .eq) :
      memcmp a.getAddr b.getAddr (common a b) = memcmp a.getAddr b.getAddr (compared minlen a) ∧ Harmless minlen a b :=
    ⟨comparePrefix_of_le hinside hm, hle, fun h => absurd h hm, fun h => absurd h hm⟩
  rw [bytes_lt_iff, less]
  cases hm : memcmp a.getAddr b.getAddr (compared minlen a) with
  | lt =>
    obtain ⟨hcommon, hharmless⟩ := hdecided (by simp [hm])
    exact iff_of_true (by simp [hcommon, hm]) hharmless
  | gt =>
    obtain ⟨hcommon, hharmless⟩ := hdecided (by simp [hm])
    exact iff_of_true (by simp [hcommon, hm]) hharmless
  | eq =>
    constructor
    · intro h
      refine ⟨hle, fun _ hlt => ?_, fun _ hgt => ?_⟩
      · simpa using h.mpr (.inl hlt)
      · simpa [hgt] using h
    · intro h
      cases hcommon : memcmp a.getAddr b.getAddr (common a b) with
      | lt => simpa using h.less hm hcommon
      | eq => simp
      | gt => simpa using h.greater hm hcommon

theorem inside_iff : compared minlen a ≤ common a b ↔ compared minlen a ≤ b.getAddrLen.toNat := by
  rw [common, Nat.le_min]
  exact and_iff_right compared_le

end

/-- The comparisons are those of the bytes exactly when what `minlen` holds is harmless for every two addresses. -/
theorem ordered_iff (minlen : Address → Address → UInt32) :
    Ordered minlen ↔ ∀ a b, Harmless (minlen a b) a b := by
  constructor
  · intro h a b
    exact (less_iff_bytes_lt (h.inside a b)).mp ((h.bytewise a b).trans bytes_lt_iff.symm)
  · intro h
    have hless (a b : Address) : less (minlen a b) a b = true ↔ a.bytes < b.bytes :=
      (less_iff_bytes_lt (inside_iff.mpr (h a b).inside)).mpr (h a b)
    have hnot (a b : Address) : less (minlen a b) a b = false ↔ ¬ a.bytes < b.bytes := by
      rw [← hless, Bool.not_eq_true]
    have hsame (a b : Address) : same a b = false ↔ ¬ a.bytes = b.bytes := by
      rw [← same_iff, Bool.not_eq_true]
    refine ⟨fun a => ?_, fun a b c => ?_, fun a b => ?_, fun a b => ?_, fun a b => ?_⟩
    · exact (hnot a a).mpr (lt_irrefl _)
    · rw [hless, hless, hless]
      exact lt_trans
    · rw [hless, hnot, hless, hnot, hsame, same_iff]
      rcases lt_trichotomy a.bytes b.bytes with hlt | heq | hgt
      · exact .inl ⟨hlt, hlt.ne, hlt.asymm⟩
      · exact .inr (.inl ⟨heq.not_lt, heq, heq.not_gt⟩)
      · exact .inr (.inr ⟨hgt.asymm, hgt.ne', hgt⟩)
    · rw [hless, bytes_lt_iff]
    · exact inside_iff.mpr (h a b).inside

/-- Two addresses of which neither is below the other, though they differ. -/
theorem neither_below : ¬ ∀ minlen, Ordered minlen := by
  intro h
  have htotal := (h fun _ _ => 0).total (.IPv4Address fun _ => 0) (.IPv4Address fun _ => 1)
  exact absurd htotal (by decide)

end Address
end Flz
