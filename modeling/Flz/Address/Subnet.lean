import Flz.Lib.Bits
import Flz.WebSocket.Frames

/-! # Subnets

The subnet functions of `IPv4Address` and `IPv6Address` in `src/address.cc`, on a little-endian machine. Of the
structures of the system the fields are kept that these functions and the printers use.
-/
namespace Flz
open Lib Bits Http

def AF_INET : BitVec 16 := 2
def AF_INET6 : BitVec 16 := 10

structure sockaddr_in where
  sin_family : BitVec 16
  sin_port : BitVec 16
  s_addr : BitVec 32
  deriving DecidableEq, Repr

structure sockaddr_in6 where
  sin6_family : BitVec 16
  sin6_port : BitVec 16
  s6_addr : Vector UInt8 16
  deriving DecidableEq, Repr

structure IPv4Address where
  m_addr : sockaddr_in
  deriving DecidableEq, Repr

structure IPv6Address where
  m_addr : sockaddr_in6
  deriving DecidableEq, Repr

/-- `CreateMask<T>(bits)` with `8 * sizeof(T) = w`. The shift is one of an `int`, whose result leaves the range
from a count of 31 on; `undefined` is what comes out then. -/
def CreateMask {w : ℕ} (undefined : BitVec w) (bits : ℕ) : BitVec w :=
  if bits ≤ w ∧ w - bits < 31 then BitVec.ofNat w (2 ^ (w - bits) - 1) else undefined

/-! ## IPv4 -/

namespace IPv4Address
variable (undefined : ℕ → BitVec 32)

def broadcastAddress (a : IPv4Address) (prefix_len : ℕ) : Option IPv4Address :=
  if prefix_len > 32 then none
  else
    let baddr := a.m_addr
    some ⟨{ baddr with
      s_addr := baddr.s_addr &&& byteswapOnLittleEndian (CreateMask (undefined prefix_len) prefix_len) }⟩

def networdAddress (a : IPv4Address) (prefix_len : ℕ) : Option IPv4Address :=
  if prefix_len > 32 then none
  else
    let baddr := a.m_addr
    some ⟨{ baddr with
      s_addr := baddr.s_addr &&& byteswapOnLittleEndian (CreateMask (undefined prefix_len) prefix_len) }⟩

/-- All of `subnet` is clear before. -/
def subnetMask (prefix_len : ℕ) : IPv4Address :=
  let subnet : sockaddr_in := ⟨AF_INET, 0, 0⟩
  ⟨{ subnet with
    s_addr := subnet.s_addr &&& ~~~byteswapOnLittleEndian (CreateMask (undefined prefix_len) prefix_len) }⟩

/-- The address as it stands in memory. -/
def bytes (a : IPv4Address) : List UInt8 := memory .little a.m_addr.s_addr

/-- The number that the address stands for. -/
def value (a : IPv4Address) : ℕ := (byteswapOnLittleEndian a.m_addr.s_addr).toNat

/-- What is asked of the subnet of `a` with `n` leading bits. -/
structure Subnet (a : IPv4Address) (n : ℕ) : Prop where
  mask : IsMask 32 n (subnetMask undefined n).bytes
  network : ∃ s, a.networdAddress undefined n = some s ∧ IsNetwork 32 n a.bytes s.bytes ∧
    s.m_addr.sin_port = a.m_addr.sin_port ∧ s.value ≤ a.value ∧ s.networdAddress undefined n = some s
  broadcast : ∃ s, a.broadcastAddress undefined n = some s ∧ IsBroadcast 32 n a.bytes s.bytes ∧
    s.m_addr.sin_port = a.m_addr.sin_port ∧ a.value ≤ s.value

variable {undefined} {a : IPv4Address} {n : ℕ}

/-- Whatever the mask is, the subnet mask is clear. -/
theorem bit_subnetMask (n i : ℕ) : bit (subnetMask undefined n).bytes i = false := by
  have hzero : (subnetMask undefined n).bytes = [0, 0, 0, 0] := by
    simp [bytes, memory, subnetMask, leBytes]
  rw [hzero, bit]
  rcases i / 8 with _ | _ | _ | _ | j <;> simp

theorem subnetMask_iff (n : ℕ) : IsMask 32 n (subnetMask undefined n).bytes ↔ n = 0 := by
  constructor
  · intro h
    have hfirst := h 0 (by omega)
    rw [bit_subnetMask] at hfirst
    simpa using hfirst.symm
  · rintro rfl i _
    rw [bit_subnetMask]
    rfl

variable (undefined) in
/-- Both functions keep the bits behind the prefix and clear those of the prefix. -/
theorem networdAddress_eq (a : IPv4Address) (hlow : 2 ≤ n) (hhigh : n ≤ 32) :
    ∃ s, a.networdAddress undefined n = some s ∧ a.broadcastAddress undefined n = some s ∧
      s.m_addr.sin_port = a.m_addr.sin_port ∧ ∀ i < 32, bit s.bytes i = (bit a.bytes i && decide (n ≤ i)) := by
  refine ⟨_, if_neg (by omega), if_neg (by omega), rfl, fun i hi => ?_⟩
  have hmask : leBytes 4 (byteswapOnLittleEndian (CreateMask (undefined n) n)).toNat =
      (leBytes 4 (CreateMask (undefined n) n).toNat).reverse := memory_byteswapOnLittleEndian (w := 32) rfl _
  have hvalue : (CreateMask (undefined n) n).toNat = 2 ^ (32 - n) - 1 := by
    have hlt : 2 ^ (32 - n) ≤ 2 ^ 32 := Nat.pow_le_pow_right (by omega) (by omega)
    rw [CreateMask, if_pos ⟨hhigh, by omega⟩, BitVec.toNat_ofNat, Nat.mod_eq_of_lt (by omega)]
  simp only [bytes, memory, BitVec.toNat_and]
  rw [leBytes_and, hmask, bit_and (by simp), bit_reverse_leBytes (by omega), hvalue, Nat.testBit_two_pow_sub_one]
  congr 1
  exact decide_eq_decide.mpr (by omega)

theorem networdAddress_iff (hlow : 2 ≤ n) (hhigh : n ≤ 32) :
    (∃ s, a.networdAddress undefined n = some s ∧ IsNetwork 32 n a.bytes s.bytes) ↔
      ∀ i < 32, bit a.bytes i = false := by
  obtain ⟨s, hs, -, -, hbits⟩ := networdAddress_eq undefined a hlow hhigh
  simp only [hs, Option.some.injEq, exists_eq_left', IsNetwork]
  refine forall₂_congr fun i hi => ?_
  rw [hbits i hi]
  by_cases hn : n ≤ i
  · simp [hn, Nat.not_lt.mpr hn]
  · simp [hn, Nat.lt_of_not_le hn]

theorem broadcastAddress_iff (hlow : 2 ≤ n) (hhigh : n ≤ 32) :
    (∃ s, a.broadcastAddress undefined n = some s ∧ IsBroadcast 32 n a.bytes s.bytes) ↔
      ∀ i < 32, bit a.bytes i = decide (n ≤ i) := by
  obtain ⟨s, -, hs, -, hbits⟩ := networdAddress_eq undefined a hlow hhigh
  simp only [hs, Option.some.injEq, exists_eq_left', IsBroadcast]
  refine forall₂_congr fun i hi => ?_
  rw [hbits i hi]
  by_cases hn : n ≤ i <;> simp [hn]

/-- The subnet mask is right for the empty prefix alone, and there the address of the network and the one for
broadcasts, which are the same, cannot both be right. -/
theorem subnet_never (undefined : ℕ → BitVec 32) (a : IPv4Address) (n : ℕ) : ¬ a.Subnet undefined n := by
  intro h
  obtain rfl := (subnetMask_iff n).mp h.mask
  obtain ⟨s, hs, hnetwork, -⟩ := h.network
  obtain ⟨t, ht, hbroadcast, -⟩ := h.broadcast
  have hsame : s = t := Option.some.inj (hs.symm.trans ht)
  have hclear := hnetwork 0 (by omega)
  have hset := hbroadcast 0 (by omega)
  rw [hsame, hset] at hclear
  simp at hclear

/-- 192.168.1.10 with 24 bits. -/
theorem mask_clear : ¬ ∀ undefined (a : IPv4Address) n, n ≤ 32 → a.Subnet undefined n := by
  intro h
  have hmask := (h (fun _ => 0) ⟨⟨AF_INET, 0, 0x0a01a8c0⟩⟩ 24 (by omega)).mask 0 (by omega)
  rw [bit_subnetMask] at hmask
  exact absurd hmask (by decide)

end IPv4Address

/-! ## IPv6 -/

/-- An access to `s6_addr` behind its end. -/
structure OutOfBounds where
  index : ℕ
  deriving DecidableEq, Repr

namespace IPv6Address

/-- `s6_addr[i] = f(s6_addr[i])`. -/
def update (s6_addr : Vector UInt8 16) (i : ℕ) (f : UInt8 → UInt8) : Except OutOfBounds (Vector UInt8 16) :=
  if h : i < 16 then .ok (s6_addr.set i (f s6_addr[i])) else .error ⟨i⟩

/-- `s6_addr[i] = v` for `count` bytes from `i` on. -/
def fill (v : UInt8) : ℕ → ℕ → Vector UInt8 16 → Except OutOfBounds (Vector UInt8 16)
  | _, 0, s6_addr => .ok s6_addr
  | i, count + 1, s6_addr => do fill v (i + 1) count (← update s6_addr i fun _ => v)

/-- `CreateMask<uint8_t>(prefix_len % 8)`, whose shift is by 8 at most. -/
def byteMask (prefix_len : ℕ) : UInt8 := ⟨CreateMask 0 (prefix_len % 8)⟩

def broadcastAddress (a : IPv6Address) (prefix_len : ℕ) : Except OutOfBounds IPv6Address := do
  let baddr := a.m_addr
  let s6_addr ← update baddr.s6_addr (prefix_len / 8) (· ||| byteMask prefix_len)
  let s6_addr ← fill 0xff (prefix_len / 8 + 1) (16 - (prefix_len / 8 + 1)) s6_addr
  return ⟨{ baddr with s6_addr := s6_addr }⟩

def networdAddress (a : IPv6Address) (prefix_len : ℕ) : Except OutOfBounds IPv6Address := do
  let baddr := a.m_addr
  let s6_addr ← update baddr.s6_addr (prefix_len / 8) (· &&& byteMask prefix_len)
  let s6_addr ← fill 0x00 (prefix_len / 8 + 1) (16 - (prefix_len / 8 + 1)) s6_addr
  return ⟨{ baddr with s6_addr := s6_addr }⟩

/-- All of `subnet` is clear before. -/
def subnetMask (prefix_len : ℕ) : Except OutOfBounds IPv6Address := do
  let subnet : sockaddr_in6 := ⟨AF_INET, 0, Vector.replicate 16 0⟩
  let s6_addr ← update subnet.s6_addr (prefix_len / 8) fun _ => ~~~byteMask prefix_len
  let s6_addr ← fill 0xff 0 (prefix_len / 8) s6_addr
  return ⟨{ subnet with s6_addr := s6_addr }⟩

def bytes (a : IPv6Address) : List UInt8 := a.m_addr.s6_addr.toList

/-- What is asked of the subnet of `a` with `n` leading bits; an access outside is no result. -/
structure Subnet (a : IPv6Address) (n : ℕ) : Prop where
  mask : ∃ s, subnetMask n = .ok s ∧ s.m_addr.sin6_family = AF_INET6 ∧ IsMask 128 n s.bytes
  network : ∃ s, a.networdAddress n = .ok s ∧ IsNetwork 128 n a.bytes s.bytes
  broadcast : ∃ s, a.broadcastAddress n = .ok s ∧ IsBroadcast 128 n a.bytes s.bytes

variable {a : IPv6Address} {n i count : ℕ} {v : UInt8} {f : UInt8 → UInt8} {s s' : Vector UInt8 16}

/-! ### Bytes -/

theorem update_ok (h : i < 16) (s : Vector UInt8 16) (f : UInt8 → UInt8) :
    update s i f = .ok (s.set i (f s[i])) := dif_pos h

theorem update_error (h : 16 ≤ i) (s : Vector UInt8 16) (f : UInt8 → UInt8) : update s i f = .error ⟨i⟩ :=
  dif_neg (Nat.not_lt.mpr h)

theorem fill_ok (v : UInt8) (h : i + count ≤ 16) (s : Vector UInt8 16) :
    ∃ s', fill v i count s = .ok s' ∧
      ∀ j (hj : j < 16), s'[j] = if i ≤ j ∧ j < i + count then v else s[j] := by
  induction count generalizing i s with
  | zero =>
    refine ⟨s, rfl, fun j hj => (if_neg ?_).symm⟩
    omega
  | succ count ih =>
    obtain ⟨s', hfill, hs'⟩ := ih (show i + 1 + count ≤ 16 by omega) (s.set i v)
    refine ⟨s', ?_, fun j hj => ?_⟩
    · rw [fill, update_ok (by omega)]
      exact hfill
    · rw [hs' j hj, Vector.getElem_set]
      split_ifs <;> first | rfl | omega

/-- One byte is changed, and a part of the others is set. -/
theorem update_fill (f : UInt8 → UInt8) (v : UInt8) (n i count : ℕ) (hn : n < 16) (h : i + count ≤ 16)
    (hout : ¬ (i ≤ n ∧ n < i + count)) (s : Vector UInt8 16) :
    ∃ s', (do fill v i count (← update s n f)) = .ok s' ∧
      ∀ j (hj : j < 16), s'[j] = if j = n then f s[j] else if i ≤ j ∧ j < i + count then v else s[j] := by
  obtain ⟨s', hfill, hs'⟩ := fill_ok v h (s.set n (f s[n]))
  refine ⟨s', ?_, fun j hj => ?_⟩
  · rw [update_ok hn]
    exact hfill
  · rw [hs' j hj, Vector.getElem_set]
    by_cases hj : j = n
    · subst hj
      rw [if_neg hout, if_pos rfl, if_pos rfl]
    · rw [if_neg (Ne.symm hj), if_neg hj]

/-- Bit `k` of the byte, from the highest one on. -/
theorem byteMask_testBit (n : ℕ) {k : ℕ} (hk : k < 8) : (byteMask n).toNat.testBit (7 - k) = decide (n % 8 ≤ k) := by
  have hvalue : (byteMask n).toNat = 2 ^ (8 - n % 8) - 1 := by
    have hlt : 2 ^ (8 - n % 8) ≤ 2 ^ 8 := Nat.pow_le_pow_right (by omega) (by omega)
    show (CreateMask 0 (n % 8) : BitVec 8).toNat = _
    rw [CreateMask, if_pos ⟨by omega, by omega⟩, BitVec.toNat_ofNat, Nat.mod_eq_of_lt (by omega)]
  rw [hvalue, Nat.testBit_two_pow_sub_one]
  exact decide_eq_decide.mpr (by omega)

theorem bit_toList (s : Vector UInt8 16) (hi : i < 128) :
    bit s.toList i = s[i / 8].toNat.testBit (7 - i % 8) := by
  have hlen : i / 8 < s.toList.length := by
    rw [Vector.length_toList]
    omega
  rw [bit, List.getD_eq_getElem _ _ hlen, Vector.getElem_toList]

/-! ### The functions -/

theorem broadcastAddress_bits (a : IPv6Address) (hn : n < 128) :
    ∃ s, a.broadcastAddress n = .ok s ∧ IsBroadcast 128 n a.bytes s.bytes := by
  obtain ⟨s, hs, hbytes⟩ := update_fill (· ||| byteMask n) 0xff (n / 8) (n / 8 + 1)
    (16 - (n / 8 + 1)) (by omega) (by omega) (by omega) a.m_addr.s6_addr
  refine ⟨⟨{ a.m_addr with s6_addr := s }⟩, ?_, fun i hi => ?_⟩
  · simp only [broadcastAddress]
    rw [← bind_assoc, hs]
    rfl
  · rw [bytes, bytes, bit_toList _ hi, bit_toList _ hi, hbytes]
    by_cases hsame : i / 8 = n / 8
    · have hmask := byteMask_testBit n (show i % 8 < 8 by omega)
      simp only [if_pos hsame, UInt8.toNat_or, Nat.testBit_or, hmask]
      congr 1
      exact decide_eq_decide.mpr (by omega)
    · rw [if_neg hsame]
      by_cases hbehind : n / 8 < i / 8
      · rw [if_pos ⟨by omega, by omega⟩, decide_eq_true (by omega : n ≤ i), Bool.or_true]
        exact (Nat.testBit_two_pow_sub_one 8 _).trans (decide_eq_true (by omega))
      · rw [if_neg (by omega), decide_eq_false (by omega : ¬ n ≤ i), Bool.or_false]

theorem networdAddress_bits (a : IPv6Address) (hn : n < 128) :
    ∃ s, a.networdAddress n = .ok s ∧ ∀ i < 128, bit s.bytes i =
      (bit a.bytes i && if i / 8 = n / 8 then decide (n ≤ i) else decide (i < n)) := by
  obtain ⟨s, hs, hbytes⟩ := update_fill (· &&& byteMask n) 0x00 (n / 8) (n / 8 + 1)
    (16 - (n / 8 + 1)) (by omega) (by omega) (by omega) a.m_addr.s6_addr
  refine ⟨⟨{ a.m_addr with s6_addr := s }⟩, ?_, fun i hi => ?_⟩
  · simp only [networdAddress]
    rw [← bind_assoc, hs]
    rfl
  · rw [bytes, bytes, bit_toList _ hi, bit_toList _ hi, hbytes]
    by_cases hsame : i / 8 = n / 8
    · have hmask := byteMask_testBit n (show i % 8 < 8 by omega)
      simp only [if_pos hsame, UInt8.toNat_and, Nat.testBit_and, hmask]
      congr 1
      exact decide_eq_decide.mpr (by omega)
    · rw [if_neg hsame, if_neg hsame]
      by_cases hbehind : n / 8 < i / 8
      · rw [if_pos ⟨by omega, by omega⟩, decide_eq_false (by omega : ¬ i < n), Bool.and_false]
        exact Nat.zero_testBit _
      · rw [if_neg (by omega), decide_eq_true (by omega : i < n), Bool.and_true]

theorem subnetMask_bits (hn : n < 128) :
    ∃ s, subnetMask n = .ok s ∧ s.m_addr.sin6_family = AF_INET ∧ IsMask 128 n s.bytes := by
  obtain ⟨s, hs, hbytes⟩ := update_fill (fun _ => ~~~byteMask n) 0xff (n / 8) 0 (n / 8) (by omega) (by omega) (by omega) (Vector.replicate 16 0)
  refine ⟨⟨⟨AF_INET, 0, s⟩⟩, ?_, rfl, fun i hi => ?_⟩
  · simp only [subnetMask]
    rw [← bind_assoc, hs]
    rfl
  · rw [bytes, bit_toList _ hi, hbytes]
    by_cases hsame : i / 8 = n / 8
    · have hmask := byteMask_testBit n (show i % 8 < 8 by omega)
      have hnot : (~~~byteMask n).toNat = 2 ^ 8 - ((byteMask n).toNat + 1) := by
        rw [UInt8.toNat_not, Nat.sub_sub, Nat.add_comm 1]
        rfl
      rw [if_pos hsame, hnot, Nat.testBit_two_pow_sub_succ (byteMask n).toNat_lt, hmask,
        decide_eq_true (by omega), Bool.true_and, ← decide_not]
      exact decide_eq_decide.mpr (by omega)
    · rw [if_neg hsame]
      by_cases hbefore : i / 8 < n / 8
      · rw [if_pos ⟨by omega, by omega⟩, decide_eq_true (by omega : i < n)]
        exact (Nat.testBit_two_pow_sub_one 8 _).trans (decide_eq_true (by omega))
      · rw [if_neg (by omega), decide_eq_false (by omega : ¬ i < n), Vector.getElem_replicate]
        exact Nat.zero_testBit _

/-- Behind the last prefix but one the first access is one outside. -/
theorem outside (a : IPv6Address) (hn : 128 ≤ n) : a.broadcastAddress n = .error ⟨n / 8⟩ ∧
    a.networdAddress n = .error ⟨n / 8⟩ ∧ subnetMask n = .error ⟨n / 8⟩ := by
  have hbehind : 16 ≤ n / 8 := by omega
  simp only [broadcastAddress, networdAddress, subnetMask, update_error hbehind]
  exact ⟨rfl, rfl, rfl⟩

theorem broadcastAddress_iff :
    (∃ s, a.broadcastAddress n = .ok s ∧ IsBroadcast 128 n a.bytes s.bytes) ↔ n < 128 := by
  constructor
  · rintro ⟨s, hs, -⟩
    by_contra hn
    rw [(outside a (Nat.le_of_not_lt hn)).1] at hs
    cases hs
  · exact a.broadcastAddress_bits

theorem subnetMask_iff : (∃ s, subnetMask n = .ok s ∧ IsMask 128 n s.bytes) ↔ n < 128 := by
  constructor
  · rintro ⟨s, hs, -⟩
    by_contra hn
    rw [(outside ⟨⟨AF_INET6, 0, Vector.replicate 16 0⟩⟩ (Nat.le_of_not_lt hn)).2.2] at hs
    cases hs
  · intro hn
    obtain ⟨s, hs, -, hmask⟩ := subnetMask_bits hn
    exact ⟨s, hs, hmask⟩

/-- The byte that the prefix ends in is masked the wrong way round. -/
theorem networdAddress_iff :
    (∃ s, a.networdAddress n = .ok s ∧ IsNetwork 128 n a.bytes s.bytes) ↔
      n < 128 ∧ ∀ i < 128, i / 8 = n / 8 → bit a.bytes i = false := by
  constructor
  · rintro ⟨s, hs, hnetwork⟩
    have hn : n < 128 := by
      by_contra hn
      rw [(outside a (Nat.le_of_not_lt hn)).2.1] at hs
      cases hs
    obtain ⟨t, ht, hbits⟩ := a.networdAddress_bits hn
    obtain rfl : s = t := Except.ok.inj (hs.symm.trans ht)
    refine ⟨hn, fun i hi hsame => ?_⟩
    have heq := (hbits i hi).symm.trans (hnetwork i hi)
    rw [if_pos hsame] at heq
    by_cases hle : n ≤ i
    · simpa [hle, Nat.not_lt.mpr hle] using heq
    · simpa [hle, Nat.lt_of_not_le hle] using heq
  · rintro ⟨hn, hclear⟩
    obtain ⟨s, hs, hbits⟩ := a.networdAddress_bits hn
    refine ⟨s, hs, fun i hi => ?_⟩
    rw [hbits i hi]
    split
    · rename_i hsame
      rw [hclear i hi hsame, Bool.false_and, Bool.false_and]
    · rfl

/-- The family of the subnet mask is that of the other kind of address. -/
theorem subnet_always_wrong (a : IPv6Address) (n : ℕ) : ¬ a.Subnet n := by
  intro h
  obtain ⟨s, hs, hfamily, -⟩ := h.mask
  by_cases hn : n < 128
  · obtain ⟨t, ht, hinet, -⟩ := subnetMask_bits hn
    obtain rfl : s = t := Except.ok.inj (hs.symm.trans ht)
    rw [hinet] at hfamily
    exact absurd hfamily (by decide)
  · rw [(outside a (Nat.le_of_not_lt hn)).2.2] at hs
    cases hs

/-- 2001:db8:: with 32 bits. -/
theorem family_wrong : ¬ ∀ (a : IPv6Address) n, n ≤ 128 → a.Subnet n := by
  intro h
  obtain ⟨s, hs, hfamily, -⟩ :=
    (h ⟨⟨AF_INET6, 0, #v[0x20, 1, 0x0d, 0xb8, 0, 0, 0, 0, 0, 0, 0, 0, 0, 0, 0, 0]⟩⟩ 32 (by omega)).mask
  obtain ⟨t, ht, hinet, -⟩ := subnetMask_bits (n := 32) (by omega)
  obtain rfl : s = t := Except.ok.inj (hs.symm.trans ht)
  exact absurd (hinet.symm.trans hfamily) (by decide)

end IPv6Address
end Flz
