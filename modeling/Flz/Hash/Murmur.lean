import Flz.ByteArray.Integers
import Flz.Lib.CString
import Flz.Lib.Mixing
import Mathlib.Tactic.Cases

/-! # Murmur hashes

The overloads of `murmur3_hash` and of `murmur3_hash64` of `src/hash_util.cc`. The memory from a pointer on is a
list, a read behind its end or in front of it is `none`, and a null pointer is `none` in place of a list.
-/
namespace Flz.Hash
open Lib Lib.Mixing Function

/-- The macro `ROTL`. -/
def ROTL (x r : UInt32) : UInt32 := x <<< r ||| x >>> (32 - r)

def fmix32 (h : UInt32) : UInt32 :=
  let h := h ^^^ h >>> 16
  let h := h * 0x85ebca6b
  let h := h ^^^ h >>> 13
  let h := h * 0xc2b2ae35
  h ^^^ h >>> 16

/-- What becomes of `s` before it meets `h`, with `seed1` and `seed2` in place. -/
def mixBlock (s : UInt32) : UInt32 := ROTL (s * 0xcc9e2d51) 15 * 0x1b873593

/-- The body of the loop after its read. -/
def mixInto (h s : UInt32) : UInt32 := ROTL (h ^^^ mixBlock s) 13 * 5 + 0xe6546b64

/-- `*ptr`. -/
def readBlock (host : Endian) (ptr : List UInt8) : Option UInt32 :=
  if 4 ≤ ptr.length then some (.ofBitVec (ofMemory host 32 (ptr.take 4))) else none

/-- The loop over `blk` blocks. -/
def handleBlocks (host : Endian) (h : UInt32) : ℕ → List UInt8 → Option UInt32
  | 0, _ => some h
  | blk + 1, ptr => do
    let s ← readBlock host ptr
    handleBlocks host (mixInto h s) blk (ptr.drop 4)

/-- `tail[i]`, where `tail` is an offset from `str`. -/
def readTail (str : List UInt8) (tail : ℤ) (i : ℕ) : Option UInt8 :=
  if 0 ≤ tail then str[tail.toNat + i]? else none

/-- The cases of the `switch` from one on, each of which falls through to those below. -/
def tailCases (str : List UInt8) (tail : ℤ) : ℕ → UInt32 → Option UInt32
  | 0, s => some s
  | i + 1, s => do
    let t ← readTail str tail i
    tailCases str tail i (s ||| t.toUInt32 <<< UInt32.ofNat (8 * i))

/-- The `switch`. -/
def handleTail (str : List UInt8) (tail : ℤ) (h : UInt32) (cases : ℕ) : Option UInt32 :=
  if cases = 0 then some h else do
    let s ← tailCases str tail cases 0
    return h ^^^ mixBlock s

/-- Both overloads from `len` on. -/
def murmur3 (host : Endian) (str : List UInt8) (len : Int32) (seed : UInt32) : Option UInt32 := do
  let blk := len / 4
  let h ← handleBlocks host seed blk.toInt.toNat str
  let h ← handleTail str (blk * 4).toInt h (len &&& 3).toInt.toNat
  return fmix32 (h ^^^ len.toUInt32)

/-- `murmur3_hash(const void*, const uint32_t&, const uint32_t&)`. -/
def murmur3_hash (host : Endian) (data : Option (List UInt8)) (size seed : UInt32) : Option UInt32 :=
  match data with
  | none => some 0
  | some str => murmur3 host str size.toInt32 seed

/-- `murmur3_hash(const char*, const uint32_t&)`. -/
def murmur3_hash_str (host : Endian) (str : Option (List UInt8)) (seed : UInt32) : Option UInt32 :=
  match str with
  | none => some 0
  | some str => if 0 ∈ str then murmur3 host str (.ofNat (c_str str).length) seed else none

/-- What both overloads of `murmur3_hash64` make of two hashes. -/
def hash64 (high low : Option UInt32) : Option UInt64 := do
  return (← high).toUInt64 <<< 32 ||| (← low).toUInt64

/-- `murmur3_hash64(const void*, const uint32_t&, const uint32_t&, const uint32_t&)`. -/
def murmur3_hash64 (host : Endian) (str : Option (List UInt8)) (size seed seed2 : UInt32) : Option UInt64 :=
  hash64 (murmur3_hash host str size seed) (murmur3_hash host str size seed2)

/-- `murmur3_hash64(const char*, const uint32_t&, const uint32_t&)`. -/
def murmur3_hash64_str (host : Endian) (str : Option (List UInt8)) (seed seed2 : UInt32) : Option UInt64 :=
  hash64 (murmur3_hash_str host str seed) (murmur3_hash_str host str seed2)

example : murmur3_hash .little (some [104, 101, 108, 108, 111]) 5 0 = some 0x248bfa47 := by decide

/-! ## What the mixing keeps -/

instance finiteUInt32 : Finite UInt32 := Finite.of_injective UInt32.toFin fun _ _ => UInt32.toFin_inj.mp

theorem bijective_of_injective {f : UInt32 → UInt32} (hf : Injective f) : Bijective f :=
  Finite.injective_iff_bijective.mp hf

theorem xor_injective (x : UInt32) : Injective (x ^^^ ·) := fun _ _ => (UInt32.xor_right_inj x).mp

theorem xor_injective' (x : UInt32) : Injective (· ^^^ x) := fun _ _ => (UInt32.xor_left_inj x).mp

/-- A factor with an inverse is lost in no product. -/
theorem mul_injective {c d : UInt32} (h : c * d = 1) : Injective (· * c) := by
  intro x y heq
  have hboth : x * c * d = y * c * d := congrArg (· * d) heq
  rwa [UInt32.mul_assoc, UInt32.mul_assoc, h, UInt32.mul_one, UInt32.mul_one] at hboth

theorem xorShift16_injective : Injective fun h : UInt32 => h ^^^ h >>> 16 := by
  intro g h heq
  exact UInt32.toBitVec_inj.mp (xorShiftRight_injective (n := 16) (by decide) (congrArg UInt32.toBitVec heq))

theorem xorShift13_injective : Injective fun h : UInt32 => h ^^^ h >>> 13 := by
  intro g h heq
  exact UInt32.toBitVec_inj.mp (xorShiftRight_injective (n := 13) (by decide) (congrArg UInt32.toBitVec heq))

theorem fmix32_injective : Injective fmix32 :=
  (xorShift16_injective.comp (mul_injective (d := 0x7ed1b41d) (by decide))).comp
    (xorShift13_injective.comp ((mul_injective (d := 0xa5cb9243) (by decide)).comp xorShift16_injective))

theorem ROTL13_injective : Injective (ROTL · 13) := by
  intro x y heq
  exact UInt32.toBitVec_inj.mp (rotateLeft_injective (n := 13) (by decide) (congrArg UInt32.toBitVec heq))

theorem ROTL15_injective : Injective (ROTL · 15) := by
  intro x y heq
  exact UInt32.toBitVec_inj.mp (rotateLeft_injective (n := 15) (by decide) (congrArg UInt32.toBitVec heq))

theorem mixBlock_injective : Injective mixBlock :=
  (mul_injective (d := 0x56ed309b) (by decide)).comp
    (ROTL15_injective.comp (mul_injective (d := 0xdee13bb1) (by decide)))

theorem mixInto_mixes : Mixes mixInto := by
  have hrest : Injective fun h : UInt32 => ROTL h 13 * 5 + 0xe6546b64 := by
    intro x y heq
    exact ROTL13_injective (mul_injective (d := 0xcccccccd) (by decide) ((UInt32.add_left_inj _).mp heq))
  exact ⟨fun s => bijective_of_injective (hrest.comp (xor_injective' (mixBlock s))),
    fun h => hrest.comp ((xor_injective h).comp mixBlock_injective)⟩

/-! ## The number of blocks -/

theorem toInt_div_four (len : Int32) : (len / 4).toInt = len.toInt.tdiv 4 ∧ (len / 4 * 4).toInt = len.toInt.tdiv 4 * 4 := by
  have hlow := Int32.le_toInt len
  have hhigh := Int32.toInt_lt len
  have hrange : -2 ^ 31 ≤ len.toInt.tdiv 4 * 4 ∧ len.toInt.tdiv 4 * 4 < 2 ^ 31 := by
    rw [Int.tdiv_eq_ediv, show (4 : ℤ).sign = 1 from rfl]
    split <;> constructor <;> omega
  have hfour : (4 : Int32).toInt = 4 := rfl
  have hdiv : (len / 4).toInt = len.toInt.tdiv 4 := by
    rw [Int32.toInt_div, hfour]
    exact Int.bmod_eq_of_le (by omega) (by omega)
  refine ⟨hdiv, ?_⟩
  rw [Int32.toInt_mul, hdiv, hfour]
  exact Int.bmod_eq_of_le (by omega) (by omega)

theorem toInt_and_three (len : Int32) : (len &&& 3).toInt.toNat = len.toUInt32.toNat % 4 := by
  have hand : (len &&& 3).toBitVec.toNat = len.toUInt32.toNat % 4 :=
    (BitVec.toNat_and ..).trans (Nat.and_two_pow_sub_one_eq_mod _ 2)
  have hsmall : 2 * (len &&& 3).toBitVec.toNat < 2 ^ 32 := by
    rw [hand]
    omega
  have htoInt : (len &&& 3).toInt = (len &&& 3).toBitVec.toNat := BitVec.toInt_eq_toNat_of_lt hsmall
  rw [htoInt, Int.toNat_natCast, hand]

/-! ## What is read -/

/-- The blocks of the loop. -/
def blocks (host : Endian) : ℕ → List UInt8 → List UInt32
  | 0, _ => []
  | blk + 1, ptr => .ofBitVec (ofMemory host 32 (ptr.take 4)) :: blocks host blk (ptr.drop 4)

/-- What the `switch` makes of the bytes of the tail. -/
def tailBlock (bs : List UInt8) : UInt32 := .ofNat (ofLeBytes bs)

section
variable {host : Endian} {str : List UInt8} {blk : ℕ}

theorem handleBlocks_eq (host : Endian) (h : UInt32) (blk : ℕ) (ptr : List UInt8) :
    handleBlocks host h blk ptr = if 4 * blk ≤ ptr.length then some ((blocks host blk ptr).foldl mixInto h) else none := by
  induction blk generalizing h ptr with
  | zero => rw [if_pos (Nat.zero_le _)]; rfl
  | succ blk ih =>
    rw [handleBlocks, readBlock]
    by_cases hread : 4 ≤ ptr.length
    · rw [if_pos hread, Option.bind_eq_bind, Option.bind_some, ih, List.length_drop, blocks, List.foldl_cons]
      exact if_congr (by omega) rfl rfl
    · rw [if_neg hread, if_neg (by omega)]
      rfl

theorem blocks_length (host : Endian) (blk : ℕ) (ptr : List UInt8) : (blocks host blk ptr).length = blk := by
  induction blk generalizing ptr with
  | zero => rfl
  | succ blk ih => exact congrArg Nat.succ (ih (ptr.drop 4))

theorem blocks_getElem? (host : Endian) {blk i : ℕ} (hi : i < blk) (ptr : List UInt8) :
    (blocks host blk ptr)[i]? = some (.ofBitVec (ofMemory host 32 ((ptr.drop (4 * i)).take 4))) := by
  induction blk generalizing i ptr with
  | zero => omega
  | succ blk ih =>
    cases i with
    | zero => rfl
    | succ i =>
      have hdrop : (ptr.drop 4).drop (4 * i) = ptr.drop (4 * (i + 1)) := by
        rw [List.drop_drop]
        exact congrArg (ptr.drop ·) (by omega)
      rw [blocks, List.getElem?_cons_succ, ih (by omega), hdrop]

theorem ofLeBytes_concat (bs : List UInt8) (b : UInt8) :
    ofLeBytes (bs ++ [b]) = ofLeBytes bs + 256 ^ bs.length * b.toNat := by
  induction bs with
  | nil => simp [ofLeBytes]
  | cons a bs ih =>
    rw [List.cons_append, ofLeBytes, ofLeBytes, ih, List.length_cons, Nat.pow_succ]
    ring

/-- One more byte of the tail comes in above the others. -/
theorem tailBlock_concat {bs : List UInt8} (h : bs.length < 4) (t : UInt8) :
    t.toUInt32 <<< UInt32.ofNat (8 * bs.length) ||| tailBlock bs = tailBlock (bs ++ [t]) := by
  have hlow : ofLeBytes bs < 2 ^ (8 * bs.length) := by
    have hlt := ofLeBytes_lt bs
    rwa [show 256 = 2 ^ 8 from rfl, ← Nat.pow_mul] at hlt
  have hpow : 2 ^ (8 * bs.length) ≤ 2 ^ 24 := Nat.pow_le_pow_right (by decide) (by omega)
  have ht := t.toNat_lt
  have hmul : 2 ^ (8 * bs.length) * t.toNat ≤ 2 ^ 24 * 255 := Nat.mul_le_mul hpow (by omega)
  have hshift : (t.toUInt32 <<< UInt32.ofNat (8 * bs.length)).toNat = 2 ^ (8 * bs.length) * t.toNat := by
    rw [UInt32.toNat_shiftLeft, UInt8.toNat_toUInt32, UInt32.toNat_ofNat',
      Nat.mod_eq_of_lt (show 8 * bs.length % 2 ^ 32 < 32 by omega), Nat.mod_eq_of_lt (show 8 * bs.length < 2 ^ 32 by omega),
      Nat.shiftLeft_eq, Nat.mul_comm, Nat.mod_eq_of_lt (by omega)]
  have hpow256 : 256 ^ bs.length = 2 ^ (8 * bs.length) := by rw [Nat.pow_mul]
  apply UInt32.toNat_inj.mp
  rw [UInt32.toNat_or, hshift, tailBlock, tailBlock, UInt32.toNat_ofNat', UInt32.toNat_ofNat', ofLeBytes_concat, hpow256,
    Nat.mod_eq_of_lt (show ofLeBytes bs < 2 ^ 32 by omega), Nat.mod_eq_of_lt (by omega), ← Nat.two_pow_add_eq_or_of_lt hlow,
    Nat.add_comm]

theorem tailCases_eq {k cases : ℕ} (hcases : cases ≤ 3) (hlen : k + cases ≤ str.length) (s : UInt32) :
    tailCases str k cases s = some (s ||| tailBlock ((str.drop k).take cases)) := by
  induction cases generalizing s with
  | zero => exact congrArg some UInt32.or_zero.symm
  | succ i ih =>
    have hi : k + i < str.length := by omega
    have hread : readTail str k i = some str[k + i] := by
      rw [readTail, if_pos (Int.natCast_nonneg k), Int.toNat_natCast, List.getElem?_eq_getElem hi]
    have htake : (str.drop k).take (i + 1) = (str.drop k).take i ++ [str[k + i]] := by
      rw [List.take_add_one, List.getElem?_drop, List.getElem?_eq_getElem hi]
      rfl
    have htaken : ((str.drop k).take i).length = i := by
      rw [List.length_take, List.length_drop]
      omega
    have hconcat := tailBlock_concat (show ((str.drop k).take i).length < 4 by omega) str[k + i]
    rw [htaken] at hconcat
    rw [tailCases, hread, Option.bind_eq_bind, Option.bind_some, ih (by omega) (by omega), UInt32.or_assoc, hconcat, htake]

theorem tailCases_append {s rest : List UInt8} {tail : ℤ} {cases : ℕ} (h : tail.toNat + cases ≤ s.length) (x : UInt32) :
    tailCases (s ++ rest) tail cases x = tailCases s tail cases x := by
  induction cases generalizing x with
  | zero => rfl
  | succ i ih =>
    have hread : readTail (s ++ rest) tail i = readTail s tail i := by
      rw [readTail, readTail, List.getElem?_append_left (by omega)]
    rw [tailCases, tailCases, hread]
    exact bind_congr fun t => ih (by omega) _

theorem blocks_append {s : List UInt8} (h : 4 * blk ≤ s.length) (rest : List UInt8) :
    blocks host blk (s ++ rest) = blocks host blk s := by
  induction blk generalizing s with
  | zero => rfl
  | succ blk ih =>
    rw [blocks, blocks, List.take_append_of_le_length (by omega), List.drop_append_of_le_length (by omega),
      ih (by rw [List.length_drop]; omega)]

end

/-- The reads for a length end inside it. -/
structure Inside (n : ℕ) (len : Int32) : Prop where
  blocks : 4 * (len / 4).toInt.toNat ≤ n
  tail : (len / 4 * 4).toInt.toNat + n % 4 ≤ n
  cases : (len &&& 3).toInt.toNat = n % 4

/-- A length that does not fit into an `int` is negative there, so that no block is read. -/
theorem inside_ofNat {n : ℕ} (h : n < 2 ^ 32) : Inside n (.ofNat n) := by
  have hcases : (Int32.ofNat n &&& 3).toInt.toNat = n % 4 := by
    rw [toInt_and_three]
    exact congrArg (· % 4) (Nat.mod_eq_of_lt h)
  obtain ⟨hdiv, hmul⟩ := toInt_div_four (.ofNat n)
  rcases Nat.lt_or_ge n (2 ^ 31) with hsmall | hlarge
  · have hlen := Int32.toInt_ofNat_of_lt hsmall
    rw [hlen, Int.tdiv_eq_ediv_of_nonneg (Int.natCast_nonneg n)] at hdiv hmul
    refine ⟨?_, ?_, hcases⟩ <;> omega
  · have hlen : (Int32.ofNat n).toInt = n - 2 ^ 32 := by
      have hmod : (Int32.ofNat n).toInt = (n : ℤ).bmod (2 ^ 32) := Int32.toInt_ofNat' ..
      rw [hmod, Int.bmod_def, if_neg (by omega)]
      omega
    have hneg : (Int32.ofNat n).toInt.tdiv 4 ≤ 0 := by
      rw [hlen, Int.tdiv_eq_ediv, show (4 : ℤ).sign = 1 from rfl]
      split <;> omega
    have hmod : n % 4 ≤ n := Nat.mod_le n 4
    refine ⟨?_, ?_, hcases⟩ <;> omega

section
variable {host : Endian} {s rest : List UInt8}

/-- What stands behind the length is not read. -/
theorem murmur3_append (host : Endian) (hs : s.length < 2 ^ 32) (rest : List UInt8) (seed : UInt32) :
    murmur3 host (s ++ rest) (.ofNat s.length) seed = murmur3 host s (.ofNat s.length) seed := by
  obtain ⟨hblocks, htail, hcases⟩ := inside_ofNat hs
  have hfits : 4 * (Int32.ofNat s.length / 4).toInt.toNat ≤ (s ++ rest).length := by
    rw [List.length_append]
    omega
  rw [murmur3, murmur3, handleBlocks_eq, handleBlocks_eq, if_pos hfits, if_pos hblocks, blocks_append hblocks,
    Option.bind_eq_bind, Option.bind_some, Option.bind_some, handleTail, handleTail, hcases, tailCases_append htail]

/-- Below the range of `int` every byte is read. -/
theorem murmur3_eq (host : Endian) (hs : s.length < 2 ^ 31) (seed : UInt32) :
    murmur3 host s (.ofNat s.length) seed = some (fmix32 ((blocks host (s.length / 4) s).foldl mixInto seed ^^^
      mixBlock (tailBlock (s.drop (4 * (s.length / 4)))) ^^^ .ofNat s.length)) := by
  obtain ⟨hblocks, htail, hcases⟩ := inside_ofNat (Nat.lt_trans hs (by decide))
  obtain ⟨hdiv, hmul⟩ := toInt_div_four (.ofNat s.length)
  have hlen := Int32.toInt_ofNat_of_lt hs
  rw [hlen, Int.tdiv_eq_ediv_of_nonneg (Int.natCast_nonneg s.length)] at hdiv hmul
  have hcount : (Int32.ofNat s.length / 4).toInt.toNat = s.length / 4 := by omega
  have hoffset : (Int32.ofNat s.length / 4 * 4).toInt = (4 * (s.length / 4) : ℕ) := by omega
  have hrest : (s.drop (4 * (s.length / 4))).take (s.length % 4) = s.drop (4 * (s.length / 4)) :=
    List.take_of_length_le (by rw [List.length_drop]; omega)
  have hhandle : ∀ h, handleTail s (4 * (s.length / 4) : ℕ) h (s.length % 4) =
      some (h ^^^ mixBlock (tailBlock (s.drop (4 * (s.length / 4))))) := by
    intro h
    rw [handleTail, tailCases_eq (by omega) (by omega), UInt32.zero_or, hrest]
    split
    · next hzero =>
      have hnil : s.drop (4 * (s.length / 4)) = [] := List.drop_of_length_le (by omega)
      have hmix : mixBlock (tailBlock []) = 0 := by decide
      rw [hnil, hmix, UInt32.xor_zero]
    · rfl
  rw [murmur3, handleBlocks_eq, hcount, if_pos (by omega), Option.bind_eq_bind, Option.bind_some, hcases, hoffset, hhandle]
  rfl

/-! ## What the hash tells apart -/

/-- The hash of `s`. -/
def mixed (host : Endian) (s : List UInt8) (seed : UInt32) : UInt32 :=
  fmix32 ((blocks host (s.length / 4) s).foldl mixInto seed ^^^ mixBlock (tailBlock (s.drop (4 * (s.length / 4)))) ^^^
    .ofNat s.length)

theorem murmur3_hash_eq (host : Endian) (hs : s.length < 2 ^ 31) (rest : List UInt8) (seed : UInt32) :
    murmur3_hash host (some (s ++ rest)) (.ofNat s.length) seed = some (mixed host s seed) :=
  (murmur3_append host (Nat.lt_trans hs (by decide)) rest seed).trans (murmur3_eq host hs seed)

theorem mixed_bijective (host : Endian) (s : List UInt8) : Bijective (mixed host s) := by
  have hlast : Injective fun h => fmix32 (h ^^^ mixBlock (tailBlock (s.drop (4 * (s.length / 4)))) ^^^ .ofNat s.length) :=
    fmix32_injective.comp ((xor_injective' _).comp (xor_injective' _))
  exact (bijective_of_injective hlast).comp (mixInto_mixes.foldl_bijective _)

theorem ofLeBytes_injective {bs cs : List UInt8} (hlen : bs.length = cs.length) (h : ofLeBytes bs = ofLeBytes cs) :
    bs = cs := by
  rw [← leBytes_ofLeBytes bs, ← leBytes_ofLeBytes cs, hlen, h]

theorem ofLeBytes_lt_word {bs : List UInt8} (h : bs.length ≤ 4) : ofLeBytes bs < 2 ^ 32 := by
  have hpow : 256 ^ bs.length ≤ 256 ^ 4 := Nat.pow_le_pow_right (by decide) h
  exact Nat.lt_of_lt_of_le (ofLeBytes_lt bs) hpow

theorem tailBlock_injective {bs cs : List UInt8} (hbs : bs.length ≤ 4) (hlen : bs.length = cs.length)
    (h : tailBlock bs = tailBlock cs) : bs = cs := by
  have hnat := congrArg UInt32.toNat h
  rw [tailBlock, tailBlock, UInt32.toNat_ofNat', UInt32.toNat_ofNat', Nat.mod_eq_of_lt (ofLeBytes_lt_word hbs),
    Nat.mod_eq_of_lt (ofLeBytes_lt_word (hlen ▸ hbs))] at hnat
  exact ofLeBytes_injective hlen hnat

theorem ofMemory_injective {bs cs : List UInt8} (hbs : bs.length ≤ 4) (hlen : bs.length = cs.length)
    (h : ofMemory host 32 bs = ofMemory host 32 cs) : bs = cs := by
  have hvalue : ∀ {bs cs : List UInt8}, bs.length ≤ 4 → bs.length = cs.length →
      BitVec.ofNat 32 (ofLeBytes bs) = BitVec.ofNat 32 (ofLeBytes cs) → bs = cs := by
    intro bs cs hbs hlen h
    exact tailBlock_injective hbs hlen (congrArg UInt32.ofBitVec h)
  cases host with
  | little => exact hvalue hbs hlen h
  | big =>
    exact List.reverse_inj.mp (hvalue (by rwa [List.length_reverse]) (by rw [List.length_reverse, hlen, List.length_reverse]) h)

/-- The blocks and the tail make the bytes up. -/
theorem blocks_injective {s t : List UInt8} {blk : ℕ} (hlen : s.length = t.length) (hfits : 4 * blk ≤ s.length)
    (hblocks : blocks host blk s = blocks host blk t) (htail : s.drop (4 * blk) = t.drop (4 * blk)) : s = t := by
  induction blk generalizing s t with
  | zero => exact htail
  | succ blk ih =>
    rw [blocks, blocks, List.cons.injEq] at hblocks
    have hfirst : s.take 4 = t.take 4 := by
      refine ofMemory_injective (List.length_take_le 4 s) ?_ (congrArg UInt32.toBitVec hblocks.1)
      rw [List.length_take, List.length_take, hlen]
    have hrest : s.drop 4 = t.drop 4 := by
      refine ih ?_ ?_ hblocks.2 ?_
      · rw [List.length_drop, List.length_drop, hlen]
      · rw [List.length_drop]
        omega
      · rw [List.drop_drop, List.drop_drop, Nat.add_comm 4, ← Nat.mul_succ]
        exact htail
    rw [← List.take_append_drop 4 s, ← List.take_append_drop 4 t, hfirst, hrest]

/-- Bytes that differ in one block only. -/
structure OneBlock (i : ℕ) (s t : List UInt8) : Prop where
  length : s.length = t.length
  same : ∀ j, j / 4 ≠ i → s[j]? = t[j]?
  differ : s ≠ t

theorem OneBlock.block_eq {i j : ℕ} {s t : List UInt8} (h : OneBlock i s t) (hj : j ≠ i) :
    (s.drop (4 * j)).take 4 = (t.drop (4 * j)).take 4 := by
  refine List.ext_getElem? fun k => ?_
  rw [List.getElem?_take, List.getElem?_take]
  split
  · rw [List.getElem?_drop, List.getElem?_drop]
    exact h.same _ (by omega)
  · rfl

theorem mixed_ne {i : ℕ} {s t : List UInt8} (h : OneBlock i s t) (seed : UInt32) :
    mixed host s seed ≠ mixed host t seed := by
  have hblk : t.length / 4 = s.length / 4 := by rw [h.length]
  -- the blocks other than the `i`th are alike
  have hother : ∀ j, j ≠ i → (blocks host (s.length / 4) s)[j]? = (blocks host (s.length / 4) t)[j]? := by
    intro j hj
    rcases Nat.lt_or_ge j (s.length / 4) with hlt | hge
    · rw [blocks_getElem? host hlt, blocks_getElem? host hlt, h.block_eq hj]
    · rw [List.getElem?_eq_none (by rwa [blocks_length]), List.getElem?_eq_none (by rwa [blocks_length])]
  have hlens : (blocks host (s.length / 4) s).length = (blocks host (s.length / 4) t).length := by
    rw [blocks_length, blocks_length]
  have htails : (s.drop (4 * (s.length / 4))).length = (t.drop (4 * (s.length / 4))).length := by
    rw [List.length_drop, List.length_drop, h.length]
  intro heq
  rw [mixed, mixed, hblk, h.length] at heq
  have hstate := xor_injective' _ (fmix32_injective heq)
  rw [← h.length] at hstate
  by_cases htail : s.drop (4 * (s.length / 4)) = t.drop (4 * (s.length / 4))
  · have hne : blocks host (s.length / 4) s ≠ blocks host (s.length / 4) t := by
      intro hblocks
      exact h.differ (blocks_injective h.length (Nat.mul_div_le _ 4) hblocks htail)
    rw [htail] at hstate
    exact mixInto_mixes.foldl_ne seed hlens hother hne (xor_injective' _ hstate)
  · -- the tail is the block that differs
    have hi : i = s.length / 4 := by
      by_contra hi
      refine htail (List.ext_getElem? fun k => ?_)
      rcases Nat.lt_or_ge (4 * (s.length / 4) + k) s.length with hlt | hge
      · rw [List.getElem?_drop, List.getElem?_drop]
        exact h.same _ (by omega)
      · rw [List.getElem?_eq_none (by rw [List.length_drop]; omega), List.getElem?_eq_none (by rw [List.length_drop, ← h.length]; omega)]
    have hblocks : blocks host (s.length / 4) s = blocks host (s.length / 4) t := by
      refine List.ext_getElem? fun j => ?_
      by_cases hj : j = i
      · rw [List.getElem?_eq_none (by rw [blocks_length]; omega), List.getElem?_eq_none (by rw [blocks_length]; omega)]
      · exact hother j hj
    rw [hblocks] at hstate
    exact htail (tailBlock_injective (by rw [List.length_drop]; omega) htails (mixBlock_injective (xor_injective _ hstate)))

theorem oneBlock_sample : OneBlock 1 [107, 101, 121, 58, 48, 48, 48, 49] [107, 101, 121, 58, 48, 48, 48, 50] where
  length := rfl
  same := by
    have hbelow : ∀ j < 8, j / 4 ≠ 1 → [107, 101, 121, 58, 48, 48, 48, 49][j]? =
        ([107, 101, 121, 58, 48, 48, 48, 50] : List UInt8)[j]? := by decide
    intro j hj
    rcases Nat.lt_or_ge j 8 with hlt | hge
    · exact hbelow j hlt hj
    · rw [List.getElem?_eq_none hge, List.getElem?_eq_none hge]
  differ := by decide

theorem pair_toNat (a b : UInt32) : (a.toUInt64 <<< 32 ||| b.toUInt64).toNat = 2 ^ 32 * a.toNat + b.toNat := by
  have ha := a.toNat_lt
  have hb := b.toNat_lt
  have hshift : (a.toUInt64 <<< 32).toNat = 2 ^ 32 * a.toNat := by
    rw [UInt64.toNat_shiftLeft, UInt32.toNat_toUInt64, show (32 : UInt64).toNat % 64 = 32 from rfl, Nat.shiftLeft_eq,
      Nat.mul_comm, Nat.mod_eq_of_lt (by omega)]
  rw [UInt64.toNat_or, hshift, UInt32.toNat_toUInt64, ← Nat.two_pow_add_eq_or_of_lt hb]

theorem join_bijective : Bijective fun p : UInt32 × UInt32 => p.1.toUInt64 <<< 32 ||| p.2.toUInt64 := by
  constructor
  · rintro ⟨a, b⟩ ⟨c, d⟩ heq
    have hnat : 2 ^ 32 * a.toNat + b.toNat = 2 ^ 32 * c.toNat + d.toNat :=
      (pair_toNat a b).symm.trans ((congrArg UInt64.toNat heq).trans (pair_toNat c d))
    have hb := b.toNat_lt
    have hd := d.toNat_lt
    have hhigh : a = c := UInt32.toNat_inj.mp (by omega)
    have hlow : b = d := UInt32.toNat_inj.mp (by omega)
    rw [hhigh, hlow]
  · intro v
    have hv := v.toNat_lt
    refine ⟨(.ofNat (v.toNat / 2 ^ 32), .ofNat (v.toNat % 2 ^ 32)), UInt64.toNat_inj.mp ?_⟩
    rw [pair_toNat, UInt32.toNat_ofNat', UInt32.toNat_ofNat', Nat.mod_eq_of_lt (by omega), Nat.mod_mod, Nat.div_add_mod]

theorem murmur3_hash_str_eq (host : Endian) {s : List UInt8} (hs : s.length < 2 ^ 32) (hnul : 0 ∉ s)
    (rest rest' : List UInt8) (seed : UInt32) :
    murmur3_hash_str host (some (s ++ 0 :: rest)) seed = murmur3_hash host (some (s ++ rest')) (.ofNat s.length) seed := by
  have hstr : c_str (s ++ 0 :: rest) = s := Segments.before_append hnul
  have hmem : (0 : UInt8) ∈ s ++ 0 :: rest := List.mem_append_right s (List.mem_cons_self ..)
  rw [murmur3_hash_str, if_pos hmem, hstr, murmur3_append host hs]
  exact (murmur3_append host hs rest' seed).symm

end

end Flz.Hash
