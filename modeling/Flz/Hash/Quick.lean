import Flz.Lib.Horner
import Mathlib.Data.Int.ModEq
import Mathlib.Tactic.Cases

/-! # Quick hashes

The two overloads of `quick_hash` of `src/hash_util.cc`.
-/
namespace Flz.Hash
open Lib

/-- A `char` as an operand of `unsigned int`. -/
def signExtend (c : UInt8) : UInt32 := c.toInt8.toInt32.toUInt32

/-- The loop up to the `NUL`; `str` is the memory from the pointer on. -/
def quickLoop (h : UInt32) : List UInt8 → UInt32
  | [] => h
  | c :: str => if c = 0 then h else quickLoop (31 * h + signExtend c) str

/-- `quick_hash(const char*)`. -/
def quick_hash (str : List UInt8) : UInt32 := quickLoop 0 str

/-- `quick_hash(const void*, uint32_t)`, whose loop does not move `str`. -/
def quick_hash_size (str : List UInt8) (size : UInt32) : UInt32 :=
  (fun h => 31 * h + signExtend (str.headD 0))^[size.toNat] 0

/-- The value of a `char`. -/
def charValue (c : UInt8) : ℤ := c.toInt8.toInt

/-- Both hash the text in front of the `NUL` to its polynomial. -/
structure Agree (s rest : List UInt8) : Prop where
  same : quick_hash (s ++ 0 :: rest) = quick_hash_size (s ++ 0 :: rest) (.ofNat s.length)
  value : ((quick_hash (s ++ 0 :: rest)).toNat : ℤ) = coeffSum 31 (s.map charValue) % 2 ^ 32

section
variable {h : UInt32} {z : ℤ} {s rest : List UInt8} {c : UInt8}

theorem signExtend_modEq (c : UInt8) : ((signExtend c).toNat : ℤ) ≡ charValue c [ZMOD 2 ^ 32] := by
  have hcast : ((signExtend c).toNat : ℤ) = c.toInt8.toInt32.toBitVec.toNat := rfl
  have hvalue : charValue c = c.toInt8.toInt32.toBitVec.toInt := (Int8.toInt_toInt32 _).symm
  rw [hcast, hvalue, BitVec.toInt_eq_toNat_bmod]
  exact (Int.bmod_emod ..).symm

theorem step_modEq (hz : (h.toNat : ℤ) ≡ z [ZMOD 2 ^ 32]) (c : UInt8) :
    ((31 * h + signExtend c).toNat : ℤ) ≡ 31 * z + charValue c [ZMOD 2 ^ 32] := by
  have hstep : ((31 * h + signExtend c).toNat : ℤ) ≡ 31 * h.toNat + (signExtend c).toNat [ZMOD 2 ^ 32] := by
    rw [UInt32.toNat_add, UInt32.toNat_mul]
    simp [Int.ModEq]
  exact hstep.trans ((hz.mul_left 31).add (signExtend_modEq c))

theorem foldl_modEq (hz : (h.toNat : ℤ) ≡ z [ZMOD 2 ^ 32]) (s : List UInt8) :
    ((s.foldl (fun h c => 31 * h + signExtend c) h).toNat : ℤ) ≡
      (s.map charValue).foldl (fun h c => 31 * h + c) z [ZMOD 2 ^ 32] := by
  induction s generalizing h z with
  | nil => exact hz
  | cons c s ih => exact ih (step_modEq hz c)

theorem hash_modEq (s : List UInt8) : ((s.foldl (fun h c => 31 * h + signExtend c) 0).toNat : ℤ) ≡
    horner 31 (s.map charValue) [ZMOD 2 ^ 32] :=
  foldl_modEq rfl s

theorem quickLoop_eq (hs : 0 ∉ s) (h : UInt32) (rest : List UInt8) :
    quickLoop h (s ++ 0 :: rest) = s.foldl (fun h c => 31 * h + signExtend c) h := by
  induction s generalizing h with
  | nil => rfl
  | cons c s ih =>
    rw [List.mem_cons, not_or] at hs
    rw [List.cons_append, quickLoop, if_neg (Ne.symm hs.1), ih hs.2, List.foldl_cons]

/-- The first character is taken again in each round. -/
theorem iterate_eq_foldl (s : List UInt8) (h : UInt32) : (fun h => 31 * h + signExtend c)^[s.length] h =
    (s.map fun _ => c).foldl (fun h c => 31 * h + signExtend c) h := by
  induction s generalizing h with
  | nil => rfl
  | cons a s ih =>
    rw [List.length_cons, Function.iterate_succ_apply, ih]
    rfl

theorem quick_hash_size_eq (hsize : s.length < UInt32.size) :
    quick_hash_size (s ++ 0 :: rest) (.ofNat s.length) =
      (s.map fun _ => s.headD 0).foldl (fun h c => 31 * h + signExtend c) 0 := by
  have hhead : (s ++ 0 :: rest).headD 0 = s.headD 0 := by
    cases s <;> rfl
  rw [quick_hash_size, hhead, UInt32.toNat_ofNat_of_lt' hsize, iterate_eq_foldl]

theorem modEq_toNat_iff {h' : UInt32} {z' : ℤ} (hz : (h.toNat : ℤ) ≡ z [ZMOD 2 ^ 32])
    (hz' : (h'.toNat : ℤ) ≡ z' [ZMOD 2 ^ 32]) : h = h' ↔ z ≡ z' [ZMOD 2 ^ 32] := by
  have hlt := h.toNat_lt
  have hlt' := h'.toNat_lt
  rw [← UInt32.toNat_inj]
  constructor
  · intro heq
    rw [heq] at hz
    exact hz.symm.trans hz'
  · intro hmod
    have hboth : (h.toNat : ℤ) % 2 ^ 32 = h'.toNat % 2 ^ 32 := hz.trans (hmod.trans hz'.symm)
    omega

end

/-- They agree on exactly the texts whose differences from the first character cancel. -/
theorem agree_iff {s : List UInt8} (rest : List UInt8) (hs : 0 ∉ s) (hsize : s.length < UInt32.size) :
    Agree s rest ↔ (2 ^ 32 : ℤ) ∣ coeffSum 31 (s.map fun c => charValue c - charValue (s.headD 0)) := by
  have hvalue := hash_modEq s
  have hfirst := hash_modEq (s.map fun _ => s.headD 0)
  have hsame : quick_hash (s ++ 0 :: rest) = quick_hash_size (s ++ 0 :: rest) (.ofNat s.length) ↔
      (2 ^ 32 : ℤ) ∣ coeffSum 31 (s.map fun c => charValue c - charValue (s.headD 0)) := by
    rw [quick_hash, quickLoop_eq hs, quick_hash_size_eq hsize, modEq_toNat_iff hvalue hfirst, ← horner_eq_coeffSum,
      horner_map_sub, Int.modEq_comm, Int.modEq_iff_dvd, List.map_map]
    rfl
  refine ⟨fun h => hsame.mp h.same, fun h => ⟨hsame.mpr h, ?_⟩⟩
  have hlt := (s.foldl (fun h c => 31 * h + signExtend c) 0).toNat_lt
  rw [horner_eq_coeffSum, Int.ModEq] at hvalue
  rw [quick_hash, quickLoop_eq hs, ← hvalue]
  omega

theorem agree_iff_aa : Agree [97, 97] [] :=
  (agree_iff [] (by decide) (by decide)).mpr (by decide)

/-- The hashes of `"ab"` differ. -/
theorem ab_differs : ¬ ∀ s rest : List UInt8, 0 ∉ s → s.length < UInt32.size → Agree s rest := by
  intro h
  have hdvd := (agree_iff [] (by decide) (by decide)).mp (h [97, 98] [] (by decide) (by decide))
  revert hdvd
  decide

end Flz.Hash
