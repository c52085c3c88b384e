import Mathlib.Algebra.Order.Ring.Int
import Mathlib.Data.List.Basic
import Mathlib.Tactic.Cases

/-! # AES

`CryptoUtil` of `src/crypto_util.cc`, over any `EVP` functions that it may be linked with.
-/
namespace Flz.CryptoUtil

/-- `EVP_aes_256_ecb()` and so on. -/
inductive Cipher
  | aes_256_ecb
  | aes_128_ecb
  | aes_256_cbc
  | aes_128_cbc

/-- The functions called, with the `int` that each returns and the bytes that it writes; no context is `nullptr`. -/
structure Evp (Ctx : Type) where
  CIPHER_CTX_new : Option Ctx
  CipherInit_ex (ctx : Ctx) (cipher : Cipher) (key : List UInt8) (iv : Option (List UInt8)) (enc : Bool) : ℤ × Ctx
  CipherUpdate (ctx : Ctx) (input : List UInt8) : ℤ × List UInt8 × Ctx
  CipherFinal_ex (ctx : Ctx) : ℤ × List UInt8

/-- What is returned, what stands in `out`, and of each call made whether it succeeded. -/
structure Run where
  ret : ℤ
  out : List UInt8
  calls : List Bool

variable {Ctx : Type}

/-- From `EVP_CipherFinal_ex` on. -/
def cipherFinal (evp : Evp Ctx) (ctx : Ctx) (out : List UInt8) (calls : List Bool) : Run :=
  if (evp.CipherFinal_ex ctx).1 ≠ 1 then ⟨-1, out ++ (evp.CipherFinal_ex ctx).2, calls ++ [false]⟩
  else ⟨out.length + (evp.CipherFinal_ex ctx).2.length, out ++ (evp.CipherFinal_ex ctx).2, calls ++ [true]⟩

/-- From `EVP_CipherUpdate` on. -/
def cipherUpdate (evp : Evp Ctx) (ctx : Ctx) (input : List UInt8) (calls : List Bool) : Run :=
  if (evp.CipherUpdate ctx input).1 ≠ 1 then ⟨-1, (evp.CipherUpdate ctx input).2.1, calls ++ [false]⟩
  else cipherFinal evp (evp.CipherUpdate ctx input).2.2 (evp.CipherUpdate ctx input).2.1 (calls ++ [true])

/-- `CryptoUtil::Crypto`. -/
def Crypto (evp : Evp Ctx) (cipher : Cipher) (enc : Bool) (key : List UInt8) (iv : Option (List UInt8))
    (input : List UInt8) : Run :=
  match evp.CIPHER_CTX_new with
  | none => ⟨-1, [], [false]⟩
  | some ctx =>
    -- `!= -1` for a function that returns 1 or 0
    if (evp.CipherInit_ex ctx cipher key iv enc).1 ≠ -1 then
      ⟨-1, [], [true, (evp.CipherInit_ex ctx cipher key iv enc).1 = 1]⟩
    else cipherUpdate evp (evp.CipherInit_ex ctx cipher key iv enc).2 input [true, false]

/-- `CryptoUtil::AES256Ecb`. -/
def AES256Ecb (evp : Evp Ctx) (key input : List UInt8) (encode : Bool) : Run :=
  Crypto evp .aes_256_ecb encode key none input

/-- `CryptoUtil::AES128Ecb`. -/
def AES128Ecb (evp : Evp Ctx) (key input : List UInt8) (encode : Bool) : Run :=
  Crypto evp .aes_128_ecb encode key none input

/-- `CryptoUtil::AES256Cbc`. -/
def AES256Cbc (evp : Evp Ctx) (key iv input : List UInt8) (encode : Bool) : Run :=
  Crypto evp .aes_256_cbc encode key (some iv) input

/-- `CryptoUtil::AES128Cbc`. -/
def AES128Cbc (evp : Evp Ctx) (key iv input : List UInt8) (encode : Bool) : Run :=
  Crypto evp .aes_128_cbc encode key (some iv) input

/-- The one of the four for a cipher. -/
def aes (evp : Evp Ctx) (key iv input : List UInt8) (encode : Bool) : Cipher → Run
  | .aes_256_ecb => AES256Ecb evp key input encode
  | .aes_128_ecb => AES128Ecb evp key input encode
  | .aes_256_cbc => AES256Cbc evp key iv input encode
  | .aes_128_cbc => AES128Cbc evp key iv input encode

/-- What the code gives for the initial vector. -/
def Cipher.iv (iv : List UInt8) : Cipher → Option (List UInt8)
  | aes_256_ecb | aes_128_ecb => none
  | aes_256_cbc | aes_128_cbc => some iv

/-- The functions succeed one after the other, and what they write is `output`. -/
def Transforms (evp : Evp Ctx) (cipher : Cipher) (key : List UInt8) (iv : Option (List UInt8)) (enc : Bool)
    (input output : List UInt8) : Prop :=
  ∃ ctx ctx' ctx'' u f, evp.CIPHER_CTX_new = some ctx ∧ evp.CipherInit_ex ctx cipher key iv enc = (1, ctx') ∧
    evp.CipherUpdate ctx' input = (1, u, ctx'') ∧ evp.CipherFinal_ex ctx'' = (1, f) ∧ output = u ++ f

/-- Whole blocks, at least one byte more than there are. -/
def padded (n : ℕ) : ℕ := (n / 16 + 1) * 16

/-- Where the functions invert the padded encryption so does the code, and `-1` tells that a call failed. -/
structure RoundTrips (evp : Evp Ctx) (cipher : Cipher) (key iv input : List UInt8) : Prop where
  inverted : ∀ e, Transforms evp cipher key (cipher.iv iv) true input e → e.length = padded input.length →
    Transforms evp cipher key (cipher.iv iv) false e input →
    (aes evp key iv input true cipher).ret = padded input.length ∧ (aes evp key iv input true cipher).out = e ∧
      (aes evp key iv e false cipher).ret = input.length ∧ (aes evp key iv e false cipher).out = input
  failed : ∀ encode, (aes evp key iv input encode cipher).ret = -1 ↔
    false ∈ (aes evp key iv input encode cipher).calls

/-- There is no context, or it is not initialised and a later call fails as well if that was told by `-1`. -/
def InitFails (evp : Evp Ctx) (cipher : Cipher) (enc : Bool) (key : List UInt8) (iv : Option (List UInt8))
    (input : List UInt8) : Prop :=
  ∀ ctx ∈ evp.CIPHER_CTX_new, (evp.CipherInit_ex ctx cipher key iv enc).1 ≠ 1 ∧
    ((evp.CipherInit_ex ctx cipher key iv enc).1 = -1 →
      (evp.CipherUpdate (evp.CipherInit_ex ctx cipher key iv enc).2 input).1 ≠ 1 ∨
      (evp.CipherFinal_ex (evp.CipherUpdate (evp.CipherInit_ex ctx cipher key iv enc).2 input).2.2).1 ≠ 1)

section
variable {evp : Evp Ctx} {cipher : Cipher} {enc : Bool} {key input out : List UInt8} {iv : Option (List UInt8)}
  {ctx : Ctx} {calls : List Bool}

theorem cipherFinal_ret : (cipherFinal evp ctx out calls).ret = -1 ↔ (evp.CipherFinal_ex ctx).1 ≠ 1 := by
  by_cases h : (evp.CipherFinal_ex ctx).1 = 1
  · rw [cipherFinal, if_neg (not_not.mpr h)]
    refine iff_of_false ?_ (not_not.mpr h)
    change ((out.length : ℤ) + (evp.CipherFinal_ex ctx).2.length) ≠ -1
    omega
  · rw [cipherFinal, if_pos h]
    exact iff_of_true rfl h

theorem cipherUpdate_ret : (cipherUpdate evp ctx input calls).ret = -1 ↔
    (evp.CipherUpdate ctx input).1 ≠ 1 ∨ (evp.CipherFinal_ex (evp.CipherUpdate ctx input).2.2).1 ≠ 1 := by
  by_cases h : (evp.CipherUpdate ctx input).1 = 1
  · rw [cipherUpdate, if_neg (not_not.mpr h), cipherFinal_ret]
    exact (or_iff_right (not_not.mpr h)).symm
  · rw [cipherUpdate, if_pos h]
    exact iff_of_true rfl (.inl h)

theorem calls_subset : calls ⊆ (cipherUpdate evp ctx input calls).calls := by
  rw [cipherUpdate]
  split
  · simp
  · rw [cipherFinal]
    split <;> simp

/-- The error is told right when it is there from the initialisation on. -/
theorem Crypto_failed_iff : ((Crypto evp cipher enc key iv input).ret = -1 ↔
    false ∈ (Crypto evp cipher enc key iv input).calls) ↔ InitFails evp cipher enc key iv input := by
  cases hctx : evp.CIPHER_CTX_new with
  | none => simp [Crypto, InitFails, hctx]
  | some ctx =>
    by_cases hcode : (evp.CipherInit_ex ctx cipher key iv enc).1 = -1
    · have hrun : Crypto evp cipher enc key iv input =
          cipherUpdate evp (evp.CipherInit_ex ctx cipher key iv enc).2 input [true, false] := by
        simp [Crypto, hctx, hcode]
      have hfailed : false ∈ (Crypto evp cipher enc key iv input).calls := by
        rw [hrun]
        exact calls_subset (by simp)
      rw [iff_true_right hfailed, hrun, cipherUpdate_ret]
      simp [InitFails, hctx, hcode]
    · simp [Crypto, InitFails, hctx, hcode]

theorem aes_eq (evp : Evp Ctx) (key iv input : List UInt8) (encode : Bool) (cipher : Cipher) :
    aes evp key iv input encode cipher = Crypto evp cipher encode key (cipher.iv iv) input := by
  cases cipher <;> rfl

theorem not_initFails {output : List UInt8} (h : Transforms evp cipher key iv enc input output) :
    ¬ InitFails evp cipher enc key iv input := by
  obtain ⟨ctx, ctx', ctx'', u, f, hctx, hinit, -⟩ := h
  intro hfails
  have hcode := (hfails ctx hctx).1
  rw [hinit] at hcode
  exact hcode rfl

/-- Where the functions do what they should, `-1` is returned. -/
theorem ret_of_transforms {output : List UInt8} (h : Transforms evp cipher key iv enc input output) :
    (Crypto evp cipher enc key iv input).ret = -1 := by
  obtain ⟨ctx, ctx', ctx'', u, f, hctx, hinit, -⟩ := h
  simp [Crypto, hctx, hinit]

end

/-- The code does what it should on exactly the calls that fail at the initialisation. -/
theorem aes_roundTrips_iff (evp : Evp Ctx) (cipher : Cipher) (key iv input : List UInt8) :
    RoundTrips evp cipher key iv input ↔ ∀ encode, InitFails evp cipher encode key (cipher.iv iv) input := by
  constructor
  · intro h encode
    have hfailed := h.failed encode
    rw [aes_eq] at hfailed
    exact Crypto_failed_iff.mp hfailed
  · intro h
    refine ⟨fun e henc => absurd (h true) (not_initFails henc), fun encode => ?_⟩
    rw [aes_eq]
    exact Crypto_failed_iff.mpr (h encode)

/-! ## Functions that only pad -/

def pad (input : List UInt8) : List UInt8 :=
  input ++ List.replicate (16 - input.length % 16) (.ofNat (16 - input.length % 16))

def unpad (input : List UInt8) : List UInt8 := input.take (input.length - (input.getLastD 0).toNat)

/-- They keep the input for the end. -/
def plain : Evp (Bool × List UInt8) where
  CIPHER_CTX_new := some (true, [])
  CipherInit_ex _ _ _ _ enc := (1, enc, [])
  CipherUpdate ctx input := (1, [], ctx.1, ctx.2 ++ input)
  CipherFinal_ex ctx := (1, if ctx.1 then pad ctx.2 else unpad ctx.2)

theorem length_pad (input : List UInt8) : (pad input).length = padded input.length := by
  rw [pad, List.length_append, List.length_replicate, padded]
  omega

theorem unpad_pad (input : List UInt8) : unpad (pad input) = input := by
  have hlast : (pad input).getLastD 0 = .ofNat (16 - input.length % 16) := by
    obtain ⟨k, hk⟩ : ∃ k, 16 - input.length % 16 = k + 1 := ⟨15 - input.length % 16, by omega⟩
    rw [pad, hk, List.replicate_succ', ← List.append_assoc, List.getLastD_concat]
  have hvalue : (UInt8.ofNat (16 - input.length % 16)).toNat = 16 - input.length % 16 :=
    UInt8.toNat_ofNat_of_lt' (by rw [UInt8.size]; omega)
  rw [unpad, hlast, hvalue, pad, List.length_append, List.length_replicate, Nat.add_sub_cancel, List.take_left]

theorem plain_inverts (cipher : Cipher) (key : List UInt8) (iv : Option (List UInt8)) (input : List UInt8) :
    Transforms plain cipher key iv true input (pad input) ∧ Transforms plain cipher key iv false (pad input) input := by
  constructor
  · exact ⟨_, _, _, _, _, rfl, rfl, rfl, rfl, rfl⟩
  · refine ⟨_, _, _, _, _, rfl, rfl, rfl, rfl, ?_⟩
    exact (unpad_pad input).symm

/-- They invert the padded encryption, and the code loses it. -/
theorem plain_lost : ¬ ∀ (Ctx : Type) (evp : Evp Ctx) cipher key iv input, RoundTrips evp cipher key iv input := by
  intro h
  obtain ⟨henc, hdec⟩ := plain_inverts .aes_256_ecb (List.replicate 32 0) none [97]
  have hret := ((h _ plain .aes_256_ecb (List.replicate 32 0) [] [97]).inverted _ henc (length_pad [97]) hdec).1
  rw [aes_eq] at hret
  exact absurd ((ret_of_transforms henc).symm.trans hret) (by decide)

end Flz.CryptoUtil
