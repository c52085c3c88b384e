import Flz.Http.Message
import Flz.Lib.Halves
import Flz.Lib.Table

/-! # Hexadecimal text

`hexstring_from_data` and `data_from_hexstring` of `src/hash_util.cc`.
-/
namespace Flz.Hash
open Lib Halves Http

/-- `std::invalid_argument`. -/
structure InvalidArgument where
  what : String
  deriving DecidableEq, Repr

/-- The character of a value below 16. -/
def hexChar (c : UInt8) : UInt8 := if c > 9 then c + 97 - 10 else c + 48

/-- The loop of `hexstring_from_data` with what it has written. -/
def hexLoop (output : List UInt8) : List UInt8 → List UInt8
  | [] => output
  | b :: buf => hexLoop (output ++ [hexChar ((b >>> 4) &&& 0xf), hexChar (b &&& 0xf)]) buf

def hexstring_from_data (data : List UInt8) : List UInt8 :=
  if data.length = 0 then [] else hexLoop [] data

/-- The switch over a character, which stands in the loop once for each half of a byte. -/
def hexNibble (c : UInt8) : Option UInt8 :=
  if 97 ≤ c ∧ c ≤ 102 then some (c - 97 + 10)
  else if 65 ≤ c ∧ c ≤ 70 then some (c - 65 + 10)
  else if 48 ≤ c ∧ c ≤ 57 then some (c - 48)
  else none

/-- The loop of `data_from_hexstring` with what it has written; behind its end a string has a `NUL`. -/
def dataLoop (output : List UInt8) : List UInt8 → Except InvalidArgument (List UInt8)
  | [] => .ok output
  | h :: hexstring =>
    match hexNibble h with
    | none => .error ⟨"data_from_hexstring invalid hexstring"⟩
    | some high =>
      match hexNibble (hexstring.headD 0) with
      | none => .error ⟨"data_from_hexstring invalid hexstring"⟩
      | some low => dataLoop (output ++ [high <<< 4 ||| low]) hexstring.tail
termination_by hexstring => hexstring.length
decreasing_by
  rw [List.length_tail, List.length_cons]
  omega

/-- The overload that writes to `output`. -/
def dataFromHexstring (hexstring : List UInt8) : Except InvalidArgument (List UInt8) :=
  if hexstring.length % 2 ≠ 0 then .error ⟨"data_from_hexstring length % 2 != 0"⟩
  else dataLoop [] hexstring

def data_from_hexstring (hexstring : List UInt8) : Except InvalidArgument (List UInt8) :=
  if hexstring.length % 2 ≠ 0 then .error ⟨"data_from_hexstring length % 2 != 0"⟩
  else if hexstring.length = 0 then .ok []
  else dataFromHexstring hexstring

/-! ## Digits -/

theorem hexNibble_isSome (c : UInt8) : (hexNibble c).isSome = ByteClass.xdigit.holds c := by
  have h := forall_byte (p := fun c => (hexNibble c).isSome == ByteClass.xdigit.holds c) (by decide +kernel) c
  exact beq_iff_eq.mp h

theorem hexNibble_hexChar {v : UInt8} (h : v.toNat < 16) : hexNibble (hexChar v) = some v := by
  have hall := forall_byte (p := fun v => decide (v.toNat < 16 → hexNibble (hexChar v) = some v))
    (by decide +kernel) v
  exact decide_eq_true_iff.mp hall h

/-- A character that is read is written again in lower case. -/
theorem hexChar_of_hexNibble {c v : UInt8} (h : hexNibble c = some v) :
    v.toNat < 16 ∧ hexChar v = tolower c := by
  have hall := forall_byte (p := fun c => (hexNibble c).all fun v => v.toNat < 16 && hexChar v == tolower c)
    (by decide +kernel) c
  rw [h, Option.all_some, Bool.and_eq_true, decide_eq_true_iff, beq_iff_eq] at hall
  exact hall

/-- The two characters of a byte. -/
def hexByte (b : UInt8) : List UInt8 := [hexChar ((b >>> 4) &&& 0xf), hexChar (b &&& 0xf)]

theorem hexLoop_eq (output data : List UInt8) : hexLoop output data = output ++ data.flatMap hexByte := by
  induction data generalizing output with
  | nil => simp [hexLoop]
  | cons b data ih => simp [hexLoop, ih, hexByte]

theorem hexstring_from_data_eq (data : List UInt8) : hexstring_from_data data = data.flatMap hexByte := by
  rw [hexstring_from_data]
  split
  · rename_i hempty
    simp [List.length_eq_zero_iff.mp hempty]
  · simp [hexLoop_eq]

theorem masked {v : UInt8} (h : v.toNat < 16) : v &&& 0xf = v := by
  apply UInt8.toNat_inj.mp
  rw [low_toNat]
  exact Nat.mod_eq_of_lt h

/-! ## The round trip -/

theorem dataLoop_pair {h l high low : UInt8} (hh : hexNibble h = some high) (hl : hexNibble l = some low)
    (output rest : List UInt8) :
    dataLoop output (h :: l :: rest) = dataLoop (output ++ [high <<< 4 ||| low]) rest := by
  rw [dataLoop]
  simp [hh, hl]

theorem data_from_hexstring_eq {hexstring : List UInt8} (heven : ¬ hexstring.length % 2 ≠ 0) :
    data_from_hexstring hexstring = dataLoop [] hexstring := by
  rw [data_from_hexstring, if_neg heven, dataFromHexstring, if_neg heven]
  split
  · rename_i hempty
    rw [List.length_eq_zero_iff.mp hempty, dataLoop]
  · rfl

theorem dataLoop_hexByte (output data : List UInt8) :
    dataLoop output (data.flatMap hexByte) = .ok (output ++ data) := by
  induction data generalizing output with
  | nil => simp [dataLoop]
  | cons b data ih =>
    have hhigh := hexNibble_hexChar (high_lt b)
    have hlow := hexNibble_hexChar (low_lt b)
    simp only [List.flatMap_cons, hexByte, List.cons_append, List.nil_append, masked (high_lt b)]
    rw [dataLoop_pair hhigh hlow, join_halves rfl rfl]
    exact (ih _).trans (by simp)

theorem hexByte_length (data : List UInt8) : (data.flatMap hexByte).length = 2 * data.length := by
  induction data with
  | nil => rfl
  | cons b data ih =>
    simp only [List.flatMap_cons, List.length_append, ih, List.length_cons]
    simp [hexByte]
    omega

theorem data_from_hexstring_hexstring (data : List UInt8) :
    data_from_hexstring (hexstring_from_data data) = .ok data := by
  have heven : ¬ (data.flatMap hexByte).length % 2 ≠ 0 := by
    rw [hexByte_length]
    omega
  rw [hexstring_from_data_eq, data_from_hexstring_eq heven, dataLoop_hexByte]
  rfl

/-! ## What is accepted -/

theorem hexByte_join {h l high low : UInt8} (hh : hexNibble h = some high) (hl : hexNibble l = some low) :
    hexByte (high <<< 4 ||| low) = [tolower h, tolower l] := by
  obtain ⟨hhigh, hcharh⟩ := hexChar_of_hexNibble hh
  obtain ⟨hlow, hcharl⟩ := hexChar_of_hexNibble hl
  have hjoin := join_toNat hhigh hlow
  have hhi : (high <<< 4 ||| low) >>> 4 = high := by
    apply UInt8.toNat_inj.mp
    rw [high_toNat, hjoin]
    omega
  have hlo : (high <<< 4 ||| low) &&& 0xf = low := by
    apply UInt8.toNat_inj.mp
    rw [low_toNat, hjoin]
    omega
  rw [hexByte, hhi, hlo, masked hhigh, hcharh, hcharl]

/-- Of a text of even length the loop reads all, or it meets a character that is no digit. -/
theorem dataLoop_cases (hexstring : List UInt8) (heven : hexstring.length % 2 = 0) (output : List UInt8) :
    ((∀ c ∈ hexstring, ByteClass.xdigit.holds c = true) ∧ ∃ data, dataLoop output hexstring = .ok (output ++ data) ∧
      data.flatMap hexByte = hexstring.map tolower) ∨
    (¬ (∀ c ∈ hexstring, ByteClass.xdigit.holds c = true) ∧ ∃ what, dataLoop output hexstring = .error ⟨what⟩) := by
  match hexstring with
  | [] => exact Or.inl ⟨by simp, [], by simp [dataLoop], rfl⟩
  | [_] => simp at heven
  | h :: l :: rest =>
    have hrest : rest.length % 2 = 0 := by
      simp only [List.length_cons] at heven
      omega
    simp only [List.forall_mem_cons, ← hexNibble_isSome h, ← hexNibble_isSome l]
    cases hh : hexNibble h with
    | none =>
      refine Or.inr ⟨by simp, "data_from_hexstring invalid hexstring", ?_⟩
      rw [dataLoop]
      simp [hh]
    | some high =>
      cases hl : hexNibble l with
      | none =>
        refine Or.inr ⟨by simp, "data_from_hexstring invalid hexstring", ?_⟩
        rw [dataLoop]
        simp [hh, hl]
      | some low =>
        rw [dataLoop_pair hh hl]
        rcases dataLoop_cases rest hrest (output ++ [high <<< 4 ||| low]) with ⟨hall, data, hok, htext⟩ | ⟨hall, herr⟩
        · refine Or.inl ⟨by simpa using hall, (high <<< 4 ||| low) :: data, by simpa using hok, ?_⟩
          rw [List.flatMap_cons, hexByte_join hh hl, htext]
          rfl
        · exact Or.inr ⟨by simpa using hall, herr⟩

def IsHex (hexstring : List UInt8) : Prop :=
  hexstring.length % 2 = 0 ∧ ∀ c ∈ hexstring, ByteClass.xdigit.holds c = true

/-- Data that is written in hexadecimal is read again. A text is read exactly when its length is even and it
has digits only, and what is read is then written as the text in lower case. -/
theorem hexstring_round_trip :
    (∀ data, data_from_hexstring (hexstring_from_data data) = .ok data) ∧
    ∀ hexstring,
      (IsHex hexstring → ∃ data, data_from_hexstring hexstring = .ok data ∧
        hexstring_from_data data = hexstring.map tolower) ∧
      (¬ IsHex hexstring → ∃ what, data_from_hexstring hexstring = .error ⟨what⟩) := by
  refine ⟨data_from_hexstring_hexstring, fun hexstring => ?_⟩
  by_cases heven : hexstring.length % 2 = 0
  · rw [data_from_hexstring_eq (by omega)]
    rcases dataLoop_cases hexstring heven [] with ⟨hall, data, hok, htext⟩ | ⟨hall, herr⟩
    · refine ⟨fun _ => ⟨data, hok, ?_⟩, fun h => absurd ⟨heven, hall⟩ h⟩
      rw [hexstring_from_data_eq, htext]
    · exact ⟨fun h => absurd h.2 hall, fun _ => herr⟩
  · refine ⟨fun h => absurd h.1 heven, fun _ => ⟨"data_from_hexstring length % 2 != 0", ?_⟩⟩
    rw [data_from_hexstring, if_pos heven]

end Flz.Hash
