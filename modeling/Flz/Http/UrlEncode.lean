import Flz.Http.Params
import Flz.Lib.Halves
import Flz.Lib.Table

/-! # URL coding

`UrlEncode` of `src/util.cc`, which `UrlDecode` reads back.
-/
namespace Flz.Http
open Lib Halves

/-- The table `uri_chars`. -/
def uri_chars : List UInt8 :=
  [0, 0, 0, 0, 0, 0, 0, 0,   0, 0, 0, 0, 0, 0, 0, 0,
   0, 0, 0, 0, 0, 0, 0, 0,   0, 0, 0, 0, 0, 0, 0, 0,
   0, 0, 0, 0, 0, 0, 0, 0,   0, 0, 0, 0, 0, 1, 1, 0,
   1, 1, 1, 1, 1, 1, 1, 1,   1, 1, 0, 0, 0, 1, 0, 0,
   0, 1, 1, 1, 1, 1, 1, 1,   1, 1, 1, 1, 1, 1, 1, 1,
   1, 1, 1, 1, 1, 1, 1, 1,   1, 1, 1, 0, 0, 0, 0, 1,
   0, 1, 1, 1, 1, 1, 1, 1,   1, 1, 1, 1, 1, 1, 1, 1,
   1, 1, 1, 1, 1, 1, 1, 1,   1, 1, 1, 0, 0, 0, 1, 0] ++ List.replicate 128 0

def CHAR_IS_UNRESERVED (c : UInt8) : Bool := uri_chars.getD c.toNat 0 != 0

def hexdigits : List UInt8 := ascii "0123456789ABCDEF"

/-- The loop of `UrlEncode` with what it has passed; `ss` is made when the first byte changes. -/
def urlEncodeLoop (space_as_plus : Bool) :
    List UInt8 → Option (List UInt8) → List UInt8 → Option (List UInt8)
  | _, ss, [] => ss
  | passed, ss, c :: rest =>
    if ¬ CHAR_IS_UNRESERVED c then
      let out := ss.getD passed
      if c = 32 ∧ space_as_plus then
        urlEncodeLoop space_as_plus (passed ++ [c]) (some (out ++ [43])) rest
      else
        urlEncodeLoop space_as_plus (passed ++ [c])
          (some (out ++ [37, hexdigits.getD (c >>> 4).toNat 0, hexdigits.getD (c &&& 0xf).toNat 0])) rest
    else urlEncodeLoop space_as_plus (passed ++ [c]) (ss.map (· ++ [c])) rest

def UrlEncode (space_as_plus : Bool) (str : List UInt8) : List UInt8 :=
  (urlEncodeLoop space_as_plus [] none str).getD str

/-- What a byte is encoded to. -/
def encodedByte (space_as_plus : Bool) (c : UInt8) : List UInt8 :=
  if CHAR_IS_UNRESERVED c then [c]
  else if c = 32 ∧ space_as_plus then [43]
  else [37, hexdigits.getD (c >>> 4).toNat 0, hexdigits.getD (c &&& 0xf).toNat 0]

theorem urlEncodeLoop_eq (space_as_plus : Bool) (passed : List UInt8) (ss : Option (List UInt8))
    (rest : List UInt8) : (urlEncodeLoop space_as_plus passed ss rest).getD (passed ++ rest) =
      ss.getD passed ++ rest.flatMap (encodedByte space_as_plus) := by
  fun_induction urlEncodeLoop space_as_plus passed ss rest with
  | case1 passed ss => cases ss <;> simp
  | case2 passed ss c rest hres out hplus ih =>
    have hbyte : encodedByte space_as_plus c = [43] := by
      rw [encodedByte, if_neg hres, if_pos hplus]
    simpa [hbyte] using ih
  | case3 passed ss c rest hres out hplus ih =>
    have hbyte : encodedByte space_as_plus c =
        [37, hexdigits.getD (c >>> 4).toNat 0, hexdigits.getD (c &&& 0xf).toNat 0] := by
      rw [encodedByte, if_neg hres, if_neg hplus]
    simpa [hbyte] using ih
  | case4 passed ss c rest hres ih =>
    have hbyte : encodedByte space_as_plus c = [c] := if_pos (not_not.mp hres)
    rw [getD_keep] at ih
    simpa [hbyte] using ih

theorem UrlEncode_eq (space_as_plus : Bool) (str : List UInt8) :
    UrlEncode space_as_plus str = str.flatMap (encodedByte space_as_plus) :=
  urlEncodeLoop_eq space_as_plus [] none str

/-! ## One byte -/

/-- The characters that the comment at `UrlEncode` lists. -/
def unreserved : List UInt8 := ascii "-.0123456789ABCDEFGHIJKLMNOPQRSTUVWXYZ_abcdefghijklmnopqrstuvwxyz~"

theorem CHAR_IS_UNRESERVED_iff (c : UInt8) : CHAR_IS_UNRESERVED c = true ↔ c ∈ unreserved ∨ c = 61 := by
  constructor
  · intro h
    have hall := forall_byte (p := fun c => !CHAR_IS_UNRESERVED c || decide (c ∈ unreserved ∨ c = 61))
      (by decide +kernel) c
    simpa [h] using hall
  · have hall : unreserved.all CHAR_IS_UNRESERVED = true := by decide +kernel
    rintro (hmem | rfl)
    · exact List.all_eq_true.mp hall c hmem
    · decide +kernel

/-- The pieces that an encoded text is made of. -/
def Piece (space_as_plus : Bool) (w : List UInt8) : Prop :=
  (∃ c, (c ∈ unreserved ∨ c = 61) ∧ w = [c]) ∨ (space_as_plus ∧ w = [43]) ∨
    ∃ x ∈ hexdigits, ∃ y ∈ hexdigits, w = [37, x, y]

theorem hexdigits_getD {n : ℕ} (h : n < 16) : hexdigits.getD n 0 ∈ hexdigits ∧
    isxdigit (hexdigits.getD n 0) = true ∧ (xdigit_chars (hexdigits.getD n 0)).toNat = n := by
  have hall : ∀ n < 16, hexdigits.getD n 0 ∈ hexdigits ∧ isxdigit (hexdigits.getD n 0) = true ∧
      (xdigit_chars (hexdigits.getD n 0)).toNat = n := by decide
  exact hall n h

theorem escape_decodes (c : UInt8) : xdigit_chars (hexdigits.getD (c >>> 4).toNat 0) <<< 4 |||
    xdigit_chars (hexdigits.getD (c &&& 0xf).toNat 0) = c := by
  exact join_halves (hexdigits_getD (high_lt c)).2.2 (hexdigits_getD (low_lt c)).2.2

theorem encodedByte_piece (space_as_plus : Bool) (c : UInt8) :
    Piece space_as_plus (encodedByte space_as_plus c) := by
  rw [encodedByte]
  split
  · rename_i hres
    exact Or.inl ⟨c, (CHAR_IS_UNRESERVED_iff c).mp hres, rfl⟩
  · split
    · rename_i hplus
      exact Or.inr (Or.inl ⟨hplus.2, rfl⟩)
    · exact Or.inr (Or.inr ⟨_, (hexdigits_getD (high_lt c)).1, _, (hexdigits_getD (low_lt c)).1, rfl⟩)

/-- A byte that is encoded is decoded, whatever stands behind it. -/
theorem urlDecoded_encodedByte (space_as_plus : Bool) (c : UInt8) (rest : List UInt8) :
    urlDecoded space_as_plus (encodedByte space_as_plus c ++ rest) = c :: urlDecoded space_as_plus rest := by
  rw [encodedByte]
  split
  · rename_i hres
    -- neither a plus nor a percent sign is left bare
    have hplus : c ≠ 43 := by
      rintro rfl
      exact absurd hres (by decide)
    have hpercent : c ≠ 37 := by
      rintro rfl
      exact absurd hres (by decide)
    exact urlDecoded_other (fun h => hplus h.1) fun x y rest' _ h => hpercent h.1
  · split
    · rename_i hspace
      rw [hspace.1]
      exact urlDecoded_plus ⟨rfl, hspace.2⟩
    · have hhigh := (hexdigits_getD (high_lt c)).2.1
      have hlow := (hexdigits_getD (low_lt c)).2.1
      simp only [List.cons_append, List.nil_append]
      rw [urlDecoded_hex (fun h => absurd h.1 (by decide)) ⟨rfl, hhigh, hlow⟩, escape_decodes]

/-! ## Whole texts -/

theorem urlDecoded_flatMap (space_as_plus : Bool) (str rest : List UInt8) :
    urlDecoded space_as_plus (str.flatMap (encodedByte space_as_plus) ++ rest) =
      str ++ urlDecoded space_as_plus rest := by
  induction str with
  | nil => simp
  | cons c str ih => simp [urlDecoded_encodedByte, ih]

theorem UrlDecode_UrlEncode (space_as_plus : Bool) (str : List UInt8) :
    UrlDecode space_as_plus (UrlEncode space_as_plus str) = str := by
  have h := urlDecoded_flatMap space_as_plus str []
  rw [UrlDecode_eq, UrlEncode_eq]
  simpa [urlDecoded] using h

/-- An encoded text decodes to what it was, and is made of bare characters, of `+` where that is a
space, and of escapes. -/
theorem UrlEncode_round_trip (space_as_plus : Bool) (str : List UInt8) :
    UrlDecode space_as_plus (UrlEncode space_as_plus str) = str ∧
      ∃ ws : List (List UInt8), UrlEncode space_as_plus str = ws.flatten ∧ ∀ w ∈ ws, Piece space_as_plus w := by
  refine ⟨UrlDecode_UrlEncode space_as_plus str, str.map (encodedByte space_as_plus), ?_, ?_⟩
  · rw [UrlEncode_eq, List.flatMap_def]
  · intro w hw
    obtain ⟨c, -, rfl⟩ := List.mem_map.mp hw
    exact encodedByte_piece space_as_plus c

end Flz.Http
