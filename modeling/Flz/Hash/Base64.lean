import Flz.Http.Message
import Flz.Lib.Halves
import Flz.Lib.Overwrite
import Flz.Lib.Table

/-! # Base64

`base64decode` and `base64encode` of `src/hash_util.cc`. A string is shorter than the address space, so
no computation with its size overflows.
-/
namespace Flz.Hash
open Lib Halves Http

/-- The literal `base64`. -/
def base64 : List UInt8 := ascii "ABCDEFGHIJKLMNOPQRSTUVWXYZabcdefghijklmnopqrstuvwxyz0123456789+/"

/-! ## Encoding -/

/-- What the first inner loop of `base64encode` leaves, with what is behind `ptr`. -/
structure Packed where
  i : ℕ
  packed : ℕ
  rest : List UInt8

def packLoop (i packed : ℕ) : List UInt8 → Packed
  | [] => ⟨i, packed, []⟩
  | b :: data => if i < 3 then packLoop (i + 1) (packed <<< 8 ||| b.toNat) data else ⟨i, packed, b :: data⟩

theorem packLoop_rest (i packed : ℕ) (data : List UInt8) : (packLoop i packed data).rest <:+ data := by
  induction data generalizing i packed with
  | nil => exact List.suffix_refl []
  | cons b data ih =>
    rw [packLoop]
    split
    · exact (ih _ _).trans (List.suffix_cons b data)
    · exact List.suffix_refl _

/-- What is appended for a group of `i` bytes. -/
def encodeGroup (i packed : ℕ) : List UInt8 :=
  let padding := if i = 2 then 1 else if i = 1 then 2 else 0
  let packed := packed <<< (8 * (3 - i))
  let ret := [base64.getD (packed >>> 18) 0, base64.getD ((packed >>> 12) &&& 0x3f) 0]
  let ret := if padding ≠ 2 then ret ++ [base64.getD ((packed >>> 6) &&& 0x3f) 0] else ret
  let ret := if padding = 0 then ret ++ [base64.getD (packed &&& 0x3f) 0] else ret
  ret ++ List.replicate padding 61

/-- The loop of `base64encode` with what it has appended. -/
def encodeLoop (ret : List UInt8) : List UInt8 → List UInt8
  | [] => ret
  | b :: data =>
    let pack := packLoop 0 0 (b :: data)
    encodeLoop (ret ++ encodeGroup pack.i pack.packed) pack.rest
termination_by data => data.length
decreasing_by
  rw [packLoop, if_pos (by decide)]
  exact Nat.lt_succ_of_le (packLoop_rest _ _ data).length_le

def base64encode (data : List UInt8) : List UInt8 := encodeLoop [] data

/-! ## Decoding -/

/-- The value of a character of the alphabet. -/
def base64Value (c : UInt8) : Option ℕ :=
  if 65 ≤ c ∧ c ≤ 90 then some (c.toNat - 65)
  else if 97 ≤ c ∧ c ≤ 122 then some (c.toNat - 97 + 26)
  else if 48 ≤ c ∧ c ≤ 57 then some (c.toNat - 48 + 52)
  else if c = 43 then some 62
  else if c = 47 then some 63
  else none

/-- What the inner loop of `base64decode` leaves, with what is behind `ptr`. -/
structure Group where
  i : ℕ
  padding : ℕ
  packed : ℕ
  rest : List UInt8

/-- The inner loop; `none` is a return of the empty string. -/
def groupLoop (i padding packed : ℕ) : List UInt8 → Option Group
  | [] => some ⟨i, padding, packed, []⟩
  | c :: src =>
    if i < 4 then
      if c = 61 then groupLoop (i + 1) (padding + 1) (packed <<< 6) src
      else if padding > 0 then none
      else
        match base64Value c with
        | none => none
        | some val => groupLoop (i + 1) padding (packed <<< 6 ||| val) src
    else some ⟨i, padding, packed, c :: src⟩

/-- The result with its write position; `none` is a write outside of it. -/
abbrev WriteBuf := Option (List UInt8 × ℕ)

/-- `*writeBuf++ = b`. -/
def writeByte (b : UInt8) (buf : List UInt8 × ℕ) : WriteBuf :=
  if buf.2 < buf.1.length then some (overwrite buf.1 buf.2 [b], buf.2 + 1) else none

/-- `if(p) *writeBuf++ = b`. -/
def writeIf (p : Prop) [Decidable p] (b : UInt8) (buf : List UInt8 × ℕ) : WriteBuf :=
  if p then writeByte b buf else some buf

/-- What is written for a group. -/
def writeGroup (padding packed : ℕ) (buf : List UInt8 × ℕ) : WriteBuf := do
  let buf ← writeByte (UInt8.ofNat ((packed >>> 16) &&& 0xff)) buf
  let buf ← writeIf (padding ≠ 2) (UInt8.ofNat ((packed >>> 8) &&& 0xff)) buf
  writeIf (padding = 0) (UInt8.ofNat (packed &&& 0xff)) buf

theorem groupLoop_rest {i padding packed : ℕ} {src : List UInt8} {g : Group}
    (h : groupLoop i padding packed src = some g) : g.rest.length + g.i = src.length + i := by
  induction src generalizing i padding packed with
  | nil =>
    cases h
    rfl
  | cons c src ih =>
    rw [groupLoop] at h
    split at h
    · split at h
      · have hlen := ih h
        rw [List.length_cons]
        omega
      · split at h
        · cases h
        · split at h
          · cases h
          · have hlen := ih h
            rw [List.length_cons]
            omega
    · cases h
      rfl

/-- The loop of `base64decode`; `none` is a write outside the result. -/
def decodeLoop (buf : List UInt8 × ℕ) (src : List UInt8) : Option (List UInt8) :=
  if src = [] then some (buf.1.take buf.2)
  else
    match _hgroup : groupLoop 0 0 0 src with
    | none => some []
    | some g =>
      if _hi : g.i ≠ 4 then some []
      else if g.padding > 0 ∧ g.rest ≠ [] then some []
      else if g.padding > 2 then some []
      else
        match writeGroup g.padding g.packed buf with
        | none => none
        | some buf => decodeLoop buf g.rest
termination_by src.length
decreasing_by
  have hlen := groupLoop_rest _hgroup
  omega

def base64decode (src : List UInt8) : Option (List UInt8) :=
  decodeLoop (List.replicate (src.length * 3 / 4) 0, 0) src

theorem decodeLoop_group {src : List UInt8} {g : Group} {buf buf' : List UInt8 × ℕ}
    (hgroup : groupLoop 0 0 0 src = some g) (hi : g.i = 4) (hlast : ¬ (g.padding > 0 ∧ g.rest ≠ []))
    (hpad : g.padding ≤ 2) (hwrite : writeGroup g.padding g.packed buf = some buf') :
    decodeLoop buf src = decodeLoop buf' g.rest := by
  have hne : src ≠ [] := by
    rintro rfl
    cases hgroup
    cases hi
  rw [decodeLoop, if_neg hne]
  split
  · rename_i hnone
    rw [hgroup] at hnone
    cases hnone
  · rename_i g' hsome
    rw [hgroup] at hsome
    cases hsome
    rw [dif_neg (not_not.mpr hi), if_neg hlast, if_neg (by omega), hwrite]

/-! ## The alphabet -/

theorem base64Value_base64 {n : ℕ} (h : n < 64) :
    base64Value (base64.getD n 0) = some n ∧ base64.getD n 0 ≠ 61 := by
  have hall : ∀ n < 64, base64Value (base64.getD n 0) = some n ∧ base64.getD n 0 ≠ 61 := by decide +kernel
  exact hall n h

theorem mem_base64 {c : UInt8} {v : ℕ} (h : base64Value c = some v) : c ∈ base64 := by
  have hall := forall_byte (p := fun c => (base64Value c).isNone || decide (c ∈ base64)) (by decide +kernel) c
  rw [h] at hall
  simpa using hall

/-! ## Writes -/

/-- The bytes of a group. -/
def groupBytes (padding packed : ℕ) : List UInt8 :=
  [UInt8.ofNat ((packed >>> 16) &&& 0xff)] ++
    (if padding ≠ 2 then [UInt8.ofNat ((packed >>> 8) &&& 0xff)] else []) ++
    if padding = 0 then [UInt8.ofNat (packed &&& 0xff)] else []

/-- What was written behind what was there. -/
structure Written (bs : List UInt8) (buf buf' : List UInt8 × ℕ) : Prop where
  size : buf'.1.length = buf.1.length
  position : buf'.2 = buf.2 + bs.length
  bytes : buf'.1.take buf'.2 = buf.1.take buf.2 ++ bs

section
variable {bs cs : List UInt8} {buf buf' buf'' : List UInt8 × ℕ}

theorem Written.nil (buf : List UInt8 × ℕ) : Written [] buf buf := ⟨rfl, rfl, by simp⟩

theorem Written.append (h : Written bs buf buf') (h' : Written cs buf' buf'') :
    Written (bs ++ cs) buf buf'' := by
  refine ⟨h'.size.trans h.size, ?_, ?_⟩
  · rw [h'.position, h.position, List.length_append, Nat.add_assoc]
  · rw [h'.bytes, h.bytes, List.append_assoc]

theorem writeByte_written (b : UInt8) (h : buf.2 < buf.1.length) :
    ∃ buf', writeByte b buf = some buf' ∧ Written [b] buf buf' := by
  refine ⟨_, if_pos h, overwrite_length h, rfl, ?_⟩
  rw [overwrite, List.append_assoc, ← List.append_assoc (buf.1.take buf.2)]
  apply List.take_left'
  rw [List.length_append, List.length_take, Nat.min_eq_left h.le]
  rfl

theorem writeIf_written (p : Prop) [Decidable p] (b : UInt8) (h : buf.2 < buf.1.length) :
    ∃ buf', writeIf p b buf = some buf' ∧ Written (if p then [b] else []) buf buf' := by
  rw [writeIf]
  split
  · exact writeByte_written b h
  · exact ⟨buf, rfl, Written.nil buf⟩

theorem writeGroup_written (padding packed : ℕ) (h : buf.2 + 3 ≤ buf.1.length) :
    ∃ buf', writeGroup padding packed buf = some buf' ∧ Written (groupBytes padding packed) buf buf' := by
  obtain ⟨buf₁, hw₁, h₁⟩ := writeByte_written (UInt8.ofNat ((packed >>> 16) &&& 0xff))
    (show buf.2 < buf.1.length by omega)
  have hsize₁ := h₁.size
  have hpos₁ := h₁.position
  rw [List.length_singleton] at hpos₁
  obtain ⟨buf₂, hw₂, h₂⟩ := writeIf_written (padding ≠ 2) (UInt8.ofNat ((packed >>> 8) &&& 0xff))
    (show buf₁.2 < buf₁.1.length by omega)
  have hsize₂ := h₂.size
  have hpos₂ : buf₂.2 ≤ buf₁.2 + 1 := by
    rw [h₂.position]
    split <;> simp
  obtain ⟨buf₃, hw₃, h₃⟩ := writeIf_written (padding = 0) (UInt8.ofNat (packed &&& 0xff))
    (show buf₂.2 < buf₂.1.length by omega)
  refine ⟨buf₃, ?_, (h₁.append h₂).append h₃⟩
  simp only [writeGroup, hw₁, Option.bind_eq_bind, Option.bind_some, hw₂, hw₃]

end

/-! ## Any input -/

/-- Complete groups of four characters of the alphabet, the last of which may end in one `=` or two. -/
def IsBase64 (src : List UInt8) : Prop :=
  src.length % 4 = 0 ∧ ∃ body k, src = body ++ List.replicate k 61 ∧ k ≤ 2 ∧ ∀ c ∈ body, c ∈ base64

/-- What the inner loop has read: characters of the alphabet, and then `=`. -/
theorem groupLoop_read {i padding packed : ℕ} {src : List UInt8} {g : Group}
    (h : groupLoop i padding packed src = some g) :
    ∃ body k, src = body ++ List.replicate k 61 ++ g.rest ∧ (∀ c ∈ body, c ∈ base64) ∧
      g.padding = padding + k ∧ (0 < padding → body = []) := by
  induction src generalizing i padding packed with
  | nil =>
    cases h
    exact ⟨[], 0, rfl, by simp, rfl, fun _ => rfl⟩
  | cons c src ih =>
    rw [groupLoop] at h
    split at h
    · split at h
      · rename_i hmark
        obtain ⟨body, k, hsrc, -, hpad, hnone⟩ := ih h
        obtain rfl := hnone (Nat.succ_pos _)
        refine ⟨[], k + 1, ?_, by simp, by omega, fun _ => rfl⟩
        simpa [List.replicate_succ, hmark] using hsrc
      · split at h
        · cases h
        · rename_i hpadding
          split at h
          · cases h
          · rename_i val hval
            obtain ⟨body, k, hsrc, hbody, hpad, -⟩ := ih h
            refine ⟨c :: body, k, by simp [hsrc], ?_, hpad, fun hpos => absurd hpos hpadding⟩
            simpa using ⟨mem_base64 hval, hbody⟩
    · cases h
      exact ⟨[], 0, rfl, by simp, rfl, fun _ => rfl⟩

/-- With room for what is left the loop comes to an end, and what it gives is empty or the text was base64. -/
theorem decodeLoop_ok (src : List UInt8) (buf : List UInt8 × ℕ)
    (hroom : buf.2 + src.length * 3 / 4 ≤ buf.1.length) :
    ∃ out, decodeLoop buf src = some out ∧ (out ≠ [] → IsBase64 src) := by
  rw [decodeLoop]
  split
  · rename_i hempty
    exact ⟨_, rfl, fun _ => ⟨by simp [hempty], [], 0, by simp [hempty], by omega, by simp⟩⟩
  · split
    · exact ⟨[], rfl, fun h => absurd rfl h⟩
    · rename_i g hgroup
      split
      · exact ⟨[], rfl, fun h => absurd rfl h⟩
      · split
        · exact ⟨[], rfl, fun h => absurd rfl h⟩
        · split
          · exact ⟨[], rfl, fun h => absurd rfl h⟩
          · rename_i hi hlast hpad
            have hlen := groupLoop_rest hgroup
            obtain ⟨buf', hwrite, hwritten⟩ := writeGroup_written g.padding g.packed
              (show buf.2 + 3 ≤ buf.1.length by omega)
            have hbytes : (groupBytes g.padding g.packed).length ≤ 3 := by
              rw [groupBytes]
              split <;> split <;> simp
            have hpos := hwritten.position
            have hsize := hwritten.size
            obtain ⟨out, hout, hrest⟩ := decodeLoop_ok g.rest buf' (by omega)
            obtain ⟨body, k, hsrc, hbody, hk, -⟩ := groupLoop_read hgroup
            refine ⟨out, by rw [hwrite]; exact hout, fun hne => ?_⟩
            obtain ⟨hmod, body', k', hrest', hk', hbody'⟩ := hrest hne
            refine ⟨by omega, ?_⟩
            by_cases hzero : k = 0
            · refine ⟨body ++ body', k', by simp [hsrc, hzero, ← hrest'], hk', ?_⟩
              intro c hc
              exact (List.mem_append.mp hc).elim (hbody c) (hbody' c)
            · -- behind a group with padding there is nothing
              have hnil : g.rest = [] := by
                by_contra hne
                exact hlast ⟨by omega, hne⟩
              exact ⟨body, k, by simpa [hnil] using hsrc, by omega, hbody⟩
termination_by src.length
decreasing_by omega

/-! ## What was encoded -/

section
variable {i padding packed v : ℕ} {src : List UInt8}

theorem groupLoop_value (hi : i < 4) (hv : v < 64) : groupLoop i 0 packed (base64.getD v 0 :: src) =
    groupLoop (i + 1) 0 (packed <<< 6 ||| v) src := by
  obtain ⟨hval, hmark⟩ := base64Value_base64 hv
  rw [groupLoop, if_pos hi, if_neg hmark, if_neg (Nat.lt_irrefl 0), hval]

theorem groupLoop_mark (hi : i < 4) : groupLoop i padding packed (61 :: src) =
    groupLoop (i + 1) (padding + 1) (packed <<< 6) src := by
  simp [groupLoop, hi]

theorem groupLoop_four : groupLoop 4 padding packed src = some ⟨4, padding, packed, src⟩ := by
  cases src <;> simp [groupLoop]

end

theorem sextet (n k : ℕ) : (n >>> k) &&& 0x3f = n / 2 ^ k % 64 := by
  rw [Nat.shiftRight_eq_div_pow]
  exact Nat.and_two_pow_sub_one_eq_mod _ 6

theorem octet {n k : ℕ} {b : UInt8} (h : n / 2 ^ k % 256 = b.toNat) : UInt8.ofNat ((n >>> k) &&& 0xff) = b := by
  have hmask : (n >>> k) &&& 0xff = b.toNat := by
    rw [Nat.shiftRight_eq_div_pow, ← h]
    exact Nat.and_two_pow_sub_one_eq_mod _ 8
  rw [hmask, UInt8.ofNat_toNat]

theorem last_octet {n : ℕ} {b : UInt8} (h : n % 256 = b.toNat) : UInt8.ofNat (n &&& 0xff) = b := by
  rw [← Nat.div_one n, ← Nat.pow_zero 2] at h
  exact octet h

/-- A chunk that the inner loop of the encoder takes, and what is behind it. -/
structure Chunk (bs rest : List UInt8) : Prop where
  nonempty : bs ≠ []
  short : bs.length ≤ 3
  last : bs.length = 3 ∨ rest = []

theorem chunk_induction {P : List UInt8 → Prop} (nil : P [])
    (chunk : ∀ bs rest, Chunk bs rest → P rest → P (bs ++ rest)) (data : List UInt8) : P data := by
  by_cases hempty : data = []
  · exact hempty ▸ nil
  · have hpos := List.length_pos_iff.mpr hempty
    have hchunk : Chunk (data.take 3) (data.drop 3) := by
      refine ⟨fun h => hempty ?_, List.length_take_le _ _, ?_⟩
      · have hzero := congrArg List.length h
        simp at hzero
        exact hzero
      · rw [List.length_take]
        by_cases hlong : 3 ≤ data.length
        · exact Or.inl (Nat.min_eq_left hlong)
        · exact Or.inr (List.drop_eq_nil_of_le (by omega))
    have h := chunk _ _ hchunk (chunk_induction nil chunk (data.drop 3))
    rwa [List.take_append_drop] at h
termination_by data.length
decreasing_by
  rw [List.length_drop]
  omega

/-- The bytes of a chunk as one number. -/
def packedBytes : List UInt8 → ℕ
  | [] => 0
  | b :: bs => b.toNat * 256 ^ bs.length + packedBytes bs

theorem packedBytes_lt (bs : List UInt8) : packedBytes bs < 256 ^ bs.length := by
  induction bs with
  | nil => exact Nat.one_pos
  | cons b bs ih =>
    have hb : b.toNat + 1 ≤ 256 := b.toNat_lt
    calc packedBytes (b :: bs)
      _ < b.toNat * 256 ^ bs.length + 256 ^ bs.length := Nat.add_lt_add_left ih _
      _ = (b.toNat + 1) * 256 ^ bs.length := (Nat.succ_mul _ _).symm
      _ ≤ 256 * 256 ^ bs.length := Nat.mul_le_mul_right _ hb
      _ = 256 ^ (b :: bs).length := by rw [List.length_cons, Nat.pow_succ, Nat.mul_comm]

theorem packLoop_append {i packed : ℕ} {bs rest : List UInt8} (hi : i + bs.length ≤ 3)
    (hlast : i + bs.length = 3 ∨ rest = []) : packLoop i packed (bs ++ rest) =
      ⟨i + bs.length, packed * 256 ^ bs.length + packedBytes bs, rest⟩ := by
  induction bs generalizing i packed with
  | nil =>
    cases rest with
    | nil => simp [packLoop, packedBytes]
    | cons b rest =>
      have hfull : ¬ i < 3 := by
        simp at hlast
        omega
      simp [packLoop, hfull, packedBytes]
  | cons b bs ih =>
    rw [List.length_cons] at hi hlast
    have hroom : i + 1 + bs.length ≤ 3 := by omega
    rw [List.cons_append, packLoop, if_pos (by omega), ih hroom (hlast.imp (by omega) id), shift_or b.toNat_lt, packedBytes,
      List.length_cons, Nat.pow_succ]
    congr 1
    · omega
    · ring

theorem groupLoop_encodeGroup {n : ℕ} {i : ℕ} (h0 : 0 < i) (h3 : i ≤ 3) (hn : n < 256 ^ i) (rest : List UInt8) :
    groupLoop 0 0 0 (encodeGroup i n ++ rest) = some ⟨4, 3 - i, n <<< (8 * (3 - i)), rest⟩ := by
  have hcases : i = 1 ∨ i = 2 ∨ i = 3 := by omega
  rcases hcases with rfl | rfl | rfl
  · have hgroup : encodeGroup 1 n = [base64.getD (n <<< 16 >>> 18) 0, base64.getD ((n <<< 16 >>> 12) &&& 0x3f) 0, 61, 61] := rfl
    rw [hgroup, sextet, Nat.shiftRight_eq_div_pow]
    simp only [List.cons_append, List.nil_append, Nat.shiftLeft_eq]
    rw [groupLoop_value (by omega) (by omega), groupLoop_value (by omega) (by omega), groupLoop_mark (by omega),
      groupLoop_mark (by omega), groupLoop_four, shift_or (by omega), shift_or (by omega)]
    simp only [Nat.shiftLeft_eq]
    congr 2
    omega
  · have hgroup : encodeGroup 2 n = [base64.getD (n <<< 8 >>> 18) 0, base64.getD ((n <<< 8 >>> 12) &&& 0x3f) 0,
        base64.getD ((n <<< 8 >>> 6) &&& 0x3f) 0, 61] := rfl
    rw [hgroup, sextet, sextet, Nat.shiftRight_eq_div_pow]
    simp only [List.cons_append, List.nil_append, Nat.shiftLeft_eq]
    rw [groupLoop_value (by omega) (by omega), groupLoop_value (by omega) (by omega),
      groupLoop_value (by omega) (by omega), groupLoop_mark (by omega), groupLoop_four, shift_or (by omega),
      shift_or (by omega), shift_or (by omega)]
    simp only [Nat.shiftLeft_eq]
    congr 2
    omega
  · have hgroup : encodeGroup 3 n = [base64.getD (n <<< 0 >>> 18) 0, base64.getD ((n <<< 0 >>> 12) &&& 0x3f) 0,
        base64.getD ((n <<< 0 >>> 6) &&& 0x3f) 0, base64.getD ((n <<< 0) &&& 0x3f) 0] := rfl
    have hlast : (n <<< 0) &&& 0x3f = n % 64 := Nat.and_two_pow_sub_one_eq_mod _ 6
    rw [hgroup, sextet, sextet, hlast, Nat.shiftRight_eq_div_pow]
    simp only [List.cons_append, List.nil_append, Nat.shiftLeft_eq]
    rw [groupLoop_value (by omega) (by omega), groupLoop_value (by omega) (by omega),
      groupLoop_value (by omega) (by omega), groupLoop_value (by omega) (by omega), groupLoop_four,
      shift_or (by omega), shift_or (by omega), shift_or (by omega), shift_or (by omega)]
    congr 2
    omega

theorem groupBytes_packedBytes {bs : List UInt8} (h : bs ≠ []) (hlen : bs.length ≤ 3) :
    groupBytes (3 - bs.length) (packedBytes bs <<< (8 * (3 - bs.length))) = bs := by
  match bs with
  | [a] =>
    have ha : a.toNat < 256 := a.toNat_lt
    simp only [groupBytes, packedBytes, Nat.shiftLeft_eq, List.length_cons, List.length_nil]
    rw [octet (b := a) (by omega)]
    rfl
  | [a, b] =>
    have ha : a.toNat < 256 := a.toNat_lt
    have hb : b.toNat < 256 := b.toNat_lt
    simp only [groupBytes, packedBytes, Nat.shiftLeft_eq, List.length_cons, List.length_nil]
    rw [octet (b := a) (by omega), octet (b := b) (by omega)]
    rfl
  | [a, b, c] =>
    have ha : a.toNat < 256 := a.toNat_lt
    have hb : b.toNat < 256 := b.toNat_lt
    have hc : c.toNat < 256 := c.toNat_lt
    simp only [groupBytes, packedBytes, Nat.shiftLeft_eq, List.length_cons, List.length_nil]
    rw [octet (b := a) (by omega), octet (b := b) (by omega), last_octet (b := c) (by omega)]
    rfl

theorem encodeLoop_chunk {bs rest : List UInt8} (h : Chunk bs rest) (ret : List UInt8) :
    encodeLoop ret (bs ++ rest) = encodeLoop (ret ++ encodeGroup bs.length (packedBytes bs)) rest := by
  obtain ⟨hne, hshort, hlast⟩ := h
  cases bs with
  | nil => exact absurd rfl hne
  | cons b bs =>
    have hpack : packLoop 0 0 ((b :: bs) ++ rest) = _ :=
      packLoop_append (by omega) (hlast.imp (by omega) id)
    rw [List.cons_append] at hpack ⊢
    rw [encodeLoop, hpack]
    simp

theorem encodeLoop_append (data : List UInt8) (ret : List UInt8) :
    encodeLoop ret data = ret ++ base64encode data := by
  induction data using chunk_induction generalizing ret with
  | nil => simp [base64encode, encodeLoop]
  | chunk bs rest h ih =>
    rw [base64encode, encodeLoop_chunk h, encodeLoop_chunk h, ih, ih, List.append_assoc, List.nil_append]

theorem base64encode_chunk {bs rest : List UInt8} (h : Chunk bs rest) :
    base64encode (bs ++ rest) = encodeGroup bs.length (packedBytes bs) ++ base64encode rest := by
  rw [base64encode, encodeLoop_chunk h, encodeLoop_append, List.nil_append]

/-- With room for it the loop of the decoder writes what was encoded. -/
theorem decodeLoop_encode (data : List UInt8) (buf : List UInt8 × ℕ)
    (hroom : buf.2 + (base64encode data).length * 3 / 4 ≤ buf.1.length) :
    decodeLoop buf (base64encode data) = some (buf.1.take buf.2 ++ data) := by
  induction data using chunk_induction generalizing buf with
  | nil => simp [base64encode, encodeLoop, decodeLoop]
  | chunk bs rest h ih =>
    have hpos := List.length_pos_iff.mpr h.nonempty
    have hgroup := groupLoop_encodeGroup hpos h.short (packedBytes_lt bs) (base64encode rest)
    rw [← base64encode_chunk h] at hgroup
    have hlen : (base64encode rest).length + 4 = (base64encode (bs ++ rest)).length := groupLoop_rest hgroup
    obtain ⟨buf', hwrite, hwritten⟩ := writeGroup_written (3 - bs.length)
      (packedBytes bs <<< (8 * (3 - bs.length))) (show buf.2 + 3 ≤ buf.1.length by omega)
    rw [groupBytes_packedBytes h.nonempty h.short] at hwritten
    have hlast : ¬ (3 - bs.length > 0 ∧ base64encode rest ≠ []) := by
      rintro ⟨hpad, hrest⟩
      rcases h.last with hthree | rfl
      · omega
      · exact hrest (by rw [base64encode, encodeLoop])
    have hstep := decodeLoop_group hgroup rfl hlast (show 3 - bs.length ≤ 2 by omega) hwrite
    have hsize := hwritten.size
    have hposition := hwritten.position
    have hshort := h.short
    rw [hstep, ih buf' (by omega), hwritten.bytes, List.append_assoc]

theorem base64decode_encode (data : List UInt8) : base64decode (base64encode data) = some data := by
  have h := decodeLoop_encode data (List.replicate ((base64encode data).length * 3 / 4) 0, 0) (by simp)
  simpa [base64decode] using h

/-- Data that is encoded is decoded again. Any text is decoded without a write outside the result, and a
result that is not empty comes from complete groups. -/
theorem base64_round_trip : (∀ data, base64decode (base64encode data) = some data) ∧
    ∀ src, ∃ result, base64decode src = some result ∧ (result ≠ [] → IsBase64 src) := by
  refine ⟨base64decode_encode, fun src => ?_⟩
  exact decodeLoop_ok src (List.replicate (src.length * 3 / 4) 0, 0) (by simp)

end Flz.Hash
