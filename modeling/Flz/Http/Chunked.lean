import Flz.Http.ChunkedHead
import Flz.Http.ResponseBounds

/-! # Bodies in chunks

The chunks of a body with their size lines, and what `recvResponse` makes of them: the line is
parsed anew with every read that brings a part of it.
-/
namespace Flz.Http
open Lib

/-- A chunk: the digits of its size, and its bytes. -/
structure Chunk where
  size : List UInt8
  payload : List UInt8
  size_ne : size ≠ []
  size_digits : ∀ b ∈ size, ByteClass.xdigit.holds b = true
  size_value : hexValue size = payload.length
  payload_fits : payload.length < 2 ^ 31 - 2

def Chunk.text (c : Chunk) : List UInt8 := c.size ++ 13 :: 10 :: (c.payload ++ [13, 10])

/-! ## How the bytes are supplied -/

/-- Of the bytes to come `held` are in the buffer, and the others come in pieces. -/
structure Supply where
  held : ℕ
  input : Pieces UInt8

namespace Supply

/-- Where in a line of `k` bytes the read begins that brings its end. -/
def lastBreak (x : Supply) (n k : ℕ) : ℕ :=
  if k ≤ x.held then 0 else x.held + Pieces.readStart n x.input.parts (k - 1 - x.held)

/-- The supply behind a line of `k` bytes. -/
def afterLine (x : Supply) (n k : ℕ) : Supply :=
  if k ≤ x.held then ⟨x.held - k, x.input⟩
  else
    ⟨Pieces.readEnd n x.input.parts (k - 1 - x.held) - (k - x.held),
      x.input.skip (Pieces.readEnd n x.input.parts (k - 1 - x.held))⟩

/-- The supply behind `k` bytes of which none is read together with what follows. -/
def afterBytes (x : Supply) (k : ℕ) : Supply :=
  if k ≤ x.held then ⟨x.held - k, x.input⟩ else ⟨0, x.input.skip (k - x.held)⟩

section
variable {x : Supply} {n k : ℕ}

theorem lastBreak_of_lt (h : x.held < k) :
    x.lastBreak n k = x.held + Pieces.readStart n x.input.parts (k - 1 - x.held) :=
  if_neg (Nat.not_le.mpr h)

theorem afterLine_of_le (h : k ≤ x.held) : x.afterLine n k = ⟨x.held - k, x.input⟩ := if_pos h

theorem afterLine_of_lt (h : x.held < k) : x.afterLine n k =
    ⟨Pieces.readEnd n x.input.parts (k - 1 - x.held) - (k - x.held),
      x.input.skip (Pieces.readEnd n x.input.parts (k - 1 - x.held))⟩ := if_neg (Nat.not_le.mpr h)

theorem afterBytes_of_le (h : k ≤ x.held) : x.afterBytes k = ⟨x.held - k, x.input⟩ := if_pos h

theorem afterBytes_of_lt (h : x.held < k) : x.afterBytes k = ⟨0, x.input.skip (k - x.held)⟩ :=
  if_neg (Nat.not_le.mpr h)

end

/-- No read begins inside of a size line, but between zeros at its front and another digit. -/
def LineWhole (x : Supply) (n : ℕ) (size : List UInt8) : Prop :=
  x.lastBreak n (size.length + 2) < size.length ∧
    ∀ b ∈ size.take (x.lastBreak n (size.length + 2)), b = 48

def ChunksWhole (n : ℕ) : Supply → List Chunk → Prop
  | _, [] => True
  | x, c :: cs => x.LineWhole n c.size ∧
    ChunksWhole n ((x.afterLine n (c.size.length + 2)).afterBytes (c.payload.length + 2)) cs

instance (x : Supply) (n : ℕ) (size : List UInt8) : Decidable (x.LineWhole n size) :=
  inferInstanceAs (Decidable (_ ∧ _))

instance decidableChunksWhole (n : ℕ) :
    (x : Supply) → (chunks : List Chunk) → Decidable (x.ChunksWhole n chunks)
  | _, [] => inferInstanceAs (Decidable True)
  | x, c :: cs =>
    have := decidableChunksWhole n ((x.afterLine n (c.size.length + 2)).afterBytes (c.payload.length + 2)) cs
    inferInstanceAs (Decidable (_ ∧ _))

end Supply

/-- What a buffer and a connection supply. -/
def supply (data : List UInt8) (s : Stream) : Supply := ⟨data.length, s.input⟩

/-- The text that is still to be parsed is in the buffer and in what comes on the connection. -/
structure Remains (n : ℕ) (text : List UInt8) (x : Supply) (data : List UInt8) (s : Stream) : Prop where
  text : data ++ s.pending = text
  opened : s.closed = false
  length_le : data.length ≤ n
  supply : supply data s = x

/-! ## Size lines -/

theorem hexValue_zeros {zeros : List UInt8} (h : ∀ b ∈ zeros, b = 48) : hexValue zeros = 0 := by
  induction zeros with
  | nil => rfl
  | cons b zeros ih =>
    obtain ⟨rfl, hzeros⟩ := List.forall_mem_cons.mp h
    exact ih hzeros

/-- Zeros at the front of a size make no difference. -/
theorem sizeOf_drop {size : List UInt8} {k : ℕ} (hdigits : ∀ b ∈ size, ByteClass.xdigit.holds b = true)
    (hzeros : ∀ b ∈ size.take k, b = 48) : sizeOf (size.drop k) = sizeOf size := by
  have hvalue : hexValue size = hexValue (size.drop k) := by
    have hfirst : ∀ b ∈ size.take k, (digitValue 16 b).isSome = true := fun b hb =>
      xdigit_iff b ▸ hdigits b (List.mem_of_mem_take hb)
    have happend := @readDigits_append 16 0 _ hfirst (size.drop k)
    rw [List.take_append_drop] at happend
    exact happend.trans (congrArg (readDigits 16 · (size.drop k)) (hexValue_zeros hzeros))
  rw [sizeOf, sizeOf, hvalue]

/-- The parser `t` has read a size and is otherwise as `s`. -/
structure HttpResponseParser.Sized (size : List UInt8) (s t : HttpResponseParser) : Prop where
  contentLen : t.contentLen = sizeOf size
  chunksDone : t.chunksDone = decide (sizeOf size ≤ 0)
  error : t.error = s.error
  data : t.data = s.data

open HttpResponseParser

theorem sized_afterSize {size size' : List UInt8} (s : HttpResponseParser) (h : sizeOf size' = sizeOf size) :
    Sized size s (s.afterSize size') :=
  ⟨h, congrArg (fun z => decide (z ≤ 0)) h, rfl, rfl⟩

section
variable {n : ℕ} {size payload rest data body : List UInt8} {parser : HttpResponseParser} {s : Stream}

/-- A line that is still to be read. -/
theorem headLoop_sizeLine (hn : 0 < n) (hmax : n ≤ intMax) (hopen : s.closed = false)
    (herr : parser.error = 0) (hdigits : ∀ b ∈ size, ByteClass.xdigit.holds b = true)
    (hp : s.pending = size ++ 13 :: 10 :: rest)
    (hbreak : Pieces.readStart n s.input.parts (size.length + 1) < size.length)
    (hzeros : ∀ b ∈ size.take (Pieces.readStart n s.input.parts (size.length + 1)), b = 48) :
    ∃ t, headLoop chunkParsing n [] parser s =
        .ok (some ((s.pending.take (Pieces.readEnd n s.input.parts (size.length + 1))).drop
          (size.length + 2), t), s.skip (Pieces.readEnd n s.input.parts (size.length + 1))) ∧
      Sized size parser t := by
  have hlen : size.length + 2 ≤ s.pending.length := by
    rw [hp, List.length_append, List.length_cons, List.length_cons]
    omega
  refine headLoop_finds (h := size.length + 2) hn hmax hopen (by omega) hlen
    (I := fun _ p => p.error = 0 ∧ p.data = parser.data) ?_ ?_ ⟨herr, rfl⟩
  · rintro i xs p ⟨hperr, hpdata⟩ hxs hlt
    have hle : i + xs.length ≤ Pieces.readStart n s.input.parts (size.length + 1) := by
      by_contra hgt
      have hsame : Pieces.readStart n s.input.parts (i + xs.length) =
          Pieces.readStart n s.input.parts (size.length + 1) := Pieces.readStart_eq (by omega) (by omega)
      rw [hxs.next] at hsame
      omega
    have htake := hxs.take
    rw [hp, List.drop_append_of_le_length (by omega),
      List.take_append_of_le_length (by rw [List.length_drop]; omega)] at htake
    have hread : ∀ b ∈ xs, ByteClass.xdigit.holds b = true := by
      intro b hb
      rw [← htake] at hb
      exact hdigits b (List.mem_of_mem_drop (List.mem_of_mem_take hb))
    have hok : ({ p.init with cs := 2 } : HttpResponseParser).hasError = false :=
      hasError_false hperr (show 2 ≠ 0 by decide)
    exact ⟨_, execute_digits hxs.ne_nil hread, hok, rfl, hperr, hpdata⟩
  · rintro i xs p ⟨hperr, hpdata⟩ hxs hlt hge
    have hi : i = Pieces.readStart n s.input.parts (size.length + 1) := by
      have hstart := hxs.start (size.length + 1 - i) (by omega)
      rw [Nat.add_sub_cancel' (by omega)] at hstart
      exact hstart.symm
    have htake := hxs.take
    rw [hp, List.drop_append_of_le_length (by omega), List.take_append,
      List.take_of_length_le (by rw [List.length_drop]; omega)] at htake
    obtain ⟨k, hk⟩ := Nat.exists_eq_add_of_le' (show 2 ≤ xs.length - (size.drop i).length by
      rw [List.length_drop]
      omega)
    rw [hk, List.take_succ_cons, List.take_succ_cons] at htake
    have hline : p.execute (size.drop i ++ 13 :: 10 :: rest.take k) true = _ := execute_sizeLine
      (List.ne_nil_of_length_pos (by rw [List.length_drop]; omega))
      (fun b hb => hdigits b (List.mem_of_mem_drop hb)) (rest.take k) p
    have hdrop : xs.drop (size.length + 2 - i) = rest.take k := by
      have hcount : size.length + 2 - i = (size.drop i).length + 2 := by
        rw [List.length_drop]
        omega
      rw [hcount, ← htake, ← List.drop_drop, List.drop_left]
      rfl
    have hsized := sized_afterSize p (sizeOf_drop hdigits (hi ▸ hzeros))
    rw [htake] at hline
    rw [hdrop]
    have hok : (p.afterSize (size.drop i)).hasError = false :=
      hasError_false hperr (show 120 ≠ 0 by decide)
    exact ⟨_, hline, hok, Int.one_ne_zero, hsized.contentLen, hsized.chunksDone,
      hsized.error.trans (hperr.trans herr.symm), hsized.data.trans hpdata⟩

/-- Behind the read that brings the end of the next `k` bytes the buffer holds what is left of it. -/
theorem remains_read (hn : 0 < n) (hopen : s.closed = false) {k : ℕ} (hk : 0 < k)
    (hle : k ≤ s.pending.length) (hrest : s.pending.drop k = rest) :
    Remains n rest ⟨Pieces.readEnd n s.input.parts (k - 1) - k,
        s.input.skip (Pieces.readEnd n s.input.parts (k - 1))⟩
      ((s.pending.take (Pieces.readEnd n s.input.parts (k - 1))).drop k)
      (s.skip (Pieces.readEnd n s.input.parts (k - 1))) := by
  have hinside : k - 1 < s.input.parts.flatten.length := by
    change _ < s.pending.length
    omega
  obtain ⟨hlt, hend⟩ := Pieces.lt_readEnd hn hinside
  have hread := Pieces.readEnd_le n s.input.parts (k - 1)
  have hstart := Pieces.readStart_le n s.input.parts (k - 1)
  change _ ≤ s.pending.length at hend
  generalize Pieces.readEnd n s.input.parts (k - 1) = e at hlt hend hread ⊢
  have htake : (s.pending.take e).length = e := by rw [List.length_take, min_eq_left hend]
  have hlength : ((s.pending.take e).drop k).length = e - k := by rw [List.length_drop, htake]
  refine ⟨?_, hopen, by omega, ?_⟩
  · rw [Stream.skip_pending, ← List.drop_append_of_le_length (by omega), List.take_append_drop, hrest]
  · rw [supply, hlength]
    rfl

/-- What the buffer holds of a line that it does not hold to its end is forgotten. -/
theorem chunkHead_digits (hn : 0 < n) (hmax : n ≤ intMax) (herr : parser.error = 0)
    (hdata : ∀ b ∈ data, ByteClass.xdigit.holds b = true) :
    ∃ p : HttpResponseParser, p.error = 0 ∧ p.data = parser.data ∧
      chunkHead n data parser s = headLoop chunkParsing n [] p s := by
  by_cases hnil : data = []
  · subst hnil
    exact ⟨parser, herr, rfl, if_pos rfl⟩
  · refine ⟨{ parser.init with cs := 2 }, herr, rfl, ?_⟩
    have hok : ({ parser.init with cs := 2 } : HttpResponseParser).hasError = false :=
      hasError_false herr (show 2 ≠ 0 by decide)
    have hroom : ¬ (([] : List UInt8).length : ℤ) = toInt n := by
      rw [toInt_eq hmax, List.length_nil]
      omega
    have hreading : ¬ ({ parser.init with cs := 2 } : HttpResponseParser).isFinished ≠ 0 :=
      not_not_intro rfl
    rw [chunkHead, if_neg (fun h0 => hnil (List.eq_nil_of_length_eq_zero h0)), execute_digits hnil hdata]
    dsimp only
    rw [if_neg (Bool.eq_false_iff.mp hok), if_neg hroom, if_neg hreading]

/-- The line at the head of a chunk, of which the buffer may hold a part or all. -/
theorem chunkHead_whole (hn : 0 < n) (hmax : n ≤ intMax) (herr : parser.error = 0) (hne : size ≠ [])
    (hdigits : ∀ b ∈ size, ByteClass.xdigit.holds b = true) {x : Supply}
    (h : Remains n (size ++ 13 :: 10 :: rest) x data s) (hwhole : x.LineWhole n size) :
    ∃ data' t s', chunkHead n data parser s = .ok (some (data', t), s') ∧ Sized size parser t ∧
      Remains n rest (x.afterLine n (size.length + 2)) data' s' := by
  obtain ⟨hp, hopen, hlen, rfl⟩ := h
  obtain ⟨hbreak, hzeros⟩ := hwhole
  have hprefix : data <+: size ++ [13, 10] ++ rest := ⟨s.pending, by simpa using hp⟩
  by_cases hin : size.length + 2 ≤ data.length
  · -- the buffer holds the whole line
    obtain ⟨more, rfl⟩ : size ++ [13, 10] <+: data :=
      List.prefix_of_prefix_length_le (List.prefix_append _ rest) hprefix (by simpa using hin)
    have hrest : more ++ s.pending = rest := by simpa using hp
    have hmore : more.length < n := by
      rw [List.length_append, List.length_append, List.length_cons] at hlen
      omega
    have hhead : chunkHead n (size ++ 13 :: 10 :: more) parser s = _ :=
      chunkHead_sizeLine hmax hne hdigits hmore herr s
    have hdata : size ++ [13, 10] ++ more = size ++ 13 :: 10 :: more := by simp
    rw [Supply.afterLine_of_le hin, hdata]
    refine ⟨more, _, s, hhead, sized_afterSize parser rfl, ⟨hrest, hopen, hmore.le, ?_⟩⟩
    have hheld : (supply (size ++ 13 :: 10 :: more) s).held - (size.length + 2) = more.length := by
      change (size ++ 13 :: 10 :: more).length - _ = _
      rw [List.length_append, List.length_cons, List.length_cons]
      omega
    rw [hheld]
    rfl
  · have hshort : (supply data s).held < size.length + 2 := Nat.lt_of_not_le hin
    rw [Supply.lastBreak_of_lt hshort] at hbreak hzeros
    rw [Supply.afterLine_of_lt hshort]
    have hpart : data.length ≤ size.length := (Nat.le_add_right _ _).trans hbreak.le
    obtain ⟨digits, rfl⟩ : data <+: size := List.prefix_of_prefix_length_le hprefix
      (by rw [List.append_assoc]; exact List.prefix_append size _) hpart
    have hrest : s.pending = digits ++ 13 :: 10 :: rest := by simpa using hp
    have hcount : (data ++ digits).length + 2 - 1 - (supply data s).held = digits.length + 1 := by
      rw [List.length_append]
      change data.length + digits.length + 2 - 1 - data.length = _
      omega
    have hcount' : (data ++ digits).length + 2 - (supply data s).held = digits.length + 2 := by
      rw [List.length_append]
      change data.length + digits.length + 2 - data.length = _
      omega
    rw [hcount] at hbreak hzeros ⊢
    rw [hcount']
    obtain ⟨hdata, hdigits'⟩ := List.forall_mem_append.mp hdigits
    obtain ⟨p, hpar, hpdata, hloop⟩ := chunkHead_digits (s := s) hn hmax herr hdata
    have hbreak' : Pieces.readStart n s.input.parts (digits.length + 1) < digits.length := by
      rw [List.length_append] at hbreak
      exact Nat.lt_of_add_lt_add_left hbreak
    change ∀ b ∈ (data ++ digits).take (data.length + _), b = 48 at hzeros
    rw [List.take_length_add_append, List.forall_mem_append] at hzeros
    obtain ⟨t, hhead, hsized⟩ := headLoop_sizeLine hn hmax hopen hpar hdigits' hrest hbreak' hzeros.2
    have hsize : sizeOf digits = sizeOf (data ++ digits) := by
      have hdrop := sizeOf_drop (k := data.length) hdigits (by rw [List.take_left]; exact hzeros.1)
      rwa [List.drop_left] at hdrop
    have hle : digits.length + 2 ≤ s.pending.length := by
      rw [hrest, List.length_append, List.length_cons, List.length_cons]
      omega
    have hdrop : s.pending.drop (digits.length + 2) = rest := by
      rw [hrest, List.drop_length_add_append]
      rfl
    refine ⟨_, t, _, hloop.trans hhead, ⟨hsized.contentLen.trans hsize, ?_, ?_, ?_⟩,
      remains_read hn hopen (Nat.succ_pos _) hle hdrop⟩
    · rw [hsized.chunksDone, hsize]
    · rw [hsized.error, hpar, herr]
    · rw [hsized.data, hpdata]

/-! ## The bytes of a chunk -/

/-- What is missing from a chunk is read, and nothing behind it. -/
theorem chunkRest_takes (hn : 0 < n) (hmax : n ≤ intMax) (hopen : s.closed = false)
    {xs ys : List UInt8} (hp : s.pending = xs ++ ys) (body : List UInt8) :
    chunkRest n body xs.length s = .ok (some (body ++ xs), s.skip xs.length) := by
  induction hk : xs.length using Nat.strong_induction_on generalizing xs body s with
  | _ k ih =>
    rw [chunkRest]
    by_cases hpos : (k : ℤ) > 0
    · have hcount : restCount n k = min k n := by
        rw [restCount_eq hmax hpos, Int.toNat_natCast]
      have hne : s.pending ≠ [] := by
        rw [hp]
        exact List.append_ne_nil_of_left_ne_nil (List.ne_nil_of_length_pos (by omega)) ys
      obtain ⟨zs, hzs⟩ := exists_arrives (n := restCount n k) (by omega) (by omega) hopen hne
      have hlen := List.length_pos_iff.mpr hzs.ne_nil
      have hle := hzs.length_le
      obtain ⟨more, rfl⟩ : zs <+: xs := List.prefix_of_prefix_length_le
        (hp ▸ hzs.append ▸ List.prefix_append zs _) (List.prefix_append xs ys) (by omega)
      have hrest : (s.skip zs.length).pending = more ++ ys := by
        rw [Stream.skip_pending, hp, List.append_assoc, List.drop_left]
      rw [List.length_append] at hk
      have hrec := ih more.length (by omega) (s := s.skip zs.length) hopen hrest (body ++ zs) rfl
      rw [if_pos hpos, if_neg (by omega), hzs.read]
      dsimp only
      rw [dif_neg (by omega), show (k : ℤ) - zs.length = more.length by omega, hrec, Stream.skip_skip, hk,
        List.append_assoc]
    · have hnil : xs = [] := List.eq_nil_of_length_eq_zero (by omega)
      rw [if_neg hpos, hnil, List.append_nil, show k = 0 by omega, Stream.skip_zero]

/-- The bytes of a chunk and the line end behind them. -/
theorem chunkBody_whole (hn : 0 < n) (hmax : n ≤ intMax) (hfits : payload.length < 2 ^ 31 - 2) {x : Supply}
    (h : Remains n (payload ++ 13 :: 10 :: rest) x data s) (body : List UInt8) :
    ∃ data' s', chunkBody n data body payload.length s = .ok (some (data', body ++ payload), s') ∧
      Remains n rest (x.afterBytes (payload.length + 2)) data' s' := by
  obtain ⟨hp, hopen, hlen, rfl⟩ := h
  have hover : ¬ (payload.length : ℤ) + 2 > intMax := by
    unfold intMax
    omega
  have hprefix : data <+: payload ++ [13, 10] ++ rest := ⟨s.pending, by simpa using hp⟩
  rw [chunkBody, if_neg hover]
  by_cases hin : payload.length + 2 ≤ data.length
  · obtain ⟨more, rfl⟩ : payload ++ [13, 10] <+: data :=
      List.prefix_of_prefix_length_le (List.prefix_append _ rest) hprefix (by simpa using hin)
    have hrest : more ++ s.pending = rest := by simpa using hp
    have hnat : ((payload.length : ℤ) + 2).toNat = (payload ++ [13, 10]).length := by
      rw [List.length_append, List.length_cons, List.length_singleton]
      omega
    have hheld : (supply (payload ++ [13, 10] ++ more) s).held - (payload.length + 2) = more.length := by
      change (payload ++ [13, 10] ++ more).length - _ = _
      rw [List.length_append, List.length_append, List.length_cons, List.length_singleton]
      omega
    rw [if_pos (by exact_mod_cast hin), if_neg (by omega), hnat, List.drop_left, Int.toNat_natCast,
      Supply.afterBytes_of_le hin, hheld, List.append_assoc, List.take_left]
    refine ⟨more, s, rfl, hrest, hopen, ?_, rfl⟩
    rw [List.length_append] at hlen
    omega
  · have hshort : (supply data s).held < payload.length + 2 := Nat.lt_of_not_le hin
    obtain ⟨more, hmore⟩ : data <+: payload ++ [13, 10] := by
      refine List.prefix_of_prefix_length_le hprefix (List.prefix_append _ rest) ?_
      rw [List.length_append, List.length_cons, List.length_singleton]
      exact hshort.le
    have hrest : s.pending = more ++ rest := by
      have hall : data ++ s.pending = data ++ (more ++ rest) := by
        rw [hp, ← List.append_assoc, hmore, List.append_assoc]
        rfl
      exact List.append_cancel_left hall
    have hlength := congrArg List.length hmore
    rw [List.length_append, List.length_append, List.length_cons, List.length_singleton] at hlength
    have hleft : (payload.length : ℤ) - data.length + 2 = more.length := by omega
    rw [if_neg (by exact_mod_cast hin), hleft, chunkRest_takes hn hmax hopen hrest, List.append_assoc,
      hmore, Supply.afterBytes_of_lt hshort]
    have hbody : (body ++ (payload ++ [13, 10])).take ((body ++ (payload ++ [13, 10])).length - 2) =
        body ++ payload := by
      rw [← List.append_assoc, List.length_append, List.length_cons, List.length_singleton,
        Nat.add_sub_cancel, List.take_left]
    have hlong : ¬ (body ++ (payload ++ [13, 10])).length < 2 := by
      rw [List.length_append, List.length_append, List.length_cons, List.length_singleton]
      omega
    dsimp only [bind, Except.bind]
    rw [if_neg hlong, hbody]
    have hskip : payload.length + 2 - (supply data s).held = more.length := by
      change payload.length + 2 - data.length = _
      omega
    refine ⟨[], _, rfl, ⟨?_, hopen, Nat.zero_le n, ?_⟩⟩
    · rw [Stream.skip_pending, hrest, List.drop_left]
      rfl
    · rw [hskip]
      rfl

/-! ## The chunks -/

/-- One turn of the loop takes one chunk. -/
theorem chunkTurn_whole (hn : 0 < n) (hmax : n ≤ intMax) (herr : parser.error = 0) (c : Chunk) {x : Supply}
    (h : Remains n (c.text ++ rest) x data s) (hwhole : x.LineWhole n c.size) (body : List UInt8) :
    ∃ data' t s', chunkTurn n data parser body s = .ok (some (data', t, body ++ c.payload), s') ∧
      t.error = 0 ∧ t.data = parser.data ∧ t.chunksDone = decide (c.payload = []) ∧
      Remains n rest ((x.afterLine n (c.size.length + 2)).afterBytes (c.payload.length + 2)) data' s' := by
  have htext : c.text ++ rest = c.size ++ 13 :: 10 :: (c.payload ++ 13 :: 10 :: rest) := by
    simp [Chunk.text]
  rw [htext] at h
  have hfits := c.payload_fits
  have hvalue : sizeOf c.size = c.payload.length := by
    rw [sizeOf_eq (by unfold intMax; rw [c.size_value]; omega), c.size_value]
  obtain ⟨d, t, s₁, hhead, hsized, hrest⟩ := chunkHead_whole hn hmax herr c.size_ne c.size_digits h hwhole
  obtain ⟨d', s₂, hbody, hrest'⟩ := chunkBody_whole hn hmax hfits hrest body
  refine ⟨d', t, s₂, ?_, hsized.error.trans herr, hsized.data, ?_, hrest'⟩
  · rw [chunkTurn, hhead]
    dsimp only [bind, Except.bind]
    rw [hsized.contentLen, hvalue, hbody]
    rfl
  · rw [hsized.chunksDone, hvalue]
    refine decide_eq_decide.mpr ?_
    rw [← List.length_eq_zero_iff]
    omega

/-- The loop appends the bytes of one chunk after the other, by induction on them. -/
theorem chunkLoop_whole (hn : 0 < n) (hmax : n ≤ intMax) (herr : parser.error = 0) {chunks : List Chunk}
    (hchunks : ∀ c ∈ chunks, c.payload ≠ []) {last : Chunk} (hlast : last.payload = []) {x : Supply}
    (h : Remains n ((chunks ++ [last]).flatMap Chunk.text ++ rest) x data s)
    (hwhole : x.ChunksWhole n (chunks ++ [last])) (body : List UInt8) :
    ∃ t s', chunkLoop n data parser body s = .ok (some (t, body ++ chunks.flatMap Chunk.payload), s') ∧
      t.data = parser.data := by
  induction chunks generalizing data parser body s x with
  | nil =>
    obtain ⟨hline, -⟩ := hwhole
    rw [List.nil_append, List.flatMap_singleton] at h
    obtain ⟨d, t, s₁, hturn, -, hdata, hdone, -⟩ := chunkTurn_whole hn hmax herr last h hline body
    refine ⟨t, s₁, ?_, hdata⟩
    rw [chunkLoop_eq, hturn]
    dsimp only
    rw [if_pos (by rw [hdone, hlast]; rfl), hlast]
    rfl
  | cons c chunks ih =>
    obtain ⟨hline, hmore⟩ := hwhole
    obtain ⟨hc, hchunks⟩ := List.forall_mem_cons.mp hchunks
    rw [List.cons_append, List.flatMap_cons, List.append_assoc] at h
    obtain ⟨d, t, s₁, hturn, herr', hdata, hdone, hrest⟩ := chunkTurn_whole hn hmax herr c h hline body
    obtain ⟨t', s₂, hloop, hdata'⟩ := ih herr' hchunks hrest hmore (body ++ c.payload)
    refine ⟨t', s₂, ?_, hdata'.trans hdata⟩
    rw [chunkLoop_eq, hturn]
    dsimp only
    rw [if_neg (by rw [hdone, decide_eq_true_eq]; exact hc), hloop, List.flatMap_cons, List.append_assoc]

theorem chunkLoop_congr {data' : List UInt8} {parser' : HttpResponseParser}
    (h : chunkHead n data parser s = chunkHead n data' parser' s) (body : List UInt8) :
    chunkLoop n data parser body s = chunkLoop n data' parser' body s := by
  rw [chunkLoop_eq, chunkLoop_eq n data', chunkTurn, chunkTurn, h]

/-! ## The response -/

/-- However a response in chunks is cut into reads, its body is received when its head ends in the
final state, its version is in one read or the blank behind it begins one, and no read begins
inside of a size line but between zeros at its front and another digit. -/
theorem recvResponse_chunks {lexicalCast : List UInt8 → Option UInt64} {h : ResponseHead} {st : Stream}
    (hn : 0 < n) (hmax : n ≤ intMax) (hopen : st.closed = false) (hclose : h.Closes)
    (hannounce : h.Announces) {chunks : List Chunk} (hchunks : ∀ c ∈ chunks, c.payload ≠ []) {last : Chunk}
    (hlast : last.payload = [])
    (hp : st.pending = h.text ++ ((chunks ++ [last]).flatMap Chunk.text ++ rest))
    (hversion : Pieces.readStart n st.input.parts 8 = 0 ∨ Pieces.readStart n st.input.parts 8 = 8)
    (hwhole : ((⟨0, st.input⟩ : Supply).afterLine n h.text.length).ChunksWhole n (chunks ++ [last])) :
    ∃ r st', recvResponse lexicalCast n st = .ok (some r, st') ∧
      r.body = chunks.flatMap Chunk.payload := by
  obtain ⟨t, hhead, herr, hbody, hchunked⟩ :=
    h.headLoop_chunked hn hmax hopen hclose hannounce hp hversion
  have hpos : 0 < h.text.length := h.text_pos
  have hle : h.text.length ≤ st.pending.length := by
    rw [hp, List.length_append]
    exact Nat.le_add_right _ _
  have hremains := remains_read hn hopen hpos hle (by rw [hp, List.drop_left])
  rw [Supply.afterLine_of_lt hpos] at hwhole
  obtain ⟨t', s', hloop, hdata⟩ := chunkLoop_whole hn hmax herr hchunks hlast hremains hwhole []
  refine ⟨t'.data.withBody (chunks.flatMap Chunk.payload), s', ?_, ?_⟩
  · rw [recvResponse, hhead]
    dsimp only [bind, Except.bind]
    rw [hchunked, if_pos rfl, hloop]
    rfl
  · rw [HttpResponse.withBody]
    split
    · rfl
    · rename_i hnil
      rw [hdata, hbody]
      exact (not_not.mp hnil).symm

end

/-! ## A size line that is cut -/

set_option maxRecDepth 20000 in
/-- The head of a response that announces chunks. -/
def chunkedHead : ResponseHead where
  version := 49
  status := ascii "200"
  reason := ascii "OK"
  fields := [{
    name := ascii "Transfer-Encoding"
    value := ascii " chunked"
    name_ne := by decide
    name_token := by decide
    value_text := by decide }]
  version_known := Or.inr rfl
  status_ne := by decide
  status_digits := by decide
  reason_text := by decide

theorem chunkedHead_announces : chunkedHead.Announces :=
  ⟨_, List.mem_cons_self, by decide, by decide⟩

theorem chunkedHead_closes : chunkedHead.Closes := by
  intro f hf
  cases hf
  exact Or.inl (by decide)

set_option maxRecDepth 20000 in
def helloChunk : Chunk where
  size := ascii "05"
  payload := ascii "hello"
  size_ne := by decide
  size_digits := by decide
  size_value := by decide
  payload_fits := by decide

set_option maxRecDepth 20000 in
def lastChunk : Chunk where
  size := ascii "0"
  payload := []
  size_ne := by decide
  size_digits := by decide
  size_value := by decide
  payload_fits := by decide

/-- A response that is cut in its head, behind a zero at the front of a size, in a chunk and between
the two bytes of a line end. -/
def helloPieces : Pieces UInt8 where
  parts := [ascii "HTTP/1.1 200 OK\r\nTransfer-Enco", ascii "ding: chunked\r\n\r\n0",
    ascii "5\r\nhe", ascii "llo\r", ascii "\n0\r\n", ascii "\r\n"]
  parts_ne := by decide

set_option maxRecDepth 20000 in
theorem hello_received : ∃ r st', recvResponse castDigits 4096 (.connected helloPieces) = .ok (some r, st') ∧
    r.body = ascii "hello" := by
  have htext : (Stream.connected helloPieces).pending =
      chunkedHead.text ++ (([helloChunk] ++ [lastChunk]).flatMap Chunk.text ++ []) := by decide
  exact recvResponse_chunks (by decide) (by decide) rfl chunkedHead_closes chunkedHead_announces (by decide)
    rfl htext (by decide) (by decide)

set_option maxRecDepth 20000 in
/-- Sixteen bytes, the first two of which are a line end. -/
def longChunk : Chunk where
  size := ascii "10"
  payload := ascii "\r\n0123456789abcd"
  size_ne := by decide
  size_digits := by decide
  size_value := by decide
  payload_fits := by decide

/-- A response that is cut between the digits of its first size. -/
def cutPieces : Pieces UInt8 where
  parts := [ascii "HTTP/1.1 200 OK\r\nTransfer-Encoding: chunked\r\n\r\n1",
    ascii "0\r\n\r\n0123456789abcd\r\n0\r\n\r\n"]
  parts_ne := by decide

set_option maxRecDepth 20000 in
/-- The digit in front of the cut is forgotten, and the one behind it is the size of the last
chunk. -/
theorem not_always_received : ¬ ∀ (h : ResponseHead) (chunks : List Chunk) (last : Chunk) (ps : Pieces UInt8),
    h.Announces → (∀ c ∈ chunks, c.payload ≠ []) → last.payload = [] →
    ps.flatten = h.text ++ (chunks ++ [last]).flatMap Chunk.text →
    ∃ r st', recvResponse castDigits 4096 (.connected ps) = .ok (some r, st') ∧
      r.body = chunks.flatMap Chunk.payload := by
  intro hall
  obtain ⟨r, st', hrecv, hbody⟩ := hall chunkedHead [longChunk] lastChunk cutPieces chunkedHead_announces
    (by decide) rfl (by decide)
  have htext : (Stream.connected cutPieces).pending =
      chunkedHead.text ++ ([longChunk, lastChunk].flatMap Chunk.text) := by decide
  obtain ⟨t, hhead, herr, hnone, hchunked⟩ := chunkedHead.headLoop_chunked (n := 4096) (by decide) (by decide)
    rfl chunkedHead_closes chunkedHead_announces htext (by decide)
  have hdata : ((Stream.connected cutPieces).pending.take (Pieces.readEnd 4096
      (Stream.connected cutPieces).input.parts (chunkedHead.text.length - 1))).drop chunkedHead.text.length =
      ascii "1" := by decide
  have hend : Pieces.readEnd 4096 (Stream.connected cutPieces).input.parts (chunkedHead.text.length - 1) =
      chunkedHead.text.length + 1 := by decide
  rw [hdata, hend] at hhead
  have hremains : Remains 4096 (([] ++ [lastChunk]).flatMap Chunk.text ++ ascii "0123456789abcd\r\n0\r\n\r\n")
      ⟨0, cutPieces.skip (chunkedHead.text.length + 1)⟩ []
      ((Stream.connected cutPieces).skip (chunkedHead.text.length + 1)) :=
    ⟨by decide, rfl, by decide, rfl⟩
  obtain ⟨p, hperr, hpdata, hforgets⟩ := chunkHead_digits (n := 4096) (s := (Stream.connected cutPieces).skip
    (chunkedHead.text.length + 1)) (by decide) (by decide) herr
    (show ∀ b ∈ ascii "1", ByteClass.xdigit.holds b = true by decide)
  obtain ⟨t', s', hloop, hdata'⟩ :=
    chunkLoop_whole (by decide) (by decide) hperr (List.forall_mem_nil _) rfl hremains (by decide) []
  have hsame := chunkLoop_congr (hforgets.trans
    (show _ = chunkHead 4096 [] p _ from (if_pos rfl).symm)) []
  rw [recvResponse, hhead] at hrecv
  dsimp only [bind, Except.bind] at hrecv
  rw [hchunked, if_pos rfl, hsame, hloop] at hrecv
  cases hrecv
  have hempty : t'.data.body = [] := by rw [hdata', hpdata, hnone]
  exact absurd (hempty.symm.trans hbody) (by decide)

end Flz.Http
