import Flz.Address.Subnet
import Flz.Http.Printed
import Flz.Http.SizeLine
import Flz.Lib.Digits

/-! # IPv6 addresses as text

`IPv6Address::insert` and `IPv6Address::Create` of `src/address.cc`, with `inet_pton` for this family. A text is
given up to the `NUL` behind it.
-/
namespace Flz
open Lib Digits Http

/-! ## Printing -/

namespace IPv6Address

/-- `addr[i]`, as the memory has it. -/
def word (a : IPv6Address) (i : ℕ) : BitVec 16 :=
  ofMemory .little 16 [a.m_addr.s6_addr.toList.getD (2 * i) 0, a.m_addr.s6_addr.toList.getD (2 * i + 1) 0]

def addr (a : IPv6Address) : List (BitVec 16) := (List.range 8).map a.word

/-- `std::hex << (int)byteswapOnLittleEndian(w)`. -/
def hexWord (w : BitVec 16) : List UInt8 := digits 16 (byteswapOnLittleEndian w).toNat

/-- The loop of `insert`; `prev` is `addr[i - 1]` where there is one. -/
def insertLoop (prev : Option (BitVec 16)) (used_zeros : Bool) (os : List UInt8) :
    List (BitVec 16) → Bool × List UInt8
  | [] => (used_zeros, os)
  | w :: addr =>
    if w = 0 ∧ used_zeros = false then insertLoop (some w) used_zeros os addr
    else if prev = some 0 ∧ used_zeros = false then
      insertLoop (some w) true (os ++ ascii ":" ++ ascii ":" ++ hexWord w) addr
    else insertLoop (some w) used_zeros (os ++ (if prev.isSome then ascii ":" else []) ++ hexWord w) addr

def getPort (a : IPv6Address) : ℕ := (byteswapOnLittleEndian a.m_addr.sin6_port).toNat

/-- What stands between the brackets. -/
def host (a : IPv6Address) : List UInt8 :=
  let (used_zeros, os) := insertLoop none false [] a.addr
  if used_zeros = false ∧ a.word 7 = 0 then os ++ ascii "::" else os

def insert (a : IPv6Address) : List UInt8 := ascii "[" ++ a.host ++ ascii "]:" ++ decimal a.getPort

end IPv6Address

/-! ## Reading -/

/-- The loop of `inet_pton4`: the octets before the last one, the last one, `octets`, `saw_digit`. -/
def pton4Loop (tmp : List UInt8) (tp octets : ℕ) (saw_digit : Bool) : List UInt8 → Option (List UInt8)
  | [] => if octets < 4 then none else some (tmp ++ [UInt8.ofNat tp])
  | ch :: src =>
    match digitValue 10 ch with
    | some d =>
      if saw_digit ∧ tp = 0 then none
      else if tp * 10 + d > 255 then none
      else if saw_digit then pton4Loop tmp (tp * 10 + d) octets true src
      else if octets + 1 > 4 then none
      else pton4Loop tmp (tp * 10 + d) (octets + 1) true src
    | none =>
      if ch = 46 ∧ saw_digit then
        if octets = 4 then none else pton4Loop (tmp ++ [UInt8.ofNat tp]) 0 octets false src
      else none

def inet_pton4 (src : List UInt8) : Option (List UInt8) := pton4Loop [] 0 0 false src

/-- The state of `inet_pton6`: `tp` are the bytes written, `colonp` is how many there were at the gap, and
`saw_xdigit` counts. -/
structure Pton6 where
  tp : List UInt8
  colonp : Option ℕ
  saw_xdigit : ℕ
  val : ℕ
  curtok : List UInt8

namespace Pton6

/-- Behind the last byte the gap is filled. -/
def close (colonp : Option ℕ) (tp : List UInt8) : Option (List UInt8) :=
  match colonp with
  | some k => if tp.length = 16 then none else some (tp.take k ++ List.replicate (16 - tp.length) 0 ++ tp.drop k)
  | none => if tp.length = 16 then some tp else none

/-- `*tp++ = (val >> 8) & 0xff; *tp++ = val & 0xff`. -/
def push (s : Pton6) : List UInt8 := s.tp ++ [UInt8.ofNat (s.val / 256), UInt8.ofNat s.val]

def finish (s : Pton6) : Option (List UInt8) :=
  if 0 < s.saw_xdigit then if s.tp.length + 2 > 16 then none else close s.colonp s.push
  else close s.colonp s.tp

def loop (s : Pton6) : List UInt8 → Option (List UInt8)
  | [] => s.finish
  | ch :: src =>
    match digitValue 16 ch with
    | some d =>
      if s.saw_xdigit = 4 then none
      else loop { s with val := s.val * 16 + d, saw_xdigit := s.saw_xdigit + 1 } src
    | none =>
      if ch = 58 then
        if s.saw_xdigit = 0 then
          if s.colonp.isSome then none else loop { s with curtok := src, colonp := some s.tp.length } src
        else if src = [] then none
        else if s.tp.length + 2 > 16 then none
        else loop { s with curtok := src, tp := s.push, saw_xdigit := 0, val := 0 } src
      else if ch = 46 ∧ s.tp.length + 4 ≤ 16 then
        match inet_pton4 s.curtok with
        | some octets => finish { s with tp := s.tp ++ octets, saw_xdigit := 0 }
        | none => none
      else none

end Pton6

def inet_pton6 (src : List UInt8) : Option (List UInt8) :=
  match src with
  | 58 :: 58 :: rest => Pton6.loop ⟨[], none, 0, 0, 58 :: rest⟩ (58 :: rest)
  | 58 :: _ => none
  | _ => Pton6.loop ⟨[], none, 0, 0, src⟩ src

/-- `IPv6Address::Create(address, port)`. -/
def IPv6Address.Create (address : List UInt8) (port : BitVec 16) : Option IPv6Address :=
  match inet_pton6 address with
  | none => none
  | some bytes =>
    if h : bytes.length = 16 then
      some ⟨⟨AF_INET6, byteswapOnLittleEndian port, ⟨bytes.toArray, by simpa using h⟩⟩⟩
    else none

/-! ## The notation -/

/-- The pieces of a text with a colon between each two. -/
def colons : List (List UInt8) → List UInt8
  | [] => []
  | h :: hs => h ++ hs.flatMap (58 :: ·)

def Hextet (h : List UInt8) : Prop := 0 < h.length ∧ h.length ≤ 4 ∧ ∀ c ∈ h, ByteClass.xdigit.holds c = true

/-- The first two forms of RFC 4291. -/
inductive Rfc4291 : List UInt8 → Prop
  | full {hs : List (List UInt8)} (hlen : hs.length = 8) (h : ∀ t ∈ hs, Hextet t) : Rfc4291 (colons hs)
  | compressed {hs ts : List (List UInt8)} (hlen : hs.length + ts.length < 8) (h : ∀ t ∈ hs ++ ts, Hextet t) :
    Rfc4291 (colons hs ++ ascii "::" ++ colons ts)

/-- How often `::` stands in a text. -/
def gaps (text : List UInt8) : ℕ := (text.zip text.tail).count (58, 58)

/-! ## Words -/

namespace IPv6Address
variable {w x : BitVec 16} {ws xs ys : List (BitVec 16)} {used_zeros : Bool} {os : List UInt8}

/-- The bytes of a word where they stand. -/
def wordBytes (w : BitVec 16) : List UInt8 := memory .little w

theorem wordBytes_eq (w : BitVec 16) : wordBytes w =
    [UInt8.ofNat ((byteswapOnLittleEndian w).toNat / 256), UInt8.ofNat (byteswapOnLittleEndian w).toNat] := by
  have hswap := memory_byteswapOnLittleEndian (w := 16) rfl (byteswapOnLittleEndian w)
  rw [show byteswapOnLittleEndian (byteswapOnLittleEndian w) = w from ByteArray.byteswap_byteswap rfl w] at hswap
  rw [wordBytes, hswap]
  rfl

theorem hexWord_length (w : BitVec 16) : (hexWord w).length ≤ 4 :=
  digits_length_le (by decide) (by decide) (byteswapOnLittleEndian w).isLt

theorem hexWord_pos (w : BitVec 16) : 0 < (hexWord w).length := List.length_pos_of_ne_nil digits_ne_nil

theorem hexWord_xdigit (w : BitVec 16) : ∀ c ∈ hexWord w, ByteClass.xdigit.holds c = true :=
  forall_mem_digits (by decide) (by decide) _

theorem hextet (w : BitVec 16) : Hextet (hexWord w) := ⟨hexWord_pos w, hexWord_length w, hexWord_xdigit w⟩

theorem pairs_eq {l : List UInt8} {k : ℕ} (h : 2 * k ≤ l.length) :
    (List.range k).flatMap (fun i => [l.getD (2 * i) 0, l.getD (2 * i + 1) 0]) = l.take (2 * k) := by
  induction k with
  | zero => simp
  | succ k ih =>
    have h0 : 2 * k < l.length := by omega
    have h1 : 2 * k + 1 < l.length := by omega
    rw [List.range_succ, List.flatMap_append, ih (by omega), show 2 * (k + 1) = 2 * k + 1 + 1 from rfl,
      ← List.take_append_getElem h1, ← List.take_append_getElem h0, List.append_assoc, List.flatMap_singleton,
      List.getD_eq_getElem l 0 h0, List.getD_eq_getElem l 0 h1]
    rfl

/-- The bytes of an address are those of its words. -/
theorem addr_bytes (a : IPv6Address) : a.addr.flatMap wordBytes = a.m_addr.s6_addr.toList := by
  have hpair : ∀ x y : UInt8, wordBytes (ofMemory .little 16 [x, y]) = [x, y] := by
    intro x y
    have hlt : ofLeBytes [x, y] < 256 ^ 2 := ofLeBytes_lt [x, y]
    rw [wordBytes, memory, ofMemory, BitVec.toNat_ofNat, Nat.mod_eq_of_lt (hlt.trans_le (by norm_num))]
    exact leBytes_ofLeBytes [x, y]
  have hlen : a.m_addr.s6_addr.toList.length = 16 := Vector.length_toList
  have hpairs := pairs_eq (l := a.m_addr.s6_addr.toList) (k := 8) (by omega)
  rw [addr, List.flatMap_map]
  simp only [word, hpair]
  rw [hpairs, List.take_of_length_le (by omega)]

/-! ## What is printed -/

/-- Without a zero everything is printed; `prev` is not zero. -/
theorem insertLoop_nonzero (prev : Option (BitVec 16)) (os : List UInt8) (hprev : prev ≠ some 0)
    (hxs : ∀ x ∈ xs, x ≠ 0) (rest : List (BitVec 16)) : insertLoop prev false os (xs ++ rest) =
      insertLoop (xs.getLast?.or prev) false
        (os ++ if prev.isSome then (xs.map hexWord).flatMap (58 :: ·) else colons (xs.map hexWord)) rest := by
  induction xs generalizing prev os with
  | nil => cases prev <;> simp [colons]
  | cons x xs ih =>
    obtain ⟨hx, hxs⟩ := List.forall_mem_cons.mp hxs
    rw [List.cons_append, insertLoop, if_neg fun h => hx h.1, if_neg fun h => hprev h.1,
      ih _ _ (fun h => hx (Option.some.inj h)) hxs, List.getLast?_cons]
    cases prev <;> cases hlast : xs.getLast? <;> simp [colons, ascii]

/-- Behind a gap everything is printed. -/
theorem insertLoop_used {p : BitVec 16} (ys : List (BitVec 16)) :
    insertLoop (some p) true os ys = (true, os ++ (ys.map hexWord).flatMap (58 :: ·)) := by
  induction ys generalizing p os with
  | nil => simp [insertLoop]
  | cons y ys ih =>
    rw [insertLoop, if_neg (by simp), if_neg (by simp), ih]
    simp [ascii]

/-- Zeros before the gap are passed over. -/
theorem insertLoop_zeros (prev : Option (BitVec 16)) (n : ℕ) (rest : List (BitVec 16)) :
    insertLoop prev false os (List.replicate (n + 1) 0 ++ rest) = insertLoop (some 0) false os rest := by
  induction n generalizing prev with
  | zero => exact if_pos ⟨rfl, rfl⟩
  | succ n ih =>
    rw [List.replicate_succ, List.cons_append, insertLoop, if_pos ⟨rfl, rfl⟩]
    exact ih (some 0)

/-- The first zeros of an address. -/
theorem addr_split (ws : List (BitVec 16)) : (∀ w ∈ ws, w ≠ 0) ∨
    ∃ xs n ys, ws = xs ++ (List.replicate (n + 1) 0 ++ ys) ∧ (∀ x ∈ xs, x ≠ 0) ∧ ys.head? ≠ some 0 := by
  induction ws with
  | nil => exact Or.inl (by simp)
  | cons w ws ih =>
    by_cases hw : w = 0
    · subst hw
      right
      rcases ih with hall | ⟨xs, n, ys, rfl, hxs, hys⟩
      · refine ⟨[], 0, ws, rfl, by simp, ?_⟩
        cases ws with
        | nil => simp
        | cons w ws => exact fun h => hall w List.mem_cons_self (Option.some.inj h)
      · cases xs with
        | nil => exact ⟨[], n + 1, ys, rfl, by simp, hys⟩
        | cons x xs => exact ⟨[], 0, _, rfl, by simp, fun h => hxs x List.mem_cons_self (Option.some.inj h)⟩
    · rcases ih with hall | ⟨xs, n, ys, rfl, hxs, hys⟩
      · exact Or.inl (List.forall_mem_cons.mpr ⟨hw, hall⟩)
      · exact Or.inr ⟨w :: xs, n, ys, rfl, List.forall_mem_cons.mpr ⟨hw, hxs⟩, hys⟩

theorem addr_length (a : IPv6Address) : a.addr.length = 8 := by simp [addr]

theorem addr_getLast (a : IPv6Address) : a.addr.getLast? = some (a.word 7) := rfl

/-- An address without zeros is printed as its eight words. -/
theorem host_full {a : IPv6Address} (h : ∀ w ∈ a.addr, w ≠ 0) : a.host = colons (a.addr.map hexWord) := by
  have hloop := insertLoop_nonzero none [] nofun h []
  rw [List.append_nil] at hloop
  have hlast : a.word 7 ≠ 0 := h _ (List.mem_of_getLast? a.addr_getLast)
  rw [host, hloop, insertLoop]
  exact if_neg fun h => hlast h.2

/-- The first zeros of an address are left out. -/
theorem host_gap {a : IPv6Address} {n : ℕ} (h : a.addr = xs ++ (List.replicate (n + 1) 0 ++ ys))
    (hxs : ∀ x ∈ xs, x ≠ 0) (hys : ys.head? ≠ some 0) :
    a.host = colons (xs.map hexWord) ++ ascii "::" ++ colons (ys.map hexWord) := by
  have hloop := insertLoop_nonzero none [] nofun hxs (List.replicate (n + 1) 0 ++ ys)
  rw [host, h, hloop, insertLoop_zeros]
  cases ys with
  | nil =>
    have hlast : a.word 7 = 0 := by
      have hword := a.addr_getLast
      rw [h] at hword
      simpa [List.getLast?_replicate] using hword.symm
    simp [insertLoop, hlast, colons]
  | cons y ys =>
    rw [insertLoop, if_neg fun hy => hys (congrArg some hy.1), if_pos ⟨rfl, rfl⟩, insertLoop_used]
    simp [colons, ascii]

end IPv6Address

/-! ## What is read -/

namespace Pton6
open IPv6Address
variable {tp cur rest ds : List UInt8} {colonp : Option ℕ} {w x : BitVec 16} {ws xs ys : List (BitVec 16)}

/-- The state behind the text of a word. -/
def behind (tp : List UInt8) (colonp : Option ℕ) (w : BitVec 16) (cur : List UInt8) : Pton6 where
  tp := tp
  colonp := colonp
  saw_xdigit := (hexWord w).length
  val := (byteswapOnLittleEndian w).toNat
  curtok := cur

theorem loop_digits (hds : ∀ c ∈ ds, ByteClass.xdigit.holds c = true) (saw val : ℕ) (hlen : saw + ds.length ≤ 4)
    (rest : List UInt8) : loop ⟨tp, colonp, saw, val, cur⟩ (ds ++ rest) =
      loop ⟨tp, colonp, saw + ds.length, ds.foldl (fun v c => v * 16 + (digitValue 16 c).getD 0) val, cur⟩ rest := by
  induction ds generalizing saw val with
  | nil => rfl
  | cons c ds ih =>
    obtain ⟨hc, hds⟩ := List.forall_mem_cons.mp hds
    rw [xdigit_iff] at hc
    obtain ⟨d, hd⟩ := Option.isSome_iff_exists.mp hc
    rw [List.length_cons] at hlen
    rw [List.cons_append, loop, hd]
    simp only [if_neg (show ¬ saw = 4 by omega), List.foldl_cons, hd, Option.getD_some, List.length_cons]
    rw [ih hds (saw + 1) _ (by omega), Nat.add_assoc saw, Nat.add_comm 1]

/-- The text of a word is read as its value. -/
theorem loop_word (w : BitVec 16) (rest : List UInt8) :
    loop ⟨tp, colonp, 0, 0, cur⟩ (hexWord w ++ rest) = loop (behind tp colonp w cur) rest := by
  have hvalue : (hexWord w).foldl (fun v c => v * 16 + (digitValue 16 c).getD 0) 0 =
      (byteswapOnLittleEndian w).toNat :=
    foldl_digits (fun c => (digitValue 16 c).getD 0) (by decide) (by decide) _
  have hlen := hexWord_length w
  rw [loop_digits (hexWord_xdigit w) 0 0 (by omega), hvalue, Nat.zero_add]
  rfl

theorem behind_push : (behind tp colonp w cur).push = tp ++ wordBytes w := by
  rw [wordBytes_eq]
  rfl

/-- A colon behind a word, with something behind it. -/
theorem loop_colon (hlen : tp.length + 2 ≤ 16) (hrest : rest ≠ []) :
    loop (behind tp colonp w cur) (58 :: rest) = loop ⟨tp ++ wordBytes w, colonp, 0, 0, rest⟩ rest := by
  have hpos := hexWord_pos w
  rw [loop, show digitValue 16 58 = none from rfl]
  simp only [if_true, behind_push]
  rw [if_neg (show ¬ (behind tp colonp w cur).saw_xdigit = 0 from Nat.ne_of_gt hpos), if_neg hrest]
  exact if_neg (show ¬ tp.length + 2 > 16 by omega)

theorem behind_finish (hlen : tp.length + 2 ≤ 16) :
    (behind tp colonp w cur).finish = close colonp (tp ++ wordBytes w) := by
  have hpos := hexWord_pos w
  rw [finish, behind_push, if_pos (show 0 < (behind tp colonp w cur).saw_xdigit from hpos)]
  exact if_neg (show ¬ tp.length + 2 > 16 by omega)

theorem wordBytes_length (ws : List (BitVec 16)) : (ws.flatMap wordBytes).length = 2 * ws.length := by
  induction ws with
  | nil => rfl
  | cons w ws ih =>
    rw [List.flatMap_cons, List.length_append, ih, wordBytes_eq, List.length_cons]
    simp
    omega

theorem length_of_bytes {tp' : List UInt8} (h : tp' ++ wordBytes w = tp ++ ws.flatMap wordBytes) :
    tp'.length + 2 = tp.length + 2 * ws.length := by
  have hcount := congrArg List.length h
  rw [List.length_append, List.length_append, wordBytes_length, wordBytes_eq] at hcount
  exact hcount

theorem zeros_bytes (n : ℕ) : (List.replicate n (0 : BitVec 16)).flatMap wordBytes = List.replicate (2 * n) 0 := by
  induction n with
  | zero => rfl
  | succ n ih =>
    rw [List.replicate_succ, List.flatMap_cons, ih, Nat.mul_succ, Nat.add_comm, List.replicate_add]
    rfl

/-- Words with colons between them; what comes behind the last one decides how it goes on. -/
theorem loop_words (tp : List UInt8) (colonp : Option ℕ) (hlen : tp.length + 2 * ws.length ≤ 16) (w : BitVec 16)
    (cur rest : List UInt8) : ∃ tp' w' cur', tp' ++ wordBytes w' = tp ++ (w :: ws).flatMap wordBytes ∧
      loop ⟨tp, colonp, 0, 0, cur⟩ (colons ((w :: ws).map hexWord) ++ rest) =
        loop (behind tp' colonp w' cur') rest := by
  induction ws generalizing tp w cur with
  | nil => exact ⟨tp, w, cur, by simp, by simp [colons, loop_word]⟩
  | cons x ws ih =>
    rw [List.length_cons] at hlen
    have hne : colons ((x :: ws).map hexWord) ++ rest ≠ [] := by
      simp [colons, List.ne_nil_of_length_pos (hexWord_pos x)]
    have hlen' : (tp ++ wordBytes w).length + 2 * ws.length ≤ 16 := by
      rw [List.length_append, wordBytes_eq]
      simp only [List.length_cons, List.length_nil]
      omega
    obtain ⟨tp', w', cur', hbytes, hloop⟩ := ih (tp ++ wordBytes w) hlen' x (colons ((x :: ws).map hexWord) ++ rest)
    refine ⟨tp', w', cur', ?_, ?_⟩
    · rw [hbytes, List.append_assoc, ← List.flatMap_cons]
    · have hsplit : colons ((w :: x :: ws).map hexWord) ++ rest =
          hexWord w ++ 58 :: (colons ((x :: ws).map hexWord) ++ rest) := by
        simp [colons]
      rw [hsplit, loop_word, loop_colon (by omega) hne, hloop]

/-- The words that end a text. -/
theorem loop_last (tp : List UInt8) (colonp : Option ℕ) (hlen : tp.length + 2 * ys.length ≤ 16) (cur : List UInt8) :
    loop ⟨tp, colonp, 0, 0, cur⟩ (colons (ys.map hexWord)) = close colonp (tp ++ ys.flatMap wordBytes) := by
  cases ys with
  | nil => simp [colons, loop, finish]
  | cons y ys =>
    rw [List.length_cons] at hlen
    obtain ⟨tp', w, cur', hbytes, hloop⟩ := loop_words tp colonp (show tp.length + 2 * ys.length ≤ 16 by omega) y cur []
    have hroom := length_of_bytes hbytes
    rw [List.length_cons] at hroom
    rw [List.append_nil] at hloop
    rw [hloop, loop, behind_finish (by omega), hbytes]

/-- The second colon of a gap. -/
theorem loop_gap (tp cur rest : List UInt8) :
    loop ⟨tp, none, 0, 0, cur⟩ (58 :: rest) = loop ⟨tp, some tp.length, 0, 0, rest⟩ rest := rfl

theorem close_none (h : tp.length = 16) : close none tp = some tp := if_pos h

theorem close_some (xs ys : List UInt8) (h : xs.length + ys.length < 16) :
    close (some xs.length) (xs ++ ys) = some (xs ++ List.replicate (16 - (xs.length + ys.length)) 0 ++ ys) := by
  rw [close, List.length_append, if_neg (Nat.ne_of_lt h), List.take_left, List.drop_left]

end Pton6

section
open IPv6Address Pton6
variable {xs ys : List (BitVec 16)}

theorem colons_head (xs : List (BitVec 16)) (rest : List UInt8) (hxs : xs ≠ []) :
    (colons (xs.map hexWord) ++ rest).head? ≠ some 58 := by
  obtain ⟨x, xs, rfl⟩ := List.exists_cons_of_ne_nil hxs
  obtain ⟨c, ds, hc⟩ := List.exists_cons_of_ne_nil (List.ne_nil_of_length_pos (hexWord_pos x))
  have hdigit := hexWord_xdigit x c (hc ▸ List.mem_cons_self)
  rw [List.map_cons, colons, hc]
  intro h
  rw [Option.some.inj h] at hdigit
  exact absurd hdigit (by decide)

theorem inet_pton6_of_head {src : List UInt8} (h : src.head? ≠ some 58) :
    inet_pton6 src = loop ⟨[], none, 0, 0, src⟩ src := by
  unfold inet_pton6
  split
  · exact absurd rfl h
  · exact absurd rfl h
  · rfl

theorem inet_pton6_full (hlen : xs.length = 8) :
    inet_pton6 (colons (xs.map hexWord)) = some (xs.flatMap wordBytes) := by
  have hhead := colons_head xs [] (List.ne_nil_of_length_pos (by omega))
  rw [List.append_nil] at hhead
  have hbytes := wordBytes_length xs
  rw [inet_pton6_of_head hhead, loop_last [] none (show 0 + 2 * xs.length ≤ 16 by omega), List.nil_append,
    close_none (by omega)]

theorem inet_pton6_gap (hlen : xs.length + ys.length < 8) :
    inet_pton6 (colons (xs.map hexWord) ++ ascii "::" ++ colons (ys.map hexWord)) =
      some (xs.flatMap wordBytes ++ List.replicate (16 - 2 * (xs.length + ys.length)) 0 ++ ys.flatMap wordBytes) := by
  have hgap : ∀ cur, loop ⟨xs.flatMap wordBytes, none, 0, 0, cur⟩ (58 :: colons (ys.map hexWord)) =
      some (xs.flatMap wordBytes ++ List.replicate (16 - 2 * (xs.length + ys.length)) 0 ++ ys.flatMap wordBytes) := by
    intro cur
    have hbytes := wordBytes_length xs
    rw [loop_gap, loop_last _ _ (by omega), close_some _ _ (by rw [hbytes, wordBytes_length]; omega), hbytes,
      wordBytes_length, ← Nat.mul_add]
  cases xs with
  | nil => exact hgap _
  | cons x xs =>
    have hhead := colons_head (x :: xs) (58 :: 58 :: colons (ys.map hexWord)) (by simp)
    rw [List.length_cons] at hlen
    obtain ⟨tp', w, cur', hbytes, hloop⟩ := loop_words [] none (show 0 + 2 * xs.length ≤ 16 by omega) x
      (colons ((x :: xs).map hexWord) ++ 58 :: 58 :: colons (ys.map hexWord)) (58 :: 58 :: colons (ys.map hexWord))
    have hroom := length_of_bytes hbytes
    rw [List.length_nil, List.length_cons] at hroom
    rw [List.append_assoc]
    refine (inet_pton6_of_head hhead).trans (hloop.trans ?_)
    rw [loop_colon (by omega) (by simp), hbytes]
    exact hgap _

/-! ## The notation of what is printed -/

theorem gaps_cons (c : UInt8) (text : List UInt8) :
    gaps (c :: text) = gaps text + if c = 58 ∧ text.head? = some 58 then 1 else 0 := by
  cases text with
  | nil => simp [gaps]
  | cons d text => simp [gaps, List.count_cons]

theorem gaps_word {h : List UInt8} (hh : ∀ c ∈ h, c ≠ 58) (rest : List UInt8) : gaps (h ++ rest) = gaps rest := by
  induction h with
  | nil => rfl
  | cons c h ih =>
    obtain ⟨hc, hh⟩ := List.forall_mem_cons.mp hh
    rw [List.cons_append, gaps_cons, ih hh, if_neg fun h => hc h.1]
    rfl

theorem hexWord_ne_colon (w : BitVec 16) : ∀ c ∈ hexWord w, c ≠ 58 := by
  rintro c hc rfl
  exact absurd (hexWord_xdigit w 58 hc) (by decide)

theorem gaps_colons (xs : List (BitVec 16)) (rest : List UInt8) :
    gaps (colons (xs.map hexWord) ++ rest) = gaps rest := by
  have htail : ∀ (xs : List (BitVec 16)) rest, gaps ((xs.map hexWord).flatMap (58 :: ·) ++ rest) = gaps rest := by
    intro xs rest
    induction xs with
    | nil => rfl
    | cons x xs ih =>
      have hhead := colons_head [x] ((xs.map hexWord).flatMap (58 :: ·) ++ rest) (by simp)
      have hword := gaps_word (hexWord_ne_colon x) ((xs.map hexWord).flatMap (58 :: ·) ++ rest)
      simp only [List.map_cons, List.map_nil, colons, List.flatMap_nil, List.append_nil] at hhead
      rw [List.map_cons, List.flatMap_cons, List.append_assoc, List.cons_append, gaps_cons, hword, ih,
        if_neg fun h => hhead h.2, Nat.add_zero]
  cases xs with
  | nil => rfl
  | cons x xs => rw [List.map_cons, colons, List.append_assoc, gaps_word (hexWord_ne_colon x), htail]

theorem hextets (xs : List (BitVec 16)) : ∀ t ∈ xs.map hexWord, Hextet t := by
  intro t ht
  obtain ⟨w, -, rfl⟩ := List.mem_map.mp ht
  exact hextet w

theorem not_mem_colons {hs : List (List UInt8)} (h : ∀ t ∈ hs, Hextet t) : 93 ∉ colons hs := by
  have hword : ∀ t, Hextet t → 93 ∉ t := fun t ht hmem => absurd (ht.2.2 93 hmem) (by decide)
  cases hs with
  | nil => simp [colons]
  | cons t hs =>
    obtain ⟨ht, hhs⟩ := List.forall_mem_cons.mp h
    simp only [colons, List.mem_append, List.mem_flatMap, not_or, not_exists, not_and, List.mem_cons]
    exact ⟨hword t ht, fun u hu => ⟨by decide, hword u (hhs u hu)⟩⟩

/-- The text between the brackets is one of RFC 4291 with one gap at most, and it is read as the address; behind it
stands the port. -/
theorem IPv6Address.insert_round_trip (a : IPv6Address) : ∃ text,
    a.insert = ascii "[" ++ text ++ ascii "]:" ++ decimal a.getPort ∧ 93 ∉ text ∧ Rfc4291 text ∧ gaps text ≤ 1 ∧
      inet_pton6 text = some a.m_addr.s6_addr.toList ∧
      ∀ port, (IPv6Address.Create text port).map (·.m_addr.s6_addr) = some a.m_addr.s6_addr := by
  have hcreate : ∀ text, inet_pton6 text = some a.m_addr.s6_addr.toList →
      ∀ port, (IPv6Address.Create text port).map (·.m_addr.s6_addr) = some a.m_addr.s6_addr := by
    intro text htext port
    simp [IPv6Address.Create, htext, Vector.toList]
  have hbytes := a.addr_bytes
  refine ⟨a.host, rfl, ?_⟩
  rcases addr_split a.addr with hall | ⟨xs, n, ys, hsplit, hxs, hys⟩
  · have hread := inet_pton6_full a.addr_length
    have hnone := gaps_colons a.addr []
    rw [List.append_nil] at hnone
    rw [hbytes] at hread
    rw [host_full hall]
    refine ⟨not_mem_colons (hextets _), .full (by simp [a.addr_length]) (hextets _), ?_, hread, hcreate _ hread⟩
    rw [hnone]
    decide
  · have hlen := a.addr_length
    rw [hsplit, List.length_append, List.length_append, List.length_replicate] at hlen
    have hread := inet_pton6_gap (show xs.length + ys.length < 8 by omega)
    have hone : gaps (58 :: 58 :: colons (ys.map hexWord)) ≤ 1 := by
      have hnone := gaps_colons ys []
      rw [List.append_nil] at hnone
      have hhead : (colons (ys.map hexWord)).head? ≠ some 58 := by
        cases ys with
        | nil => exact nofun
        | cons y ys => simpa using colons_head (y :: ys) [] (by simp)
      rw [gaps_cons, gaps_cons, hnone, if_neg fun h => hhead h.2, if_pos ⟨rfl, rfl⟩]
      decide
    have hzeros : (List.replicate (n + 1) (0 : BitVec 16)).flatMap wordBytes =
        List.replicate (16 - 2 * (xs.length + ys.length)) 0 := by
      have hcount : 16 - 2 * (xs.length + ys.length) = 2 * (n + 1) := by omega
      rw [hcount]
      exact zeros_bytes (n + 1)
    have hall : xs.flatMap wordBytes ++ (List.replicate (n + 1) 0).flatMap wordBytes ++ ys.flatMap wordBytes =
        a.m_addr.s6_addr.toList := by
      rw [← hbytes, hsplit, List.flatMap_append, List.flatMap_append, List.append_assoc]
    rw [← hzeros, hall] at hread
    rw [host_gap hsplit hxs hys]
    refine ⟨?_, .compressed (by simp; omega) ?_, ?_, hread, hcreate _ hread⟩
    · simp only [List.mem_append, not_or]
      exact ⟨⟨not_mem_colons (hextets xs), by decide⟩, not_mem_colons (hextets ys)⟩
    · rw [← List.map_append]
      exact hextets _
    · rw [List.append_assoc, gaps_colons]
      exact hone

end
end Flz
