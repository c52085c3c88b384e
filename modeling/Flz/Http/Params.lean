import Flz.Http.Message
import Flz.Lib.Segments
import Mathlib.Data.List.DropRight
import Mathlib.Data.List.Find

/-! # Parameters and cookies

`initQueryParam`, `initBodyParam` and `initCookies` of `http/http.cc`: one macro that goes through a text
with a position. What it finds is what the segments of the text say, when every segment that has no
`=` stands behind those that have one.
-/
namespace Flz.Http
open Lib OrderedMap Segments

/-! ## Strings -/

/-- The table `xdigit_chars`. -/
def xdigit_chars (b : UInt8) : UInt8 := UInt8.ofNat ((digitValue 16 b).getD 0)

def isxdigit (b : UInt8) : Bool := (digitValue 16 b).isSome

/-- The loop of `UrlDecode` with what it has passed; `ss` is made when the first byte changes. -/
def urlDecodeLoop (space_as_plus : Bool) :
    List UInt8 → Option (List UInt8) → List UInt8 → Option (List UInt8)
  | _, ss, [] => ss
  | passed, ss, c :: rest =>
    if c = 43 ∧ space_as_plus then
      urlDecodeLoop space_as_plus (passed ++ [c]) (some (ss.getD passed ++ [32])) rest
    else
      match rest with
      | x :: y :: rest' =>
        if c = 37 ∧ isxdigit x ∧ isxdigit y then
          urlDecodeLoop space_as_plus (passed ++ [c, x, y])
            (some (ss.getD passed ++ [xdigit_chars x <<< 4 ||| xdigit_chars y])) rest'
        else urlDecodeLoop space_as_plus (passed ++ [c]) (ss.map (· ++ [c])) (x :: y :: rest')
      | rest => urlDecodeLoop space_as_plus (passed ++ [c]) (ss.map (· ++ [c])) rest

def UrlDecode (space_as_plus : Bool) (str : List UInt8) : List UInt8 :=
  (urlDecodeLoop space_as_plus [] none str).getD str

/-- What is decoded, without the copy that is made on demand. -/
def urlDecoded (space_as_plus : Bool) : List UInt8 → List UInt8
  | [] => []
  | c :: rest =>
    if c = 43 ∧ space_as_plus then 32 :: urlDecoded space_as_plus rest
    else
      match rest with
      | x :: y :: rest' =>
        if c = 37 ∧ isxdigit x ∧ isxdigit y then
          (xdigit_chars x <<< 4 ||| xdigit_chars y) :: urlDecoded space_as_plus rest'
        else c :: urlDecoded space_as_plus (x :: y :: rest')
      | rest => c :: urlDecoded space_as_plus rest

section
variable {space_as_plus : Bool} {c : UInt8} {rest : List UInt8}

theorem urlDecoded_plus (h : c = 43 ∧ space_as_plus) :
    urlDecoded space_as_plus (c :: rest) = 32 :: urlDecoded space_as_plus rest := by
  rw [urlDecoded.eq_def]
  exact if_pos h

theorem urlDecoded_hex {x y : UInt8} (hc : ¬ (c = 43 ∧ space_as_plus))
    (h : c = 37 ∧ isxdigit x ∧ isxdigit y) : urlDecoded space_as_plus (c :: x :: y :: rest) =
      (xdigit_chars x <<< 4 ||| xdigit_chars y) :: urlDecoded space_as_plus rest := by
  rw [urlDecoded.eq_def]
  exact (if_neg hc).trans (if_pos h)

theorem urlDecoded_other (hc : ¬ (c = 43 ∧ space_as_plus))
    (h : ∀ x y rest', rest = x :: y :: rest' → ¬ (c = 37 ∧ isxdigit x ∧ isxdigit y)) :
    urlDecoded space_as_plus (c :: rest) = c :: urlDecoded space_as_plus rest := by
  rw [urlDecoded.eq_def]
  refine (if_neg hc).trans ?_
  match rest with
  | [] => rfl
  | [_] => rfl
  | x :: y :: rest' => exact if_neg (h x y rest' rfl)

/-- A byte is kept by the loop whether there is a copy or not. -/
theorem getD_keep (ss : Option (List UInt8)) (passed : List UInt8) (c : UInt8) :
    (ss.map (· ++ [c])).getD (passed ++ [c]) = ss.getD passed ++ [c] := by
  cases ss <;> rfl

end

theorem urlDecodeLoop_eq (space_as_plus : Bool) (passed : List UInt8) (ss : Option (List UInt8))
    (rest : List UInt8) : (urlDecodeLoop space_as_plus passed ss rest).getD (passed ++ rest) =
      ss.getD passed ++ urlDecoded space_as_plus rest := by
  fun_induction urlDecodeLoop space_as_plus passed ss rest with
  | case1 passed ss => cases ss <;> simp [urlDecoded]
  | case2 passed ss c rest hplus ih =>
    rw [urlDecoded_plus hplus]
    simpa using ih
  | case3 passed ss c hplus x y rest' hhex ih =>
    rw [urlDecoded_hex hplus hhex]
    simpa using ih
  | case4 passed ss c hplus x y rest' hhex ih =>
    have hother : ∀ x' y' rest'', x :: y :: rest' = x' :: y' :: rest'' →
        ¬ (c = 37 ∧ isxdigit x' ∧ isxdigit y') := by
      rintro _ _ _ ⟨rfl, rfl, rfl⟩
      exact hhex
    rw [urlDecoded_other hplus hother]
    rw [getD_keep] at ih
    simpa using ih
  | case5 passed ss c hplus rest hshort ih =>
    rw [urlDecoded_other hplus fun x y rest' h => (hshort x y rest' h).elim]
    rw [getD_keep] at ih
    simpa using ih

theorem UrlDecode_eq (space_as_plus : Bool) (str : List UInt8) :
    UrlDecode space_as_plus str = urlDecoded space_as_plus str :=
  urlDecodeLoop_eq space_as_plus [] none str

/-- From the first byte that is not in `delimit` to the last one. -/
def Trim (delimit str : List UInt8) : List UInt8 :=
  (str.dropWhile (· ∈ delimit)).rdropWhile (· ∈ delimit)

/-- `strcasestr(s.c_str(), t.c_str()) != nullptr`, for a `t` without `NUL`. -/
def strcasestr (s t : List UInt8) : Bool :=
  (s.takeWhile (· ≠ 0)).tails.any fun u => (t.map tolower).isPrefixOf (u.map tolower)

/-- `str.find(c, pos)`; `none` is `npos`. -/
def stringFind (str : List UInt8) (c : UInt8) (pos : ℕ) : Option ℕ :=
  ((str.drop pos).findIdx? (· == c)).map (pos + ·)

/-- `str.substr(pos, n)`; `none` is a count that is longer than any string. -/
def substr (str : List UInt8) (pos : ℕ) (n : Option ℕ) : List UInt8 :=
  n.elim (str.drop pos) fun n => (str.drop pos).take n

/-! ## The macro -/

/-- The loop of `PARSE_PARAM`; `none` is no more fuel. -/
def paramLoop (flag : UInt8) (trim : List UInt8 → List UInt8) (str : List UInt8) :
    ℕ → ℕ → MapType → Option MapType
  | 0, _, _ => none
  | fuel + 1, last, m =>
    match stringFind str 61 last with
    | none => some m
    | some key =>
      let pos := stringFind str flag key
      let m' := insert strcasecmp (trim (substr str last (some (key - last))))
        (UrlDecode true (substr str (key + 1) (pos.map (· - key - 1)))) m
      match pos with
      | none => some m'
      | some pos => paramLoop flag trim str fuel (pos + 1) m'

def PARSE_PARAM (str : List UInt8) (m : MapType) (flag : UInt8) (trim : List UInt8 → List UInt8) :
    Option MapType := paramLoop flag trim str (str.length + 1) 0 m

/-- A request with what `initParam` fills. -/
structure ParamRequest extends HttpRequest where
  params : MapType
  cookies : MapType
  parserParamFlag : UInt8
  deriving DecidableEq, Repr

namespace ParamRequest

/-- The request as it was received. -/
def received (r : HttpRequest) : ParamRequest where
  toHttpRequest := r
  params := []
  cookies := []
  parserParamFlag := 0

def initQueryParam (r : ParamRequest) : Option ParamRequest :=
  if r.parserParamFlag &&& 0x1 ≠ 0 then some r
  else do
    let m ← PARSE_PARAM r.query r.params 38 id
    return { r with params := m, parserParamFlag := r.parserParamFlag ||| 0x1 }

def initBodyParam (r : ParamRequest) : Option ParamRequest :=
  if r.parserParamFlag &&& 0x2 ≠ 0 then some r
  else
    let content_type := r.getHeader (ascii "content-type")
    if ¬ strcasestr content_type (ascii "application/x-www-form-urlencoded") then
      some { r with parserParamFlag := r.parserParamFlag ||| 0x2 }
    else do
      let m ← PARSE_PARAM r.body r.params 38 id
      return { r with params := m, parserParamFlag := r.parserParamFlag ||| 0x2 }

def initCookies (r : ParamRequest) : Option ParamRequest :=
  if r.parserParamFlag &&& 0x4 ≠ 0 then some r
  else
    let cookie := r.getHeader (ascii "cookie")
    if cookie = [] then some { r with parserParamFlag := r.parserParamFlag ||| 0x4 }
    else do
      let m ← PARSE_PARAM cookie r.cookies 59 (Trim [32, 9, 13, 10])
      return { r with cookies := m, parserParamFlag := r.parserParamFlag ||| 0x4 }

end ParamRequest

/-- The calls that fill the maps. -/
inductive ParamCall
  | query | body | cookies
  deriving DecidableEq, Repr

namespace ParamCall

def run (r : ParamRequest) : ParamCall → Option ParamRequest
  | .query => r.initQueryParam
  | .body => r.initBodyParam
  | .cookies => r.initCookies

def runAll (r : ParamRequest) (cs : List ParamCall) : Option ParamRequest := cs.foldlM run r

/-! ## The reference -/

/-- The text that a call is about. -/
def text (r : HttpRequest) : ParamCall → List UInt8
  | .query => r.query
  | .body =>
    if strcasestr (r.getHeader (ascii "content-type")) (ascii "application/x-www-form-urlencoded") then
      r.body
    else []
  | .cookies => r.getHeader (ascii "cookie")

def flag : ParamCall → UInt8
  | .query | .body => 38
  | .cookies => 59

/-- A name and its value, as they are kept. -/
def entry (name value : List UInt8) : ParamCall → List UInt8 × List UInt8
  | .query | .body => (name, UrlDecode true value)
  | .cookies => (Trim [32, 9, 13, 10] name, UrlDecode true value)

/-- What the segments of the text say. -/
def reference (r : HttpRequest) (c : ParamCall) : List (List UInt8 × List UInt8) :=
  fields c.flag 61 (fun u v => c.entry u v) (c.text r)

/-- The calls that are for the one map, or for the other. -/
def isCookies (c : ParamCall) : Bool := c == .cookies

/-- What all the texts for one map say. -/
def references (cookies : Bool) (r : HttpRequest) (cs : List ParamCall) : List (List UInt8 × List UInt8) :=
  (cs.filter fun c => c.isCookies == cookies).flatMap (reference r)

end ParamCall

/-- The same name, whatever its case. -/
def sameName (s t : List UInt8) : Bool := s.map tolower == t.map tolower

/-- The map has of the fields with one name the first, and nothing else. -/
def MapType.Holds (m : MapType) (fs : List (List UInt8 × List UInt8)) : Prop :=
  ∀ e, e ∈ m ↔ fs.find? (fun f => sameName f.1 e.1) = some e

/-- Names that `strcasecmp` takes for the same are the same. -/
def Apart (fs : List (List UInt8 × List UInt8)) : Prop :=
  ∀ e ∈ fs, ∀ f ∈ fs, strcasecmp e.1 f.1 = .eq → sameName e.1 f.1 = true

/-- Both maps are those of the reference. -/
def ParamRequest.IsReference (q : ParamRequest) (r : HttpRequest) (cs : List ParamCall) : Prop :=
  q.params.Holds (ParamCall.references false r cs) ∧ q.cookies.Holds (ParamCall.references true r cs)

/-! ## What the macro does -/

section
variable {flag : UInt8} {trim : List UInt8 → List UInt8} {str : List UInt8} {m : MapType}

theorem stringFind_eq (str : List UInt8) (c : UInt8) (pos : ℕ) : stringFind str c pos =
    if c ∈ str.drop pos then some (pos + (before c (str.drop pos)).length) else none := by
  rw [stringFind, findIdx?_eq]
  split <;> rfl

theorem stringFind_skip {b c : UInt8} {key : ℕ} {rest : List UInt8} (h : str.drop key = b :: rest)
    (hne : c ≠ b) : stringFind str c key = stringFind str c (key + 1) := by
  have hrest : str.drop (key + 1) = rest := by rw [← List.drop_drop, h, List.drop_one, List.tail_cons]
  rw [stringFind_eq, stringFind_eq, h, hrest]
  by_cases hc : c ∈ rest
  · have hbefore : before c (b :: rest) = b :: before c rest := by simp [before, hne.symm]
    simp only [List.mem_cons, hc, or_true, if_true, hbefore, List.length_cons]
    congr 1
    omega
  · simp [hc, hne]

/-- The loop inserts what the scan finds behind its position, and it comes to an end. -/
theorem paramLoop_eq (hflag : flag ≠ 61) {fuel pos : ℕ} (hfuel : str.length < pos + fuel)
    (hpos : pos ≤ str.length) : paramLoop flag trim str fuel pos m =
      some (insertAll strcasecmp m
        (scan flag 61 (fun u v => (trim u, UrlDecode true v)) (str.drop pos))) := by
  induction fuel generalizing pos m with
  | zero => omega
  | succ fuel ih =>
    rw [paramLoop, stringFind_eq]
    generalize ht : str.drop pos = t
    by_cases hmark : (61 : UInt8) ∈ t
    · have hkey : str.drop (pos + (before 61 t).length) = 61 :: after 61 t := by
        rw [← List.drop_drop, ht, drop_before hmark]
      have hname : substr str pos (some (pos + (before 61 t).length - pos)) = before 61 t := by
        rw [Nat.add_sub_cancel_left]
        simp [substr, ht, take_before]
      rw [if_pos hmark, scan_of_mem hmark]
      simp only [stringFind_skip hkey hflag, hname]
      have hle : pos ≤ pos + (before 61 t).length := Nat.le_add_right _ _
      generalize pos + (before 61 t).length = key at hkey hle
      have hval : str.drop (key + 1) = after 61 t := by
        rw [← List.drop_drop, hkey, List.drop_one, List.tail_cons]
      rw [stringFind_eq, hval]
      by_cases hsep : flag ∈ after 61 t
      · have hcount : key + 1 + (before flag (after 61 t)).length - key - 1 =
            (before flag (after 61 t)).length := by omega
        have hdrop : str.drop (key + 1 + (before flag (after 61 t)).length) =
            flag :: after flag (after 61 t) := by
          rw [← List.drop_drop, hval, drop_before hsep]
        have hnext : str.drop (key + 1 + (before flag (after 61 t)).length + 1) =
            after flag (after 61 t) := by
          rw [← List.drop_drop, hdrop, List.drop_one, List.tail_cons]
        have hend : key + 1 + (before flag (after 61 t)).length + 1 ≤ str.length := by
          have hlen := congrArg List.length hdrop
          rw [List.length_drop, List.length_cons] at hlen
          omega
        rw [if_pos hsep]
        simp only [Option.map_some, hcount]
        rw [ih (by omega) hend, hnext]
        simp [substr, hval, take_before, insertAll]
      · have hall : before flag (after 61 t) = after 61 t := before_of_not_mem hsep
        rw [if_neg hsep, hall, after_of_not_mem hsep, scan_of_not_mem List.not_mem_nil]
        simp [substr, hval, insertAll]
    · rw [if_neg hmark, scan_of_not_mem hmark]
      rfl

theorem PARSE_PARAM_eq (hflag : flag ≠ 61) : PARSE_PARAM str m flag trim =
    some (insertAll strcasecmp m (scan flag 61 (fun u v => (trim u, UrlDecode true v)) str)) :=
  paramLoop_eq hflag (by omega) (Nat.zero_le _)

end

/-! ## Any sequence of calls -/

namespace ParamCall

/-- What the macro finds in the text of a call. -/
def scanned (r : HttpRequest) (c : ParamCall) : List (List UInt8 × List UInt8) :=
  scan c.flag 61 (fun u v => c.entry u v) (c.text r)

/-- The bit of a call in `m_parserParamFlag`. -/
def bit : ParamCall → UInt8
  | .query => 0x1
  | .body => 0x2
  | .cookies => 0x4

/-- The request after a call that was not made before. -/
def fill (r : ParamRequest) (c : ParamCall) : ParamRequest :=
  { r with
    params := if c.isCookies then r.params else insertAll strcasecmp r.params (c.scanned r.toHttpRequest)
    cookies := if c.isCookies then insertAll strcasecmp r.cookies (c.scanned r.toHttpRequest) else r.cookies
    parserParamFlag := r.parserParamFlag ||| c.bit }

theorem run_done {r : ParamRequest} {c : ParamCall} (h : r.parserParamFlag &&& c.bit ≠ 0) :
    c.run r = some r := by
  cases c <;> exact if_pos h

theorem run_fill {r : ParamRequest} {c : ParamCall} (h : ¬ r.parserParamFlag &&& c.bit ≠ 0) :
    c.run r = some (c.fill r) := by
  cases c with
  | query =>
    refine (if_neg h).trans ?_
    rw [PARSE_PARAM_eq (by decide)]
    rfl
  | body =>
    refine (if_neg h).trans ?_
    by_cases hform : strcasestr (r.getHeader (ascii "content-type"))
        (ascii "application/x-www-form-urlencoded")
    · rw [if_neg (by simpa using hform), PARSE_PARAM_eq (by decide)]
      simp [fill, scanned, text, hform, isCookies, bit, flag, entry]
    · have hnone : ParamCall.body.scanned r.toHttpRequest = [] := by
        rw [scanned, text, if_neg hform, scan_of_not_mem List.not_mem_nil]
      rw [if_pos (by simpa using hform)]
      simp [fill, hnone, isCookies, bit, insertAll]
  | cookies =>
    refine (if_neg h).trans ?_
    by_cases hempty : r.getHeader (ascii "cookie") = []
    · have hnone : ParamCall.cookies.scanned r.toHttpRequest = [] := by
        rw [scanned, text, hempty, scan_of_not_mem List.not_mem_nil]
      rw [if_pos hempty]
      simp [fill, hnone, isCookies, bit, insertAll]
    · rw [if_neg hempty, PARSE_PARAM_eq (by decide)]
      rfl

theorem bit_or (b : UInt8) (c d : ParamCall) : (b ||| c.bit) &&& d.bit ≠ 0 ↔ b &&& d.bit ≠ 0 ∨ d = c := by
  have hbits : c.bit &&& d.bit ≠ 0 ↔ d = c := by cases c <;> cases d <;> decide
  have hsplit : (b ||| c.bit) &&& d.bit = (b &&& d.bit) ||| (c.bit &&& d.bit) := by
    apply UInt8.toBitVec_inj.mp
    simp [BitVec.and_or_distrib_right]
  rw [hsplit, ← hbits, ne_eq, UInt8.or_eq_zero_iff]
  tauto

/-- What the macro finds in the texts for one map. -/
def scans (cookies : Bool) (r : HttpRequest) (cs : List ParamCall) : List (List UInt8 × List UInt8) :=
  (cs.filter fun c => c.isCookies == cookies).flatMap (scanned r)

/-- The request after some calls. -/
structure After (r : HttpRequest) (cs : List ParamCall) (q : ParamRequest) : Prop where
  request : q.toHttpRequest = r
  params : q.params = insertAll strcasecmp [] (scans false r cs)
  cookies : q.cookies = insertAll strcasecmp [] (scans true r cs)
  flags : ∀ c : ParamCall, q.parserParamFlag &&& c.bit ≠ 0 ↔ c ∈ cs

section
variable {r : HttpRequest} {cs : List ParamCall} {q : ParamRequest} {c : ParamCall}

theorem after_received (r : HttpRequest) : After r [] (.received r) := by
  refine ⟨rfl, rfl, rfl, fun c => ?_⟩
  cases c <;> simp [ParamRequest.received]

theorem scans_append (cookies : Bool) : scans cookies r (cs ++ [c]) =
    scans cookies r cs ++ if c.isCookies = cookies then c.scanned r else [] := by
  by_cases h : c.isCookies = cookies <;> simp [scans, h]

theorem mem_scans {e : List UInt8 × List UInt8} (hc : c ∈ cs) (he : e ∈ c.scanned r) :
    e ∈ scans c.isCookies r cs :=
  List.mem_flatMap.mpr ⟨c, List.mem_filter.mpr ⟨hc, by simp⟩, he⟩

/-- A text that was gone through before adds nothing. -/
theorem insertAll_scans (cookies : Bool) (hc : c ∈ cs) :
    insertAll strcasecmp [] (scans cookies r (cs ++ [c])) =
      insertAll strcasecmp [] (scans cookies r cs) := by
  have hsorted : Sorted strcasecmp (insertAll strcasecmp [] (scans cookies r cs)) :=
    Sorted.insertAll List.Pairwise.nil _
  rw [scans_append, insertAll_append]
  split
  · rename_i hkind
    refine insertAll_again hsorted fun e he => ?_
    rw [entry_insertAll List.Pairwise.nil]
    have hmem : e ∈ scans cookies r cs := hkind ▸ mem_scans hc he
    have hself : strcasecmp e.1 e.1 = .eq := Std.ReflCmp.compare_self
    simp only [OrderedMap.entry, List.find?_nil, Option.none_or, List.find?_isSome]
    exact ⟨e, hmem, by rw [hself]; rfl⟩
  · rfl

theorem run_after (h : After r cs q) : ∃ q', c.run q = some q' ∧ After r (cs ++ [c]) q' := by
  obtain ⟨hreq, hparams, hcookies, hflags⟩ := h
  by_cases hc : c ∈ cs
  · refine ⟨q, run_done ((hflags c).mpr hc), hreq, ?_, ?_, fun d => ?_⟩
    · rw [insertAll_scans false hc, hparams]
    · rw [insertAll_scans true hc, hcookies]
    · rw [hflags d, List.mem_append, List.mem_singleton]
      exact ⟨Or.inl, fun hd => hd.elim id fun heq => heq ▸ hc⟩
  · have hfill := run_fill (fun hbit => hc ((hflags c).mp hbit))
    refine ⟨c.fill q, hfill, hreq, ?_, ?_, fun d => ?_⟩
    · rw [scans_append, insertAll_append, ← hparams]
      cases hkind : c.isCookies <;> simp [fill, hkind, hreq, insertAll]
    · rw [scans_append, insertAll_append, ← hcookies]
      cases hkind : c.isCookies <;> simp [fill, hkind, hreq, insertAll]
    · rw [List.mem_append, List.mem_singleton, ← hflags d]
      exact bit_or _ c d

theorem runAll_after (r : HttpRequest) (cs : List ParamCall) :
    ∃ q, runAll (.received r) cs = some q ∧ After r cs q := by
  induction cs using List.reverseRecOn with
  | nil => exact ⟨_, rfl, after_received r⟩
  | append_singleton cs c ih =>
    obtain ⟨q, hq, hafter⟩ := ih
    obtain ⟨q', hq', hafter'⟩ := run_after (c := c) hafter
    refine ⟨q', ?_, hafter'⟩
    rw [runAll, List.foldlM_append, ← runAll, hq]
    simp [hq']

end
end ParamCall

/-! ## The maps -/

theorem strcasecmp_of_sameName {s t : List UInt8} (h : sameName s t = true) : strcasecmp s t = .eq :=
  strcasecmp_of_lower (beq_iff_eq.mp h)

/-- Without `NUL` `strcasecmp` sees all of the names. -/
theorem sameName_of_strcasecmp {s t : List UInt8} (hs : 0 ∉ s) (ht : 0 ∉ t)
    (h : strcasecmp s t = .eq) : sameName s t = true := by
  have hall : ∀ u : List UInt8, 0 ∉ u → u.takeWhile (· ≠ 0) = u := fun u hu => before_of_not_mem hu
  rw [strcasecmp, compareLower_eq, hall s hs, hall t ht] at h
  exact beq_iff_eq.mpr (Std.LawfulEqCmp.eq_of_compare h)

theorem sameName_comm (s t : List UInt8) : sameName s t = sameName t s := Bool.beq_comm

theorem sameName_congr {s t : List UInt8} (h : sameName s t = true) (u : List UInt8) :
    sameName u s = sameName u t := by
  have hmap : s.map tolower = t.map tolower := beq_iff_eq.mp h
  rw [sameName, sameName, hmap]

section
variable {fs gs : List (List UInt8 × List UInt8)} {e f : List UInt8 × List UInt8}

theorem mem_insertAll : e ∈ insertAll strcasecmp [] fs ↔ entry strcasecmp e.1 fs = some e := by
  rw [mem_iff (Sorted.insertAll List.Pairwise.nil fs), entry_insertAll List.Pairwise.nil]
  rfl

theorem exists_first (he : e ∈ fs) : ∃ f, sameName f.1 e.1 = true ∧
    fs.find? (fun g => sameName g.1 f.1) = some f := by
  have hsome : (fs.find? fun g => sameName g.1 e.1).isSome := by
    rw [List.find?_isSome]
    exact ⟨e, he, by simp [sameName]⟩
  obtain ⟨f, hf⟩ := Option.isSome_iff_exists.mp hsome
  have hsame : sameName f.1 e.1 = true :=
    List.find?_some (p := fun g : List UInt8 × List UInt8 => sameName g.1 e.1) hf
  refine ⟨f, hsame, ?_⟩
  simpa only [sameName_congr hsame] using hf

/-- The map of the insertions is the one of the reference exactly when names that `strcasecmp` takes for
the same are the same. -/
theorem holds_iff : MapType.Holds (insertAll strcasecmp [] fs) fs ↔ Apart fs := by
  constructor
  · intro h e he f hf hcmp
    obtain ⟨e', hee, he'⟩ := exists_first he
    obtain ⟨f', hff, hf'⟩ := exists_first hf
    have hecmp := strcasecmp_of_sameName hee
    have hfcmp := strcasecmp_of_sameName hff
    have hcmp' : strcasecmp e'.1 f'.1 = .eq :=
      Std.TransCmp.eq_trans hecmp (Std.TransCmp.eq_trans hcmp (Std.OrientedCmp.eq_symm hfcmp))
    have hin := mem_insertAll.mp ((h e').mpr he')
    have hin' := mem_insertAll.mp ((h f').mpr hf')
    rw [entry_congr hcmp', hin'] at hin
    cases hin
    rw [sameName_comm] at hee
    exact (sameName_congr hff e.1) ▸ hee
  · intro h e
    rw [mem_insertAll, entry]
    have hagree : e ∈ fs → fs.find? (fun f => strcasecmp e.1 f.1 == .eq) =
        fs.find? fun f => sameName f.1 e.1 := by
      intro he
      apply List.find?_congr
      intro f hf
      rw [Bool.eq_iff_iff, beq_iff_eq, sameName_comm]
      exact ⟨h e he f hf, strcasecmp_of_sameName⟩
    constructor
    · intro hfind
      rwa [hagree (List.mem_of_find?_eq_some hfind)] at hfind
    · intro hfind
      rwa [hagree (List.mem_of_find?_eq_some hfind)]

/-- A byte that is no letter is in both of two names or in none. -/
theorem mem_of_sameName {s t : List UInt8} {b : UInt8} (hb : ¬ (97 ≤ b ∧ b ≤ 122))
    (hb' : ¬ (65 ≤ b ∧ b ≤ 90)) (h : sameName s t = true) (hs : b ∈ s) : b ∈ t := by
  have hmap : s.map tolower = t.map tolower := beq_iff_eq.mp h
  have hmem : b ∈ s.map tolower := List.mem_map.mpr ⟨b, hs, (tolower_eq_iff hb hb').mpr rfl⟩
  rw [hmap] at hmem
  obtain ⟨c, hc, hcb⟩ := List.mem_map.mp hmem
  rwa [(tolower_eq_iff hb hb').mp hcb] at hc

/-- Where the reference has no separator in its names, and no name has a `NUL`, the insertions have no
separator in theirs. -/
theorem Holds.not_mem {sep : UInt8} (hsep : ¬ (97 ≤ sep ∧ sep ≤ 122)) (hsep' : ¬ (65 ≤ sep ∧ sep ≤ 90))
    (h : MapType.Holds (insertAll strcasecmp [] gs) fs) (hfs : ∀ f ∈ fs, sep ∉ f.1)
    (hgs : ∀ g ∈ gs, (0 : UInt8) ∉ g.1) : ∀ g ∈ gs, sep ∉ g.1 := by
  intro g hg hmem
  have hsome : (entry strcasecmp g.1 gs).isSome := by
    rw [entry, List.find?_isSome]
    have hself : strcasecmp g.1 g.1 = .eq := Std.ReflCmp.compare_self
    exact ⟨g, hg, by rw [hself]; rfl⟩
  obtain ⟨e, he⟩ := Option.isSome_iff_exists.mp hsome
  obtain ⟨hmemgs, hcmp⟩ := entry_mem he
  have hkept : e ∈ insertAll strcasecmp [] gs := by
    rw [mem_insertAll, ← entry_congr hcmp]
    exact he
  have hsame := sameName_of_strcasecmp (hgs g hg) (hgs e hmemgs) hcmp
  exact hfs e (List.mem_of_find?_eq_some ((h e).mp hkept)) (mem_of_sameName hsep hsep' hsame hmem)

end

/-! ## Texts in order -/

theorem Trim_subset (delimit str : List UInt8) : Trim delimit str ⊆ str :=
  List.Subset.trans (List.rdropWhile_prefix _ _).subset (List.dropWhile_suffix _).subset

theorem mem_Trim {delimit str : List UInt8} {b : UInt8} (hb : b ∉ delimit) (h : b ∈ str) :
    b ∈ Trim delimit str := by
  have hdrop : ∀ u : List UInt8, b ∈ u → b ∈ u.dropWhile (· ∈ delimit) := by
    intro u hu
    rw [← List.takeWhile_append_dropWhile (p := (· ∈ delimit)) (l := u)] at hu
    refine (List.mem_append.mp hu).resolve_left fun htake => hb ?_
    simpa using List.mem_takeWhile_imp htake
  rw [Trim, List.rdropWhile, List.mem_reverse]
  exact hdrop _ (List.mem_reverse.mpr (hdrop _ h))

namespace ParamCall
variable {r : HttpRequest} {cs : List ParamCall} {c : ParamCall}

theorem entry_subset (c : ParamCall) (u v : List UInt8) : (c.entry u v).1 ⊆ u := by
  cases c with
  | query => exact List.Subset.refl u
  | body => exact List.Subset.refl u
  | cookies => exact Trim_subset _ u

theorem mem_entry {u v : List UInt8} (h : c.flag ∈ u) : c.flag ∈ (c.entry u v).1 := by
  cases c with
  | query => exact h
  | body => exact h
  | cookies => exact mem_Trim (by decide) h

/-- The texts of a call are in order, or the macro takes a name with a separator in it. -/
theorem scanned_cases (r : HttpRequest) (c : ParamCall) :
    (Tidy c.flag 61 (c.text r) ∧ c.scanned r = c.reference r) ∨
      ¬ Tidy c.flag 61 (c.text r) ∧ ∃ e ∈ c.scanned r, c.flag ∈ e.1 := by
  have hne : 61 ≠ c.flag := by cases c <;> decide
  rcases scan_cases c.flag 61 (fun u v => c.entry u v) hne (c.text r) with h | ⟨h, u, v, hu, hmem⟩
  · exact Or.inl h
  · exact Or.inr ⟨h, _, hmem, mem_entry hu⟩

theorem flag_of_kind {cookies : Bool} (h : c.isCookies = cookies) :
    c.flag = if cookies then 59 else 38 := by
  subst h
  cases c <;> rfl

theorem scans_eq (h : ∀ c ∈ cs, Tidy c.flag 61 (c.text r)) (cookies : Bool) :
    scans cookies r cs = references cookies r cs := by
  apply List.flatMap_congr
  intro c hc
  exact ((scanned_cases r c).resolve_right fun hbad => hbad.1 (h c (List.mem_filter.mp hc).1)).2

theorem not_mem_references {cookies : Bool} : ∀ f ∈ references cookies r cs,
    (if cookies then 59 else 38 : UInt8) ∉ f.1 := by
  intro f hf hmem
  obtain ⟨c, hc, hfc⟩ := List.mem_flatMap.mp hf
  obtain ⟨u, v, hu, rfl⟩ := mem_fields hfc
  rw [← flag_of_kind (beq_iff_eq.mp (List.mem_filter.mp hc).2)] at hmem
  exact hu (entry_subset c u v hmem)

theorem nul_not_mem_scans (h : ∀ c ∈ cs, (0 : UInt8) ∉ c.text r) (cookies : Bool) :
    ∀ g ∈ scans cookies r cs, (0 : UInt8) ∉ g.1 := by
  intro g hg hmem
  obtain ⟨c, hc, hgc⟩ := List.mem_flatMap.mp hg
  obtain ⟨u, v, hu, rfl⟩ := mem_scan hgc
  exact h c (List.mem_filter.mp hc).1 (hu (entry_subset c u v hmem))

/-- A map that is the one of the reference comes from texts in order. -/
theorem tidy_of_holds (hnul : ∀ c ∈ cs, (0 : UInt8) ∉ c.text r)
    (h : MapType.Holds (insertAll strcasecmp [] (scans c.isCookies r cs)) (references c.isCookies r cs))
    (hc : c ∈ cs) : Tidy c.flag 61 (c.text r) := by
  rcases scanned_cases r c with ⟨htidy, -⟩ | ⟨-, e, he, hmem⟩
  · exact htidy
  · rw [flag_of_kind rfl] at hmem
    have hsep : ∀ b : Bool, ¬ ((97 : UInt8) ≤ (if b then 59 else 38) ∧ (if b then 59 else 38 : UInt8) ≤ 122) := by
      decide
    have hsep' : ∀ b : Bool, ¬ ((65 : UInt8) ≤ (if b then 59 else 38) ∧ (if b then 59 else 38 : UInt8) ≤ 90) := by
      decide
    exact absurd hmem (Holds.not_mem (hsep _) (hsep' _) h not_mem_references
      (nul_not_mem_scans hnul _) e (mem_scans hc he))

/-- Any calls of the three functions on a request as it was received come to an end. With texts in order the
maps are those of the reference exactly when no two names differ behind a `NUL` only; without `NUL`, exactly
when the texts are in order. -/
theorem runAll_reference_iff (r : HttpRequest) (cs : List ParamCall) :
    ∃ q, runAll (.received r) cs = some q ∧
      ((∀ c ∈ cs, Tidy c.flag 61 (c.text r)) →
        (q.IsReference r cs ↔ Apart (references false r cs) ∧ Apart (references true r cs))) ∧
      ((∀ c ∈ cs, (0 : UInt8) ∉ c.text r) →
        (q.IsReference r cs ↔ ∀ c ∈ cs, Tidy c.flag 61 (c.text r))) := by
  obtain ⟨q, hrun, -, hparams, hcookies, -⟩ := runAll_after r cs
  have htidy : (∀ c ∈ cs, Tidy c.flag 61 (c.text r)) →
      (q.IsReference r cs ↔ Apart (references false r cs) ∧ Apart (references true r cs)) := by
    intro h
    rw [ParamRequest.IsReference, hparams, hcookies, scans_eq h, scans_eq h, holds_iff, holds_iff]
  refine ⟨q, hrun, htidy, fun hnul => ⟨fun h c hc => ?_, fun h => ?_⟩⟩
  · rw [ParamRequest.IsReference, hparams, hcookies] at h
    apply tidy_of_holds hnul _ hc
    cases c.isCookies with
    | false => exact h.1
    | true => exact h.2
  · have hapart : ∀ cookies : Bool, Apart (references cookies r cs) := by
      intro cookies e he f hf
      rw [← scans_eq h] at he hf
      exact sameName_of_strcasecmp (nul_not_mem_scans hnul _ e he) (nul_not_mem_scans hnul _ f hf)
    exact (htidy h).mpr ⟨hapart false, hapart true⟩

/-- A query with an empty segment at its end and one name twice, and cookies with blanks. -/
theorem runAll_reference_iff_samples :
    let r : HttpRequest := { HttpRequest.new with
      query := ascii "a=1&B=2=&b=%33&"
      headers := [(ascii "Cookie", ascii " x =1; y=2")] }
    ∃ q, runAll (.received r) [.query, .cookies] = some q ∧ q.IsReference r [.query, .cookies] := by
  intro r
  obtain ⟨q, hrun, -, hnul⟩ := runAll_reference_iff r [.query, .cookies]
  exact ⟨q, hrun, (hnul (by decide)).mpr (by decide)⟩

/-- A segment without `=` is not ignored: it becomes part of the name behind it. -/
theorem query_takes_segment :
    let r : HttpRequest := { HttpRequest.new with query := ascii "a&b=1" }
    let q : ParamRequest :=
      { ParamRequest.received r with params := [(ascii "a&b", ascii "1")], parserParamFlag := 1 }
    runAll (.received r) [.query] = some q ∧ references false r [.query] = [(ascii "b", ascii "1")] ∧
      ¬ q.IsReference r [.query] := by
  intro r q
  refine ⟨by decide, by decide, fun h => ?_⟩
  have hfirst := (h.1 (ascii "b", ascii "1")).mpr (by decide)
  revert hfirst
  decide

end ParamCall

end Flz.Http
