import Flz.Http.Receive
import Flz.Lib.Segments
import Flz.Lib.Walks
import Mathlib.Data.List.Find
import Mathlib.Data.List.TakeWhile

/-! # The method of a request

`on_request_method` gets the length of the token and does not use it: `CharsToHttpMethod` takes the first
name that the bytes from the token on begin with, `StringToHttpMethod` the name that is the token.
-/
namespace Flz.Http
open Lib

/-! ## Names -/

/-- `strcmp(s, t.c_str()) == 0`. -/
def strcmpEq (s t : List UInt8) : Bool := s.takeWhile (· ≠ 0) == t.takeWhile (· ≠ 0)

def StringToHttpMethod (m : List UInt8) : HttpMethod :=
  ((httpMethodMap.find? (fun e => strcmpEq (ascii e.2) m)).map Prod.fst).getD .INVALID_METHOD

/-- No name is a proper prefix of the token. -/
def NoShorterName (w : List UInt8) : Prop := ∀ e ∈ httpMethodMap, ascii e.2 <+: w → ascii e.2 = w

theorem strncmpEq_iff {s t : List UInt8} (hs : ∀ b ∈ s, b ≠ 0) :
    strncmpEq s t s.length = true ↔ s <+: t := by
  induction s generalizing t with
  | nil => simp [strncmpEq]
  | cons a s ih =>
    obtain ⟨ha, hs⟩ := List.forall_mem_cons.mp hs
    cases t with
    | nil => simp [strncmpEq, ha]
    | cons b t => simp [strncmpEq, ha, ih hs, List.cons_prefix_cons]

theorem strcmpEq_iff {s t : List UInt8} (hs : ∀ b ∈ s, b ≠ 0) (ht : ∀ b ∈ t, b ≠ 0) :
    strcmpEq s t = true ↔ s = t := by
  have hall : ∀ u : List UInt8, (∀ b ∈ u, b ≠ 0) → u.takeWhile (· ≠ 0) = u := fun u hu =>
    Segments.before_of_not_mem fun hmem => hu 0 hmem rfl
  rw [strcmpEq, hall s hs, hall t ht, beq_iff_eq]

/-- The names are told apart by their first letters: none is the beginning of another. -/
theorem httpMethodMap_apart : ∀ e ∈ httpMethodMap, ∀ f ∈ httpMethodMap,
    ascii e.2 <+: ascii f.2 → ascii e.2 = ascii f.2 := by
  have hall : httpMethodMap.all (fun e => httpMethodMap.all fun f =>
      !(ascii e.2).isPrefixOf (ascii f.2) || ascii e.2 == ascii f.2) = true := by decide +kernel
  intro e he f hf hprefix
  have h := List.all_eq_true.mp (List.all_eq_true.mp hall e he) f hf
  rw [List.isPrefixOf_iff_prefix.mpr hprefix] at h
  simpa using h

theorem name_valid : ∀ e ∈ httpMethodMap, e.1 ≠ .INVALID_METHOD := by decide

section
variable {w : List UInt8}

theorem CharsToHttpMethod_eq (w : List UInt8) : CharsToHttpMethod w =
    ((httpMethodMap.find? (fun e => decide (ascii e.2 <+: w))).map Prod.fst).getD .INVALID_METHOD := by
  have hfind : httpMethodMap.find? (fun e => strncmpEq (ascii e.2) w (ascii e.2).length) =
      httpMethodMap.find? fun e => decide (ascii e.2 <+: w) := by
    apply List.find?_congr
    intro e he
    rw [Bool.eq_iff_iff, decide_eq_true_iff]
    exact strncmpEq_iff fun b hb => (httpMethodMap_plain e he b hb).1
  rw [CharsToHttpMethod, hfind]

theorem StringToHttpMethod_eq (hw : ∀ b ∈ w, b ≠ 0) : StringToHttpMethod w =
    ((httpMethodMap.find? (fun e => decide (ascii e.2 = w))).map Prod.fst).getD .INVALID_METHOD := by
  have hfind : httpMethodMap.find? (fun e => strcmpEq (ascii e.2) w) =
      httpMethodMap.find? fun e => decide (ascii e.2 = w) := by
    apply List.find?_congr
    intro e he
    rw [Bool.eq_iff_iff, decide_eq_true_iff]
    exact strcmpEq_iff (fun b hb => (httpMethodMap_plain e he b hb).1) hw
  rw [StringToHttpMethod, hfind]

/-- A token that is a name is found as it is. -/
theorem CharsToHttpMethod_of_name (hw : ∀ b ∈ w, b ≠ 0) (h : StringToHttpMethod w ≠ .INVALID_METHOD) :
    CharsToHttpMethod w = StringToHttpMethod w := by
  rw [StringToHttpMethod_eq hw] at h ⊢
  cases hfind : httpMethodMap.find? fun e => decide (ascii e.2 = w) with
  | none =>
    rw [hfind] at h
    exact absurd rfl h
  | some f =>
    obtain rfl : ascii f.2 = w := by simpa using List.find?_some hfind
    have hsame : httpMethodMap.find? (fun e => decide (ascii e.2 <+: ascii f.2)) =
        httpMethodMap.find? fun e => decide (ascii e.2 = ascii f.2) := by
      apply List.find?_congr
      intro e he
      rw [Bool.eq_iff_iff, decide_eq_true_iff, decide_eq_true_iff]
      refine ⟨httpMethodMap_apart e he f (List.mem_of_find?_eq_some hfind), fun h => ?_⟩
      exact h ▸ List.prefix_rfl
    rw [CharsToHttpMethod_eq, hsame, hfind]

/-- The token that is no name is not found exactly when no name is shorter. -/
theorem CharsToHttpMethod_invalid_iff (hw : ∀ b ∈ w, b ≠ 0) (h : StringToHttpMethod w = .INVALID_METHOD) :
    CharsToHttpMethod w = .INVALID_METHOD ↔ NoShorterName w := by
  have hnone : ∀ e ∈ httpMethodMap, ascii e.2 ≠ w := by
    intro e he heq
    rw [StringToHttpMethod_eq hw] at h
    cases hfind : httpMethodMap.find? fun e => decide (ascii e.2 = w) with
    | none => exact absurd (decide_eq_true heq) (List.find?_eq_none.mp hfind e he)
    | some f =>
      rw [hfind] at h
      exact name_valid f (List.mem_of_find?_eq_some hfind) h
  rw [CharsToHttpMethod_eq]
  constructor
  · intro hinv e he hprefix
    cases hfind : httpMethodMap.find? fun e => decide (ascii e.2 <+: w) with
    | none => exact absurd (decide_eq_true hprefix) (List.find?_eq_none.mp hfind e he)
    | some f =>
      rw [hfind] at hinv
      exact absurd hinv (name_valid f (List.mem_of_find?_eq_some hfind))
  · intro hshort
    have hfind : httpMethodMap.find? (fun e => decide (ascii e.2 <+: w)) = none := by
      apply List.find?_eq_none.mpr
      intro e he hprefix
      exact hnone e he (hshort e he (of_decide_eq_true hprefix))
    rw [hfind]
    rfl

theorem NoShorterName_of_name (hw : ∀ b ∈ w, b ≠ 0) (h : StringToHttpMethod w ≠ .INVALID_METHOD) :
    NoShorterName w := by
  rw [StringToHttpMethod_eq hw] at h
  cases hfind : httpMethodMap.find? fun e => decide (ascii e.2 = w) with
  | none =>
    rw [hfind] at h
    exact absurd rfl h
  | some f =>
    obtain rfl : ascii f.2 = w := by simpa using List.find?_some hfind
    exact fun e he => httpMethodMap_apart e he f (List.mem_of_find?_eq_some hfind)

end

/-! ## The token -/

/-- What the grammar takes for a method. -/
structure MethodText (w : List UInt8) : Prop where
  nonempty : w ≠ []
  short : w.length ≤ 20
  chars : ∀ b ∈ w, RequestTable.methodChar.holds b = true

/-- The state behind so many characters of a method. -/
def methodState (k : ℕ) : ℕ := if k ≤ 1 then 2 else 173 + k

theorem methodArcs (r : Bool) :
    Scanner.does (RequestTable.rows r) [1] RequestTable.methodChar [.mark] [2] = true ∧
    (∀ k < 19, Scanner.does (RequestTable.rows r) [methodState (k + 1)] RequestTable.methodChar []
      [methodState (k + 2)] = true) ∧
    ∀ k < 20, Scanner.does (RequestTable.rows r) [methodState (k + 1)] (.byte 32) [.requestMethod] [3] = true := by
  cases r <;> decide +kernel

theorem requestScanner_chars {r : Bool} {k p : ℕ} {w : List UInt8} (hk : 0 < k) (hlen : k + w.length ≤ 20)
    (hw : ∀ b ∈ w, RequestTable.methodChar.holds b = true) (rest : List UInt8) :
    (requestScanner r).trace p (methodState k) (w ++ 32 :: rest) =
      (p + w.length, .requestMethod) :: (requestScanner r).trace (p + w.length + 1) 3 rest := by
  induction w generalizing k p with
  | nil =>
    obtain ⟨j, rfl⟩ : ∃ j, k = j + 1 := ⟨k - 1, by omega⟩
    have hj : j < 20 := by
      rw [List.length_nil] at hlen
      omega
    obtain ⟨t, ht, harc⟩ : ∃ t ∈ [3], (requestScanner r).arc (methodState (j + 1)) 32 = some ([.requestMethod], t) :=
      Scanner.arc_of_does ((methodArcs r).2.2 j hj) List.mem_cons_self (by decide)
    obtain rfl := List.mem_singleton.mp ht
    rw [List.nil_append, Scanner.trace, harc]
    rfl
  | cons b w ih =>
    obtain ⟨hb, hw⟩ := List.forall_mem_cons.mp hw
    obtain ⟨j, rfl⟩ : ∃ j, k = j + 1 := ⟨k - 1, by omega⟩
    rw [List.length_cons] at hlen
    obtain ⟨t, ht, harc⟩ : ∃ t ∈ [methodState (j + 2)],
        (requestScanner r).arc (methodState (j + 1)) b = some ([], t) :=
      Scanner.arc_of_does ((methodArcs r).2.1 j (by omega)) List.mem_cons_self hb
    obtain rfl := List.mem_singleton.mp ht
    have hrec := ih (p := p + 1) (Nat.succ_pos (j + 1)) (by omega) hw
    rw [List.cons_append, Scanner.trace, harc, List.length_cons]
    simp only [List.map_nil, List.nil_append, List.any_nil, Bool.false_eq_true, if_false]
    rw [hrec, Nat.add_assoc p 1, Nat.add_comm 1]

/-- What happens while a method and what follows are read. -/
theorem requestScanner_token {r : Bool} {w : List UInt8} (hw : MethodText w) (rest : List UInt8) :
    (requestScanner r).trace 0 1 (w ++ 32 :: rest) = (0, .mark) :: (w.length, .requestMethod) ::
      (requestScanner r).trace (w.length + 1) 3 rest := by
  cases w with
  | nil => exact absurd rfl hw.nonempty
  | cons b w =>
    obtain ⟨hb, hchars⟩ := List.forall_mem_cons.mp hw.chars
    have hshort := hw.short
    rw [List.length_cons] at hshort
    obtain ⟨t, ht, harc⟩ : ∃ t ∈ [2], (requestScanner r).arc 1 b = some ([.mark], t) :=
      Scanner.arc_of_does (methodArcs r).1 List.mem_cons_self hb
    obtain rfl := List.mem_singleton.mp ht
    have hrec := requestScanner_chars (r := r) (p := 1) (show 0 < 1 by decide) (by omega) hchars rest
    rw [List.cons_append, Scanner.trace, harc, List.length_cons, Nat.add_comm w.length 1]
    exact congrArg _ hrec

/-! ## The version -/

/-- The bytes with which the states of the version are reached. -/
def versionByte (s : ℕ) : ByteClass :=
  [ByteClass.byte 72, .byte 84, .byte 84, .byte 80, .byte 47, .byte 49, .byte 46, [(48, 49)]].getD (s - 5) []

def versionArc (s : ℕ) (a : Arc HttpParserAction) : Bool :=
  (!(5 ≤ a.target && a.target ≤ 12) || (s + 1 == a.target && a.bytes == versionByte a.target &&
    a.actions == if a.target = 5 then [.mark] else [])) &&
  (!a.actions.contains .httpVersion || s == 12 && a.actions == [.httpVersion])

theorem versionRows (r : Bool) : Scanner.checkRows versionArc 0 (RequestTable.rows r) = true := by
  cases r <;> decide +kernel

/-- In the states of a version what was read since the mark is the beginning of one of the two. -/
def InVersion (text : List UInt8) (p s : ℕ) (m : Marks) : Prop :=
  5 ≤ s → s ≤ 12 → m.mark + (s - 4) = p ∧ ∃ v ∈ [ascii "HTTP/1.0", ascii "HTTP/1.1"],
    slice text m.mark p = v.take (s - 4)

theorem slice_succ {text : List UInt8} {i p : ℕ} {b : UInt8} (hip : i ≤ p) (hb : text[p]? = some b) :
    slice text i (p + 1) = slice text i p ++ [b] := by
  have hsub : p + 1 - i = p - i + 1 := by omega
  have hget : (text.drop i)[p - i]? = some b := by
    rw [List.getElem?_drop, Nat.add_sub_cancel' hip]
    exact hb
  rw [slice, slice, hsub, List.take_add_one, hget]
  rfl

theorem versionByte_extends {k : ℕ} (hk : k < 8) {b : UInt8} (hb : (versionByte (k + 5)).holds b = true)
    {v : List UInt8} (hv : v ∈ [ascii "HTTP/1.0", ascii "HTTP/1.1"]) :
    ∃ v' ∈ [ascii "HTTP/1.0", ascii "HTTP/1.1"], v.take k ++ [b] = v'.take (k + 1) := by
  have hall := forall_byte (p := fun b => (List.range 8).all fun k =>
    !(versionByte (k + 5)).holds b || [ascii "HTTP/1.0", ascii "HTTP/1.1"].all fun v =>
      [ascii "HTTP/1.0", ascii "HTTP/1.1"].any fun v' => v.take k ++ [b] == v'.take (k + 1)) (by decide +kernel) b
  have h := List.all_eq_true.mp hall k (List.mem_range.mpr hk)
  rw [hb, Bool.not_true, Bool.false_or] at h
  obtain ⟨v', hv', heq⟩ := List.any_eq_true.mp (List.all_eq_true.mp h v hv)
  exact ⟨v', hv', beq_iff_eq.mp heq⟩

/-- The version of a token is one that the callback knows. -/
def Token.Known (text : List UInt8) (t : Token) : Prop :=
  ∀ i j, t = .version i j → (versionOf (slice text i j) (j - i)).isSome = true

section
variable {r : Bool} {text bs : List UInt8} {p s t : ℕ} {m : Marks} {b : UInt8} {as : List HttpParserAction}

theorem InVersion.next (h : InVersion text p s m) (hb : text[p]? = some b)
    (harc : (requestScanner r).arc s b = some (as, t)) :
    InVersion text (p + 1) t (m.after (as.map (Prod.mk p))) := by
  obtain ⟨a, ha, hholds, rfl, rfl⟩ := Scanner.arc_of_checkRows (versionRows r) harc
  intro hlow hhigh
  simp only [versionArc, hlow, hhigh, decide_true, Bool.and_self, Bool.not_true, Bool.false_or,
    Bool.and_eq_true, beq_iff_eq] at ha
  obtain ⟨⟨⟨hs, hbytes⟩, hactions⟩, -⟩ := ha
  obtain ⟨k, hk⟩ : ∃ k, a.target = k + 5 := ⟨a.target - 5, by omega⟩
  rw [hbytes, hk] at hholds
  by_cases hfirst : a.target = 5
  · -- the mark is set with the first byte
    obtain rfl : k = 0 := by omega
    rw [hactions, if_pos hfirst, hfirst]
    refine ⟨rfl, ?_⟩
    have hslice : slice text p (p + 1) = [b] := by
      rw [slice_succ (Nat.le_refl p) hb, slice, Nat.sub_self]
      rfl
    obtain ⟨v, hv, htake⟩ := versionByte_extends (by decide) hholds (v := ascii "HTTP/1.0") List.mem_cons_self
    exact ⟨v, hv, hslice.trans htake⟩
  · rw [hactions, if_neg hfirst, hk]
    obtain ⟨hmark, v, hv, htext⟩ := h (by omega) (by omega)
    have hcount : s - 4 = k := by omega
    rw [hcount] at hmark htext
    refine ⟨by simp only [List.map_nil, Marks.after]; omega, ?_⟩
    obtain ⟨v', hv', htake⟩ := versionByte_extends (by omega) hholds hv
    refine ⟨v', hv', ?_⟩
    have hgrown := slice_succ (show m.mark ≤ p by omega) hb
    rw [htext, htake] at hgrown
    exact hgrown

theorem known_of_actions (has : ∀ a ∈ as, a ≠ .httpVersion) (m : Marks) (p : ℕ) :
    ∀ t ∈ m.tokens (as.map (Prod.mk p)), t.Known text := by
  induction as generalizing m with
  | nil => simp [Marks.tokens]
  | cons a as ih =>
    obtain ⟨ha, has⟩ := List.forall_mem_cons.mp has
    intro t ht
    rcases List.mem_append.mp ht with ht | ht
    · intro i j heq
      have haction := token_action (Option.mem_toList.mp ht)
      rw [heq] at haction
      exact absurd haction.symm ha
    · exact ih has _ t ht

/-- The tokens of one byte. -/
theorem InVersion.known (h : InVersion text p s m) (harc : (requestScanner r).arc s b = some (as, t)) :
    ∀ t ∈ m.tokens (as.map (Prod.mk p)), t.Known text := by
  obtain ⟨a, ha, -, rfl, -⟩ := Scanner.arc_of_checkRows (versionRows r) harc
  by_cases hversion : HttpParserAction.httpVersion ∈ a.actions
  · rw [versionArc, Bool.and_eq_true, List.contains_iff_mem.mpr hversion, Bool.not_true, Bool.false_or,
      Bool.and_eq_true, beq_iff_eq, beq_iff_eq] at ha
    obtain ⟨-, rfl, hactions⟩ := ha
    obtain ⟨hmark, v, hv, htext⟩ := h (by decide) (by decide)
    rw [hactions]
    intro t ht i j heq
    have hone : t = .version m.mark p := by simpa [Marks.tokens, Marks.token] using ht
    rw [hone] at heq
    cases heq
    have hlen : p - m.mark = 8 := by omega
    have hall : ∀ v ∈ [ascii "HTTP/1.0", ascii "HTTP/1.1"], (versionOf (v.take (12 - 4)) 8).isSome = true := by
      decide
    rw [htext, hlen]
    exact hall v hv
  · exact known_of_actions (fun a' ha' heq => hversion (heq ▸ ha')) m p

/-- Every version that is read in one piece is known. -/
theorem tokens_known (h : InVersion text p s m) (hbs : text.drop p = bs) :
    ∀ t ∈ m.tokens ((requestScanner r).trace p s bs), t.Known text := by
  induction bs generalizing p s m with
  | nil => simp [Scanner.trace, Marks.tokens]
  | cons b bs ih =>
    have hb : text[p]? = some b := by
      have hget := congrArg List.head? hbs
      rwa [List.head?_drop, List.head?_cons] at hget
    have hnext : text.drop (p + 1) = bs := by
      rw [← List.drop_drop, hbs, List.drop_one, List.tail_cons]
    cases harc : (requestScanner r).arc s b with
    | none => simp [Scanner.trace, harc, Marks.tokens]
    | some out =>
      obtain ⟨as, t⟩ := out
      rw [Scanner.trace, harc]
      dsimp only
      rw [Marks.tokens_append]
      intro tok htok
      rcases List.mem_append.mp htok with htok | htok
      · exact h.known harc tok htok
      · split at htok
        · simp [Marks.tokens] at htok
        · exact ih (h.next hb harc) hnext tok htok

end

/-! ## What the rest does -/

theorem apply_uncut {text : List UInt8} {t : Token} (hkind : t.action ≠ .requestMethod) (hknown : t.Known text)
    (hordered : t.start ≤ t.stop) (d : HttpRequest) : (t.apply text uncut d).isSome = true := by
  cases t with
  | method i j => exact absurd rfl hkind
  | path i j => rfl
  | fragment i j => rfl
  | query i j =>
    have hle : uncut j + (i - uncut i) ≤ j := by
      rw [uncut, Nat.zero_add]
      exact hordered
    rw [Token.apply, if_pos hle]
    rfl
  | version i j =>
    have hversion := hknown i j rfl
    have hmax : max i (uncut j) = i := Nat.max_zero i
    rw [Token.apply, hmax, Option.isSome_map]
    exact hversion
  | field name i j =>
    rw [Token.apply]
    split <;> rfl

theorem build_isSome {text : List UInt8} {ts : List Token}
    (h : ∀ t ∈ ts, ∀ d, (t.apply text uncut d).isSome = true) (d : HttpRequest) :
    (build text uncut ts d).isSome = true := by
  induction ts generalizing d with
  | nil => rfl
  | cons t ts ih =>
    obtain ⟨ht, hts⟩ := List.forall_mem_cons.mp h
    obtain ⟨d', hd'⟩ := Option.isSome_iff_exists.mp (ht d)
    rw [build_cons, hd']
    exact ih hts d'

namespace HttpRequestParser

/-- The parser with another error and another method. -/
def marked (s : HttpRequestParser) (e : ℤ) (a : HttpMethod) : HttpRequestParser :=
  { s with error := e, data := { s.data with method := a } }

section
variable {xs : List UInt8} {p : ℕ} {s t : HttpRequestParser} {a : HttpParserAction}

/-- The other actions do not look at the error, nor at the method. -/
theorem act_map (ha : a ≠ .requestMethod) (hv : a ≠ .httpVersion) (e : ℤ) (b : HttpMethod) :
    (s.marked e b).act xs p a = (s.act xs p a).map fun t => t.marked e b := by
  cases a with
  | requestMethod => exact absurd rfl ha
  | httpVersion => exact absurd rfl hv
  | mark | startField | writeField | startQuery | requestUri | xml | json => rfl
  | done =>
    have hdone : (s.marked e b).onDone p = (s.onDone p).marked e b := by
      by_cases hsent : (s.xmlSent || s.jsonSent) = true
      · rw [onDone, onDone, if_pos hsent]
        exact if_pos hsent
      · rw [onDone, onDone, if_neg hsent]
        exact if_neg hsent
    exact congrArg Except.ok hdone
  | requestPath =>
    simp only [act, onRequestPath, marked]
    cases stdString xs s.mark (LEN s.mark p) <;> rfl
  | queryString =>
    simp only [act, onRequestQuery, marked]
    cases stdString xs s.queryStart (LEN s.queryStart p) <;> rfl
  | fragment =>
    simp only [act, onRequestFragment, marked]
    cases stdString xs s.mark (LEN s.mark p) <;> rfl
  | writeValue =>
    by_cases hempty : s.fieldLen = 0
    · have hsame : s.act xs p .writeValue = .ok s := if_pos hempty
      rw [hsame]
      exact if_pos hempty
    · have hsame : ¬ (s.marked e b).fieldLen = 0 := hempty
      rw [act, act, onRequestHttpField, onRequestHttpField, if_neg hempty, if_neg hsame]
      simp only [marked]
      cases stdString xs s.fieldStart s.fieldLen with
      | error f => rfl
      | ok key => cases stdString xs s.mark (LEN s.mark p) <;> rfl

theorem act_marked (ha : a ≠ .requestMethod) (h : s.act xs p a = .ok t) (ht : t.error = 0) (e : ℤ)
    (b : HttpMethod) : (s.marked e b).act xs p a = .ok (t.marked e b) := by
  by_cases hv : a = .httpVersion
  · subst hv
    simp only [act, onRequestVersion, marked] at h ⊢
    cases hversion : versionOf (xs.drop s.mark) (LEN s.mark p) with
    | none =>
      rw [hversion] at h
      cases h
      cases ht
    | some v =>
      rw [hversion] at h
      cases h
      rfl
  · rw [act_map ha hv, h]
    rfl

/-- Actions that end without an error end in the same way behind another method. -/
theorem perform_marked {es : List (ℕ × HttpParserAction)} (hes : ∀ f ∈ es, f.2 ≠ .requestMethod)
    (h : Scanner.perform (act xs) es s = .ok t) (ht : t.error = 0) (e : ℤ) (b : HttpMethod) :
    Scanner.perform (act xs) es (s.marked e b) = .ok (t.marked e b) := by
  induction es generalizing s with
  | nil =>
    cases h
    rfl
  | cons f es ih =>
    obtain ⟨hf, hes⟩ := List.forall_mem_cons.mp hes
    rw [Scanner.perform, List.foldlM_cons] at h ⊢
    cases hact : s.act xs f.1 f.2 with
    | error g =>
      rw [hact] at h
      cases h
    | ok u =>
      rw [hact] at h
      have hu : u.error = 0 := by
        by_contra hne
        exact (perform_keeps h).2.2 hne ht
      rw [act_marked hf hact hu]
      exact ih hes h

end

/-- What the callback reports of a method. -/
def methodError (w : List UInt8) : ℤ := if CharsToHttpMethod w = .INVALID_METHOD then 1000 else 0

/-- The method behind the callback; a request is created with `GET`. -/
def methodSet (w : List UInt8) : HttpMethod :=
  if CharsToHttpMethod w = .INVALID_METHOD then .GET else CharsToHttpMethod w

variable {w rest : List UInt8} {uriRelaxed : Bool} {queryStart : ℕ}

theorem rest_actions (rest : List UInt8) :
    ∀ f ∈ (requestScanner uriRelaxed).trace (w.length + 1) 3 rest, f.2 ≠ .requestMethod := by
  have honce : (requestScanner uriRelaxed).Once (· == .requestMethod)
      (fun s => !(s ≤ 2 || (175 ≤ s && s ≤ 193))) := by
    apply Scanner.once_of_checkRows
    cases uriRelaxed <;> decide +kernel
  have hnone := honce.trace_after (s := 3) (by decide) (w.length + 1) rest
  intro f hf heq
  exact List.filter_eq_nil_iff.mp hnone f hf (by rw [heq]; decide)

theorem tokens_kind {m : Marks} {es : List (ℕ × HttpParserAction)} (hes : ∀ f ∈ es, f.2 ≠ .requestMethod) :
    ∀ t ∈ m.tokens es, t.action ≠ .requestMethod := by
  induction es generalizing m with
  | nil => simp [Marks.tokens]
  | cons f es ih =>
    obtain ⟨hf, hes⟩ := List.forall_mem_cons.mp hes
    intro t ht
    rcases List.mem_append.mp ht with ht | ht
    · rw [token_action (Option.mem_toList.mp ht)]
      exact hf
    · exact ih hes t ht

/-- The rest of a text behind its method is read without an error. -/
theorem perform_rest (uriRelaxed : Bool) (queryStart : ℕ) (hlen : (w ++ 32 :: rest).length ≤ intMax) :
    ∃ t, Scanner.perform (act (w ++ 32 :: rest))
        ((requestScanner uriRelaxed).trace (w.length + 1) 3 rest) (new uriRelaxed queryStart).reset = .ok t ∧
      t.error = 0 ∧ t.cs = 1 ∧ t.asserted (w ++ 32 :: rest).length = true := by
  have hpos : w.length < (w ++ 32 :: rest).length := by simp
  have htext : (w ++ 32 :: rest).drop 0 = (w ++ 32 :: rest) ++ [] := by simp
  have hplaces : ∀ f ∈ (requestScanner uriRelaxed).trace (w.length + 1) 3 rest,
      w.length ≤ f.1 ∧ f.1 < (w ++ 32 :: rest).length := by
    intro f hf
    obtain ⟨j, b, -, -, -, hj, hb, -, -⟩ := Scanner.mem_trace hf
    have hlt := (List.getElem?_eq_some_iff.mp hb).1
    rw [List.length_append, List.length_cons]
    omega
  have hsorted := Scanner.trace_pairwise (m := requestScanner uriRelaxed) (w.length + 1) 3 rest
  have hquery := (requestScanner_query uriRelaxed).trace_respected
    (show (3 == 30 || 3 == 31 || 3 == 32) = true → false = true by decide) (w.length + 1) rest
  have hname := (requestScanner_name uriRelaxed).trace_respected
    (show (3 == 15 || 3 == 16) = true → false = true by decide) (w.length + 1) rest
  have hfollows := (between_new (w ++ 32 :: rest) uncut uriRelaxed queryStart).follows.mono (Nat.zero_le w.length)
  have hmethod : ∀ f ∈ (requestScanner uriRelaxed).trace (w.length + 1) 3 rest, f.2 = .requestMethod →
      (w ++ 32 :: rest)[f.1]? = some 32 := fun f hf heq => absurd heq (rest_actions rest f hf)
  have hbuilds := perform_builds htext hlen (fun _ _ => rfl) hplaces hpos hsorted hquery hname hmethod hfollows rfl
  have hshift : shift 0 ((requestScanner uriRelaxed).trace (w.length + 1) 3 rest) =
      (requestScanner uriRelaxed).trace (w.length + 1) 3 rest := by simp [shift]
  rw [hshift] at hbuilds
  have hknown : InVersion (w ++ 32 :: rest) (w.length + 1) 3 .start := fun h => absurd h (by decide)
  have hbehind : (w ++ 32 :: rest).drop (w.length + 1) = rest := by
    rw [← List.drop_drop, List.drop_left]
    rfl
  have hordered := tokens_ordered (m := .start) ⟨Nat.zero_le _, Nat.zero_le _, Nat.zero_le _⟩ hsorted hplaces
  have hbuilt := build_isSome (fun tok htok => apply_uncut (tokens_kind (rest_actions rest) tok htok) (tokens_known hknown hbehind tok htok)
    (hordered tok htok).1) (new uriRelaxed queryStart).reset.data
  obtain ⟨d, hd⟩ := Option.isSome_iff_exists.mp hbuilt
  rw [hd] at hbuilds
  obtain ⟨t, hrun, -, herror, hmarks⟩ := hbuilds
  exact ⟨t, hrun, herror, (perform_keeps hrun).1, hmarks.asserted (by omega)⟩

/-- What a text does that begins with a method and the blank behind it. -/
theorem execute_token (uriRelaxed : Bool) (queryStart : ℕ) (hw : MethodText w) (hlen : (w ++ 32 :: rest).length ≤ intMax) :
    ∃ left s', (new uriRelaxed queryStart).execute (w ++ 32 :: rest) = .ok (left, s') ∧
      s'.error = methodError w ∧ s'.data.method = methodSet w := by
  obtain ⟨t, hrun, herror, hcs, hassert⟩ := perform_rest uriRelaxed queryStart hlen
  have htrace : (new uriRelaxed queryStart).pieceTrace (w ++ 32 :: rest) = (0, .mark) ::
      (w.length, .requestMethod) :: (requestScanner uriRelaxed).trace (w.length + 1) 3 rest :=
    requestScanner_token hw rest
  have hcallback : (new uriRelaxed queryStart).reset.onRequestMethod (w ++ 32 :: rest) =
      (new uriRelaxed queryStart).reset.marked (methodError w) (methodSet w) := by
    rw [onRequestMethod, CharsToHttpMethod_blank, methodError, methodSet]
    split <;> rfl
  have hperform : Scanner.perform (act (w ++ 32 :: rest)) ((new uriRelaxed queryStart).pieceTrace (w ++ 32 :: rest))
      (new uriRelaxed queryStart).reset = .ok (t.marked (methodError w) (methodSet w)) := by
    rw [htrace, ← perform_marked (rest_actions rest) hrun herror, ← hcallback]
    rfl
  have hcs' : (t.marked (methodError w) (methodSet w)).cs ≠ 0 := by
    rw [marked, hcs]
    decide
  have hassert' : ∀ k, ({ t.marked (methodError w) (methodSet w) with cs := k } : HttpRequestParser).asserted
      (w ++ 32 :: rest).length = true := fun _ => hassert
  have hne : w ++ 32 :: rest ≠ [] := by simp
  have hexec := execute_eq hne (new uriRelaxed queryStart)
  rw [hperform] at hexec
  simp only [bind, Except.bind, if_neg hcs', hassert', if_true] at hexec
  exact ⟨_, _, hexec, rfl, rfl⟩

/-- The parser has the method, or it reports that there is none. -/
def Answers (s : HttpRequestParser) (a : HttpMethod) : Prop :=
  if a = .INVALID_METHOD then s.error = 1000 else s.data.method = a

end HttpRequestParser

open HttpRequestParser

/-- A text that begins with a method is answered by what `StringToHttpMethod` says of the method; a request
without one is not returned, however much of it comes with the method. -/
structure MethodRecognized (lexicalCast : List UInt8 → Option UInt64) (uriRelaxed : Bool) (queryStart : ℕ)
    (w rest : List UInt8) : Prop where
  answered : ∃ left s', (new uriRelaxed queryStart).execute (w ++ 32 :: rest) = .ok (left, s') ∧
    s'.Answers (StringToHttpMethod w)
  refused : StringToHttpMethod w = .INVALID_METHOD → ∀ n st more, n ≤ intMax →
    Arrives n st (w ++ 32 :: more) →
    ∃ st', recvRequest lexicalCast uriRelaxed queryStart n st = .ok (none, st')

section
variable {lexicalCast : List UInt8 → Option UInt64} {uriRelaxed : Bool} {queryStart : ℕ} {w rest : List UInt8}

theorem MethodText.plain (hw : MethodText w) : ∀ b ∈ w, b ≠ 0 := by
  rintro b hb rfl
  exact absurd (hw.chars 0 hb) (by decide)

theorem recvRequest_refused (hw : MethodText w) (hinv : CharsToHttpMethod w = .INVALID_METHOD) {n : ℕ} {st : Stream}
    (hmax : n ≤ intMax) (ha : Arrives n st (w ++ 32 :: rest)) :
    ∃ st', recvRequest lexicalCast uriRelaxed queryStart n st = .ok (none, st') := by
  obtain ⟨left, s', hrun, herror, -⟩ := execute_token uriRelaxed queryStart hw
    (ha.length_le.trans hmax)
  have hrun' : requestParsing.execute (.new uriRelaxed queryStart) (w ++ 32 :: rest) = .ok (left, s') := hrun
  have hbad : requestParsing.hasError s' = true := by
    have hthousand : s'.error = 1000 := herror.trans (if_pos hinv)
    change (s'.error != 0 || s'.cs == 0) = true
    rw [hthousand]
    rfl
  refine ⟨(st.skip (w ++ 32 :: rest).length).close, ?_⟩
  rw [recvRequest, headLoop_arrives hmax ha, hrun']
  simp only [hbad, if_true]
  rfl

/-- Where no name is shorter the callback does what `StringToHttpMethod` says. -/
theorem answers_of_noShorterName (hw : MethodText w) (hlen : (w ++ 32 :: rest).length ≤ intMax)
    (h : NoShorterName w) : ∃ left s', (new uriRelaxed queryStart).execute (w ++ 32 :: rest) = .ok (left, s') ∧
      s'.Answers (StringToHttpMethod w) := by
  obtain ⟨left, s', hrun, herror, hmethod⟩ := execute_token uriRelaxed queryStart hw hlen
  refine ⟨left, s', hrun, ?_⟩
  by_cases hinv : StringToHttpMethod w = .INVALID_METHOD
  · have hchars := (CharsToHttpMethod_invalid_iff hw.plain hinv).mpr h
    rw [Answers, if_pos hinv, herror, methodError, if_pos hchars]
  · have hchars := CharsToHttpMethod_of_name hw.plain hinv
    rw [Answers, if_neg hinv, hmethod, methodSet, hchars, if_neg hinv]

/-- A method is recognized exactly when no name is a proper prefix of it, whatever follows. -/
theorem method_recognized_iff (hw : MethodText w) (hlen : (w ++ 32 :: rest).length ≤ intMax) :
    MethodRecognized lexicalCast uriRelaxed queryStart w rest ↔ NoShorterName w := by
  constructor
  · intro h
    by_cases hinv : StringToHttpMethod w = .INVALID_METHOD
    · obtain ⟨left, s', hrun, hanswer⟩ := h.answered
      obtain ⟨left', s'', hrun', herror, -⟩ := execute_token uriRelaxed queryStart hw hlen
      rw [hrun] at hrun'
      cases hrun'
      rw [Answers, if_pos hinv, herror, methodError] at hanswer
      refine (CharsToHttpMethod_invalid_iff hw.plain hinv).mp ?_
      by_contra hvalid
      rw [if_neg hvalid] at hanswer
      cases hanswer
    · exact NoShorterName_of_name hw.plain hinv
  · intro h
    refine ⟨answers_of_noShorterName hw hlen h, fun hinv n st more hmax ha => ?_⟩
    exact recvRequest_refused hw ((CharsToHttpMethod_invalid_iff hw.plain hinv).mpr h) hmax ha

end

/-- A method that is no name. -/
theorem method_recognized_iff_foo :
    MethodRecognized castDigits false 0 (ascii "FOO") (ascii "/ HTTP/1.1\r\n") := by
  have hw : MethodText (ascii "FOO") := ⟨by decide, by decide, List.all_eq_true.mp (by decide)⟩
  exact (method_recognized_iff hw (by decide)).mpr (by unfold NoShorterName; decide)

/-- With a longer method a request is still one for `GET`. -/
theorem longer_method_taken : ¬ ∀ w rest : List UInt8, MethodText w → (w ++ 32 :: rest).length ≤ intMax →
    ∃ left s', (new false 0).execute (w ++ 32 :: rest) = .ok (left, s') ∧ s'.Answers (StringToHttpMethod w) := by
  intro h
  have hw : MethodText (ascii "GETX") := ⟨by decide, by decide, List.all_eq_true.mp (by decide)⟩
  have hlen : (ascii "GETX" ++ 32 :: ascii "/ HTTP/1.1\r\n").length ≤ intMax := by decide
  obtain ⟨left, s', hrun, hanswer⟩ := h _ _ hw hlen
  obtain ⟨left', s'', hrun', herror, -⟩ := execute_token false 0 hw hlen
  rw [hrun] at hrun'
  cases hrun'
  have hinv : StringToHttpMethod (ascii "GETX") = .INVALID_METHOD := by decide
  have hzero : methodError (ascii "GETX") = 0 := by decide
  rw [Answers, if_pos hinv, herror, hzero] at hanswer
  cases hanswer

end Flz.Http
