import Flz.Http.RequestParser

/-! # The tokens of a request head

The places of the tokens of a head do not depend on how it arrives. What a cut changes is the
text that a callback gets: `http_parser_execute` puts the marks to the start of the buffer, so a
token that began in an earlier piece loses what came before, and `query_start` still counts from
the start of that earlier piece.
-/
namespace Flz.Http
open Lib

/-- The bytes from `i` up to `j`. -/
def slice (w : List UInt8) (i j : ℕ) : List UInt8 := (w.drop i).take (j - i)

/-- A token from its first byte to the byte that ends it; a field has a name as well. -/
inductive Token
  | method (start stop : ℕ)
  | path (start stop : ℕ)
  | query (start stop : ℕ)
  | fragment (start stop : ℕ)
  | version (start stop : ℕ)
  | field (name : ℕ × ℕ) (start stop : ℕ)
  deriving DecidableEq, Repr

/-- The marks as places in the whole text. -/
structure Marks where
  mark : ℕ
  fieldStart : ℕ
  name : ℕ × ℕ
  queryStart : ℕ
  deriving DecidableEq, Repr

namespace Marks

def start : Marks := ⟨0, 0, (0, 0), 0⟩

def note (m : Marks) (i : ℕ) : HttpParserAction → Marks
  | .mark => { m with mark := i }
  | .startField => { m with fieldStart := i }
  | .writeField => { m with name := (m.fieldStart, i) }
  | .startQuery => { m with queryStart := i }
  | _ => m

def token (m : Marks) (i : ℕ) : HttpParserAction → Option Token
  | .requestMethod => some (.method m.mark i)
  | .requestPath => some (.path m.mark i)
  | .queryString => some (.query m.queryStart i)
  | .fragment => some (.fragment m.mark i)
  | .httpVersion => some (.version m.mark i)
  | .writeValue => some (.field m.name m.mark i)
  | _ => none

def after (m : Marks) : List (ℕ × HttpParserAction) → Marks
  | [] => m
  | e :: es => (m.note e.1 e.2).after es

def tokens (m : Marks) : List (ℕ × HttpParserAction) → List Token
  | [] => []
  | e :: es => (m.token e.1 e.2).toList ++ (m.note e.1 e.2).tokens es

theorem tokens_append (m : Marks) (es fs : List (ℕ × HttpParserAction)) :
    m.tokens (es ++ fs) = m.tokens es ++ (m.after es).tokens fs := by
  induction es generalizing m with
  | nil => rfl
  | cons e es ih => rw [List.cons_append, tokens, tokens, after, ih, List.append_assoc]

theorem after_append (m : Marks) (es fs : List (ℕ × HttpParserAction)) :
    m.after (es ++ fs) = (m.after es).after fs := by
  induction es generalizing m with
  | nil => rfl
  | cons e es ih => exact ih _

end Marks

/-- What the callback for a token makes of the request when the piece in which a place arrives
starts at `base`; none when it is an error. -/
def Token.apply (w : List UInt8) (base : ℕ → ℕ) : Token → HttpRequest → Option HttpRequest
  | .method start stop, r =>
    let m := CharsToHttpMethod (slice w (max start (base stop)) stop)
    if m = .INVALID_METHOD then none else some { r with method := m }
  | .path start stop, r => some { r with path := slice w (max start (base stop)) stop }
  | .query start stop, r =>
    let start' := base stop + (start - base start)
    if start' ≤ stop then some { r with query := slice w start' stop } else none
  | .fragment start stop, r => some { r with fragment := slice w (max start (base stop)) stop }
  | .version start stop, r =>
    (versionOf (slice w (max start (base stop)) stop) (stop - max start (base stop))).map
      (fun v => { r with version := v })
  | .field name start stop, r =>
    if name.2 ≤ max name.1 (base stop) then some r
    else some (r.setHeader (slice w (max name.1 (base stop)) name.2)
      (slice w (max start (base stop)) stop))

/-- The request after some tokens. -/
def build (w : List UInt8) (base : ℕ → ℕ) (ts : List Token) (r : HttpRequest) :
    Option HttpRequest :=
  ts.foldlM (fun r t => t.apply w base r) r

theorem build_append (w : List UInt8) (base : ℕ → ℕ) (ts us : List Token) (r : HttpRequest) :
    build w base (ts ++ us) r = (build w base ts r).bind (build w base us) := List.foldlM_append

theorem build_singleton (w : List UInt8) (base : ℕ → ℕ) (t : Token) (r : HttpRequest) :
    build w base [t] r = t.apply w base r := by
  rw [build, List.foldlM_cons]
  exact bind_pure _

/-! ## The texts of the callbacks -/

theorem LEN_le {q p : ℕ} (h : q ≤ p) : LEN q p = p - q := if_pos h

/-- Methods are told apart before the blank behind them. -/
theorem strncmpEq_blank {s t : List UInt8} {n : ℕ} (hn : n ≤ s.length) (hs : ∀ b ∈ s, b ≠ 0 ∧ b ≠ 32)
    (rest : List UInt8) : strncmpEq s (t ++ 32 :: rest) n = strncmpEq s t n := by
  induction n generalizing s t with
  | zero => rfl
  | succ n ih =>
    cases s with
    | nil => cases hn
    | cons a s =>
      obtain ⟨h0, h32⟩ := hs a List.mem_cons_self
      rw [strncmpEq, strncmpEq]
      cases t with
      | nil =>
        have h0' : (a == 0) = false := beq_eq_false_iff_ne.mpr h0
        have h32' : (a == 32) = false := beq_eq_false_iff_ne.mpr h32
        simp only [List.nil_append, List.headD_cons, List.headD_nil, h0', h32', Bool.false_and]
      | cons b t =>
        have hrec := ih (Nat.le_of_succ_le_succ hn) (fun b hb => hs b (List.mem_cons_of_mem a hb)) (t := t)
        simp only [List.cons_append, List.headD_cons, List.tail_cons, hrec]

theorem httpMethodMap_plain : ∀ e ∈ httpMethodMap, ∀ b ∈ ascii e.2, b ≠ 0 ∧ b ≠ 32 := by
  have hall : httpMethodMap.all (fun e => (ascii e.2).all fun b => b != 0 && b != 32) = true := by decide
  simpa only [List.all_eq_true, Bool.and_eq_true, bne_iff_ne] using hall

theorem CharsToHttpMethod_blank (m rest : List UInt8) :
    CharsToHttpMethod (m ++ 32 :: rest) = CharsToHttpMethod m := by
  have hfind : ∀ es : List (HttpMethod × String), (∀ e ∈ es, ∀ b ∈ ascii e.2, b ≠ 0 ∧ b ≠ 32) →
      es.find? (fun e => strncmpEq (ascii e.2) (m ++ 32 :: rest) (ascii e.2).length) =
        es.find? (fun e => strncmpEq (ascii e.2) m (ascii e.2).length) := by
    intro es hes
    induction es with
    | nil => rfl
    | cons e es ih =>
      have hhead := strncmpEq_blank (t := m) (Nat.le_refl _) (hes e List.mem_cons_self) rest
      rw [List.find?_cons, List.find?_cons, hhead,
        ih (fun e he => hes e (List.mem_cons_of_mem _ he))]
  rw [CharsToHttpMethod, CharsToHttpMethod, hfind _ httpMethodMap_plain]

/-- A comparison of `n` bytes looks at no more than `n`. -/
theorem strncmpEq_take (s t : List UInt8) (n : ℕ) : strncmpEq (s.take n) t n = strncmpEq s t n := by
  induction n generalizing s t with
  | zero => rfl
  | succ n ih =>
    cases s with
    | nil => rfl
    | cons a s => simp only [strncmpEq, List.take_succ_cons, List.headD_cons, List.tail_cons, ih]

theorem versionOf_take (s : List UInt8) (n : ℕ) : versionOf (s.take n) n = versionOf s n := by
  rw [versionOf, versionOf, strncmpEq_take, strncmpEq_take]

/-! ## A piece of the text -/

/-- A query is reported after its start. -/
def queryGate : Scanner.Gate HttpParserAction := ⟨(· == .startQuery), fun _ => false, (· == .queryString)⟩

/-- A field is reported while the last name is complete. -/
def nameGate : Scanner.Gate HttpParserAction := ⟨(· == .writeField), (· == .startField), (· == .writeValue)⟩

/-- What was done before: whether a query was started, a name is complete, the head is done. -/
structure Progress where
  query : Bool
  name : Bool
  finished : Bool

def Progress.next (f : Progress) (a : HttpParserAction) : Progress :=
  ⟨queryGate.next f.query a, nameGate.next f.name a, a == .done || f.finished⟩

/-- The parser `s` at place `p` of the piece that starts at `c`, beside the marks in the whole
text. -/
structure Follows (base : ℕ → ℕ) (c : ℕ) (m : Marks) (f : Progress) (p : ℕ)
    (s : HttpRequestParser) : Prop where
  mark : s.mark + c = max m.mark c
  fieldStart : s.fieldStart + c = max m.fieldStart c
  fieldLen : s.fieldLen = m.name.2 - max m.name.1 c
  name : f.name = true → m.name.1 = m.fieldStart
  queryStart : f.query = true → s.queryStart + base m.queryStart = m.queryStart
  queryStart_int : f.query = true → s.queryStart ≤ intMax
  bodyStart : f.finished = false → s.bodyStart = 0
  bodyStart_le : s.bodyStart ≤ p + 1
  mark_le : m.mark ≤ c + p
  fieldStart_le : m.fieldStart ≤ c + p
  name_le : m.name.2 ≤ c + p
  queryStart_le : f.query = true → m.queryStart ≤ c + p

/-- The code builds what the tokens build, or reports an error where they give none. -/
def Builds (r : Option HttpRequest) (x : Except Fault HttpRequestParser)
    (follows : HttpRequestParser → Prop) : Prop :=
  match r with
  | some d => ∃ s, x = .ok s ∧ s.data = d ∧ s.error = 0 ∧ follows s
  | none => ∀ s, x = .ok s → s.error ≠ 0

theorem Builds.some {r : Option HttpRequest} {x : Except Fault HttpRequestParser}
    {follows : HttpRequestParser → Prop} {s : HttpRequestParser} (hr : r = some s.data)
    (hx : x = .ok s) (he : s.error = 0) (hs : follows s) : Builds r x follows := by
  subst hr
  exact ⟨s, hx, rfl, he, hs⟩

theorem Builds.none {r : Option HttpRequest} {x : Except Fault HttpRequestParser}
    {follows : HttpRequestParser → Prop} (hr : r = none) (hx : ∀ s, x = .ok s → s.error ≠ 0) :
    Builds r x follows := by
  subst hr
  exact hx

section
variable {w xs rest : List UInt8} {base : ℕ → ℕ} {c p q : ℕ} {m : Marks} {f : Progress}
  {s : HttpRequestParser} {a : HttpParserAction}

theorem Follows.mono {p' : ℕ} (h : Follows base c m f p s) (hp : p ≤ p') :
    Follows base c m f p' s :=
  { h with
    bodyStart_le := by have := h.bodyStart_le; omega
    mark_le := by have := h.mark_le; omega
    fieldStart_le := by have := h.fieldStart_le; omega
    name_le := by have := h.name_le; omega
    queryStart_le := fun hs => by have := h.queryStart_le hs; omega }

theorem Follows.mark_le_place (h : Follows base c m f p s) : s.mark ≤ p := by
  have hmark := h.mark
  have hle := h.mark_le
  omega

theorem drop_piece (hw : w.drop c = xs ++ rest) (hq : q ≤ xs.length) :
    w.drop (q + c) = xs.drop q ++ rest := by
  rw [Nat.add_comm, ← List.drop_drop, hw, List.drop_append_of_le_length hq]

/-- A text of the piece in the whole text. -/
theorem slice_piece (hw : w.drop c = xs ++ rest) (hqp : q ≤ p) (hp : p ≤ xs.length) :
    (xs.drop q).take (p - q) = slice w (q + c) (c + p) := by
  have hsub : c + p - (q + c) = p - q := by omega
  rw [slice, drop_piece hw (hqp.trans hp), hsub, List.take_append_of_le_length]
  rw [List.length_drop]
  omega

theorem stdString_piece (hw : w.drop c = xs ++ rest) (hlen : xs.length ≤ intMax) (hqp : q ≤ p)
    (hp : p ≤ xs.length) : stdString xs q (LEN q p) = .ok (slice w (q + c) (c + p)) := by
  unfold intMax at hlen
  rw [stdString, LEN_le hqp, if_pos (by omega), slice_piece hw hqp hp]

/-! ## One action -/

theorem done_builds (h : Follows base c m f p s) (he : s.error = 0) :
    Builds (build w base (m.token (c + p) .done).toList s.data) (s.act xs p .done)
      (Follows base c (m.note (c + p) .done) (f.next .done) p) := by
  have hq := h.mark_le_place
  have hbody : (s.onDone p).bodyStart ≤ p + 1 := by
    unfold HttpRequestParser.onDone
    split
    · exact hq.trans (Nat.le_succ p)
    · exact Nat.le_refl _
  have hdone : (s.onDone p).data = s.data ∧ (s.onDone p).error = s.error ∧
      (s.onDone p).mark = s.mark ∧ (s.onDone p).fieldStart = s.fieldStart ∧
      (s.onDone p).fieldLen = s.fieldLen ∧ (s.onDone p).queryStart = s.queryStart := by
    unfold HttpRequestParser.onDone
    split <;> simp
  obtain ⟨hdata, herror, hm, hf, hl, hs⟩ := hdone
  refine ⟨s.onDone p, rfl, hdata, herror.trans he, { h with
    mark := by rw [hm]; exact h.mark
    fieldStart := by rw [hf]; exact h.fieldStart
    fieldLen := by rw [hl]; exact h.fieldLen
    queryStart := by rw [hs]; exact h.queryStart
    queryStart_int := by rw [hs]; exact h.queryStart_int
    bodyStart := fun hfalse => by cases hfalse
    bodyStart_le := hbody }⟩

theorem queryString_builds (hw : w.drop c = xs ++ rest) (hlen : xs.length ≤ intMax)
    (hbase : base (c + p) = c) (hp : p < xs.length) (hseen : f.query = true)
    (h : Follows base c m f p s) (he : s.error = 0) :
    Builds (build w base (m.token (c + p) .queryString).toList s.data) (s.act xs p .queryString)
      (Follows base c (m.note (c + p) .queryString) (f.next .queryString) p) := by
  have hstart := h.queryStart hseen
  have hfrom : m.queryStart - base m.queryStart = s.queryStart := by omega
  have hbuild : build w base (m.token (c + p) .queryString).toList s.data =
      if s.queryStart ≤ p then
        some { s.data with query := slice w (s.queryStart + c) (c + p) } else none := by
    rw [Marks.token, Option.toList_some, build_singleton, Token.apply, hbase, hfrom,
      Nat.add_comm c s.queryStart]
    simp only [Nat.add_comm c p, Nat.add_le_add_iff_right]
  by_cases hle : s.queryStart ≤ p
  · rw [if_pos hle] at hbuild
    refine .some (s := { s with data := { s.data with query := slice w (s.queryStart + c) (c + p) } })
      hbuild ?_ he { h with }
    rw [HttpRequestParser.act, HttpRequestParser.onRequestQuery,
      stdString_piece hw hlen hle hp.le]
    rfl
  · rw [if_neg hle] at hbuild
    refine .none hbuild fun s' hs' => ?_
    have hlong : ¬ LEN s.queryStart p < 2 ^ 63 := by
      have hint := h.queryStart_int hseen
      unfold intMax at hint
      rw [LEN, if_neg hle]
      omega
    rw [HttpRequestParser.act, HttpRequestParser.onRequestQuery, stdString, if_neg hlong] at hs'
    cases hs'

theorem httpVersion_builds (hw : w.drop c = xs ++ rest) (hbase : base (c + p) = c)
    (hp : p < xs.length) (h : Follows base c m f p s) (he : s.error = 0) :
    Builds (build w base (m.token (c + p) .httpVersion).toList s.data) (s.act xs p .httpVersion)
      (Follows base c (m.note (c + p) .httpVersion) (f.next .httpVersion) p) := by
  have hq := h.mark_le_place
  have hmax : max m.mark c = s.mark + c := h.mark.symm
  have hbuild : build w base (m.token (c + p) .httpVersion).toList s.data =
      (versionOf (xs.drop s.mark) (p - s.mark)).map (fun v => { s.data with version := v }) := by
    have hlen' : c + p - (s.mark + c) = p - s.mark := by omega
    rw [Marks.token, Option.toList_some, build_singleton, Token.apply, hbase, hmax, hlen',
      ← slice_piece hw hq hp.le, versionOf_take]
  have hact : s.act xs p .httpVersion =
      .ok (s.onRequestVersion (xs.drop s.mark) (p - s.mark)) := by
    rw [HttpRequestParser.act, LEN_le hq]
    rfl
  rw [HttpRequestParser.onRequestVersion] at hact
  cases hv : versionOf (xs.drop s.mark) (p - s.mark) with
  | none =>
    rw [hv] at hbuild hact
    refine .none hbuild fun s' hs' => ?_
    rw [hact] at hs'
    cases hs'
    exact (by decide : (1001 : ℤ) ≠ 0)
  | some v =>
    rw [hv] at hbuild hact
    exact .some (s := { s with data := { s.data with version := v } }) hbuild hact he { h with }

theorem requestMethod_builds (hw : w.drop c = xs ++ rest) (hbase : base (c + p) = c)
    (hp : p < xs.length) (hmethod : xs[p]? = some 32) (h : Follows base c m f p s)
    (he : s.error = 0) :
    Builds (build w base (m.token (c + p) .requestMethod).toList s.data) (s.act xs p .requestMethod)
      (Follows base c (m.note (c + p) .requestMethod) (f.next .requestMethod) p) := by
  have hq := h.mark_le_place
  have hmax : max m.mark c = s.mark + c := h.mark.symm
  have hdrop : xs.drop s.mark = slice w (s.mark + c) (c + p) ++ 32 :: xs.drop (p + 1) := by
    obtain ⟨hlt, hget⟩ := List.getElem?_eq_some_iff.mp (hmethod)
    have hsplit := List.take_append_drop (p - s.mark) (xs.drop s.mark)
    have hback : s.mark + (p - s.mark) = p := by omega
    rw [slice_piece hw hq hp.le, List.drop_drop, hback, List.drop_eq_getElem_cons hlt, hget] at hsplit
    exact hsplit.symm
  have hbuild : build w base (m.token (c + p) .requestMethod).toList s.data =
      if CharsToHttpMethod (xs.drop s.mark) = .INVALID_METHOD then none
      else some { s.data with method := CharsToHttpMethod (xs.drop s.mark) } := by
    rw [Marks.token, Option.toList_some, build_singleton, Token.apply, hbase, hmax, hdrop,
      CharsToHttpMethod_blank]
  have hact : s.act xs p .requestMethod = .ok (s.onRequestMethod (xs.drop s.mark)) := rfl
  rw [HttpRequestParser.onRequestMethod] at hact
  by_cases hinv : CharsToHttpMethod (xs.drop s.mark) = .INVALID_METHOD
  · rw [if_pos hinv] at hbuild hact
    refine .none hbuild fun s' hs' => ?_
    rw [hact] at hs'
    cases hs'
    exact (by decide : (1000 : ℤ) ≠ 0)
  · rw [if_neg hinv] at hbuild hact
    exact .some (s := { s with data := { s.data with method := CharsToHttpMethod (xs.drop s.mark) } })
      hbuild hact he { h with }

theorem writeValue_builds (hw : w.drop c = xs ++ rest) (hlen : xs.length ≤ intMax)
    (hbase : base (c + p) = c) (hp : p < xs.length) (hname : f.name = true)
    (h : Follows base c m f p s) (he : s.error = 0) :
    Builds (build w base (m.token (c + p) .writeValue).toList s.data) (s.act xs p .writeValue)
      (Follows base c (m.note (c + p) .writeValue) (f.next .writeValue) p) := by
  have hmark_le := h.mark_le
  have hmax : max m.mark c = s.mark + c := h.mark.symm
  have htext := stdString_piece hw hlen h.mark_le_place hp.le
  have hstart := h.fieldStart
  have hname_le := h.name_le
  have hflen := h.fieldLen
  rw [← h.name (hname)] at hstart
  have hbuild : build w base (m.token (c + p) .writeValue).toList s.data =
      if m.name.2 ≤ s.fieldStart + c then some s.data
      else some (s.data.setHeader (slice w (s.fieldStart + c) m.name.2)
        (slice w (s.mark + c) (c + p))) := by
    rw [Marks.token, Option.toList_some, build_singleton, Token.apply, hbase, hmax, ← hstart]
  by_cases hzero : m.name.2 ≤ s.fieldStart + c
  · rw [if_pos hzero] at hbuild
    refine .some hbuild ?_ he h
    rw [HttpRequestParser.act, HttpRequestParser.onRequestHttpField, if_pos (by omega)]
    rfl
  · rw [if_neg hzero] at hbuild
    refine .some (s := { s with data := s.data.setHeader _ _ }) hbuild ?_ he { h with }
    have hend : m.name.2 = c + (m.name.2 - c) := by omega
    have hlen_eq : s.fieldLen = LEN s.fieldStart (m.name.2 - c) := by
      rw [LEN_le (by omega)]
      omega
    rw [HttpRequestParser.act, HttpRequestParser.onRequestHttpField, if_neg (by omega), hlen_eq,
      stdString_piece hw hlen (by omega) (by omega), htext, ← hend]
    rfl

theorem act_builds (hw : w.drop c = xs ++ rest) (hlen : xs.length ≤ intMax) (hbase : base (c + p) = c)
    (hp : p < xs.length) (hquery : a = .queryString → f.query = true)
    (hname : a = .writeValue → f.name = true)
    (hmethod : a = .requestMethod → xs[p]? = some 32) (h : Follows base c m f p s)
    (he : s.error = 0) :
    Builds (build w base (m.token (c + p) a).toList s.data) (s.act xs p a)
      (Follows base c (m.note (c + p) a) (f.next a) p) := by
  have hq := h.mark_le_place
  have hmax : max m.mark c = s.mark + c := h.mark.symm
  have htext := stdString_piece hw hlen hq hp.le
  cases a with
  | mark =>
    have hset : p + c = max (c + p) c := by omega
    exact ⟨_, rfl, rfl, he, { h with mark := hset, mark_le := Nat.le_refl _ }⟩
  | startField =>
    have hset : p + c = max (c + p) c := by omega
    exact ⟨_, rfl, rfl, he, { h with
      fieldStart := hset
      name := fun hfalse => by cases hfalse
      fieldStart_le := Nat.le_refl _ }⟩
  | writeField =>
    have hfield := h.fieldStart
    have hfield_le := h.fieldStart_le
    have hflen : LEN s.fieldStart p = c + p - max m.fieldStart c := by
      rw [LEN_le (by omega)]
      omega
    exact ⟨_, rfl, rfl, he, { h with
      fieldLen := hflen
      name := fun _ => rfl
      name_le := Nat.le_refl _ }⟩
  | startQuery =>
    have hset : p + base (c + p) = c + p := by
      rw [hbase]
      exact Nat.add_comm p c
    exact ⟨_, rfl, rfl, he, { h with
      queryStart := fun _ => hset
      queryStart_int := fun _ => hp.le.trans hlen
      queryStart_le := fun _ => Nat.le_refl _ }⟩
  | requestUri => exact ⟨_, rfl, rfl, he, h⟩
  | xml => exact ⟨_, rfl, rfl, he, { h with }⟩
  | json => exact ⟨_, rfl, rfl, he, { h with }⟩
  | done => exact done_builds h he
  | requestPath =>
    refine .some (s := { s with data := { s.data with path := slice w (s.mark + c) (c + p) } })
      ?_ ?_ he { h with }
    · rw [Marks.token, Option.toList_some, build_singleton, Token.apply, hbase, hmax]
    · rw [HttpRequestParser.act, HttpRequestParser.onRequestPath, htext]
      rfl
  | fragment =>
    refine .some (s := { s with data := { s.data with fragment := slice w (s.mark + c) (c + p) } })
      ?_ ?_ he { h with }
    · rw [Marks.token, Option.toList_some, build_singleton, Token.apply, hbase, hmax]
    · rw [HttpRequestParser.act, HttpRequestParser.onRequestFragment, htext]
      rfl
  | queryString => exact queryString_builds hw hlen hbase hp (hquery rfl) h he
  | httpVersion => exact httpVersion_builds hw hbase hp h he
  | requestMethod => exact requestMethod_builds hw hbase hp (hmethod rfl) h he
  | writeValue => exact writeValue_builds hw hlen hbase hp (hname rfl) h he

/-- The progress after some actions. -/
def Progress.after (f : Progress) : List (ℕ × HttpParserAction) → Progress
  | [] => f
  | e :: es => (f.next e.2).after es

/-- The places in the whole text of what happens in the piece at `c`. -/
def shift (c : ℕ) (es : List (ℕ × HttpParserAction)) : List (ℕ × HttpParserAction) :=
  es.map (fun e => (c + e.1, e.2))

/-- The actions leave the state of the automaton alone, and an error stays one. -/
def Keeps (s s' : HttpRequestParser) : Prop :=
  s'.cs = s.cs ∧ s'.uriRelaxed = s.uriRelaxed ∧ (s.error ≠ 0 → s'.error ≠ 0)

theorem Keeps.refl (s : HttpRequestParser) : Keeps s s := ⟨rfl, rfl, id⟩

theorem stdString_ok {xs : List UInt8} {start length : ℕ} {g : List UInt8 → HttpRequestParser}
    {s' : HttpRequestParser}
    (h : (do let text ← stdString xs start length; return g text) = Except.ok s') :
    ∃ text, g text = s' := by
  cases htext : stdString xs start length with
  | error e =>
    rw [htext] at h
    cases h
  | ok text =>
    rw [htext] at h
    exact ⟨text, Except.ok.inj h⟩

theorem act_keeps {s' : HttpRequestParser} (h : s.act xs p a = .ok s') : Keeps s s' := by
  cases a with
  | mark | startField | writeField | startQuery | requestUri | xml | json =>
    cases h
    exact Keeps.refl s
  | done =>
    cases h
    unfold HttpRequestParser.onDone
    split <;> exact Keeps.refl s
  | requestMethod =>
    cases h
    unfold HttpRequestParser.onRequestMethod
    split
    · exact ⟨rfl, rfl, fun _ => (by decide : (1000 : ℤ) ≠ 0)⟩
    · exact Keeps.refl s
  | httpVersion =>
    cases h
    unfold HttpRequestParser.onRequestVersion
    split
    · exact Keeps.refl s
    · exact ⟨rfl, rfl, fun _ => (by decide : (1001 : ℤ) ≠ 0)⟩
  | requestPath =>
    rw [HttpRequestParser.act, HttpRequestParser.onRequestPath] at h
    obtain ⟨text, rfl⟩ := stdString_ok h
    exact Keeps.refl s
  | queryString =>
    rw [HttpRequestParser.act, HttpRequestParser.onRequestQuery] at h
    obtain ⟨text, rfl⟩ := stdString_ok h
    exact Keeps.refl s
  | fragment =>
    rw [HttpRequestParser.act, HttpRequestParser.onRequestFragment] at h
    obtain ⟨text, rfl⟩ := stdString_ok h
    exact Keeps.refl s
  | writeValue =>
    rw [HttpRequestParser.act, HttpRequestParser.onRequestHttpField] at h
    split at h
    · cases h
      exact Keeps.refl s
    · cases hkey : stdString xs s.fieldStart s.fieldLen with
      | error e =>
        rw [hkey] at h
        cases h
      | ok key =>
        rw [hkey] at h
        obtain ⟨text, rfl⟩ := stdString_ok (g := fun text =>
          { s with data := s.data.setHeader key text }) h
        exact Keeps.refl s

theorem perform_keeps {es : List (ℕ × HttpParserAction)} {s' : HttpRequestParser}
    (h : Scanner.perform (HttpRequestParser.act xs) es s = .ok s') : Keeps s s' := by
  induction es generalizing s with
  | nil =>
    cases h
    exact Keeps.refl s'
  | cons e es ih =>
    rw [Scanner.perform, List.foldlM_cons] at h
    cases hact : s.act xs e.1 e.2 with
    | error g =>
      rw [hact] at h
      cases h
    | ok t =>
      rw [hact] at h
      obtain ⟨hcs, hr, herr⟩ := act_keeps hact
      obtain ⟨hcs', hr', herr'⟩ := ih h
      exact ⟨hcs'.trans hcs, hr'.trans hr, fun he => herr' (herr he)⟩

/-- What happens in a piece builds the tokens that end in it. -/
theorem perform_builds (hw : w.drop c = xs ++ rest) (hlen : xs.length ≤ intMax)
    (hbase : ∀ p < xs.length, base (c + p) = c) {es : List (ℕ × HttpParserAction)}
    (hpos : ∀ e ∈ es, p ≤ e.1 ∧ e.1 < xs.length) (hp : p < xs.length)
    (hsorted : es.Pairwise (fun e e' => e.1 ≤ e'.1))
    (hquery : queryGate.respected f.query (es.map Prod.snd) = true)
    (hname : nameGate.respected f.name (es.map Prod.snd) = true)
    (hmethod : ∀ e ∈ es, e.2 = .requestMethod → xs[e.1]? = some 32)
    (h : Follows base c m f p s) (he : s.error = 0) :
    Builds (build w base (m.tokens (shift c es)) s.data)
      (Scanner.perform (HttpRequestParser.act xs) es s)
      (Follows base c (m.after (shift c es)) (f.after es) (xs.length - 1)) := by
  induction es generalizing p m f s with
  | nil => exact .some rfl rfl he (h.mono (by omega))
  | cons e es ih =>
    obtain ⟨hpe, hlt⟩ := hpos e List.mem_cons_self
    rw [List.map_cons, Scanner.Gate.respected, Bool.and_eq_true, Bool.or_eq_true] at hquery hname
    have hact := act_builds (a := e.2) hw hlen (hbase e.1 hlt) hlt
      (fun hk => hquery.1.resolve_left (by rw [hk]; decide))
      (fun hk => hname.1.resolve_left (by rw [hk]; decide))
      (hmethod e List.mem_cons_self) (h.mono hpe) he
    have htokens : m.tokens (shift c (e :: es)) = (m.token (c + e.1) e.2).toList ++
        (m.note (c + e.1) e.2).tokens (shift c es) := rfl
    rw [htokens, build_append, Scanner.perform, List.foldlM_cons]
    cases hb : build w base (m.token (c + e.1) e.2).toList s.data with
    | none =>
      rw [hb] at hact
      refine .none rfl fun s' hs' => ?_
      cases hrun : s.act xs e.1 e.2 with
      | error g =>
        rw [hrun] at hs'
        cases hs'
      | ok t =>
        rw [hrun] at hs'
        exact (perform_keeps hs').2.2 (hact t hrun)
    | some d =>
      rw [hb] at hact
      obtain ⟨t, hrun, rfl, het, hfollows⟩ := hact
      rw [hrun]
      have hsort := List.pairwise_cons.mp hsorted
      exact ih (fun e' he' => ⟨hsort.1 e' he', (hpos e' (List.mem_cons_of_mem e he')).2⟩) hlt hsort.2
        hquery.2 hname.2 (fun e' he' => hmethod e' (List.mem_cons_of_mem e he')) hfollows het

end
end Flz.Http
