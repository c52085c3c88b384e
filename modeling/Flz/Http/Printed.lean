import Flz.Http.Receive

/-! # The parts of a printed request

`HttpRequest::dump` of `http/http.cc`, and how the grammar of the parser reads each part of
what it prints.
-/
namespace Flz.Http
open Lib

/-- `HttpMethodToString`. -/
def HttpMethodToString (m : HttpMethod) : List UInt8 :=
  ascii (((httpMethodMap.find? (fun e => e.1 == m)).map Prod.snd).getD "<unknown>")

/-- A number as a stream prints it. -/
def decimal (n : ℕ) : List UInt8 := (Nat.toDigits 10 n).map (fun c => UInt8.ofNat c.toNat)

theorem decimal_digit {n : ℕ} {b : UInt8} (hb : b ∈ decimal n) : 48 ≤ b ∧ b ≤ 57 := by
  obtain ⟨c, hc, rfl⟩ := List.mem_map.mp hb
  have hdigit := Nat.isDigit_of_mem_toDigits (by decide) (by decide) hc
  rw [Char.isDigit, Bool.and_eq_true, decide_eq_true_eq, decide_eq_true_eq] at hdigit
  obtain ⟨hlow, hhigh⟩ := hdigit
  have hle : c.toNat ≤ 57 := hhigh
  have hge : 48 ≤ c.toNat := hlow
  rw [UInt8.le_iff_toNat_le, UInt8.le_iff_toNat_le, UInt8.toNat_ofNat']
  rw [Nat.mod_eq_of_lt (by omega)]
  exact ⟨hge, hle⟩

def connectionValue (close : Bool) : List UInt8 := ascii (if close then "close" else "keep-alive")

/-- A line of the header. -/
def fieldLine (e : List UInt8 × List UInt8) : List UInt8 := e.1 ++ ascii ": " ++ e.2 ++ ascii "\r\n"

/-- The fields that are printed; `websocket` is `m_websocket`. -/
def HttpRequest.printedFields (r : HttpRequest) (websocket : Bool) : List (List UInt8 × List UInt8) :=
  (if websocket then [] else [(ascii "connection", connectionValue r.close)]) ++
    r.headers.filter (fun e => websocket || strcasecmp e.1 (ascii "connection") != .eq) ++
    if r.body = [] then [] else [(ascii "content-length", decimal r.body.length)]

def HttpRequest.dump (r : HttpRequest) (websocket : Bool) : List UInt8 :=
  HttpMethodToString r.method ++ ascii " " ++ r.path ++
    (if r.query = [] then [] else ascii "?") ++ r.query ++
    (if r.fragment = [] then [] else ascii "#") ++ r.fragment ++ ascii " HTTP/" ++
    decimal (r.version.toNat / 16) ++ ascii "." ++ decimal (r.version.toNat % 16) ++ ascii "\r\n" ++
    (r.printedFields websocket).flatMap fieldLine ++ ascii "\r\n" ++ r.body

/-! ## The arcs that are taken -/

/-- The arc from `s` for the bytes of a class. -/
def classArc (r : Bool) (s : ℕ) (c : ByteClass) (out : List HttpParserAction × ℕ) : Bool :=
  (List.range 256).all (fun n => !c.holds (UInt8.ofNat n) ||
    (requestScanner r).arc s (UInt8.ofNat n) == some out)

theorem arc_of_classArc {r : Bool} {s : ℕ} {c : ByteClass} {out : List HttpParserAction × ℕ}
    (h : classArc r s c out = true) {b : UInt8} (hb : c.holds b = true) :
    (requestScanner r).arc s b = some out :=
  Scanner.arc_of_onClass h hb

/-! ## Building while reading -/

/-- What an action does to the marks and the request when the text is not cut. -/
def buildAct (w : List UInt8) (i : ℕ) (a : HttpParserAction) (mq : Marks × HttpRequest) :
    Except Unit (Marks × HttpRequest) :=
  match build w uncut (mq.1.token i a).toList mq.2 with
  | some q => .ok (mq.1.note i a, q)
  | none => .error ()

theorem perform_buildAct {w : List UInt8} {es : List (ℕ × HttpParserAction)} {m m' : Marks}
    {q q' : HttpRequest} (h : Scanner.perform (buildAct w) es (m, q) = .ok (m', q')) :
    build w uncut (m.tokens es) q = some q' := by
  induction es generalizing m q with
  | nil =>
    cases h
    rfl
  | cons e es ih =>
    rw [Scanner.perform, List.foldlM_cons] at h
    rw [Marks.tokens, build_append]
    cases hb : build w uncut (m.token e.1 e.2).toList q with
    | none =>
      rw [buildAct, hb] at h
      cases h
    | some q₁ =>
      rw [buildAct, hb] at h
      exact ih h

/-- From the state `s` and the place `p`, reading `xs` leads to the state `t` and makes `q'` of
`q`. -/
def Parses (r : Bool) (w : List UInt8) (p s : ℕ) (m : Marks) (q : HttpRequest) (xs : List UInt8)
    (t : ℕ) (m' : Marks) (q' : HttpRequest) : Prop :=
  (requestScanner r).Reads (buildAct w) p s (m, q) xs t (m', q')

section
variable {r : Bool} {w xs ys rest : List UInt8} {p s t u : ℕ} {m m' m'' : Marks}
  {q q' q'' : HttpRequest}

theorem Parses.append (hx : Parses r w p s m q xs t m' q')
    (hy : Parses r w (p + xs.length) t m' q' ys u m'' q'') :
    Parses r w p s m q (xs ++ ys) u m'' q'' := Scanner.Reads.append hx hy

/-- A byte whose arc only sets marks. -/
theorem Parses.byte {b : UInt8} {as : List HttpParserAction}
    (harc : (requestScanner r).arc s b = some (as, t)) (hstay : as.any (· == .done) = false)
    (hact : as.foldlM (fun mq a => buildAct w p a mq) (m, q) = .ok (m', q')) :
    Parses r w p s m q [b] t m' q' := Scanner.Reads.cons harc hstay hact Scanner.Reads.nil

/-- Bytes on which nothing happens. -/
theorem Parses.loop (c : ByteClass) (hc : classArc r s c ([], s) = true)
    (hxs : ∀ b ∈ xs, c.holds b = true) : Parses r w p s m q xs s m q :=
  Scanner.Reads.loop fun b hb => arc_of_classArc hc (hxs b hb)

/-! ## The texts of a URI -/

/-- Text of a class and escapes. -/
inductive UriText (c : ByteClass) : List UInt8 → Prop
  | nil : UriText c []
  | char {b : UInt8} {text : List UInt8} (hb : c.holds b = true) (h : UriText c text) :
    UriText c (b :: text)
  | escape {x y : UInt8} {text : List UInt8} (hx : ByteClass.xdigit.holds x = true)
    (hy : ByteClass.xdigit.holds y = true) (h : UriText c text) : UriText c (37 :: x :: y :: text)

/-- In the state `s` text of a URI is read; an escape goes through the two states behind it. -/
def uriArcs (r : Bool) (s : ℕ) (c : ByteClass) : Bool :=
  classArc r s c ([], s) && classArc r s (ByteClass.byte 37) ([], s + 1) &&
    classArc r (s + 1) ByteClass.xdigit ([], s + 2) && classArc r (s + 2) ByteClass.xdigit ([], s)

theorem Parses.uri {c : ByteClass} (hc : uriArcs r s c = true) (hxs : UriText c xs) :
    Parses r w p s m q xs s m q := by
  rw [uriArcs, Bool.and_eq_true, Bool.and_eq_true, Bool.and_eq_true] at hc
  obtain ⟨⟨⟨hchar, hescape⟩, hfirst⟩, hsecond⟩ := hc
  induction hxs generalizing p with
  | nil => exact Scanner.Reads.nil
  | char hb _ ih => exact Scanner.Reads.cons (arc_of_classArc hchar hb) rfl rfl ih
  | escape hx hy _ ih =>
    exact Scanner.Reads.cons (arc_of_classArc hescape (by decide)) rfl rfl
      (Scanner.Reads.cons (arc_of_classArc hfirst hx) rfl rfl
        (Scanner.Reads.cons (arc_of_classArc hsecond hy) rfl rfl ih))

/-- The same when the first character is read in another state, with some actions. -/
theorem Parses.uri_first {c c' : ByteClass} (hc : uriArcs r t c = true) {as : List HttpParserAction}
    (hchar : classArc r s c' (as, t) = true)
    (hescape : classArc r s (ByteClass.byte 37) (as, t + 1) = true)
    (hstay : as.any (· == .done) = false)
    (hact : as.foldlM (fun mq a => buildAct w p a mq) (m, q) = .ok (m', q'))
    (hxs : UriText c xs) (hne : xs ≠ []) (hfirst : ∀ b ∈ xs.head?, c.holds b = true → c'.holds b = true) :
    Parses r w p s m q xs t m' q' := by
  have hcs := hc
  rw [uriArcs, Bool.and_eq_true, Bool.and_eq_true, Bool.and_eq_true] at hcs
  cases hxs with
  | nil => exact absurd rfl hne
  | char hb h =>
    exact Scanner.Reads.cons (arc_of_classArc hchar (hfirst _ rfl hb)) hstay hact (Parses.uri hc h)
  | escape hx hy h =>
    exact Scanner.Reads.cons (arc_of_classArc hescape (by decide)) hstay hact
      (Scanner.Reads.cons (arc_of_classArc hcs.1.2 hx) rfl rfl
        (Scanner.Reads.cons (arc_of_classArc hcs.2 hy) rfl rfl (Parses.uri hc h)))

theorem slice_of_drop (h : w.drop p = xs ++ rest) : slice w p (p + xs.length) = xs := by
  rw [slice, h, Nat.add_sub_cancel_left, List.take_left]

/-- A path that begins with one slash. -/
def AbsolutePath (r : Bool) (path : List UInt8) : Prop :=
  ∃ rest, path = 47 :: rest ∧ UriText (RequestTable.pathChar r) rest ∧ ∀ b ∈ rest.head?, b ≠ 47

set_option maxRecDepth 20000 in
theorem uriArcs_all (r : Bool) : uriArcs r 26 (RequestTable.pathChar r) = true ∧
    uriArcs r 30 (RequestTable.queryChar r) = true ∧ uriArcs r 21 (RequestTable.queryChar r) = true := by
  cases r <;> decide +kernel

set_option maxRecDepth 20000 in
theorem firstArcs_all (r : Bool) :
    classArc r 33 (RequestTable.pchar r) ([], 26) = true ∧
    classArc r 33 (ByteClass.byte 37) ([], 27) = true ∧
    classArc r 29 (RequestTable.queryChar r) ([.startQuery], 30) = true ∧
    classArc r 29 (ByteClass.byte 37) ([.startQuery], 31) = true ∧
    classArc r 20 (RequestTable.queryChar r) ([.mark], 21) = true ∧
    classArc r 20 (ByteClass.byte 37) ([.mark], 22) = true := by
  cases r <;> decide +kernel

set_option maxRecDepth 20000 in
theorem pchar_of_pathChar (r : Bool) (b : UInt8) (hb : (RequestTable.pathChar r).holds b = true)
    (hne : b ≠ 47) : (RequestTable.pchar r).holds b = true := by
  have hall : ∀ r : Bool, (List.range 256).all (fun n =>
      !(RequestTable.pathChar r).holds (UInt8.ofNat n) || UInt8.ofNat n == 47 ||
        (RequestTable.pchar r).holds (UInt8.ofNat n)) = true := by decide +kernel
  have h := forall_byte (p := fun b => !(RequestTable.pathChar r).holds b || b == 47 ||
    (RequestTable.pchar r).holds b) (hall r) b
  rw [hb, beq_eq_false_iff_ne.mpr hne] at h
  exact h

/-- A path is read up to a state in which it can end. -/
theorem Parses.path (hxs : AbsolutePath r xs) :
    ∃ t, (t = 26 ∨ t = 33) ∧ Parses r w p 3 m q xs t { m with mark := p } q := by
  obtain ⟨rest, rfl, htext, hhead⟩ := hxs
  have hslash : (requestScanner r).arc 3 47 = some ([.mark], 33) := by cases r <;> decide
  cases rest with
  | nil => exact ⟨33, Or.inr rfl, Parses.byte hslash rfl rfl⟩
  | cons b text =>
    refine ⟨26, Or.inl rfl, Scanner.Reads.cons hslash rfl rfl ?_⟩
    exact Parses.uri_first (uriArcs_all r).1 (firstArcs_all r).1 (firstArcs_all r).2.1 rfl rfl htext
      (List.cons_ne_nil b text) (fun c hc hold => pchar_of_pathChar r c hold (hhead c hc))

theorem drop_add (h : w.drop p = xs ++ rest) : w.drop (p + xs.length) = rest := by
  rw [← List.drop_drop, h, List.drop_left]

/-- A path is built when it ends. -/
theorem path_built (hw : w.drop p = xs ++ rest) (hm : m.mark = p) {as : List HttpParserAction}
    (has : as = [.requestPath, .requestUri] ∨ as = [.requestPath]) :
    as.foldlM (fun mq a => buildAct w (p + xs.length) a mq) (m, q) = .ok (m, { q with path := xs }) := by
  have hbuild : build w uncut [.path m.mark (p + xs.length)] q = some { q with path := xs } := by
    have htext : slice w (max p 0) (p + xs.length) = xs := by
      rw [Nat.max_zero]
      exact slice_of_drop hw
    rw [build_singleton, Token.apply, uncut, hm, htext]
  rcases has with rfl | rfl <;>
    simp only [List.foldlM_cons, List.foldlM_nil, buildAct, Marks.token, Option.toList_some, hbuild] <;>
    rfl

theorem query_built (hw : w.drop p = xs ++ rest) (hm : m.queryStart = p) :
    [HttpParserAction.queryString, .requestUri].foldlM
      (fun mq a => buildAct w (p + xs.length) a mq) (m, q) = .ok (m, { q with query := xs }) := by
  have hbuild : build w uncut [.query m.queryStart (p + xs.length)] q = some { q with query := xs } := by
    have hstart : uncut (p + xs.length) + (p - uncut p) = p := Nat.zero_add p
    rw [build_singleton, Token.apply, hm, hstart, if_pos (Nat.le_add_right _ _), slice_of_drop hw]
  simp only [List.foldlM_cons, List.foldlM_nil, buildAct, Marks.token, Option.toList_some, hbuild]
  rfl

theorem Parses.query (hxs : UriText (RequestTable.queryChar r) xs) (hne : xs ≠ []) :
    Parses r w p 29 m q xs 30 { m with queryStart := p } q :=
  Parses.uri_first (uriArcs_all r).2.1 (firstArcs_all r).2.2.1 (firstArcs_all r).2.2.2.1 rfl rfl hxs hne
    (fun _ _ h => h)

theorem Parses.fragment_end (hw : w.drop p = xs ++ rest)
    (hxs : UriText (RequestTable.queryChar r) xs) (hne : xs ≠ []) :
    Parses r w p 20 m q (xs ++ [32]) 4 { m with mark := p } { q with fragment := xs } := by
  have hread : Parses r w p 20 m q xs 21 { m with mark := p } q :=
    Parses.uri_first (uriArcs_all r).2.2 (firstArcs_all r).2.2.2.2.1 (firstArcs_all r).2.2.2.2.2 rfl rfl
      hxs hne (fun _ _ h => h)
  have harc : (requestScanner r).arc 21 32 = some ([.fragment], 4) := by cases r <;> decide
  refine hread.append (Parses.byte harc rfl ?_)
  have hbuild : build w uncut [.fragment p (p + xs.length)] q = some { q with fragment := xs } := by
    have htext : slice w (max p 0) (p + xs.length) = xs := by
      rw [Nat.max_zero]
      exact slice_of_drop hw
    rw [build_singleton, Token.apply, uncut, htext]
  simp only [List.foldlM_cons, List.foldlM_nil, buildAct, Marks.token, Option.toList_some, hbuild]
  rfl

/-- A text behind its sign, if there is any. -/
def optional (sign : UInt8) (text : List UInt8) : List UInt8 := if text = [] then [] else sign :: text

/-- A fragment, or none, up to the blank; the state is the one behind a path or a query. -/
theorem Parses.fragment_optional {fragment : List UInt8} {as : List HttpParserAction}
    (hblank : (requestScanner r).arc s 32 = some (as, 4))
    (hsign : (requestScanner r).arc s 35 = some (as, 20)) (hstay : as.any (· == .done) = false)
    (hact : as.foldlM (fun mq a => buildAct w p a mq) (m, q) = .ok (m', q'))
    (hw : w.drop p = (optional 35 fragment ++ [32]) ++ rest)
    (hfragment : UriText (RequestTable.queryChar r) fragment) (hf : q'.fragment = []) :
    ∃ m'', Parses r w p s m q (optional 35 fragment ++ [32]) 4 m'' { q' with fragment := fragment } := by
  by_cases hne : fragment = []
  · subst hne
    have hq' : { q' with fragment := [] } = q' := by rw [← hf]
    rw [hq']
    exact ⟨m', Parses.byte hblank hstay hact⟩
  · rw [optional, if_neg hne] at hw ⊢
    have hw' : w.drop (p + 1) = fragment ++ ([32] ++ rest) := by
      rw [← List.drop_drop, hw, List.cons_append, List.cons_append, List.drop_succ_cons, List.drop_zero,
        List.append_assoc]
    have hfirst : Parses r w p s m q [35] 20 m' q' := Parses.byte hsign hstay hact
    exact ⟨_, hfirst.append (Parses.fragment_end hw' hfragment hne)⟩

/-- The target of a request: a path with a query and a fragment, up to the blank behind it. -/
theorem Parses.target {path query fragment : List UInt8}
    (hw : w.drop p = (path ++ optional 63 query ++ (optional 35 fragment ++ [32])) ++ rest)
    (hpath : AbsolutePath r path) (hquery : UriText (RequestTable.queryChar r) query)
    (hfragment : UriText (RequestTable.queryChar r) fragment) (hq : q.query = []) (hf : q.fragment = []) :
    ∃ m', Parses r w p 3 m q (path ++ optional 63 query ++ (optional 35 fragment ++ [32])) 4 m'
      { q with path := path, query := query, fragment := fragment } := by
  obtain ⟨t, ht, hread⟩ := @Parses.path r w path p m q hpath
  rw [List.append_assoc, List.append_assoc] at hw
  rw [List.append_assoc]
  by_cases hne : query = []
  · subst hne
    have hquery' : { q with path := path, query := [], fragment := fragment } =
        { { q with path := path } with fragment := fragment } := by rw [← hq]
    have hblank : (requestScanner r).arc t 32 = some ([.requestPath, .requestUri], 4) := by
      rcases ht with rfl | rfl <;> cases r <;> decide
    have hsign : (requestScanner r).arc t 35 = some ([.requestPath, .requestUri], 20) := by
      rcases ht with rfl | rfl <;> cases r <;> decide
    have hbuilt := @path_built w path _ p { m with mark := p } q hw rfl _ (Or.inl rfl)
    obtain ⟨m', hend⟩ := Parses.fragment_optional hblank hsign rfl hbuilt (drop_add hw) hfragment hf
    rw [hquery']
    exact ⟨m', hread.append hend⟩
  · rw [optional, if_neg hne] at hw ⊢
    have hsign : (requestScanner r).arc t 63 = some ([.requestPath], 29) := by
      rcases ht with rfl | rfl <;> cases r <;> decide
    have hblank : (requestScanner r).arc 30 32 = some ([.queryString, .requestUri], 4) := by
      cases r <;> decide
    have hhash : (requestScanner r).arc 30 35 = some ([.queryString, .requestUri], 20) := by
      cases r <;> decide
    have hw' : w.drop (p + path.length + 1) = query ++ ((optional 35 fragment ++ [32]) ++ rest) := by
      rw [← List.drop_drop, drop_add hw, List.cons_append, List.drop_succ_cons, List.drop_zero]
    have hfirst : Parses r w (p + path.length) t { m with mark := p } q [63] 29 { m with mark := p }
        { q with path := path } := Parses.byte hsign rfl (path_built hw rfl (Or.inr rfl))
    have hbuilt := @query_built w query _ (p + path.length + 1)
      { m with mark := p, queryStart := p + path.length + 1 } { q with path := path } hw' rfl
    obtain ⟨m', hend⟩ := Parses.fragment_optional hblank hhash rfl hbuilt (drop_add hw') hfragment hf
    exact ⟨m', hread.append (hfirst.append ((Parses.query hquery hne).append hend))⟩

theorem Parses.version {v : UInt8} (hv : v = 0x11 ∨ v = 0x10)
    (hw : w.drop p = (ascii "HTTP/" ++ decimal (v.toNat / 16) ++ ascii "." ++ decimal (v.toNat % 16) ++
      ascii "\r\n") ++ rest) :
    Parses r w p 4 m q (ascii "HTTP/" ++ decimal (v.toNat / 16) ++ ascii "." ++
      decimal (v.toNat % 16) ++ ascii "\r\n") 13 { m with mark := p } { q with version := v } := by
  have hmark : ∀ text, text = ascii "HTTP/1.1" ∨ text = ascii "HTTP/1.0" →
      Parses r w p 4 m q text 12 { m with mark := p } q := by
    rintro text (rfl | rfl) <;> cases r <;> rfl
  have hend : ∀ text : List UInt8, versionOf text text.length = some v →
      w.drop p = text ++ (ascii "\r\n" ++ rest) →
      Parses r w (p + text.length) 12 { m with mark := p } q (ascii "\r\n") 13 { m with mark := p }
        { q with version := v } := by
    intro text hversion hdrop
    have hreturn : (requestScanner r).arc 12 13 = some ([.httpVersion], 17) := by cases r <;> decide
    have hline : (requestScanner r).arc 17 10 = some ([], 13) := by cases r <;> decide
    refine Scanner.Reads.cons hreturn rfl ?_ (Scanner.Reads.cons hline rfl rfl Scanner.Reads.nil)
    have hbuild : build w uncut [.version p (p + text.length)] q = some { q with version := v } := by
      have htext : slice w (max p 0) (p + text.length) = text := by
        rw [Nat.max_zero]
        exact slice_of_drop hdrop
      have hlen : p + text.length - max p 0 = text.length := by omega
      rw [build_singleton, Token.apply, uncut, htext, hlen, hversion]
      rfl
    simp only [List.foldlM_cons, List.foldlM_nil, buildAct, Marks.token, Option.toList_some, hbuild]
    rfl
  rcases hv with rfl | rfl
  · exact (hmark _ (Or.inl rfl)).append (hend (ascii "HTTP/1.1") (by decide) hw)
  · exact (hmark _ (Or.inr rfl)).append (hend (ascii "HTTP/1.0") (by decide) hw)

/-! ## The header fields -/

/-- The characters of a token. -/
def tokenChar : ByteClass :=
  [(33, 33), (35, 39), (42, 43), (45, 46), (48, 57), (65, 90), (94, 122), (124, 124), (126, 126)]

/-- The characters of a value, without control characters. -/
def valueChar : ByteClass := [(32, 126), (128, 255)]

/-- A field that is printed as it can be read: a token, and a value without control characters
and leading blanks. -/
structure IsField (e : List UInt8 × List UInt8) : Prop where
  name_ne : e.1 ≠ []
  name : ∀ b ∈ e.1, tokenChar.holds b = true
  value : ∀ b ∈ e.2, valueChar.holds b = true
  value_head : ∀ b ∈ e.2.head?, b ≠ 32

instance (e : List UInt8 × List UInt8) : Decidable (IsField e) :=
  decidable_of_iff (e.1 ≠ [] ∧ e.1.all tokenChar.holds = true ∧ e.2.all valueChar.holds = true ∧
      e.2.head? ≠ some 32)
    ⟨fun ⟨hne, hname, hvalue, hhead⟩ => ⟨hne, List.all_eq_true.mp hname, List.all_eq_true.mp hvalue,
      fun _ hb heq => hhead (heq ▸ hb)⟩,
    fun h => ⟨h.name_ne, List.all_eq_true.mpr h.name, List.all_eq_true.mpr h.value,
      fun hb => h.value_head 32 hb rfl⟩⟩

set_option maxRecDepth 20000 in
theorem fieldArcs_all (r : Bool) : classArc r 13 tokenChar ([.startField], 14) = true ∧
    classArc r 14 tokenChar ([], 14) = true ∧
    classArc r 15 [(33, 126), (128, 255)] ([.mark], 16) = true ∧
    classArc r 16 valueChar ([], 16) = true := by
  cases r <;> decide +kernel

theorem valueChar_of_ne {b : UInt8} (hb : valueChar.holds b = true) (hne : b ≠ 32) :
    ByteClass.holds [(33, 126), (128, 255)] b = true := by
  have h := forall_byte (p := fun b => !valueChar.holds b || b == 32 ||
    ByteClass.holds [(33, 126), (128, 255)] b) (by decide +kernel) b
  rw [hb, beq_eq_false_iff_ne.mpr hne] at h
  exact h

theorem decimal_isField (n : ℕ) : IsField (ascii "content-length", decimal n) := by
  have hclass : ∀ b : UInt8, 48 ≤ b ∧ b ≤ 57 → valueChar.holds b = true ∧ b ≠ 32 := by
    intro b hb
    have h := forall_byte (p := fun b => !(decide (48 ≤ b ∧ b ≤ 57)) || (valueChar.holds b && b != 32))
      (by decide +kernel) b
    rw [decide_eq_true hb] at h
    have h' := (Bool.and_eq_true _ _).mp h
    exact ⟨h'.1, bne_iff_ne.mp h'.2⟩
  have hname : IsField (ascii "content-length", []) := by decide
  refine ⟨hname.name_ne, hname.name, fun b hb => (hclass b (decimal_digit hb)).1, fun b hb => ?_⟩
  exact (hclass b (decimal_digit (List.mem_of_mem_head? hb))).2

theorem value_built (hw : w.drop p = xs ++ rest) (hlt : m.name.1 < m.name.2) (hm : m.mark = p) :
    buildAct w (p + xs.length) .writeValue (m, q) =
      .ok (m, q.setHeader (slice w m.name.1 m.name.2) xs) := by
  have htext : slice w (max p 0) (p + xs.length) = xs := by
    rw [Nat.max_zero]
    exact slice_of_drop hw
  have hkey : ¬ m.name.2 ≤ max m.name.1 0 := by omega
  have hbuild : build w uncut [.field m.name m.mark (p + xs.length)] q =
      some (q.setHeader (slice w m.name.1 m.name.2) xs) := by
    rw [build_singleton, hm, Token.apply, uncut, if_neg hkey, htext, Nat.max_zero]
  simp only [buildAct, Marks.token, Option.toList_some, hbuild]
  rfl

/-- A value with the end of its line, after the blank behind the colon. -/
theorem Parses.value (hlt : m.name.1 < m.name.2) (hw : w.drop p = xs ++ rest)
    (hxs : ∀ b ∈ xs, valueChar.holds b = true) (hhead : ∀ b ∈ xs.head?, b ≠ 32) :
    Parses r w p 15 m q (xs ++ ascii "\r\n") 13 { m with mark := p }
      (q.setHeader (slice w m.name.1 m.name.2) xs) := by
  have hline : (requestScanner r).arc 17 10 = some ([], 13) := by cases r <;> decide
  have hbuilt := @value_built w xs rest p { m with mark := p } q hw hlt rfl
  cases xs with
  | nil =>
    have hreturn : (requestScanner r).arc 15 13 = some ([.mark, .writeValue], 17) := by
      cases r <;> decide
    refine Scanner.Reads.cons hreturn rfl ?_ (Scanner.Reads.cons hline rfl rfl Scanner.Reads.nil)
    have hmark : buildAct w p .mark (m, q) = .ok ({ m with mark := p }, q) := rfl
    simp only [List.length_nil, Nat.add_zero] at hbuilt
    simp only [List.foldlM_cons, List.foldlM_nil, hmark, bind, Except.bind, hbuilt]
    rfl
  | cons b text =>
    obtain ⟨hb, htext⟩ := List.forall_mem_cons.mp hxs
    have hreturn : (requestScanner r).arc 16 13 = some ([.writeValue], 17) := by cases r <;> decide
    have hfirst : Parses r w p 15 m q (b :: text) 16 { m with mark := p } q :=
      Scanner.Reads.cons (arc_of_classArc (fieldArcs_all r).2.2.1 (valueChar_of_ne hb (hhead b rfl)))
        rfl rfl (Parses.loop valueChar (fieldArcs_all r).2.2.2 htext)
    refine hfirst.append (Scanner.Reads.cons hreturn rfl ?_
      (Scanner.Reads.cons hline rfl rfl Scanner.Reads.nil))
    simp only [List.foldlM_cons, List.foldlM_nil, bind, Except.bind, hbuilt]
    rfl

/-- A line of the header. -/
theorem Parses.field {e : List UInt8 × List UInt8} (he : IsField e)
    (hw : w.drop p = fieldLine e ++ rest) :
    ∃ m', Parses r w p 13 m q (fieldLine e) 13 m' (q.setHeader e.1 e.2) := by
  obtain ⟨name, value⟩ := e
  obtain ⟨hne, hname, hvalue, hhead⟩ := he
  dsimp only at hne hname hvalue hhead
  have hsplit : fieldLine (name, value) = name ++ ([58, 32] ++ (value ++ ascii "\r\n")) := by
    have hcolon : ascii ": " = [58, 32] := by decide
    simp only [fieldLine, hcolon, List.append_assoc]
  rw [hsplit] at hw ⊢
  rw [List.append_assoc, List.append_assoc] at hw
  have hcolon : (requestScanner r).arc 14 58 = some ([.writeField], 15) := by cases r <;> decide
  have hblank : (requestScanner r).arc 15 32 = some ([.mark], 15) := by cases r <;> decide
  have hread : Parses r w p 13 m q name 14 { m with fieldStart := p } q := by
    cases name with
    | nil => exact absurd rfl hne
    | cons b text =>
      obtain ⟨hb, htext⟩ := List.forall_mem_cons.mp hname
      exact Scanner.Reads.cons (arc_of_classArc (fieldArcs_all r).1 hb) rfl rfl
        (Parses.loop tokenChar (fieldArcs_all r).2.1 htext)
  have hnamed : Parses r w (p + name.length) 14 { m with fieldStart := p } q [58, 32] 15
      { m with fieldStart := p, name := (p, p + name.length), mark := p + name.length + 1 } q :=
    Scanner.Reads.cons hcolon rfl rfl (Scanner.Reads.cons hblank rfl rfl Scanner.Reads.nil)
  have hw' : w.drop (p + name.length + 2) = value ++ (ascii "\r\n" ++ rest) := by
    rw [← List.drop_drop, drop_add hw, List.append_assoc]
    rfl
  have hlt : p < p + name.length := Nat.lt_add_of_pos_right (List.length_pos_iff.mpr hne)
  have hval := @Parses.value r w value _ (p + name.length + 2)
    { m with fieldStart := p, name := (p, p + name.length), mark := p + name.length + 1 } q hlt hw'
    hvalue hhead
  rw [slice_of_drop hw] at hval
  exact ⟨_, hread.append (hnamed.append hval)⟩

/-- All lines of the header. -/
theorem Parses.fields {fs : List (List UInt8 × List UInt8)} (hfs : ∀ e ∈ fs, IsField e)
    (hw : w.drop p = fs.flatMap fieldLine ++ rest) :
    ∃ m', Parses r w p 13 m q (fs.flatMap fieldLine) 13 m'
      { q with headers := fs.foldl (fun m e => m.set e.1 e.2) q.headers } := by
  induction fs generalizing p m q with
  | nil => exact ⟨m, Scanner.Reads.nil⟩
  | cons e fs ih =>
    obtain ⟨he, hfs⟩ := List.forall_mem_cons.mp hfs
    rw [List.flatMap_cons, List.append_assoc] at hw
    obtain ⟨m₁, hfield⟩ := @Parses.field r w _ p m q e he hw
    obtain ⟨m₂, hrest⟩ := @ih (p + (fieldLine e).length) m₁ (q.setHeader e.1 e.2) hfs (drop_add hw)
    rw [List.flatMap_cons]
    exact ⟨m₂, hfield.append hrest⟩

/-! ## The method -/

set_option maxRecDepth 20000 in
/-- Every method is read and found again, but for the one with a dash. -/
theorem httpMethodMap_read : ∀ e ∈ httpMethodMap, HttpMethodToString e.1 = ascii e.2 ∧
    CharsToHttpMethod (ascii e.2) = e.1 ∧ e.1 ≠ .INVALID_METHOD ∧ ∀ r, e.1 ≠ .MSEARCH →
      (requestScanner r).stop 1 (ascii e.2 ++ [32]) = ((ascii e.2).length + 1, .reading 3) ∧
      (requestScanner r).trace 0 1 (ascii e.2 ++ [32]) =
        [(0, .mark), ((ascii e.2).length, .requestMethod)] := by
  decide +kernel

theorem httpMethodMap_complete {a : HttpMethod} (h : a ≠ .INVALID_METHOD) :
    ∃ e ∈ httpMethodMap, e.1 = a := by
  cases a <;> first | decide | exact absurd rfl h

theorem Parses.method {a : HttpMethod} (ha : a ≠ .INVALID_METHOD) (hdash : a ≠ .MSEARCH)
    (hw : w = HttpMethodToString a ++ rest) :
    Parses r w 0 1 .start q (HttpMethodToString a ++ [32]) 3 .start { q with method := a } := by
  obtain ⟨e, he, rfl⟩ := httpMethodMap_complete ha
  obtain ⟨hstring, hchars, -, hscan⟩ := httpMethodMap_read e he
  obtain ⟨hstop, htrace⟩ := hscan r hdash
  rw [hstring] at hw ⊢
  have htext : slice w (max 0 0) (ascii e.2).length = ascii e.2 := by
    have hdrop : w.drop 0 = ascii e.2 ++ rest := hw
    have hslice := slice_of_drop hdrop
    rwa [Nat.zero_add] at hslice
  have hbuild : build w uncut [.method 0 (ascii e.2).length] q = some { q with method := e.1 } := by
    rw [build_singleton, Token.apply, uncut, htext, hchars]
    exact if_neg ha
  rw [Parses, Scanner.Reads, Scanner.run_eq, hstop, htrace]
  have hmark : buildAct w 0 .mark (.start, q) = .ok (.start, q) := rfl
  have hmethod : buildAct w (ascii e.2).length .requestMethod (.start, q) =
      .ok (.start, { q with method := e.1 }) := by
    have htoken : Marks.start.token (ascii e.2).length .requestMethod =
      some (.method 0 (ascii e.2).length) := rfl
    simp only [buildAct, htoken, Option.toList_some, hbuild]
    rfl
  simp only [Scanner.perform, List.foldlM_cons, List.foldlM_nil, hmark, hmethod, bind, Except.bind,
    List.length_append, List.length_singleton]
  rfl

end

end Flz.Http
