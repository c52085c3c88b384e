import Flz.Http.Session
import Flz.Http.Tokens

/-! # A request head that arrives in pieces

The head of a request is read in as many calls of `execute` as it has pieces. Together they
perform the trace of the whole head, and the request is built from its tokens.
-/
namespace Flz.Http
open Lib

/-! ## What the automaton guarantees -/

/-- The states in which a head is read. -/
def Running (s : ℕ) : Prop := 0 < s ∧ s < 348

set_option maxRecDepth 20000 in
theorem requestScanner_running {r : Bool} {s t : ℕ} {xs : List UInt8} (hs : Running s)
    (h : ((requestScanner r).stop s xs).2 = .reading t) : Running t := by
  apply Scanner.reading_of_checkRows ?_ hs h
  cases r <;> decide +kernel

set_option maxRecDepth 20000 in
/-- A method ends at a blank. -/
theorem requestScanner_method {r : Bool} {s t : ℕ} {b : UInt8} {as : List HttpParserAction}
    (harc : (requestScanner r).arc s b = some (as, t)) (ha : .requestMethod ∈ as) : b = 32 := by
  have hrows : Scanner.checkRows (fun _ a => !a.actions.contains .requestMethod ||
      a.bytes == ByteClass.byte 32) 0 (RequestTable.rows r) = true := by
    cases r <;> decide
  obtain ⟨a, hp, hholds, rfl, rfl⟩ := Scanner.arc_of_checkRows hrows harc
  rw [Bool.or_eq_true, Bool.not_eq_true', beq_iff_eq] at hp
  rcases hp with hp | hp
  · rw [List.contains_iff_mem.mpr ha] at hp
    cases hp
  · rw [hp, ByteClass.holds, ByteClass.byte, List.any_cons, List.any_nil, Bool.or_false,
      Bool.and_eq_true, decide_eq_true_eq, decide_eq_true_eq] at hholds
    exact (UInt8.le_antisymm hholds.1 hholds.2).symm

set_option maxRecDepth 20000 in
theorem requestScanner_query (r : Bool) :
    (requestScanner r).Guards queryGate (fun s => s == 30 || s == 31 || s == 32) := by
  apply Scanner.guards_of_checkRows
  cases r <;> decide

set_option maxRecDepth 20000 in
theorem requestScanner_name (r : Bool) :
    (requestScanner r).Guards nameGate (fun s => s == 15 || s == 16) := by
  apply Scanner.guards_of_checkRows
  cases r <;> decide

theorem trace_method {r : Bool} {s : ℕ} {xs : List UInt8} :
    ∀ e ∈ (requestScanner r).trace 0 s xs, e.2 = .requestMethod → xs[e.1]? = some 32 := by
  intro e he ha
  obtain ⟨j, b, s', as, t, hj, hb, harc, hmem⟩ := Scanner.mem_trace he
  rw [Nat.zero_add] at hj
  rw [ha] at hmem
  rw [hj, hb, requestScanner_method harc hmem]

/-! ## One piece -/

/-- The parser before a piece, with the marks and the progress of what came before it. -/
structure Between (w : List UInt8) (base : ℕ → ℕ) (c : ℕ) (m : Marks) (f : Progress)
    (s : HttpRequestParser) : Prop where
  running : Running s.cs
  follows : Follows base c m f 0 s.reset
  reading : f.finished = false
  error : s.error = 0
  query : queryGate.respected f.query
    (((requestScanner s.uriRelaxed).trace 0 s.cs (w.drop c)).map Prod.snd) = true
  name : nameGate.respected f.name
    (((requestScanner s.uriRelaxed).trace 0 s.cs (w.drop c)).map Prod.snd) = true

theorem between_new (w : List UInt8) (base : ℕ → ℕ) (uriRelaxed : Bool) (queryStart : ℕ) :
    Between w base 0 .start ⟨false, false, false⟩ (.new uriRelaxed queryStart) where
  follows := {
    mark := rfl
    fieldStart := rfl
    fieldLen := rfl
    name := fun h => by cases h
    queryStart := fun h => by cases h
    queryStart_int := fun h => by cases h
    bodyStart := fun _ => rfl
    bodyStart_le := Nat.zero_le 1
    mark_le := Nat.le_refl 0
    fieldStart_le := Nat.le_refl 0
    name_le := Nat.le_refl 0
    queryStart_le := fun h => by cases h }
  reading := rfl
  error := rfl
  running := (by decide : 0 < 1 ∧ 1 < 348)
  query := (requestScanner_query uriRelaxed).trace_respected (fun h => by cases h) 0 _
  name := (requestScanner_name uriRelaxed).trace_respected (fun h => by cases h) 0 _

/-- The marks of a piece are inside it. -/
theorem Follows.asserted {base : ℕ → ℕ} {c n : ℕ} {m : Marks} {f : Progress}
    {s : HttpRequestParser} (h : Follows base c m f (n - 1) s) (hn : 0 < n) :
    s.asserted n = true := by
  have hmark := h.mark
  have hmark_le := h.mark_le
  have hfield := h.fieldStart
  have hfield_le := h.fieldStart_le
  have hflen := h.fieldLen
  have hname_le := h.name_le
  have hbody := h.bodyStart_le
  rw [HttpRequestParser.asserted, Bool.and_eq_true, Bool.and_eq_true, Bool.and_eq_true,
    decide_eq_true_eq, decide_eq_true_eq, decide_eq_true_eq, decide_eq_true_eq]
  omega

/-- The marks of what came before are at the start of the next piece. -/
theorem Follows.next_piece {base : ℕ → ℕ} {c n : ℕ} {m : Marks} {f : Progress}
    {s : HttpRequestParser} (h : Follows base c m f (n - 1) s) (hn : 0 < n)
    (hf : f.finished = false) : Follows base (c + n) m f 0 s.reset :=
  have hmark_le := h.mark_le
  have hfield_le := h.fieldStart_le
  have hname_le := h.name_le
  { mark := by
      change 0 + (c + n) = _
      omega
    fieldStart := by
      change 0 + (c + n) = _
      omega
    fieldLen := by
      change 0 = _
      omega
    name := h.name
    queryStart := h.queryStart
    queryStart_int := h.queryStart_int
    bodyStart := h.bodyStart
    bodyStart_le := by
      change s.bodyStart ≤ 0 + 1
      rw [h.bodyStart hf]
      exact Nat.zero_le 1
    mark_le := by omega
    fieldStart_le := by omega
    name_le := by omega
    queryStart_le := fun hq => by
      have := h.queryStart_le hq
      omega }

theorem Progress.after_query (f : Progress) (es : List (ℕ × HttpParserAction)) :
    (f.after es).query = (es.map Prod.snd).foldl queryGate.next f.query := by
  induction es generalizing f with
  | nil => rfl
  | cons e es ih => exact ih (f.next e.2)

theorem Progress.after_name (f : Progress) (es : List (ℕ × HttpParserAction)) :
    (f.after es).name = (es.map Prod.snd).foldl nameGate.next f.name := by
  induction es generalizing f with
  | nil => rfl
  | cons e es ih => exact ih (f.next e.2)

theorem Progress.after_finished {f : Progress} {es : List (ℕ × HttpParserAction)}
    (hf : f.finished = false) (hes : ∀ e ∈ es, (e.2 == HttpParserAction.done) = false) :
    (f.after es).finished = false := by
  induction es generalizing f with
  | nil => exact hf
  | cons e es ih =>
    obtain ⟨he, hes⟩ := List.forall_mem_cons.mp hes
    refine ih ?_ hes
    change (e.2 == HttpParserAction.done || f.finished) = false
    rw [he, hf]
    rfl

section
variable {w xs rest : List UInt8} {base : ℕ → ℕ} {c : ℕ} {m : Marks} {f : Progress}
  {s : HttpRequestParser}

/-- The trace of a piece. -/
def HttpRequestParser.pieceTrace (s : HttpRequestParser) (xs : List UInt8) :
    List (ℕ × HttpParserAction) :=
  (requestScanner s.uriRelaxed).trace 0 s.cs xs

theorem execute_eq (hne : xs ≠ []) (s : HttpRequestParser) :
    s.execute xs = (do
      let t ← Scanner.perform (HttpRequestParser.act xs) (s.pieceTrace xs) s.reset
      let t' := if t.cs = 0 then t else
        { t with cs := HttpRequestParser.stateAfter ((requestScanner s.uriRelaxed).stop s.cs xs).2 }
      if t'.asserted xs.length then
        return (xs.drop ((requestScanner s.uriRelaxed).stop s.cs xs).1, t')
      else throw .assertion) := by
  have hlen : xs.length ≠ 0 := fun h => hne (List.eq_nil_of_length_eq_zero h)
  rw [HttpRequestParser.execute, HttpRequestParser.httpParserExecute, if_neg hlen,
    Scanner.run_eq, HttpRequestParser.pieceTrace]
  cases Scanner.perform (HttpRequestParser.act xs)
      ((requestScanner s.uriRelaxed).trace 0 s.cs xs) s.reset with
  | error e => rfl
  | ok t =>
    simp only [Except.map, bind, Except.bind, Nat.zero_add]
    generalize (if t.cs = 0 then t else
      { t with cs := HttpRequestParser.stateAfter ((requestScanner s.uriRelaxed).stop s.cs xs).2 }) = t'
    cases t'.asserted xs.length <;> rfl

/-- What a piece does: the tokens that end in it are built, or an error is reported. -/
theorem execute_builds (hw : w.drop c = xs ++ rest) (hne : xs ≠ []) (hlen : xs.length ≤ intMax)
    (hbase : ∀ p < xs.length, base (c + p) = c)
    (h : Between w base c m f s) {k t : ℕ} {e : Scanner.Ending}
    (hstop : (requestScanner s.uriRelaxed).stop s.cs xs = (k, e))
    (ht : HttpRequestParser.stateAfter e = t) :
    match build w base (m.tokens (shift c (s.pieceTrace xs))) s.data with
    | some d => ∃ s', s.execute xs = .ok (xs.drop k, s') ∧ s'.data = d ∧ s'.error = 0 ∧ s'.cs = t ∧
        s'.uriRelaxed = s.uriRelaxed ∧ Follows base c (m.after (shift c (s.pieceTrace xs)))
          (f.after (s.pieceTrace xs)) (xs.length - 1) s'
    | none => ∀ out, s.execute xs = .ok out → out.2.hasError = true := by
  have hlen0 : 0 < xs.length := List.length_pos_iff.mpr hne
  obtain ⟨es, hes⟩ := (requestScanner s.uriRelaxed).trace_initial 0 s.cs xs rest
  have hquery := h.query
  have hname := h.name
  rw [hw, hes, List.map_append, Scanner.Gate.respected_append, Bool.and_eq_true] at hquery hname
  have hpos : ∀ e ∈ s.pieceTrace xs, 0 ≤ e.1 ∧ e.1 < xs.length :=
    fun e he => ⟨Nat.zero_le _, Scanner.position_lt he⟩
  have hbuilds := perform_builds hw hlen hbase hpos hlen0 (Scanner.trace_pairwise 0 s.cs xs)
    hquery.1 hname.1 trace_method h.follows h.error
  have hexec := execute_eq hne s
  rw [hstop] at hexec
  have hdata : s.reset.data = s.data := rfl
  rw [hdata] at hbuilds
  cases hb : build w base (m.tokens (shift c (s.pieceTrace xs))) s.data with
  | none =>
    rw [hb] at hbuilds
    intro out hout
    rw [hexec] at hout
    cases hrun : Scanner.perform (HttpRequestParser.act xs) (s.pieceTrace xs) s.reset with
    | error e =>
      rw [hrun] at hout
      cases hout
    | ok u =>
      have herr : u.error ≠ 0 := hbuilds u hrun
      have hcs0 : u.cs ≠ 0 := by
        rw [(perform_keeps hrun).1]
        exact Nat.ne_of_gt h.running.1
      rw [hrun] at hout
      simp only [bind, Except.bind, if_neg hcs0] at hout
      split at hout
      · cases hout
        exact Bool.or_eq_true_iff.mpr (Or.inl (bne_iff_ne.mpr herr))
      · cases hout
  | some d =>
    rw [hb] at hbuilds
    obtain ⟨u, hrun, hd, herr, hfollows⟩ := hbuilds
    obtain ⟨hcs, hr, -⟩ := perform_keeps hrun
    have hcs0 : u.cs ≠ 0 := by
      rw [hcs]
      exact Nat.ne_of_gt h.running.1
    refine ⟨{ u with cs := t }, ?_, hd, herr, rfl, hr, { hfollows with }⟩
    have hassert : ({ u with cs := t } : HttpRequestParser).asserted xs.length = true :=
      hfollows.asserted hlen0
    rw [hexec, hrun]
    simp only [bind, Except.bind, if_neg hcs0, ht, hassert, if_true]
    rfl

/-! ## All pieces -/

theorem shift_add (c n : ℕ) (es : List (ℕ × HttpParserAction)) :
    shift c (shift n es) = shift (c + n) es := by
  rw [shift, shift, shift, List.map_map]
  simp only [Function.comp_def, Nat.add_assoc]

theorem shift_snd (n : ℕ) (es : List (ℕ × HttpParserAction)) :
    (shift n es).map Prod.snd = es.map Prod.snd := by
  rw [shift, List.map_map]
  rfl

/-- What happens in two pieces, when the first one does not end the head. -/
theorem pieceTrace_append {t : ℕ}
    (hread : ((requestScanner s.uriRelaxed).stop s.cs xs).2 = .reading t) (rest : List UInt8) :
    s.pieceTrace (xs ++ rest) = s.pieceTrace xs ++
      shift xs.length ((requestScanner s.uriRelaxed).trace 0 t rest) := by
  rw [HttpRequestParser.pieceTrace, (Scanner.stop_resume hread rest).2 0, Nat.zero_add]
  exact congrArg _ (Scanner.trace_add xs.length 0 t rest)

/-- The parser before the next piece. -/
theorem Between.next_piece {s' : HttpRequestParser} {t : ℕ} (hw : w.drop c = xs ++ rest)
    (hne : xs ≠ []) (h : Between w base c m f s)
    (hread : ((requestScanner s.uriRelaxed).stop s.cs xs).2 = .reading t) (hcs : s'.cs = t)
    (hr : s'.uriRelaxed = s.uriRelaxed) (he : s'.error = 0)
    (hfollows : Follows base c (m.after (shift c (s.pieceTrace xs))) (f.after (s.pieceTrace xs))
      (xs.length - 1) s') :
    Between w base (c + xs.length) (m.after (shift c (s.pieceTrace xs)))
      (f.after (s.pieceTrace xs)) s' := by
  have hfinished : (f.after (s.pieceTrace xs)).finished = false :=
    Progress.after_finished h.reading (Scanner.trace_reading hread)
  have hdrop : w.drop (c + xs.length) = rest := by
    rw [← List.drop_drop, hw, List.drop_left]
  have hquery := h.query
  have hname := h.name
  change queryGate.respected f.query ((s.pieceTrace (w.drop c)).map Prod.snd) = true at hquery
  change nameGate.respected f.name ((s.pieceTrace (w.drop c)).map Prod.snd) = true at hname
  rw [hw, pieceTrace_append hread, List.map_append, Scanner.Gate.respected_append, Bool.and_eq_true,
    shift_snd] at hquery hname
  exact {
    running := by
      rw [hcs]
      exact requestScanner_running h.running hread
    follows := hfollows.next_piece (List.length_pos_iff.mpr hne) hfinished
    reading := hfinished
    error := he
    query := by
      rw [hcs, hr, hdrop, Progress.after_query]
      exact hquery.2
    name := by
      rw [hcs, hr, hdrop, Progress.after_name]
      exact hname.2 }

theorem hasError_eq (he : s.error = 0) (hcs : s.cs ≠ 0) : s.hasError = false := by
  rw [HttpRequestParser.hasError, he, Bool.or_eq_false_iff]
  exact ⟨rfl, beq_eq_false_iff_ne.mpr hcs⟩

theorem isFinished_running (h : Running s.cs) : s.isFinished = 0 := by
  rw [HttpRequestParser.isFinished, if_neg (Nat.ne_of_gt h.1), if_neg (Nat.not_le.mpr h.2)]

theorem isFinished_final (h : s.cs = 348) : s.isFinished = 1 := by
  rw [HttpRequestParser.isFinished, h]
  rfl

section
variable {n : ℕ} {st : Stream} {s' : HttpRequestParser}

theorem headLoop_goes_on (hn : 0 < n) (hmax : n ≤ intMax) (ha : Arrives n st xs)
    (hrun : s.execute xs = .ok (xs.drop xs.length, s')) (he : s'.error = 0) (hcs : Running s'.cs) :
    headLoop requestParsing n [] s st = headLoop requestParsing n [] s' (st.skip xs.length) := by
  have hrun' : requestParsing.execute s xs = .ok (xs.drop xs.length, s') := hrun
  have herr : requestParsing.hasError s' = false := hasError_eq he (Nat.ne_of_gt hcs.1)
  have hfin : requestParsing.isFinished s' = 0 := isFinished_running hcs
  have hroom : ¬ 0 = n := Nat.ne_of_lt hn
  rw [headLoop_arrives hmax ha, hrun']
  simp only [List.drop_length, List.length_nil, herr, hfin, if_neg hroom]
  rfl

theorem headLoop_finishes (hmax : n ≤ intMax) (ha : Arrives n st xs) {k : ℕ} (hk : 0 < k)
    (hrun : s.execute xs = .ok (xs.drop k, s')) (he : s'.error = 0) (hcs : s'.cs = 348) :
    headLoop requestParsing n [] s st = .ok (some (xs.drop k, s'), st.skip xs.length) := by
  have hrun' : requestParsing.execute s xs = .ok (xs.drop k, s') := hrun
  have herr : requestParsing.hasError s' = false := hasError_eq he (by rw [hcs]; decide)
  have hfin : requestParsing.isFinished s' = 1 := isFinished_final hcs
  have hroom : ¬ (xs.drop k).length = n := by
    have hle := ha.length_le
    have hpos := List.length_pos_iff.mpr ha.ne_nil
    rw [List.length_drop]
    omega
  rw [headLoop_arrives hmax ha, hrun']
  simp only [herr, hfin, if_neg hroom]
  rfl

end

/-- The piece that ends the head. -/
theorem headLoop_builds_last {n k : ℕ} (hmax : n ≤ intMax) {st : Stream} (ha : Arrives n st xs)
    (hw : w.drop c = xs ++ (st.skip xs.length).pending) (hbase : ∀ p < xs.length, base (c + p) = c)
    (hrest : ∀ i < (st.skip xs.length).pending.length, c + xs.length ≤ base (c + xs.length + i))
    (h : Between w base c m f s)
    (hleft : (requestScanner s.uriRelaxed).stop s.cs xs = (k, .left 348)) :
    match build w base (m.tokens (shift c (s.pieceTrace st.pending))) s.data with
    | some d => ∃ s' j, k ≤ j ∧ j ≤ st.pending.length ∧
        headLoop requestParsing n [] s st =
          .ok (some ((st.pending.drop k).take (j - k), s'), st.skip j) ∧
        s'.data = d ∧ ∀ i, k ≤ i → i < st.pending.length → (i < j ↔ base (c + i) < c + k)
    | none => ∀ out st', headLoop requestParsing n [] s st ≠ .ok (some out, st') := by
  have hsum : xs.length + (st.skip xs.length).pending.length = st.pending.length := by
    rw [← ha.append, List.length_append]
  obtain ⟨hk, hkle⟩ := Scanner.stop_left_bounds hleft
  have hended : ∀ t, ((requestScanner s.uriRelaxed).stop s.cs xs).2 ≠ .reading t := by
    intro t ht
    rw [hleft] at ht
    cases ht
  have htrace : s.pieceTrace st.pending = s.pieceTrace xs := by
    rw [← ha.append]
    exact (Scanner.stop_append hended (st.skip xs.length).pending).2 0
  have hexec := execute_builds hw ha.ne_nil (ha.length_le.trans hmax) hbase h hleft rfl
  rw [htrace]
  cases hb : build w base (m.tokens (shift c (s.pieceTrace xs))) s.data with
  | none =>
    rw [hb] at hexec
    exact headLoop_refused hmax ha hexec
  | some d =>
    rw [hb] at hexec
    obtain ⟨s', hrun, hd, he, hcs, -, -⟩ := hexec
    have htake : (st.pending.drop k).take (xs.length - k) = xs.drop k := by
      rw [← ha.append, List.drop_append_of_le_length hkle]
      exact List.take_left' (List.length_drop ..)
    refine ⟨s', xs.length, hkle, by omega, ?_, hd, fun i hki hi => ?_⟩
    · rw [htake]
      exact headLoop_finishes hmax ha hk hrun he hcs
    · constructor
      · intro hlt
        rw [hbase i hlt]
        omega
      · intro hlt
        by_contra hge
        have hi' := hrest (i - xs.length) (by omega)
        have hback : c + xs.length + (i - xs.length) = c + i := by omega
        rw [hback] at hi'
        omega

/-- What the loop does with a text that holds a whole head: it builds the tokens, however the
text is cut, and returns nothing when they build nothing. The buffer then holds the bytes up to
`j`, those of the read that ends the head. -/
theorem headLoop_builds {n k : ℕ} (hn : 0 < n) (hmax : n ≤ intMax) {st : Stream}
    (hopen : st.closed = false) (hw : w.drop c = st.pending)
    (hbase : ∀ i < st.pending.length, base (c + i) = c + Pieces.readStart n st.input.parts i)
    (h : Between w base c m f s)
    (hstop : (requestScanner s.uriRelaxed).stop s.cs st.pending = (k, .left 348)) :
    match build w base (m.tokens (shift c (s.pieceTrace st.pending))) s.data with
    | some d => ∃ s' j, k ≤ j ∧ j ≤ st.pending.length ∧
        headLoop requestParsing n [] s st =
          .ok (some ((st.pending.drop k).take (j - k), s'), st.skip j) ∧
        s'.data = d ∧ ∀ i, k ≤ i → i < st.pending.length → (i < j ↔ base (c + i) < c + k)
    | none => ∀ out st', headLoop requestParsing n [] s st ≠ .ok (some out, st') := by
  obtain ⟨len, hlen⟩ : ∃ len, st.pending.length = len := ⟨_, rfl⟩
  induction len using Nat.strong_induction_on generalizing c m f s st k with
  | _ len ih =>
    have hpending : st.pending ≠ [] := by
      intro hnil
      rw [hnil] at hstop
      cases hstop
    obtain ⟨xs, ha⟩ := exists_arrives hn hmax hopen hpending
    have hw' : w.drop c = xs ++ (st.skip xs.length).pending := hw.trans ha.append.symm
    have hlenx : xs.length ≤ intMax := ha.length_le.trans hmax
    have hposx := List.length_pos_iff.mpr ha.ne_nil
    have hsum : xs.length + (st.skip xs.length).pending.length = st.pending.length := by
      rw [← ha.append, List.length_append]
    have hbase' : ∀ p < xs.length, base (c + p) = c := by
      intro p hp
      rw [hbase p (by omega), ha.start p hp]
      rfl
    have hbase_rest : ∀ i < (st.skip xs.length).pending.length, base (c + xs.length + i) =
        c + xs.length + Pieces.readStart n (st.skip xs.length).input.parts i := by
      intro i hi
      rw [Nat.add_assoc, hbase _ (by omega), ha.start_add, ← Nat.add_assoc]
    rw [← ha.append] at hstop
    by_cases hreading : ∃ t, ((requestScanner s.uriRelaxed).stop s.cs xs).2 = .reading t
    · obtain ⟨t, ht⟩ := hreading
      have hresume := (Scanner.stop_resume ht (st.skip xs.length).pending).1.symm.trans hstop
      obtain ⟨hk, hending⟩ := Prod.mk.inj hresume
      obtain ⟨k', hk'⟩ :
          ∃ k', ((requestScanner s.uriRelaxed).stop t (st.skip xs.length).pending).1 = k' := ⟨_, rfl⟩
      rw [hk'] at hk
      have hleft : (requestScanner s.uriRelaxed).stop s.cs xs = (xs.length, .reading t) :=
        Prod.ext (Scanner.stop_reading ht) ht
      have hexec := execute_builds hw' ha.ne_nil hlenx hbase' h hleft rfl
      rw [← ha.append, pieceTrace_append ht, shift, List.map_append, ← shift, ← shift, shift_add,
        Marks.tokens_append, build_append]
      cases hb : build w base (m.tokens (shift c (s.pieceTrace xs))) s.data with
      | none =>
        rw [hb] at hexec
        exact headLoop_refused hmax ha hexec
      | some d =>
        rw [hb] at hexec
        obtain ⟨s', hrun, hd, he, hcs, hr, hfollows⟩ := hexec
        have hcs' : s'.cs = t := hcs
        have hbetween := h.next_piece hw' ha.ne_nil ht hcs hr he hfollows
        have hopen' : (st.skip xs.length).closed = false := hopen
        have hdrop : w.drop (c + xs.length) = (st.skip xs.length).pending := by
          rw [← List.drop_drop, hw', List.drop_left]
        have hstop' : (requestScanner s'.uriRelaxed).stop s'.cs (st.skip xs.length).pending =
            (k', .left 348) := by
          rw [hr, hcs']
          exact Prod.ext hk' hending
        have hrec := ih _ (by omega) hopen' hdrop hbase_rest hbetween hstop' rfl
        have htrace : s'.pieceTrace (st.skip xs.length).pending =
            (requestScanner s.uriRelaxed).trace 0 t (st.skip xs.length).pending := by
          rw [HttpRequestParser.pieceTrace, hr, hcs']
        rw [htrace, hd, ← headLoop_goes_on hn hmax ha hrun he hbetween.running] at hrec
        rw [Option.bind_some]
        cases hb' : build w base ((m.after (shift c (s.pieceTrace xs))).tokens (shift (c + xs.length)
            ((requestScanner s.uriRelaxed).trace 0 t (st.skip xs.length).pending))) d with
        | none =>
          rw [hb'] at hrec
          exact hrec
        | some d' =>
          rw [hb'] at hrec
          obtain ⟨s'', j, hkj, hj, hloop, hd', hbuffer⟩ := hrec
          have hsub : j - k' = xs.length + j - k := by omega
          rw [Stream.skip_skip, Stream.skip_pending, List.drop_drop, hk, hsub] at hloop
          rw [ha.append]
          refine ⟨s'', xs.length + j, by omega, by omega, hloop, hd', fun i hki hi => ?_⟩
          have hi' := hbuffer (i - xs.length) (by omega) (by omega)
          have hback : c + xs.length + (i - xs.length) = c + i := by omega
          rw [hback] at hi'
          omega
    · have hleft := (Scanner.stop_append (not_exists.mp hreading)
        (st.skip xs.length).pending).1.symm.trans hstop
      refine headLoop_builds_last hmax ha hw' hbase' (fun i hi => ?_) h hleft
      rw [hbase_rest i hi]
      exact Nat.le_add_right ..

end
end Flz.Http
