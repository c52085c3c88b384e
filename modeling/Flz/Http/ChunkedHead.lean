import Flz.Http.ResponseHead

/-! # A chunked response whose head arrives in pieces

Every piece is given to the parser that has read the ones before it. It forgets its marks in
between, and so the version is known only if it comes with one read, or if the blank behind it
begins one.
-/
namespace Flz.Http
open Lib

/-- The states in which a head is read. -/
def ResponseRunning (s : ℕ) : Prop := 0 < s ∧ s < 120

set_option maxRecDepth 20000 in
theorem responseScanner_running {s t : ℕ} {xs : List UInt8} (hs : ResponseRunning s)
    (h : responseScanner.Walks s xs t) : ResponseRunning t := by
  apply Scanner.reading_of_checkRows ?_ hs h
  decide +kernel

namespace HttpResponseParser
variable {s t u : HttpResponseParser} {p : ℕ} {buffer ys : List UInt8} {a : HttpClientParserAction}

/-! ## What the actions leave as it is -/

theorem act_keeps (h : act buffer p a s = .ok t) :
    t.data.body = s.data.body ∧ (a ≠ .done → t.bodyStart = s.bodyStart) ∧
      (a ≠ .httpVersion → t.error = s.error) := by
  cases a with
  | writeValue =>
    rw [act, onResponseHttpField] at h
    split at h
    · cases h
      exact ⟨rfl, fun _ => rfl, fun _ => rfl⟩
    · cases hkey : stdString buffer s.fieldStart s.fieldLen with
      | error e =>
        rw [hkey] at h
        cases h
      | ok key =>
        cases hval : stdString buffer s.mark (LEN s.mark p) with
        | error e =>
          rw [hkey, hval] at h
          cases h
        | ok val =>
          rw [hkey, hval] at h
          cases h
          exact ⟨rfl, fun _ => rfl, fun _ => rfl⟩
  | reasonPhrase =>
    rw [act, onResponseReason] at h
    cases htext : stdString buffer s.mark (LEN s.mark p) with
    | error e =>
      rw [htext] at h
      cases h
    | ok text =>
      rw [htext] at h
      cases h
      exact ⟨rfl, fun _ => rfl, fun _ => rfl⟩
  | httpVersion =>
    cases h
    refine ⟨?_, fun _ => ?_, fun hne => absurd rfl hne⟩ <;>
    · unfold onResponseVersion
      split <;> rfl
  | done =>
    cases h
    exact ⟨rfl, fun hne => absurd rfl hne, fun _ => rfl⟩
  | _ =>
    cases h
    exact ⟨rfl, fun _ => rfl, fun _ => rfl⟩

/-- What a call makes of the parser, when `es` is performed and `e` is how the automaton ends. -/
structure Proceeds (es : List (ℕ × HttpClientParserAction)) (e : Scanner.Ending)
    (s t : HttpResponseParser) : Prop where
  cs : t.cs = stateAfter e
  error : (∀ f ∈ es, f.2 ≠ .httpVersion) → t.error = s.error
  body : t.data.body = s.data.body
  bodyStart : (∀ f ∈ es, f.2 ≠ .done) → t.bodyStart = s.bodyStart
  chunked : t.chunked = (s.chunked || es.any (fun f => f.2 == .transChunked || f.2 == .chunkSize))

theorem execute_proceeds (hne : buffer ≠ []) (hlen : buffer.length ≤ intMax) (hbody : s.bodyStart = 0) :
    ∃ u, Scanner.perform (act buffer) (responseScanner.trace 0 s.cs buffer) s.reset = .ok u ∧
      Proceeds (responseScanner.trace 0 s.cs buffer) (responseScanner.stop s.cs buffer).2 s
        { u with cs := stateAfter (responseScanner.stop s.cs buffer).2 } ∧
      s.execute buffer false = .ok (buffer.drop (responseScanner.stop s.cs buffer).1,
        { u with cs := stateAfter (responseScanner.stop s.cs buffer).2 }) := by
  have hpos : 0 < buffer.length := List.length_pos_iff.mpr hne
  obtain ⟨u, hperform, hu⟩ := @perform_spec s.reset 0 buffer _ hlen (upto_reset s) hpos _
    (Scanner.trace_pairwise 0 s.cs buffer) (fun _ he => ⟨Nat.zero_le _, Scanner.position_lt he⟩)
  refine ⟨u, hperform, ?_, ?_⟩
  · exact {
      cs := rfl
      error := hu.error
      body := Scanner.perform_keeps (fun r => r.data.body) (fun _ => false)
        (fun _ _ _ _ _ hact => (act_keeps hact).1) (fun _ _ => rfl) hperform
      bodyStart := fun hdone => Scanner.perform_keeps (fun r => r.bodyStart) (· == .done)
        (fun _ _ _ _ ha hact => (act_keeps hact).2.1 (bne_iff_ne.mp (by rw [bne, ha]; rfl)))
        (fun f hf => beq_eq_false_iff_ne.mpr (hdone f hf)) hperform
      chunked := hu.chunked }
  · refine execute_run ?_ hne hlen (by omega)
    rw [Scanner.run_eq, hperform, Nat.zero_add]
    rfl

end HttpResponseParser

/-! ## The version -/

open HttpResponseParser

theorem trace_no_version (p : ℕ) (ys : List UInt8) :
    ∀ e ∈ responseScanner.trace p 16 ys, e.2 ≠ .httpVersion := by
  intro e he heq
  have hnone := responseScanner_version.trace_after (show (16 == 3 || decide (16 ≤ 16)) = true from rfl) p ys
  exact List.filter_eq_nil_iff.mp hnone e he (beq_iff_eq.mpr heq)

/-- A parser that has read `w` up to the place `i` of a head that it has not seen the end of. -/
structure Reached (w : List UInt8) (i : ℕ) (s : HttpResponseParser) : Prop where
  walks : responseScanner.Walks 1 (w.take i) s.cs
  error : s.error = 0
  body : s.data.body = []
  bodyStart : s.bodyStart = 0
  chunked : s.chunked = (responseScanner.trace 0 1 (w.take i)).any
    (fun f => f.2 == .transChunked || f.2 == .chunkSize)

theorem reached_new (w : List UInt8) : Reached w 0 .new where
  walks := Scanner.Walks.nil
  error := rfl
  body := rfl
  bodyStart := rfl
  chunked := rfl

/-- The next bytes are scanned as a part of the whole text. -/
theorem Reached.stop_comes {n i : ℕ} {st : Stream} {xs : List UInt8} {s : HttpResponseParser}
    (hs : Reached st.pending i s) (hxs : Comes n st i xs) :
    responseScanner.stop 1 (st.pending.take (i + xs.length)) =
      (i + (responseScanner.stop s.cs xs).1, (responseScanner.stop s.cs xs).2) := by
  have hi : i ≤ st.pending.length := by
    have := congrArg List.length hxs.take
    have := List.length_pos_iff.mpr hxs.ne_nil
    rw [List.length_take, List.length_drop] at *
    omega
  rw [List.take_add, hxs.take, hs.walks.stop_append, List.length_take, min_eq_left hi]

namespace ResponseHead
variable {h : ResponseHead} {w rest xs ys : List UInt8} {i : ℕ} {s u : HttpResponseParser}

theorem versionText_length (h : ResponseHead) : h.versionText.length = 8 := rfl

theorem trace_version (h : ResponseHead) (ys : List UInt8) :
    responseScanner.trace 0 1 (h.versionText ++ 32 :: ys) =
      [(0, .mark), (8, .httpVersion)] ++ responseScanner.trace 9 16 ys := by
  have hwalk : responseScanner.Walks 1 (h.versionText ++ [32]) 16 := h.version_walk.append blank_walk
  have htrace : responseScanner.trace 0 1 (h.versionText ++ [32]) = [(0, .mark), (8, .httpVersion)] := by
    unfold versionText
    rcases h.version_known with hv | hv <;> rw [hv] <;> rfl
  rw [← List.singleton_append, ← List.append_assoc, hwalk.trace_append, htrace]
  rfl

/-- The version is read behind its eighth byte. -/
theorem version_place (h : ResponseHead) {j k : ℕ}
    (hmem : (j, .httpVersion) ∈ responseScanner.trace 0 1 ((h.versionText ++ 32 :: ys).take k)) : j = 8 := by
  obtain ⟨es, hes⟩ := Scanner.trace_initial (m := responseScanner) 0 1
    ((h.versionText ++ 32 :: ys).take k) ((h.versionText ++ 32 :: ys).drop k)
  rw [List.take_append_drop, h.trace_version] at hes
  have hall : (j, HttpClientParserAction.httpVersion) ∈
      [(0, .mark), (8, .httpVersion)] ++ responseScanner.trace 9 16 ys := by
    rw [hes]
    exact List.mem_append_left es hmem
  rcases List.mem_append.mp hall with hfirst | hlater
  · simpa using hfirst
  · exact absurd rfl (trace_no_version 9 ys _ hlater)

/-- A version that is whole, or of which only the blank behind it is left, is no error. -/
theorem version_kept (h : ResponseHead)
    (hbuffer : (s.cs = 1 ∧ xs = h.versionText ++ 32 :: ys) ∨ (s.cs = 15 ∧ xs = 32 :: ys))
    (hperform : Scanner.perform (act xs) (responseScanner.trace 0 s.cs xs) s.reset = .ok u) :
    u.error = s.error := by
  have hrest : ∀ p r, Scanner.perform (act xs) (responseScanner.trace p 16 ys) r = .ok u →
      u.error = r.error := fun p r hr =>
    Scanner.perform_keeps (fun r => r.error) (· == .httpVersion)
      (fun _ _ _ _ ha hact => (act_keeps hact).2.2 (bne_iff_ne.mp (by rw [bne, ha]; rfl)))
      (fun f hf => beq_eq_false_iff_ne.mpr (trace_no_version p ys f hf)) hr
  rcases hbuffer with ⟨hcs, hxs⟩ | ⟨hcs, hxs⟩
  · have hversion : ∃ v, versionOf xs 8 = some v := by
      rw [hxs, versionText]
      rcases h.version_known with hv | hv <;> rw [hv] <;> exact ⟨_, rfl⟩
    obtain ⟨v, hv⟩ := hversion
    have hfirst : Scanner.perform (act xs) [(0, .mark), (8, .httpVersion)] s.reset =
        .ok { s.reset with mark := 0, data := { s.data with version := v } } := by
      have hact : act xs 8 .httpVersion { s.reset with mark := 0 } =
          .ok { s.reset with mark := 0, data := { s.data with version := v } } := by
        rw [act, onResponseVersion, List.drop_zero, show LEN 0 8 = 8 from rfl, hv]
        rfl
      exact hact
    rw [hcs] at hperform
    nth_rewrite 2 [hxs] at hperform
    rw [h.trace_version, Scanner.perform_append, hfirst] at hperform
    have hlast := hrest 9 _ hperform
    exact hlast
  · have hfirst : Scanner.perform (act xs) [(0, .httpVersion)] s.reset =
        .ok { s.reset with data := { s.data with version := 0x11 } } := rfl
    have htrace : responseScanner.trace 0 15 (32 :: ys) =
        [(0, .httpVersion)] ++ responseScanner.trace 1 16 ys := rfl
    rw [hcs] at hperform
    nth_rewrite 2 [hxs] at hperform
    rw [htrace, Scanner.perform_append, hfirst] at hperform
    have hlast := hrest 1 _ hperform
    exact hlast

/-- The text that is behind a version and a blank in the head and after it. -/
theorem text_append (h : ResponseHead) (rest : List UInt8) :
    h.text ++ rest = h.versionText ++ 32 :: (h.afterVersion ++ rest) := by
  rw [text, List.append_assoc, List.cons_append]

theorem text_pos (h : ResponseHead) : 0 < h.text.length := by
  rw [text, List.length_append, versionText_length]
  omega

/-- What a read of the head and of what follows it makes of the parser. -/
theorem execute_reached (hw : w = h.text ++ rest) (hs : Reached w i s) (hne : xs ≠ [])
    (hlen : xs.length ≤ intMax) (hxs : (w.drop i).take xs.length = xs)
    (hversion : i ≤ 8 → 8 < i + xs.length → i = 0 ∨ i = 8) :
    ∃ t, s.execute xs false = .ok (xs.drop (responseScanner.stop s.cs xs).1, t) ∧
      t.cs = stateAfter (responseScanner.stop s.cs xs).2 ∧ t.error = 0 ∧ t.data.body = [] ∧
      ((∀ f ∈ responseScanner.trace 0 s.cs xs, f.2 ≠ .done) → t.bodyStart = 0) ∧
      t.chunked = (responseScanner.trace 0 1 (w.take (i + xs.length))).any
        (fun f => f.2 == .transChunked || f.2 == .chunkSize) := by
  have hi : i < w.length := by
    have := congrArg List.length hxs
    have := List.length_pos_iff.mpr hne
    rw [List.length_take, List.length_drop] at *
    omega
  have htake : w.take (i + xs.length) = w.take i ++ xs := by rw [List.take_add, hxs]
  have htrace : responseScanner.trace 0 1 (w.take (i + xs.length)) =
      responseScanner.trace 0 1 (w.take i) ++
        (responseScanner.trace 0 s.cs xs).map (fun e => (i + e.1, e.2)) := by
    rw [htake, hs.walks.trace_append, List.length_take, min_eq_left hi.le, Nat.zero_add,
      ← Scanner.trace_add, Nat.add_zero]
  obtain ⟨u, hperform, hu, hexec⟩ := execute_proceeds hne hlen hs.bodyStart
  refine ⟨_, hexec, hu.cs, ?_, hu.body.trans hs.body, fun hdone => (hu.bodyStart hdone).trans hs.bodyStart, ?_⟩
  · rw [text_append] at hw
    by_cases hin : i ≤ 8 ∧ 8 < i + xs.length
    · have herror : u.error = s.error := by
        rcases hversion hin.1 hin.2 with rfl | rfl
        · have hcs : s.cs = 1 := (Scanner.Ending.reading.inj hs.walks).symm
          have hlong : (h.versionText ++ [32]).length ≤ xs.length := by
            rw [List.length_append, versionText_length, List.length_singleton]
            omega
          rw [List.drop_zero, hw, ← List.singleton_append, ← List.append_assoc, List.take_append,
            List.take_of_length_le hlong, List.append_assoc, List.singleton_append] at hxs
          exact h.version_kept (Or.inl ⟨hcs, hxs.symm⟩) hperform
        · have hcs : s.cs = 15 := by
            have hwalk := hs.walks
            rw [hw, ← h.versionText_length, List.take_left] at hwalk
            exact Scanner.Ending.reading.inj (hwalk.symm.trans h.version_walk)
          obtain ⟨k, hk⟩ := Nat.exists_eq_succ_of_ne_zero (List.length_pos_iff.mpr hne).ne'
          rw [hw, ← h.versionText_length, List.drop_left, hk, List.take_succ_cons] at hxs
          exact h.version_kept (Or.inr ⟨hcs, hxs.symm⟩) hperform
      exact herror.trans hs.error
    · refine (hu.error fun f hf heq => hin ?_).trans hs.error
      have hmem : (i + f.1, .httpVersion) ∈ responseScanner.trace 0 1 (w.take (i + xs.length)) := by
        rw [htrace]
        refine List.mem_append_right _ (List.mem_map.mpr ⟨f, hf, ?_⟩)
        rw [heq]
      rw [hw] at hmem
      have hplace := h.version_place hmem
      have hlt := Scanner.position_lt hf
      omega
  · rw [hu.chunked, hs.chunked, htrace, List.any_append, List.any_map]
    rfl

/-- The flag for chunks is set in what is read when the end of the head is. -/
theorem announced_text (h : ResponseHead) (hannounce : h.Announces) (rest : List UInt8) :
    (responseScanner.trace 0 1 (h.text ++ rest)).any
      (fun f => f.2 == .transChunked || f.2 == .chunkSize) = true := by
  obtain ⟨f, hf, hset⟩ := h.announced hannounce 9
  obtain ⟨es, hes⟩ := Scanner.trace_initial (m := responseScanner) 9 16 h.afterVersion rest
  rw [text_append, trace_version, hes, List.any_append, List.any_append, Bool.or_eq_true, Bool.or_eq_true]
  refine Or.inr (Or.inl (List.any_eq_true.mpr ⟨f, hf, ?_⟩))
  rw [hset]
  rfl

/-- However the head arrives, if its version is kept whole it is read without an error, and the
read that ends it brings what is then in the buffer. -/
theorem headLoop_chunked {n : ℕ} {st : Stream} (hn : 0 < n) (hmax : n ≤ intMax)
    (hopen : st.closed = false) (hclose : h.Closes) (hannounce : h.Announces)
    (hw : st.pending = h.text ++ rest)
    (hversion : Pieces.readStart n st.input.parts 8 = 0 ∨ Pieces.readStart n st.input.parts 8 = 8) :
    ∃ t, headLoop responseParsing n [] .new st =
        .ok (some ((st.pending.take (Pieces.readEnd n st.input.parts (h.text.length - 1))).drop
          h.text.length, t), st.skip (Pieces.readEnd n st.input.parts (h.text.length - 1))) ∧
      t.error = 0 ∧ t.data.body = [] ∧ t.chunked = true := by
  have hlength : h.text.length ≤ st.pending.length := by
    rw [hw, List.length_append]
    exact Nat.le_add_right _ _
  have hplace : ∀ i xs, Comes n st i xs → i ≤ 8 → 8 < i + xs.length → i = 0 ∨ i = 8 := by
    intro i xs hxs hle hlt
    have hstart := hxs.start (8 - i) (by omega)
    rw [Nat.add_sub_cancel' hle] at hstart
    rwa [hstart] at hversion
  refine headLoop_finds hn hmax hopen h.text_pos hlength (I := Reached st.pending) ?_ ?_ (reached_new _)
  · intro i xs s hs hxs hlt
    obtain ⟨t, hexec, hcs, herror, hbody, hstart, hchunked⟩ := execute_reached hw hs hxs.ne_nil
      (hxs.length_le.trans hmax) hxs.take (hplace i xs hxs)
    have hreading : ∃ v, responseScanner.Walks 1 (st.pending.take (i + xs.length)) v := by
      by_contra hnot
      have hstop := (Scanner.stop_append (not_exists.mp hnot) (st.pending.drop (i + xs.length))).1
      rw [List.take_append_drop, hw, h.stop_text hclose] at hstop
      have hle := Scanner.stop_le (m := responseScanner) 1 ((h.text ++ rest).take (i + xs.length))
      rw [← hstop, List.length_take] at hle
      dsimp only at hle
      omega
    obtain ⟨v, hv⟩ := hreading
    have hpiece : responseScanner.Walks s.cs xs v := by
      rw [Scanner.Walks, hs.stop_comes hxs] at hv
      exact hv
    have hrunning := responseScanner_running (show ResponseRunning 1 from ⟨by decide, by decide⟩) hv
    have hcs' : t.cs = v := by rw [hcs, hpiece]; rfl
    have hnone : xs.drop (responseScanner.stop s.cs xs).1 = [] := by
      rw [Scanner.stop_reading hpiece, List.drop_length]
    refine ⟨t, ?_, ?_, ?_, ?_⟩
    · rw [← hnone]
      exact hexec
    · exact hasError_false herror (hcs'.symm ▸ hrunning.1.ne')
    · change t.isFinished = 0
      rw [HttpResponseParser.isFinished, hcs', if_neg hrunning.1.ne', if_neg hrunning.2.ne]
    · exact {
        walks := hcs'.symm ▸ hv
        error := herror
        body := hbody
        bodyStart := hstart fun f hf => beq_eq_false_iff_ne.mp (Scanner.trace_reading hpiece f hf)
        chunked := hchunked }
  · intro i xs s hs hxs hlt hge
    obtain ⟨t, hexec, hcs, herror, hbody, -, hchunked⟩ := execute_reached hw hs hxs.ne_nil
      (hxs.length_le.trans hmax) hxs.take (hplace i xs hxs)
    have hall : st.pending.take (i + xs.length) =
        h.text ++ rest.take (i + xs.length - h.text.length) := by
      rw [hw, List.take_append, List.take_of_length_le hge]
    have hstop := hs.stop_comes hxs
    rw [hall, h.stop_text hclose, Prod.mk.injEq] at hstop
    obtain ⟨hk, hend⟩ := hstop
    have hk' : (responseScanner.stop s.cs xs).1 = h.text.length - i := by omega
    have hcs' : t.cs = 120 := by rw [hcs, ← hend]; rfl
    rw [hall, h.announced_text hannounce] at hchunked
    refine ⟨t, ?_, ?_, ?_, herror, hbody, hchunked⟩
    · rw [← hk']
      exact hexec
    · exact hasError_false herror (by rw [hcs']; decide)
    · change t.isFinished ≠ 0
      rw [HttpResponseParser.isFinished, hcs']
      decide

end ResponseHead
end Flz.Http
