import Flz.Http.Receive
import Flz.Http.SizeLine

/-! # The accesses of `recvResponse`

The length of a chunk is whatever `strtol` gives as an `int`. The loop over the chunks stays in
its buffer and its body exactly when the lengths at the heads it reads allow it.
-/
namespace Flz.Http

/-- Where the head of a chunk has been read: what is behind it in the buffer, the parser, the
body so far and the connection. -/
structure ChunkPoint where
  data : List UInt8
  parser : HttpResponseParser
  body : List UInt8
  stream : Stream

/-- The points that the loop over the chunks comes to from a turn on. -/
inductive ChunkReaches (n : ℕ) :
    List UInt8 → HttpResponseParser → List UInt8 → Stream → ChunkPoint → Prop
  | here {data data' parser parser' body s s'}
      (head : chunkHead n data parser s = .ok (some (data', parser'), s')) :
      ChunkReaches n data parser body s ⟨data', parser', body, s'⟩
  | next {data data' parser parser' body body' s s' x}
      (turn : chunkTurn n data parser body s = .ok (some (data', parser', body'), s'))
      (more : parser'.chunksDone = false) (rest : ChunkReaches n data' parser' body' s' x) :
      ChunkReaches n data parser body s x

/-- The points that `recvResponse` comes to. -/
def ResponseReaches (n : ℕ) (s : Stream) (x : ChunkPoint) : Prop :=
  ∃ data parser s', headLoop responseParsing n [] .new s = .ok (some (data, parser), s') ∧
    parser.chunked = true ∧ ChunkReaches n data parser [] s' x

/-- The length can be added to and is not negative; or it is -1 while the buffer is empty, and
the byte that is then read, if any, is not the first one of the body. -/
def ChunkPoint.Fits (x : ChunkPoint) : Prop :=
  (0 ≤ x.parser.contentLen ∧ x.parser.contentLen + 2 ≤ intMax) ∨
    (x.parser.contentLen = -1 ∧ x.data = [] ∧ (x.body ≠ [] ∨ (x.stream.read 1).1 ≤ 0))

section
variable {n : ℕ} {data body : List UInt8} {parser : HttpResponseParser} {s : Stream}

/-! ## Heads -/

theorem execute_chunk_ok (hne : data ≠ []) (hlen : data.length ≤ intMax) (parser : HttpResponseParser) :
    ∃ t, parser.execute data true = .ok (data.drop (responseScanner.stop 1 data).1, t) := by
  obtain ⟨t, ht, -, hexec⟩ := HttpResponseParser.execute_spec hne hlen parser.init
  have hbody : t.bodyStart ≤ data.length := by
    rcases ht.bodyStart with hzero | hle
    · rw [hzero]
      exact Nat.zero_le _
    · exact hle
  rw [if_pos hbody] at hexec
  exact ⟨t, hexec⟩

/-- The head of a response: only an assertion can fail. -/
theorem headLoop_response (hmax : n ≤ intMax) (s : Stream) :
    Ends (· = .assertion) (fun data _ _ => 0 < n ∧ data.length ≤ n)
      (headLoop responseParsing n [] .new s) := by
  refine Ends.imp (headLoop_rule (P := responseParsing)
    (fun d p t (hd : d.length ≤ n) bytes t' _ hne hle => ?_) (fun _ _ _ h => h.2) (Nat.zero_le n)) (fun _ _ _ h => h.1)
  have hall : d ++ bytes ≠ [] := List.append_ne_nil_of_right_ne_nil d hne
  have hfit : (d ++ bytes).length ≤ n := by
    rw [List.length_append]
    omega
  have hpos := List.length_pos_iff.mpr hall
  obtain ⟨u, -, -, hexec⟩ := HttpResponseParser.execute_spec hall (hfit.trans hmax) p
  refine ⟨fun hlong => absurd hd (Nat.not_le.mpr hlong), fun e he => ?_, fun d' p' hok _ => ?_⟩
  · rw [show responseParsing.execute p (d ++ bytes) = _ from hexec] at he
    split at he <;> cases he
    rfl
  · obtain ⟨k, -, rfl, -⟩ := HttpResponseParser.execute_drop hok
    rw [List.length_drop]
    omega

/-- The head of a chunk: nothing can fail. -/
theorem chunkHead_fits (parser : HttpResponseParser) (s : Stream) (hmax : n ≤ intMax) (hdata : data.length ≤ n) :
    Ends (fun _ => False) (fun data _ _ => data.length ≤ n) (chunkHead n data parser s) := by
  have hexec : ∀ d : List UInt8, d ≠ [] → d.length ≤ n → ∀ p : HttpResponseParser,
      (∀ e, p.execute d true = .error e → False) ∧
        ∀ d' p', p.execute d true = .ok (d', p') → p'.hasError = false → d'.length ≤ n := by
    intro d hne hle p
    obtain ⟨t, ht⟩ := execute_chunk_ok hne (hle.trans hmax) p
    constructor
    · intro e he
      rw [ht] at he
      cases he
    · intro d' p' hok _
      obtain ⟨k, -, rfl, -⟩ := HttpResponseParser.execute_drop hok
      rw [List.length_drop]
      omega
  refine Ends.imp (chunkHead_rule (fun d p t (hd : d.length ≤ n) bytes t' _ hne hle => ?_)
    (fun _ _ _ h => h) (fun _ => hdata) (fun hne => hexec data hne hdata parser)) (fun _ _ _ h => h.1)
  have hfit : (d ++ bytes).length ≤ n := by
    rw [List.length_append]
    omega
  exact ⟨fun hlong => absurd hd (Nat.not_le.mpr hlong),
    hexec (d ++ bytes) (List.append_ne_nil_of_right_ne_nil d hne) hfit p⟩

/-! ## The bytes of a chunk -/

theorem restCount_eq (hmax : n ≤ intMax) {left : ℤ} (hleft : left > 0) :
    restCount n left = min left.toNat n := by
  unfold intMax at hmax
  rw [restCount, toInt_eq hmax]
  split <;> omega

/-- What is missing from a chunk comes, or nothing is returned. -/
theorem chunkRest_spec (hmax : n ≤ intMax) (body : List UInt8) (left : ℤ) (s : Stream) :
    (∃ s', chunkRest n body left s = .ok (none, s')) ∨
      ∃ more s', chunkRest n body left s = .ok (some (body ++ more), s') ∧
        (more.length : ℤ) = max left 0 := by
  induction hk : s.pending.length using Nat.strong_induction_on generalizing body left s with
  | _ k ih =>
    rw [chunkRest]
    by_cases hleft : left > 0
    · have hcount := restCount_eq hmax hleft
      rw [if_pos hleft, if_neg (by omega)]
      by_cases hread : (s.read (restCount n left)).1 ≤ 0
      · exact Or.inl ⟨_, dif_pos hread⟩
      · obtain ⟨hres, hle⟩ := (Stream.read_result (restCount n left) s).resolve_left hread
        rw [dif_neg hread]
        rcases ih _ (hk ▸ read_shrinks hread) (body ++ (s.read (restCount n left)).2.1)
          (left - (s.read (restCount n left)).1) (s.read (restCount n left)).2.2 rfl with hnone | hsome
        · exact Or.inl hnone
        · obtain ⟨more, s', hloop, hmore⟩ := hsome
          refine Or.inr ⟨(s.read (restCount n left)).2.1 ++ more, s', ?_, ?_⟩
          · rw [hloop, List.append_assoc]
          · rw [List.length_append]
            omega
    · rw [if_neg hleft]
      refine Or.inr ⟨[], s, by rw [List.append_nil], ?_⟩
      rw [List.length_nil]
      omega

theorem chunkRest_one (hn : 0 < n) (hmax : n ≤ intMax) (body : List UInt8) (s : Stream) :
    (∃ s', chunkRest n body 1 s = .ok (none, s')) ↔ (s.read 1).1 ≤ 0 := by
  have hcount : restCount n 1 = 1 := by
    rw [restCount_eq hmax Int.one_pos]
    omega
  rw [chunkRest, if_pos Int.one_pos, hcount, if_neg (by omega)]
  by_cases hread : (s.read 1).1 ≤ 0
  · rw [dif_pos hread]
    exact ⟨fun _ => hread, fun _ => ⟨_, rfl⟩⟩
  · obtain ⟨hres, hle⟩ := (Stream.read_result 1 s).resolve_left hread
    rw [dif_neg hread, chunkRest, if_neg (by omega)]
    constructor
    · rintro ⟨s', h⟩
      cases h
    · exact fun h => absurd h hread

/-- The accesses to the buffer and the body for one chunk. -/
theorem chunkBody_fails_iff (hn : 0 < n) (hmax : n ≤ intMax) (x : ChunkPoint) :
    (∃ e, chunkBody n x.data x.body x.parser.contentLen x.stream = .error e ∧ e ≠ .assertion) ↔
      ¬ x.Fits := by
  obtain ⟨data, parser, body, s⟩ := x
  rw [ChunkPoint.Fits, chunkBody]
  dsimp only
  generalize parser.contentLen = c
  by_cases hover : c + 2 > intMax
  · rw [if_pos hover]
    refine ⟨fun _ => ?_, fun _ => ⟨_, rfl, by simp⟩⟩
    rintro (⟨-, hle⟩ | ⟨rfl, -, -⟩)
    · omega
    · exact absurd hover (by decide)
  rw [if_neg hover]
  by_cases hin : c + 2 ≤ data.length
  · rw [if_pos hin]
    by_cases hneg : c < 0
    · rw [if_pos hneg]
      refine ⟨fun _ => ?_, fun _ => ⟨_, rfl, by simp⟩⟩
      rintro (⟨hle, -⟩ | ⟨rfl, rfl, -⟩)
      · omega
      · exact absurd hin (by decide)
    · rw [if_neg hneg]
      constructor
      · rintro ⟨e, he, -⟩
        cases he
      · exact fun h => absurd (Or.inl (by omega)) h
  · rw [if_neg hin]
    have hleft : (0 : ℤ) < c - data.length + 2 := by omega
    rcases chunkRest_spec hmax (body ++ data) (c - data.length + 2) s with hnone | hsome
    · obtain ⟨s', hnone⟩ := hnone
      rw [hnone]
      refine ⟨?_, fun h => absurd ?_ h⟩
      · rintro ⟨e, he, -⟩
        cases he
      by_cases hneg : c < 0
      · have hc : c = -1 := by omega
        have hdata : data = [] := List.eq_nil_of_length_eq_zero (by omega)
        subst hc hdata
        exact Or.inr ⟨rfl, rfl, Or.inr ((chunkRest_one hn hmax _ s).mp ⟨s', hnone⟩)⟩
      · exact Or.inl (by omega)
    · obtain ⟨more, s', hsome, hmore⟩ := hsome
      have htotal : ((body ++ data ++ more).length : ℤ) = body.length + (c + 2) := by
        rw [List.length_append, List.length_append]
        omega
      rw [hsome]
      dsimp only [bind, Except.bind]
      by_cases hshort : (body ++ data ++ more).length < 2
      · rw [if_pos hshort]
        refine ⟨fun _ => ?_, fun _ => ⟨_, rfl, by simp⟩⟩
        rintro (⟨hle, -⟩ | ⟨rfl, rfl, hbody | hread⟩)
        · omega
        · have := List.length_pos_iff.mpr hbody
          omega
        · obtain ⟨s'', hnone⟩ := (chunkRest_one hn hmax (body ++ []) s).mpr hread
          rw [show (-1 : ℤ) - (([] : List UInt8).length : ℤ) + 2 = 1 from rfl, hnone] at hsome
          cases hsome
      · rw [if_neg hshort]
        refine ⟨?_, fun h => absurd ?_ h⟩
        · rintro ⟨e, he, -⟩
          cases he
        by_cases hneg : c < 0
        · have hc : c = -1 := by omega
          have hdata : data = [] := List.eq_nil_of_length_eq_zero (by omega)
          subst hc hdata
          refine Or.inr ⟨rfl, rfl, Or.inl fun hnil => ?_⟩
          rw [hnil] at htotal hshort
          omega
        · exact Or.inl (by omega)

theorem chunkBody_data {data' body' : List UInt8} {contentLen : ℤ} {s' : Stream}
    (h : chunkBody n data body contentLen s = .ok (some (data', body'), s')) :
    data'.length ≤ data.length := by
  rw [chunkBody] at h
  split at h
  · cases h
  · split at h
    · split at h
      · cases h
      · cases h
        rw [List.length_drop]
        omega
    · cases hrest : chunkRest n (body ++ data) (contentLen - data.length + 2) s with
      | error e =>
        rw [hrest] at h
        cases h
      | ok out =>
        obtain ⟨out, t⟩ := out
        rw [hrest] at h
        cases out with
        | none => cases h
        | some all =>
          simp only [bind, Except.bind] at h
          split at h
          · cases h
          · cases h
            exact Nat.zero_le _

/-! ## The loop -/

/-- What is reached is reached in the first turn or after it. -/
theorem chunkReaches_iff {x : ChunkPoint} {d : List UInt8} {p : HttpResponseParser} {t : Stream}
    (hhead : chunkHead n data parser s = .ok (some (d, p), t)) :
    ChunkReaches n data parser body s x ↔ x = ⟨d, p, body, t⟩ ∨
      ∃ data' body' s', chunkBody n d body p.contentLen t = .ok (some (data', body'), s') ∧
        p.chunksDone = false ∧ ChunkReaches n data' p body' s' x := by
  constructor
  · intro h
    cases h with
    | here head =>
      rw [hhead] at head
      cases head
      exact Or.inl rfl
    | next turn more rest =>
      rw [chunkTurn, hhead] at turn
      dsimp only [bind, Except.bind] at turn
      cases hbody : chunkBody n d body p.contentLen t with
      | error e =>
        rw [hbody] at turn
        cases turn
      | ok out =>
        obtain ⟨out, u⟩ := out
        rw [hbody] at turn
        cases out with
        | none => cases turn
        | some out =>
          cases turn
          exact Or.inr ⟨_, _, _, rfl, more, rest⟩
  · rintro (rfl | ⟨data', body', s', hbody, more, rest⟩)
    · exact .here hhead
    · have turn : chunkTurn n data parser body s = .ok (some (data', p, body'), s') := by
        rw [chunkTurn, hhead]
        dsimp only [bind, Except.bind]
        rw [hbody]
        rfl
      exact .next turn more rest

/-- By induction on what is still to be consumed. -/
theorem chunkLoop_fails_iff (hn : 0 < n) (hmax : n ≤ intMax) (hdata : data.length ≤ n) :
    (∃ e, chunkLoop n data parser body s = .error e ∧ e ≠ .assertion) ↔
      ∃ x, ChunkReaches n data parser body s x ∧ ¬ x.Fits := by
  induction hk : data.length + s.pending.length using Nat.strong_induction_on
    generalizing data parser body s with
  | _ k ih =>
    have hfits := chunkHead_fits parser s hmax hdata
    rw [chunkLoop_eq, chunkTurn]
    cases hhead : chunkHead n data parser s with
    | error e =>
      rw [hhead] at hfits
      exact hfits.elim
    | ok out =>
      obtain ⟨out, t⟩ := out
      cases out with
      | none =>
        constructor
        · rintro ⟨e, he, -⟩
          cases he
        · rintro ⟨x, hx, -⟩
          cases hx with
          | here head =>
            rw [hhead] at head
            cases head
          | next turn =>
            rw [chunkTurn, hhead] at turn
            cases turn
      | some out =>
        obtain ⟨d, p⟩ := out
        have hless := chunkHead_shrinks hhead
        have hpoint := chunkBody_fails_iff hn hmax ⟨d, p, body, t⟩
        rw [hhead] at hfits
        simp only [chunkReaches_iff hhead]
        dsimp only [bind, Except.bind] at hpoint ⊢
        cases hbody : chunkBody n d body p.contentLen t with
        | error e =>
          rw [hbody] at hpoint
          dsimp only
          constructor
          · rintro ⟨e', he, hne⟩
            cases he
            exact ⟨_, Or.inl rfl, hpoint.mp ⟨e, rfl, hne⟩⟩
          · rintro ⟨x, rfl | ⟨_, _, _, h, -⟩, hx⟩
            · obtain ⟨e', he, hne⟩ := hpoint.mpr hx
              cases he
              exact ⟨e, rfl, hne⟩
            · cases h
        | ok out =>
          obtain ⟨out, u⟩ := out
          have hhere : (⟨d, p, body, t⟩ : ChunkPoint).Fits := by
            rw [hbody] at hpoint
            by_contra hnot
            obtain ⟨e, he, -⟩ := hpoint.mpr hnot
            cases he
          cases out with
          | none =>
            constructor
            · rintro ⟨e, he, -⟩
              cases he
            · rintro ⟨x, rfl | ⟨_, _, _, h, -⟩, hx⟩
              · exact absurd hhere hx
              · cases h
          | some out =>
            obtain ⟨d', b⟩ := out
            have hle := chunkBody_shrinks hbody
            have hfit : d'.length ≤ n := (chunkBody_data hbody).trans hfits
            dsimp only [Option.map, pure, Except.pure]
            cases hdone : p.chunksDone with
            | true =>
              constructor
              · rintro ⟨e, he, -⟩
                cases he
              · rintro ⟨x, rfl | ⟨_, _, _, -, h, -⟩, hx⟩
                · exact absurd hhere hx
                · cases h
            | false =>
              have hrest := @ih (d'.length + u.pending.length) (by omega) d' b p u hfit rfl
              rw [if_neg Bool.false_ne_true, hrest]
              constructor
              · rintro ⟨x, hreach, hx⟩
                exact ⟨x, Or.inr ⟨d', b, u, rfl, rfl, hreach⟩, hx⟩
              · rintro ⟨x, rfl | ⟨_, _, _, h, -, hreach⟩, hx⟩
                · exact absurd hhere hx
                · cases h
                  exact ⟨x, hreach, hx⟩

/-- Every access is made to bytes that are there: only an assertion ends the call otherwise. -/
def Inside {α : Type} (out : Except Fault α) : Prop := ∀ e, out = .error e → e = .assertion

variable {lexicalCast : List UInt8 → Option UInt64}

theorem recvResponse_fails_iff (hmax : n ≤ intMax) :
    ¬ Inside (recvResponse lexicalCast n s) ↔ ∃ x, ResponseReaches n s x ∧ ¬ x.Fits := by
  have hhead := headLoop_response hmax s
  unfold ResponseReaches Inside
  rw [recvResponse]
  cases hloop : headLoop responseParsing n [] .new s with
  | error e =>
    rw [hloop] at hhead
    refine ⟨fun h => absurd (fun e' he => ?_) h, fun ⟨_, ⟨_, _, _, h, _⟩, _⟩ => (by cases h)⟩
    cases he
    exact hhead
  | ok out =>
    obtain ⟨out, t⟩ := out
    cases out with
    | none =>
      refine ⟨fun h => absurd (fun e' he => ?_) h, fun ⟨_, ⟨_, _, _, h, _⟩, _⟩ => (by cases h)⟩
      cases he
    | some out =>
      obtain ⟨data, parser⟩ := out
      rw [hloop] at hhead
      obtain ⟨hn, hdata⟩ := hhead
      dsimp only [bind, Except.bind]
      cases hchunked : parser.chunked with
      | false =>
        refine ⟨fun h => absurd (fun e' he => ?_) h, ?_⟩
        · rw [if_neg Bool.false_ne_true] at he
          split at he <;> cases he
        · rintro ⟨_, ⟨_, _, _, h, hc, _⟩, _⟩
          cases h
          rw [hchunked] at hc
          cases hc
      | true =>
        have hfails := @chunkLoop_fails_iff n data [] parser t hn hmax hdata
        rw [if_pos rfl]
        constructor
        · intro h
          obtain ⟨e, he⟩ := not_forall.mp h
          obtain ⟨he, hne⟩ := Classical.not_imp.mp he
          cases hrun : chunkLoop n data parser [] t with
          | ok out =>
            rw [hrun] at he
            cases he
          | error e' =>
            rw [hrun] at he
            cases he
            obtain ⟨x, hx, hfit⟩ := hfails.mp ⟨e, hrun, hne⟩
            exact ⟨x, ⟨data, parser, t, rfl, hchunked, hx⟩, hfit⟩
        · rintro ⟨x, ⟨_, _, _, h, _, hx⟩, hfit⟩ hall
          cases h
          obtain ⟨e, he, hne⟩ := hfails.mpr ⟨x, hx, hfit⟩
          rw [he] at hall
          exact hne (hall e rfl)

end

/-! ## Responses that come at once -/

theorem exists_of_any {ε α : Type} {out : Except ε α} {p : α → Bool} (h : out.toOption.any p = true) :
    ∃ a, out = .ok a ∧ p a = true := by
  cases out with
  | error e => cases h
  | ok a => exact ⟨a, rfl, h⟩

/-- A head that is parsed with one read. -/
theorem headLoop_whole {n : ℕ} (hmax : n ≤ intMax) (text : List UInt8) (hne : text ≠ [])
    (hlen : text.length < n) {p : List UInt8 × HttpResponseParser → Bool}
    (h : (HttpResponseParser.new.execute text false).toOption.any
      (fun o => !o.2.hasError && o.2.isFinished == 1 && p o) = true) :
    ∃ data parser s, headLoop responseParsing n [] .new (.connected (.whole text)) =
      .ok (some (data, parser), s) ∧ p (data, parser) = true ∧ parser.hasError = false := by
  obtain ⟨⟨data, parser⟩, hexec, hp⟩ := exists_of_any h
  rw [Bool.and_eq_true, Bool.and_eq_true, Bool.not_eq_true', beq_iff_eq] at hp
  obtain ⟨⟨herr, hfinished⟩, hp⟩ := hp
  obtain ⟨k, -, rfl, -⟩ := HttpResponseParser.execute_drop hexec
  have hshort : ¬ (text.drop k).length = n := by
    rw [List.length_drop]
    omega
  refine ⟨text.drop k, parser, (Stream.connected (.whole text)).skip text.length, ?_, hp, herr⟩
  rw [headLoop_arrives hmax (arrives_whole hmax hne (Nat.le_of_lt hlen))]
  rw [show responseParsing.execute .new text = _ from hexec]
  have hdone : responseParsing.isFinished parser ≠ 0 := ne_of_eq_of_ne hfinished Int.one_ne_zero
  dsimp only
  rw [if_neg (show ¬ responseParsing.hasError parser = true from Bool.eq_false_iff.mp herr),
    if_neg hshort, if_pos hdone]

/-- A response without a body. -/
def noContent : List UInt8 := ascii "HTTP/1.1 204 No Content\r\n\r\n"

/-- A server that announces a chunk of 2^31 bytes. -/
def negativeChunk : List UInt8 :=
  ascii "HTTP/1.1 200 OK\r\nTransfer-Encoding: chunked\r\n\r\n80000000\r\n"

end Flz.Http
