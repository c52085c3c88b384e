import Flz.Http.Message

/-! # Reading a head

The loop with which `recvRequest` and `recvResponse` read a head: it fills the buffer, lets the
parser consume it, and stops at an error, at a full buffer or when the parser is finished.
-/
namespace Flz.Http
variable {ρ : Type}

/-- What the loop uses of a parser. -/
structure Parsing (ρ : Type) where
  /-- The bytes that are left in the buffer, and the parser after it. -/
  execute : ρ → List UInt8 → Except Fault (List UInt8 × ρ)
  hasError : ρ → Bool
  isFinished : ρ → ℤ

theorem read_shrinks {s : Stream} {n : ℕ} (h : ¬ (s.read n).1 ≤ 0) :
    (s.read n).2.2.pending.length < s.pending.length := by
  obtain ⟨hlen, -⟩ := (Stream.read_result n s).resolve_left h
  rw [← Stream.read_pending n s, List.length_append]
  omega

/-- `data` are the first `offset` bytes of the buffer. The result is what is left there after a
finished head, and the parser. -/
def headLoop (P : Parsing ρ) (buffSize : ℕ) (data : List UInt8) (parser : ρ) (s : Stream) :
    Except Fault (Option (List UInt8 × ρ) × Stream) :=
  if _h : (s.read (buffSize - data.length)).1 ≤ 0 then
    .ok (none, (s.read (buffSize - data.length)).2.2.close)
  else
    let bytes := (s.read (buffSize - data.length)).2.1
    let s' := (s.read (buffSize - data.length)).2.2
    if (data ++ bytes).length > buffSize then
      .error (.outside (data ++ bytes).length buffSize)
    else
      match P.execute parser (data ++ bytes) with
      | .error e => .error e
      | .ok (data', parser') =>
        if P.hasError parser' then .ok (none, s'.close)
        else if (data'.length : ℤ) = toInt buffSize then .ok (none, s'.close)
        else if P.isFinished parser' ≠ 0 then .ok (some (data', parser'), s')
        else headLoop P buffSize data' parser' s'
termination_by s.pending.length
decreasing_by exact read_shrinks _h

/-- What holds of every way in which a loop ends that does not give up. -/
def Ends (bad : Fault → Prop) (post : List UInt8 → ρ → Stream → Prop) :
    Except Fault (Option (List UInt8 × ρ) × Stream) → Prop
  | .error e => bad e
  | .ok (none, _) => True
  | .ok (some (data, parser), s) => post data parser s

theorem Ends.imp {bad : Fault → Prop} {post post' : List UInt8 → ρ → Stream → Prop}
    {out : Except Fault (Option (List UInt8 × ρ) × Stream)} (h : Ends bad post out)
    (himp : ∀ data parser s, post data parser s → post' data parser s) : Ends bad post' out := by
  match out with
  | .error e => exact h
  | .ok (none, s) => exact trivial
  | .ok (some (data, parser), s) => exact himp data parser s h

/-- What one turn leads to from where the parser has run, the loop leads to: by induction on the
bytes that are still to come. -/
theorem headLoop_rule {P : Parsing ρ} {n : ℕ} {bad : Fault → Prop}
    {pre post : List UInt8 → ρ → Stream → Prop}
    (hturn : ∀ data parser s, pre data parser s → ∀ bytes s', s.read (n - data.length) =
        ((bytes.length : ℤ), bytes, s') → bytes ≠ [] → bytes.length ≤ n - data.length →
      (data.length > n → ∀ e, bad e) ∧ (∀ e, P.execute parser (data ++ bytes) = .error e → bad e) ∧
        ∀ data' parser', P.execute parser (data ++ bytes) = .ok (data', parser') →
          P.hasError parser' = false → post data' parser' s')
    (hback : ∀ data parser s, post data parser s → pre data parser s)
    {data : List UInt8} {parser : ρ} {s : Stream} (h : pre data parser s) :
    Ends bad (fun data' parser' s' => post data' parser' s' ∧ P.isFinished parser' ≠ 0)
      (headLoop P n data parser s) := by
  induction hk : s.pending.length using Nat.strong_induction_on generalizing data parser s with
  | _ k ih =>
    rw [headLoop]
    by_cases hread : (s.read (n - data.length)).1 ≤ 0
    · rw [dif_pos hread]
      exact trivial
    · obtain ⟨hres, hle⟩ := (Stream.read_result (n - data.length) s).resolve_left hread
      have hshrink := read_shrinks hread
      have hne : (s.read (n - data.length)).2.1 ≠ [] := by
        intro hnil
        rw [hnil] at hres
        exact hread (Int.le_of_eq hres)
      have hout := hturn data parser s h (s.read (n - data.length)).2.1 (s.read (n - data.length)).2.2
        (Prod.ext hres rfl) hne hle
      rw [dif_neg hread]
      generalize (s.read (n - data.length)).2.1 = bytes at hout hle hne
      generalize (s.read (n - data.length)).2.2 = s' at hout hshrink
      obtain ⟨hlong, herror, hok⟩ := hout
      dsimp only
      split
      · rename_i hover
        rw [List.length_append] at hover
        exact hlong (by omega) _
      · cases hexec : P.execute parser (data ++ bytes) with
        | error e => exact herror e hexec
        | ok res =>
          obtain ⟨data', parser'⟩ := res
          dsimp only
          split
          · exact trivial
          · rename_i herr
            have hpost := hok data' parser' hexec (Bool.eq_false_iff.mpr herr)
            split
            · exact trivial
            · split
              · rename_i hfinished
                exact ⟨hpost, hfinished⟩
              · exact ih s'.pending.length (hk ▸ hshrink) (hback _ _ _ hpost) rfl

/-- A read of at most `n` bytes into an empty buffer. -/
structure Arrives (n : ℕ) (st : Stream) (xs : List UInt8) : Prop where
  read : st.read n = ((xs.length : ℤ), xs, st.skip xs.length)
  ne_nil : xs ≠ []
  length_le : xs.length ≤ n
  append : xs ++ (st.skip xs.length).pending = st.pending
  start : ∀ i < xs.length, Lib.Pieces.readStart n st.input.parts i = 0
  start_add : ∀ i, Lib.Pieces.readStart n st.input.parts (xs.length + i) =
    xs.length + Lib.Pieces.readStart n (st.skip xs.length).input.parts i

theorem exists_arrives {n : ℕ} (hn : 0 < n) (hmax : n ≤ intMax) {st : Stream}
    (hopen : st.closed = false) (hp : st.pending ≠ []) : ∃ xs, Arrives n st xs := by
  have hread := Stream.read_next hopen hp n
  have hskip := Lib.Pieces.next_skip n st.input
  rw [min_eq_left hmax, hskip] at hread
  refine ⟨(st.input.next n).1, {
    read := hread
    ne_nil := Lib.Pieces.next_ne_nil hn hp
    length_le := Lib.Pieces.next_length_le n st.input
    append := ?_
    start := fun _ hi => Lib.Pieces.readStart_next hi
    start_add := ?_ }⟩
  · have happ := Lib.Pieces.next_append n st.input
    rwa [hskip] at happ
  · have hadd := Lib.Pieces.readStart_add hn (fun h0 => hp (Lib.Pieces.flatten_eq_nil.mpr h0))
    rwa [hskip] at hadd

theorem Arrives.closed {n : ℕ} {st : Stream} {xs : List UInt8} (h : Arrives n st xs) :
    st.closed = false := by
  cases hclosed : st.closed with
  | false => rfl
  | true =>
    have hread := (Stream.read_closed hclosed n).symm.trans h.read
    simp only [Prod.mk.injEq] at hread
    exact absurd hread.2.1.symm h.ne_nil

/-- The read ends behind what arrives with it. -/
theorem Arrives.readEnd {n i : ℕ} {st : Stream} {xs : List UInt8} (h : Arrives n st xs) (hn : 0 < n)
    (hi : i < xs.length) : Lib.Pieces.readEnd n st.input.parts i = xs.length := by
  have happ := congrArg List.length h.append
  rw [List.length_append] at happ
  have htotal : st.input.parts.flatten.length = st.pending.length := rfl
  have hi' : i < st.input.parts.flatten.length := by omega
  obtain ⟨hlt, hle⟩ := Lib.Pieces.lt_readEnd hn hi'
  rw [htotal] at hle
  by_contra hne
  rcases Nat.lt_or_gt_of_ne hne with hshort | hlong
  · have hend : Lib.Pieces.readEnd n st.input.parts i < st.input.parts.flatten.length := by omega
    have hiff := Lib.Pieces.lt_readEnd_iff hn hlt.le hend
    rw [h.start _ hshort] at hiff
    exact Nat.lt_irrefl _ (hiff.mpr (Nat.zero_le i))
  · have hiff := Lib.Pieces.lt_readEnd_iff hn hi.le (Nat.lt_of_lt_of_le hlong hle)
    have hstart := h.start_add 0
    rw [Nat.add_zero] at hstart
    rw [hstart] at hiff
    have := hiff.mp hlong
    omega

theorem Arrives.next_eq {n : ℕ} (hmax : n ≤ intMax) {st : Stream} {xs : List UInt8}
    (h : Arrives n st xs) : (st.input.next n).1 = xs := by
  have hp : st.pending ≠ [] := by
    rw [← h.append]
    exact List.append_ne_nil_of_left_ne_nil h.ne_nil _
  have hread := Stream.read_next h.closed hp n
  rw [min_eq_left hmax, h.read] at hread
  exact (congrArg (fun o => o.2.1) hread).symm

theorem Arrives.end_add {n : ℕ} (hn : 0 < n) (hmax : n ≤ intMax) {st : Stream} {xs : List UInt8}
    (h : Arrives n st xs) (i : ℕ) : Lib.Pieces.readEnd n st.input.parts (xs.length + i) =
      xs.length + Lib.Pieces.readEnd n (st.skip xs.length).input.parts i := by
  have hparts : st.input.parts ≠ [] := by
    intro hnil
    have happ := h.append
    rw [show st.pending = [] from Lib.Pieces.flatten_eq_nil.mpr hnil] at happ
    exact h.ne_nil (List.append_eq_nil_iff.mp happ).1
  have hadd := Lib.Pieces.readEnd_add hn hparts i
  rwa [Lib.Pieces.next_skip, h.next_eq hmax] at hadd

/-- A piece that fits in the buffer arrives with one read. -/
theorem arrives_piece {n : ℕ} (hmax : n ≤ intMax) {ps : Lib.Pieces UInt8} {xs : List UInt8}
    {more : List (List UInt8)} (hparts : ps.parts = xs :: more) (hlen : xs.length ≤ n) :
    Arrives n (.connected ps) xs := by
  have hne : xs ≠ [] := ps.parts_ne xs (by rw [hparts]; exact List.mem_cons_self)
  have hpos : 0 < n := Nat.lt_of_lt_of_le (List.length_pos_iff.mpr hne) hlen
  have hpending : (Stream.connected ps).pending ≠ [] := by
    intro hnil
    have hnone : ps.parts = [] := Lib.Pieces.flatten_eq_nil.mp hnil
    rw [hnone] at hparts
    cases hparts
  have hnext : (ps.next n).1 = xs := by
    rw [Lib.Pieces.next, hparts]
    dsimp only
    rw [dif_neg (Nat.not_lt.mpr hlen)]
  have hopen : (Stream.connected ps).closed = false := rfl
  obtain ⟨ys, hys⟩ := exists_arrives hpos hmax hopen hpending
  have hread := Stream.read_next (s := .connected ps) rfl hpending n
  rw [min_eq_left hmax, hys.read] at hread
  have hsame : ys = (ps.next n).1 := congrArg (fun o => o.2.1) hread
  rwa [hsame, hnext] at hys

/-- What is delivered at once and fits in the buffer arrives with one read. -/
theorem arrives_whole {n : ℕ} (hmax : n ≤ intMax) {xs : List UInt8} (hne : xs ≠ [])
    (hlen : xs.length ≤ n) : Arrives n (.connected (.whole xs)) xs := by
  have hparts : (Lib.Pieces.whole xs).parts = [xs] := by
    rw [Lib.Pieces.whole, dif_neg hne]
    rfl
  exact arrives_piece hmax hparts hlen

/-- One turn of the loop. -/
theorem headLoop_arrives {P : Parsing ρ} {n : ℕ} (hmax : n ≤ intMax) {st : Stream} {xs : List UInt8}
    (h : Arrives n st xs) (parser : ρ) :
    headLoop P n [] parser st =
      match P.execute parser xs with
      | .error e => .error e
      | .ok (data', parser') =>
        if P.hasError parser' then .ok (none, (st.skip xs.length).close)
        else if data'.length = n then .ok (none, (st.skip xs.length).close)
        else if P.isFinished parser' ≠ 0 then .ok (some (data', parser'), st.skip xs.length)
        else headLoop P n data' parser' (st.skip xs.length) := by
  have hpos : ¬ (xs.length : ℤ) ≤ 0 := by
    have := List.length_pos_iff.mpr h.ne_nil
    omega
  have hfits : ¬ xs.length > n := Nat.not_lt.mpr h.length_le
  rw [headLoop]
  simp only [List.length_nil, Nat.sub_zero, h.read, hpos, dite_false, List.nil_append, hfits,
    if_false, toInt_eq hmax, Nat.cast_inj]

/-- The bytes that come with the read that begins at a place. -/
structure Comes (n : ℕ) (st : Stream) (i : ℕ) (xs : List UInt8) : Prop where
  ne_nil : xs ≠ []
  length_le : xs.length ≤ n
  take : (st.pending.drop i).take xs.length = xs
  start : ∀ j < xs.length, Lib.Pieces.readStart n st.input.parts (i + j) = i
  next : Lib.Pieces.readStart n st.input.parts (i + xs.length) = i + xs.length

theorem Arrives.comes {n : ℕ} {st : Stream} {xs : List UInt8} (h : Arrives n st xs) :
    Comes n st 0 xs where
  ne_nil := h.ne_nil
  length_le := h.length_le
  take := by rw [List.drop_zero, ← h.append, List.take_left]
  start j hj := by rw [Nat.zero_add, h.start j hj]
  next := by
    have hstart := h.start_add 0
    rw [Nat.add_zero, Nat.le_zero.mp (Lib.Pieces.readStart_le n _ 0), Nat.add_zero] at hstart
    rw [Nat.zero_add, hstart]

theorem Comes.after {n i : ℕ} {st : Stream} {xs ys : List UInt8} (h : Arrives n st xs)
    (hys : Comes n (st.skip xs.length) i ys) : Comes n st (xs.length + i) ys where
  ne_nil := hys.ne_nil
  length_le := hys.length_le
  take := by rw [← List.drop_drop, ← Stream.skip_pending, hys.take]
  start j hj := by rw [Nat.add_assoc, h.start_add, hys.start j hj]
  next := by rw [Nat.add_assoc, h.start_add, hys.next]

/-- A parser that consumes what comes before the end of a head and finds it in the read that
brings it leaves what that read brings behind it. By induction on the bytes to come. -/
theorem headLoop_finds {P : Parsing ρ} {n : ℕ} (hn : 0 < n) (hmax : n ≤ intMax) {I : ℕ → ρ → Prop}
    {Q : ρ → Prop} {st : Stream} {h : ℕ} (hopen : st.closed = false) (hpos : 0 < h)
    (hle : h ≤ st.pending.length)
    (hbefore : ∀ i xs parser, I i parser → Comes n st i xs → i + xs.length < h → ∃ parser',
      P.execute parser xs = .ok ([], parser') ∧ P.hasError parser' = false ∧
        P.isFinished parser' = 0 ∧ I (i + xs.length) parser')
    (hlast : ∀ i xs parser, I i parser → Comes n st i xs → i < h → h ≤ i + xs.length → ∃ parser',
      P.execute parser xs = .ok (xs.drop (h - i), parser') ∧ P.hasError parser' = false ∧
        P.isFinished parser' ≠ 0 ∧ Q parser')
    {parser : ρ} (h0 : I 0 parser) : ∃ parser', headLoop P n [] parser st =
      .ok (some ((st.pending.take (Lib.Pieces.readEnd n st.input.parts (h - 1))).drop h, parser'),
        st.skip (Lib.Pieces.readEnd n st.input.parts (h - 1))) ∧ Q parser' := by
  induction hk : st.pending.length using Nat.strong_induction_on generalizing st h I parser with
  | _ k ih =>
    have hp : st.pending ≠ [] := List.ne_nil_of_length_pos (by omega)
    obtain ⟨xs, hxs⟩ := exists_arrives hn hmax hopen hp
    have hlen := List.length_pos_iff.mpr hxs.ne_nil
    rw [headLoop_arrives hmax hxs]
    by_cases hin : h ≤ xs.length
    · obtain ⟨parser', hexec, herr, hfinished, hQ⟩ := hlast 0 xs parser h0 hxs.comes hpos (by omega)
      rw [Nat.sub_zero] at hexec
      have hroom : ¬ (xs.drop h).length = n := by
        have := hxs.length_le
        rw [List.length_drop]
        omega
      have hend := hxs.readEnd hn (by omega : h - 1 < xs.length)
      refine ⟨parser', ?_, hQ⟩
      have hdata : (st.pending.take xs.length).drop h = xs.drop h := by
        rw [← hxs.append, List.take_left]
      rw [hexec, hend, hdata]
      dsimp only
      rw [if_neg (Bool.eq_false_iff.mp herr), if_neg hroom, if_pos hfinished]
    · obtain ⟨parser', hexec, herr, hfinished, hI⟩ :=
        hbefore 0 xs parser h0 hxs.comes (by omega)
      rw [Nat.zero_add] at hI
      have hroom : ¬ ([] : List UInt8).length = n := by
        rw [List.length_nil]
        omega
      have hrest : (st.skip xs.length).pending.length = st.pending.length - xs.length := by
        rw [Stream.skip_pending, List.length_drop]
      have hend := hxs.end_add hn hmax (h - xs.length - 1)
      rw [show xs.length + (h - xs.length - 1) = h - 1 by omega] at hend
      have hdata : ∀ e, ((st.skip xs.length).pending.take e).drop (h - xs.length) =
          (st.pending.take (xs.length + e)).drop h := by
        intro e
        rw [← hxs.append, List.take_length_add_append, List.drop_append,
          List.drop_of_length_le (show xs.length ≤ h by omega), List.nil_append]
      rw [hexec, hend, ← hdata, ← Stream.skip_skip]
      dsimp only
      rw [if_neg (Bool.eq_false_iff.mp herr), if_neg hroom, if_neg (not_not_intro hfinished)]
      refine ih (st.skip xs.length).pending.length (by omega) (I := fun i => I (xs.length + i))
        (show (st.skip xs.length).closed = false from hopen) (by omega) (by omega) ?_ ?_ hI rfl
      · intro i ys p hi hys hlt
        obtain ⟨p', hp', herr', hfin', hI'⟩ := hbefore _ ys p hi (hys.after hxs) (by omega)
        refine ⟨p', hp', herr', hfin', ?_⟩
        rwa [← Nat.add_assoc]
      · intro i ys p hi hys hlt hge
        obtain ⟨p', hp', hrest'⟩ := hlast _ ys p hi (hys.after hxs) (by omega) (by omega)
        refine ⟨p', ?_, hrest'⟩
        rw [hp', Nat.sub_sub]

/-- The loop returns nothing after an error. -/
theorem headLoop_refused {P : Parsing ρ} {n : ℕ} (hmax : n ≤ intMax) {st : Stream}
    {xs : List UInt8} (h : Arrives n st xs) {parser : ρ}
    (hexec : ∀ out, P.execute parser xs = .ok out → P.hasError out.2 = true)
    (out : List UInt8 × ρ) (st' : Stream) : headLoop P n [] parser st ≠ .ok (some out, st') := by
  rw [headLoop_arrives hmax h]
  cases hrun : P.execute parser xs with
  | error e => exact fun h => by cases h
  | ok res =>
    obtain ⟨data', parser'⟩ := res
    have herr : P.hasError parser' = true := hexec _ hrun
    simp only [herr, if_true]
    exact fun h => by cases h

end Flz.Http
