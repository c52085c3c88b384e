import Flz.Http.Printed
import Flz.Http.SizeLine
import Flz.Uri.Embedding

/-! # Parsing a URI

`Uri::Create` of `src/uri.rl` with the actions of its machine, and what the getters return for a URI that is put
together from parts of the grammar.
-/
namespace Flz
open Lib Machine Http

structure Uri where
  m_scheme : List UInt8
  m_userinfo : List UInt8
  m_host : List UInt8
  m_path : List UInt8
  m_query : List UInt8
  m_fragment : List UInt8
  m_port : ℤ
  deriving DecidableEq, Repr

namespace Uri

/-- How a call ends that does not return. -/
inductive Fault
  /-- `std::string(NULL, n)` throws a `std::logic_error`. -/
  | logicError
  /-- `atoi(NULL)`. -/
  | nullText
  deriving DecidableEq, Repr

/-- `Uri::Uri()`. -/
def empty : Uri := ⟨[], [], [], [], [], [], 0⟩

def getScheme (u : Uri) : List UInt8 := u.m_scheme

def getUserinfo (u : Uri) : List UInt8 := u.m_userinfo

def getHost (u : Uri) : List UInt8 := u.m_host

def getPath (u : Uri) : List UInt8 := if u.m_path = [] then ascii "/" else u.m_path

def getQuery (u : Uri) : List UInt8 := u.m_query

def getFragment (u : Uri) : List UInt8 := u.m_fragment

def getPort (u : Uri) : ℤ :=
  if u.m_port ≠ 0 then u.m_port
  else if u.m_scheme = ascii "http" ∨ u.m_scheme = ascii "ws" then 80
  else if u.m_scheme = ascii "https" ∨ u.m_scheme = ascii "wss" then 443
  else u.m_port

/-! ## Actions -/

/-- The URI under construction; `mark` is `NULL` or a position in `uristr`. -/
structure Scan where
  uri : Uri
  mark : Option ℕ
  deriving DecidableEq, Repr

def marku (st : Scan) (fpc : ℕ) : Except Fault Scan := .ok { st with mark := some fpc }

def markh (st : Scan) (fpc : ℕ) : Except Fault Scan := .ok { st with mark := some fpc }

section
variable (uristr : List UInt8)

/-- The text from the mark to `fpc`. -/
def marked (m fpc : ℕ) : List UInt8 := (uristr.drop m).take (fpc - m)

/-- A setter is called with `std::string(mark, fpc - mark)`, and the mark is taken away. -/
def save (set : Uri → List UInt8 → Uri) (st : Scan) (fpc : ℕ) : Except Fault Scan :=
  match st.mark with
  | none => .error .logicError
  | some m => .ok ⟨set st.uri (marked uristr m fpc), none⟩

def save_scheme : Scan → ℕ → Except Fault Scan := save uristr fun u v => { u with m_scheme := v }

def save_port (st : Scan) (fpc : ℕ) : Except Fault Scan :=
  if st.mark ≠ some fpc then
    match st.mark with
    | none => .error .nullText
    | some m => .ok ⟨{ st.uri with m_port := atoi (uristr.drop m) }, none⟩
  else .ok { st with mark := none }

def save_userinfo (st : Scan) (fpc : ℕ) : Except Fault Scan :=
  match st.mark with
  | none => .ok { st with mark := none }
  | some m => .ok ⟨{ st.uri with m_userinfo := marked uristr m fpc }, none⟩

/-- The mark stays. -/
def save_host (st : Scan) (fpc : ℕ) : Except Fault Scan :=
  match st.mark with
  | none => .ok st
  | some m => .ok { st with uri := { st.uri with m_host := marked uristr m fpc } }

def save_path : Scan → ℕ → Except Fault Scan := save uristr fun u v => { u with m_path := v }

def save_query : Scan → ℕ → Except Fault Scan := save uristr fun u v => { u with m_query := v }

def save_fragment : Scan → ℕ → Except Fault Scan := save uristr fun u v => { u with m_fragment := v }

/-- The action that is embedded at a site. -/
def act (st : Scan) (fpc : ℕ) (site : Bool × UriParser.Site) : Except Fault Scan :=
  match site.2 with
  | .scheme_marku | .query_marku | .fragment_marku => marku st fpc
  | .authority_markh | .host_markh | .port_markh | .path_markh => markh st fpc
  | .scheme_save_scheme => save_scheme uristr st fpc
  | .userinfo_save_userinfo => save_userinfo uristr st fpc
  | .host_save_host => save_host uristr st fpc
  | .port_save_port => save_port uristr st fpc
  | .path_save_path => save_path uristr st fpc
  | .query_save_query => save_query uristr st fpc
  | .fragment_save_fragment => save_fragment uristr st fpc

/-- `none` stands for `nullptr`. -/
def Create : Except Fault (Option Uri) := do
  let st ← run UriParser.URI_reference.sites (act uristr) [UriParser.URI_reference] 0 uristr ⟨empty, none⟩
  return st.map Scan.uri

end

/-! ## Numbers -/

/-- What ends a number wherever it stands. -/
def EndsNumber (c : UInt8) : Prop := digitValue 10 c = none ∧ isspace c = false ∧ c ≠ 45 ∧ c ≠ 43

theorem readDigits_append_end {c : UInt8} (hc : digitValue 10 c = none) (n : ℕ) (x y : List UInt8) :
    readDigits 10 n (x ++ c :: y) = readDigits 10 n x := by
  induction x generalizing n with
  | nil => exact readDigits_end hc y
  | cons d x ih =>
    rw [List.cons_append, readDigits, readDigits]
    split
    · rfl
    · exact ih _

theorem skipPrefix_ten (x : List UInt8) : skipPrefix 10 x = x := by
  unfold skipPrefix
  split
  · exact if_neg fun h => absurd h.1 (by decide)
  · rfl

/-- `strtol` behind the blanks. -/
def signed : List UInt8 → ℤ
  | 45 :: x => max (-(readDigits 10 0 x : ℤ)) (-2 ^ 63)
  | 43 :: x => min (readDigits 10 0 x) (2 ^ 63 - 1)
  | x => min (readDigits 10 0 x) (2 ^ 63 - 1)

theorem strtol_eq (x : List UInt8) : strtol 10 x = signed (x.dropWhile isspace) := by
  rw [strtol]
  simp only [skipPrefix_ten]
  rfl

theorem signed_of_ne {c : UInt8} (hminus : c ≠ 45) (hplus : c ≠ 43) (x : List UInt8) :
    signed (c :: x) = min (readDigits 10 0 (c :: x) : ℤ) (2 ^ 63 - 1) := by
  rw [signed]
  · rintro _ ⟨⟩
    exact hminus rfl
  · rintro _ ⟨⟩
    exact hplus rfl

theorem signed_append {c : UInt8} (hc : EndsNumber c) (x y : List UInt8) : signed (x ++ c :: y) = signed x := by
  obtain ⟨hdigit, -, hminus, hplus⟩ := hc
  cases x with
  | nil =>
    rw [List.nil_append, signed_of_ne hminus hplus, readDigits_end hdigit]
    rfl
  | cons d x =>
    rw [List.cons_append]
    by_cases h45 : d = 45
    · rw [h45, signed, signed, readDigits_append_end hdigit]
    · by_cases h43 : d = 43
      · rw [h43, signed, signed, readDigits_append_end hdigit]
      · rw [signed_of_ne h45 h43, signed_of_ne h45 h43, ← List.cons_append, readDigits_append_end hdigit]

theorem atoi_append {x y : List UInt8} (hy : ∀ c ∈ y.head?, EndsNumber c) : atoi (x ++ y) = atoi x := by
  cases y with
  | nil => rw [List.append_nil]
  | cons c y =>
    have hc := hy c rfl
    have hdrop : (x ++ c :: y).dropWhile isspace = x.dropWhile isspace ++ c :: y := by
      rw [List.dropWhile_append]
      split
      · rename_i hempty
        rw [List.isEmpty_iff.mp hempty, List.dropWhile_cons_of_neg (by simp [hc.2.1])]
        rfl
      · rfl
    rw [atoi, atoi, strtol_eq, strtol_eq, hdrop, signed_append hc]

/-! ## The actions of a part -/

/-- The actions of a trace. -/
def play (uristr : List UInt8) (evs : List (ℕ × (Bool × UriParser.Site))) (st : Scan) : Except Fault Scan :=
  evs.foldlM (fun st x => act uristr st x.1 x.2) st

section
variable {uristr w x : List UInt8} {evs : List (ℕ × (Bool × UriParser.Site))} {st st' : Scan} {k n : ℕ}
  {a b : Bool × UriParser.Site}

theorem play_cons (h : act uristr st n a = .ok st') : play uristr ((n, a) :: evs) st = play uristr evs st' := by
  rw [play, List.foldlM_cons, h]
  rfl

theorem play_singleton : play uristr [(n, a)] st = act uristr st n a := by
  rw [play, List.foldlM_cons]
  exact bind_pure _

theorem play_append {evs' : List (ℕ × (Bool × UriParser.Site))} (h : play uristr evs st = .ok st') :
    play uristr (evs ++ evs') st = play uristr evs' st' := by
  rw [play] at h
  rw [play, List.foldlM_append, h]
  rfl

theorem play_append_error {evs' : List (ℕ × (Bool × UriParser.Site))} {e : Fault} (h : play uristr evs st = .error e) :
    play uristr (evs ++ evs') st = .error e := by
  rw [play] at h
  rw [play, List.foldlM_append, h]
  rfl

theorem marked_eq (h : uristr.drop k = w ++ x) : marked uristr k (k + w.length) = w := by
  rw [marked, h, Nat.add_sub_cancel_left, List.take_left]

/-! ### The actions at the end of a marked text -/

variable {u : Uri} {r : Bool}

theorem save_userinfo_marked (h : uristr.drop k = w ++ x) (hn : n = k + w.length) :
    act uristr ⟨u, some k⟩ n (r, .userinfo_save_userinfo) = .ok ⟨{ u with m_userinfo := w }, none⟩ := by
  subst hn
  exact congrArg (fun v => Except.ok (Scan.mk { u with m_userinfo := v } none)) (marked_eq h)

theorem save_host_marked (h : uristr.drop k = w ++ x) (hn : n = k + w.length) :
    act uristr ⟨u, some k⟩ n (r, .host_save_host) = .ok ⟨{ u with m_host := w }, some k⟩ := by
  subst hn
  exact congrArg (fun v => Except.ok (Scan.mk { u with m_host := v } (some k))) (marked_eq h)

theorem save_port_marked (h : uristr.drop k = w ++ x) (hx : ∀ c ∈ x.head?, EndsNumber c) (hn : n ≠ k) :
    act uristr ⟨u, some k⟩ n (r, .port_save_port) = .ok ⟨{ u with m_port := atoi w }, none⟩ := by
  have hmark : (some k : Option ℕ) ≠ some n := fun heq => hn (Option.some.inj heq).symm
  rw [← atoi_append (x := w) hx, ← h]
  exact if_pos hmark

theorem play_marks (ha : ∀ st n, act uristr st n a = .ok { st with mark := some n }) (st : Scan) :
    play uristr (shift k (marks a b w)) st =
      act uristr (if w = [] then st else { st with mark := some k }) (k + w.length) b := by
  rw [marks]
  by_cases hw : w = []
  · rw [if_pos hw, if_pos hw, List.nil_append, shift_cons, shift_nil, play_singleton]
  · rw [if_neg hw, if_neg hw, List.singleton_append, shift_cons, shift_cons, shift_nil, play_cons (ha _ _),
      play_singleton]
    rfl

/-- A part that is saved with the mark that it sets itself. -/
theorem play_saved {g : Uri → List UInt8 → Uri} (ha : ∀ st n, act uristr st n a = .ok { st with mark := some n })
    (hb : ∀ st n, act uristr st n b = save uristr g st n) (hw : w ≠ []) (h : uristr.drop k = w ++ x) (st : Scan) :
    play uristr (shift k (marks a b w)) st = .ok ⟨g st.uri w, none⟩ := by
  rw [play_marks ha, if_neg hw, hb, save]
  exact congrArg (fun v => Except.ok (Scan.mk (g st.uri v) none)) (marked_eq h)

end

/-! ### Userinfos -/

section
variable {uristr v w x y : List UInt8} {k : ℕ} {u : Uri} {evs : List (ℕ × (Bool × UriParser.Site))}

/-- A digit stands behind the first `:`. -/
def digitBehind (v : List UInt8) : Bool := (Segments.after 58 v).head?.any UriParser.isDigit

/-- The text behind the first `:` if a digit stands there. -/
def keptUserinfo (v : List UInt8) : List UInt8 := if digitBehind v = true then Segments.after 58 v else v

/-- The text in front of the first `:` if there is one. -/
def userinfoHost (v : List UInt8) : List UInt8 := if 58 ∈ v then Segments.before 58 v else []

theorem play_markh {a : Bool × UriParser.Site} (ha : ∀ st n, act uristr st n a = .ok { st with mark := some n })
    (c : Prop) [Decidable c] :
    play uristr (shift k (if c then [] else [(0, a)]) ++ evs) ⟨u, some k⟩ = play uristr evs ⟨u, some k⟩ := by
  split
  · rfl
  · exact play_cons (ha _ _)

theorem play_userinfo (hv : v ∈ UriParser.userinfo.language) (hs : uristr.drop k = v ++ x) (hu : u.m_host = []) :
    play uristr (shift k ((UriParser.hostport false).events v ++ (v.length, (false, .userinfo_save_userinfo)) :: evs))
        ⟨u, some k⟩ =
      play uristr (shift k evs) ⟨{ u with m_userinfo := keptUserinfo v, m_host := userinfoHost v }, none⟩ := by
  have hmarkh : ∀ st n, act uristr st n (false, .host_markh) = .ok { st with mark := some n } := fun _ _ => rfl
  by_cases hcolon : 58 ∈ v
  · obtain ⟨w, y, rfl, hw⟩ : ∃ w y, v = w ++ 58 :: y ∧ 58 ∉ w :=
      ⟨_, _, (Segments.before_append_after hcolon).symm, Segments.not_mem_before⟩
    have hhost : uristr.drop k = w ++ 58 :: (y ++ x) := by simpa using hs
    have hbehind : digitBehind (w ++ 58 :: y) = y.head?.any UriParser.isDigit := by
      rw [digitBehind, Segments.after_append hw]
    rw [UriParser.events_userinfo_append hv hw, shift_append, shift_append, List.append_assoc, play_markh hmarkh,
      shift_cons, List.cons_append, play_cons (save_host_marked hhost rfl), keptUserinfo, hbehind,
      Segments.after_append hw, userinfoHost, if_pos hcolon, Segments.before_append hw]
    by_cases hdigit : y.head?.any UriParser.isDigit = true
    · have hdrop : uristr.drop (k + (w.length + 1)) = y ++ x := by
        have hcut : uristr.drop k = (w ++ [58]) ++ (y ++ x) := by simpa using hs
        have hdrop := drop_add hcut
        rwa [List.length_append] at hdrop
      have hlength : k + (w ++ 58 :: y).length = k + (w.length + 1) + y.length := by
        simp only [List.length_append, List.length_cons]
        omega
      rw [if_pos hdigit, if_pos hdigit, shift_cons, shift_nil, shift_cons, List.singleton_append, play_cons rfl]
      exact play_cons (save_userinfo_marked hdrop hlength)
    · rw [if_neg hdigit, if_neg hdigit, shift_nil, List.nil_append, shift_cons]
      exact play_cons (save_userinfo_marked hs rfl)
  · have hkept : keptUserinfo v = v := by
      rw [keptUserinfo, digitBehind, Segments.after_of_not_mem hcolon]
      rfl
    rw [UriParser.events_userinfo hv hcolon, shift_append, play_markh hmarkh, shift_cons,
      play_cons (save_userinfo_marked hs rfl), hkept, userinfoHost, if_neg hcolon, ← hu]

end

/-! ### Authorities -/

section
variable {uristr h x y : List UInt8} {k : ℕ} {u : Uri} {m : Option ℕ} {a o : Option (List UInt8)}

/-- Without digits the text of the host is read. -/
def portNumber (h : List UInt8) : Option (List UInt8) → ℤ
  | none => 0
  | some [] => atoi h
  | some (d :: ds) => atoi (d :: ds)

theorem endsNumber_colon : EndsNumber 58 := by
  refine ⟨by decide, by decide, by decide, by decide⟩

/-- The mark is at the start, or there is none. -/
theorem play_host (hh : uristr.drop k = h ++ x) (hm : m = none ∨ m = some k ∧ u.m_host = []) :
    play uristr (shift k (marks (false, .host_markh) (false, .host_save_host) h)) ⟨u, m⟩ =
      .ok ⟨{ u with m_host := if h = [] then u.m_host else h }, if h = [] then m else some k⟩ := by
  rw [play_marks fun _ _ => rfl]
  by_cases hempty : h = []
  · rw [if_pos hempty, if_pos hempty, if_pos hempty]
    rcases hm with rfl | ⟨rfl, hhost⟩
    · rfl
    · rw [save_host_marked hh rfl, hempty, hhost]
  · rw [if_neg hempty, if_neg hempty, if_neg hempty]
    exact save_host_marked hh rfl

theorem play_port {d : List UInt8} (hd : uristr.drop k = d ++ x) (hx : ∀ c ∈ x.head?, EndsNumber c) (hne : d ≠ []) :
    play uristr (shift k (marks (false, .port_markh) (false, .port_save_port) d)) ⟨u, m⟩ =
      .ok ⟨{ u with m_port := atoi d }, none⟩ := by
  have hlength : k + d.length ≠ k := by simpa using hne
  rw [play_marks fun _ _ => rfl, if_neg hne]
  exact save_port_marked hd hx hlength

theorem play_hostport (hh : h ∈ UriParser.host.language) (ho : ∀ d ∈ o, d ∈ UriParser.port.language)
    (hs : uristr.drop k = h ++ opened 58 o ++ x) (hx : ∀ c ∈ x.head?, EndsNumber c) (hport : u.m_port = 0)
    (hm : m = none ∨ m = some k ∧ u.m_host = []) :
    play uristr (shift k ((UriParser.hostport false).trace (h ++ opened 58 o))) ⟨u, m⟩ =
      if o = some [] ∧ h = [] ∧ m = none then .error .nullText
      else .ok ⟨{ u with m_host := if h = [] then u.m_host else h, m_port := portNumber h o },
        if o = none then if h = [] then m else some k else none⟩ := by
  have hhost := play_host (u := u) (m := m) (h := h) (by rw [hs, List.append_assoc]) hm
  rw [UriParser.trace_hostport hh ho, shift_append, shift_shift, play_append hhost]
  cases o with
  | none =>
    refine Eq.trans ?_ (if_neg (by simp)).symm
    rw [Option.map_none, Option.getD_none, shift_nil, portNumber, ← hport]
    rfl
  | some d =>
    have hdrop : uristr.drop (k + h.length + 1) = d ++ x := by
      have hcut : uristr.drop k = (h ++ [58]) ++ (d ++ x) := by simpa [opened] using hs
      have hdrop := drop_add hcut
      rwa [List.length_append] at hdrop
    rw [Option.map_some, Option.getD_some, shift_shift]
    cases d with
    | nil =>
      have hmark : (if h = [] then m else some k) = if h = [] ∧ m = none then none else some k := by
        by_cases hempty : h = []
        · rcases hm with rfl | ⟨rfl, -⟩ <;> simp [hempty]
        · simp [hempty]
      rw [play_marks fun _ _ => rfl, hmark]
      by_cases hnone : h = [] ∧ m = none
      · rw [if_pos hnone]
        exact (if_pos ⟨rfl, hnone⟩).symm
      · have hcolon : uristr.drop k = h ++ 58 :: x := by simpa [opened] using hs
        have hafter : k + h.length + 1 + 0 ≠ k := by omega
        rw [if_neg hnone]
        refine Eq.trans ?_ (if_neg fun hc => hnone hc.2).symm
        exact save_port_marked hcolon (fun c hc => Option.some.inj hc ▸ endsNumber_colon) hafter
    | cons c d =>
      refine Eq.trans ?_ (if_neg fun hc => absurd (Option.some.inj hc.1) (List.cons_ne_nil c d)).symm
      exact play_port hdrop hx (List.cons_ne_nil c d)

/-- What an authority sets. -/
def authorityUri (sc : List UInt8) (a : Option (List UInt8)) (h : List UInt8) (o : Option (List UInt8)) : Uri :=
  { empty with
    m_scheme := sc
    m_userinfo := (a.map keptUserinfo).getD []
    m_host := if h = [] then (a.map userinfoHost).getD [] else h
    m_port := portNumber h o }

theorem play_authority {sc : List UInt8} (ha : ∀ v ∈ a, v ∈ UriParser.userinfo.language)
    (hh : h ∈ UriParser.host.language) (ho : ∀ d ∈ o, d ∈ UriParser.port.language)
    (hs : uristr.drop k = ended 64 a ++ (h ++ opened 58 o) ++ x) (hx : ∀ c ∈ x.head?, EndsNumber c) :
    play uristr (shift k ((UriParser.authority false).trace (ended 64 a ++ (h ++ opened 58 o))))
        ⟨{ empty with m_scheme := sc }, none⟩ =
      if a ≠ none ∧ h = [] ∧ o = some [] then .error .nullText
      else .ok ⟨authorityUri sc a h o, if o = none ∧ h ≠ [] then some (k + (ended 64 a).length) else none⟩ := by
  have hmem : h ++ opened 58 o ∈ (UriParser.hostport false).language := UriParser.mem_hostport.mpr ⟨h, o, rfl, hh, ho⟩
  have hmarkh : ∀ st, act uristr st (k + 0) (false, .authority_markh) = .ok { st with mark := some k } := fun _ => rfl
  rw [UriParser.trace_authority ha hmem, shift_append]
  cases a with
  | none =>
    have hs' : uristr.drop k = h ++ opened 58 o ++ x := hs
    refine Eq.trans ?_ (if_neg fun hc => hc.1 rfl).symm
    by_cases hempty : ended 64 none ++ (h ++ opened 58 o) = []
    · obtain ⟨rfl, ho'⟩ : h = [] ∧ opened 58 o = [] := List.append_eq_nil_iff.mp hempty
      obtain rfl : o = none := by
        cases o with
        | none => rfl
        | some d => cases ho'
      have hplay := play_hostport (u := { empty with m_scheme := sc }) hh ho hs' hx rfl (.inl rfl)
      rw [if_pos hempty, shift_nil, List.nil_append]
      refine hplay.trans ((if_neg nofun).trans ?_)
      simp [authorityUri, empty]
    · have hplay := play_hostport (u := { empty with m_scheme := sc }) hh ho hs' hx rfl (.inr ⟨rfl, rfl⟩)
      rw [if_neg hempty, shift_cons, List.cons_append, play_cons (hmarkh _)]
      refine hplay.trans ((if_neg fun hc => nomatch hc.2.2).trans ?_)
      have hmark : (if o = none then if h = [] then some k else some k else none) =
          if o = none ∧ h ≠ [] then some (k + (ended 64 (none : Option (List UInt8))).length) else none := by
        cases o with
        | none =>
          have hne : h ≠ [] := fun h => hempty (by simp [h, ended, opened])
          simp [hne, ended]
        | some d => simp
      rw [hmark]
      rfl
  | some v =>
    have hdrop : uristr.drop (k + (v.length + 1)) = h ++ opened 58 o ++ x := by
      have hcut : uristr.drop k = (v ++ [64]) ++ (h ++ opened 58 o ++ x) := by simpa [ended] using hs
      have hdrop := drop_add hcut
      rwa [List.length_append] at hdrop
    have hplay := play_hostport (u := { empty with
      m_scheme := sc, m_userinfo := keptUserinfo v, m_host := userinfoHost v }) hh ho hdrop hx rfl (.inl rfl)
    have huserinfo : uristr.drop k = v ++ 64 :: (h ++ opened 58 o ++ x) := by simpa [ended] using hs
    rw [if_neg (by simp [ended]), shift_cons, List.cons_append, play_cons (hmarkh _), shift_nil, List.nil_append,
      UriParser.authorityActions, play_userinfo (ha v rfl) huserinfo rfl, shift_shift, hplay]
    have hmark : (if o = none then if h = [] then none else some (k + (v.length + 1)) else none) =
        if o = none ∧ h ≠ [] then some (k + (ended 64 (some v)).length) else none := by
      by_cases ho : o = none <;> by_cases hempty : h = [] <;> simp [ho, hempty, ended]
    rw [hmark]
    by_cases hcrash : h = [] ∧ o = some []
    · exact (if_pos ⟨hcrash.2, hcrash.1, rfl⟩).trans (if_pos ⟨Option.some_ne_none v, hcrash⟩).symm
    · exact (if_neg fun hc => hcrash ⟨hc.2.1, hc.1⟩).trans (if_neg fun hc => hcrash hc.2).symm

end

/-! ### Queries and fragments -/

section
variable {uristr x w : List UInt8} {k : ℕ} {u : Uri} {q f : Option (List UInt8)}

/-- A part that may be absent, but is not empty. -/
theorem play_opened {a b : Bool × UriParser.Site} {g : Uri → List UInt8 → Uri} {s : UInt8}
    (ha : ∀ st n, act uristr st n a = .ok { st with mark := some n })
    (hb : ∀ st n, act uristr st n b = save uristr g st n) (hs : uristr.drop k = opened s q ++ x) :
    play uristr (shift k ((q.map fun v => shift 1 (marks a b v)).getD [])) ⟨u, none⟩ =
      if q = some [] then .error .logicError else .ok ⟨(q.map (g u)).getD u, none⟩ := by
  cases q with
  | none => exact (if_neg nofun).symm
  | some v =>
    have hdrop : uristr.drop (k + [s].length) = v ++ x := drop_add hs
    rw [Option.map_some, Option.getD_some, shift_shift]
    by_cases hempty : v = []
    · rw [play_marks ha, if_pos hempty, hb, if_pos (congrArg some hempty)]
      rfl
    · rw [play_saved ha hb hempty (by exact hdrop), if_neg fun h => hempty (Option.some.inj h)]
      rfl

theorem play_tail (hq : ∀ v ∈ q, v ∈ UriParser.trailer.language) (hf : ∀ v ∈ f, v ∈ UriParser.trailer.language)
    (hs : uristr.drop k = opened 63 q ++ opened 35 f) (u : Uri) :
    play uristr (shift k ((UriParser.tail false).trace (opened 63 q ++ opened 35 f))) ⟨u, none⟩ =
      if q = some [] ∨ f = some [] then .error .logicError
      else .ok ⟨{ u with m_query := q.getD u.m_query, m_fragment := f.getD u.m_fragment }, none⟩ := by
  have hquery := play_opened (u := u) (g := fun u v => { u with m_query := v })
    (a := (false, .query_marku)) (b := (false, .query_save_query)) (fun _ _ => rfl) (fun _ _ => rfl) hs
  have hset : (q.map fun v => { u with m_query := v }).getD u = { u with m_query := q.getD u.m_query } := by
    cases q <;> rfl
  have hfragment := play_opened (u := { u with m_query := q.getD u.m_query }) (x := [])
    (g := fun u v => { u with m_fragment := v }) (a := (false, .fragment_marku)) (b := (false, .fragment_save_fragment))
    (fun _ _ => rfl) (fun _ _ => rfl) (by rw [drop_add hs, List.append_nil])
  rw [UriParser.trace_tail hq hf, shift_append, shift_shift]
  by_cases hempty : q = some []
  · rw [if_pos hempty] at hquery
    rw [play_append_error hquery, if_pos (.inl hempty)]
  · rw [if_neg hempty, hset] at hquery
    rw [play_append hquery, hfragment]
    by_cases hempty' : f = some []
    · rw [if_pos hempty', if_pos (.inr hempty')]
    · rw [if_neg hempty', if_neg (not_or.mpr ⟨hempty, hempty'⟩)]
      cases f <;> rfl

end

/-! ## URIs from their parts -/

theorem forall_mem_none {e : UriParser.Rule} : ∀ v ∈ (none : Option (List UInt8)), v ∈ e.language := nofun

/-- The parts of a URI, as the grammar has them. -/
structure Parts where
  scheme : List UInt8
  userinfo : Option (List UInt8)
  host : List UInt8
  port : Option (List UInt8)
  path : List UInt8
  query : Option (List UInt8)
  fragment : Option (List UInt8)
  scheme_mem : scheme ∈ UriParser.scheme.language
  userinfo_mem : ∀ v ∈ userinfo, v ∈ UriParser.userinfo.language
  host_mem : host ∈ UriParser.host.language
  port_mem : ∀ d ∈ port, d ∈ UriParser.port.language
  path_mem : path ∈ UriParser.path_abempty.language
  query_mem : ∀ v ∈ query, v ∈ UriParser.trailer.language
  fragment_mem : ∀ v ∈ fragment, v ∈ UriParser.trailer.language

namespace Parts

def authority (p : Parts) : List UInt8 := ended 64 p.userinfo ++ (p.host ++ opened 58 p.port)

/-- `scheme "://" (userinfo "@")? host (":" port)? path ("?" query)? ("#" fragment)?`. -/
def text (p : Parts) : List UInt8 :=
  p.scheme ++ ascii "://" ++ p.authority ++ p.path ++ opened 63 p.query ++ opened 35 p.fragment

/-- What the actions save. -/
def saved (p : Parts) : Uri :=
  { authorityUri p.scheme p.userinfo p.host p.port with
    m_path := if p.path = [] then p.host else p.path
    m_query := p.query.getD []
    m_fragment := p.fragment.getD [] }

/-- No action meets a mark that it cannot do with. -/
structure Accepted (p : Parts) : Prop where
  port : ¬ (p.userinfo ≠ none ∧ p.host = [] ∧ p.port = some [])
  path : p.path = [] → p.host ≠ [] ∧ p.port = none
  query : p.query ≠ some []
  fragment : p.fragment ≠ some []

end Parts

theorem Create_eq_ok_iff {uristr : List UInt8} {u : Uri} : Create uristr = .ok (some u) ↔
    uristr ∈ UriParser.URI_reference.language ∧
      ∃ m, play uristr (UriParser.URI_reference.trace uristr) ⟨empty, none⟩ = .ok ⟨u, m⟩ := by
  have hrun : ∀ st, run UriParser.URI_reference.sites (act uristr) [UriParser.URI_reference] 0 uristr ⟨empty, none⟩ =
      .ok (some st) ↔ uristr ∈ UriParser.URI_reference.language ∧
        play uristr (UriParser.URI_reference.trace uristr) ⟨empty, none⟩ = .ok st := fun _ => run_eq_ok_iff
  rw [Create]
  constructor
  · intro h
    cases hst : run UriParser.URI_reference.sites (act uristr) [UriParser.URI_reference] 0 uristr ⟨empty, none⟩ with
    | error e =>
      rw [hst] at h
      cases h
    | ok st =>
      rw [hst] at h
      cases st with
      | none => cases h
      | some st =>
        obtain ⟨hmem, hplay⟩ := (hrun st).mp hst
        obtain rfl : st.uri = u := Option.some.inj (Except.ok.inj h)
        exact ⟨hmem, st.mark, hplay⟩
  · rintro ⟨hmem, m, hplay⟩
    rw [(hrun ⟨u, m⟩).mpr ⟨hmem, hplay⟩]
    rfl

section
variable {sc v : List UInt8} {q f : Option (List UInt8)}

theorem play_scheme {x : List UInt8} (hsc : sc ∈ UriParser.scheme.language) (hv : v ∈ UriParser.hier_part.language)
    (hx : x ∈ (UriParser.tail false).language) :
    play (sc ++ 58 :: (v ++ x)) (UriParser.URI_reference.trace (sc ++ 58 :: (v ++ x))) ⟨empty, none⟩ =
      play (sc ++ 58 :: (v ++ x)) (shift (sc.length + 1) (UriParser.net_path.trace v ++
        shift v.length ((UriParser.tail false).trace x))) ⟨{ empty with m_scheme := sc }, none⟩ := by
  have hcut : (sc ++ 58 :: (v ++ x)).drop 0 = sc ++ 58 :: (v ++ x) := List.drop_zero
  have hscheme := play_saved (g := fun u v => { u with m_scheme := v }) (a := (false, .scheme_marku))
    (b := (false, .scheme_save_scheme)) (fun _ _ => rfl) (fun _ _ => rfl) (UriParser.scheme_ne_nil hsc) hcut ⟨empty, none⟩
  rw [shift_zero] at hscheme
  rw [UriParser.trace_URI_reference hsc hv hx, play_append hscheme]

end

namespace Parts
variable (p : Parts)

theorem authority_mem : p.authority ∈ (UriParser.authority false).language :=
  UriParser.mem_authority.mpr ⟨p.userinfo, p.host ++ opened 58 p.port, rfl, p.userinfo_mem,
    UriParser.mem_hostport.mpr ⟨p.host, p.port, rfl, p.host_mem, p.port_mem⟩⟩

theorem text_eq : p.text =
    p.scheme ++ 58 :: (47 :: 47 :: (p.authority ++ p.path) ++ (opened 63 p.query ++ opened 35 p.fragment)) := by
  have hascii : ascii "://" = [58, 47, 47] := by decide
  simp [text, hascii]

theorem hier_part_mem : 47 :: 47 :: (p.authority ++ p.path) ∈ UriParser.hier_part.language :=
  mem_language_anyOf.mpr (.inl (UriParser.mem_net_path.mpr
    ⟨p.authority, p.path, rfl, p.authority_mem, p.path_mem⟩))

theorem tail_mem {r : Bool} : opened 63 p.query ++ opened 35 p.fragment ∈ (UriParser.tail r).language :=
  UriParser.mem_tail.mpr ⟨p.query, p.fragment, rfl, p.query_mem, p.fragment_mem⟩

theorem text_mem : p.text ∈ UriParser.URI_reference.language := by
  rw [text_eq]
  exact .inl (UriParser.mem_URI.mpr ⟨p.scheme, _, _, rfl, p.scheme_mem, p.hier_part_mem, p.tail_mem⟩)

/-- What begins behind an authority. -/
theorem head_rest : ∀ c ∈ (p.path ++ (opened 63 p.query ++ opened 35 p.fragment)).head?, c = 47 ∨ c = 63 ∨ c = 35 := by
  intro c hc
  cases hpath : p.path with
  | nil =>
    rw [hpath, List.nil_append] at hc
    exact .inr (UriParser.head_tail (p.tail_mem (r := false)) c hc)
  | cons d x =>
    rw [hpath] at hc
    have hslash := UriParser.head_path_abempty p.path_mem d (by rw [hpath]; rfl)
    exact .inl ((Option.some.inj hc) ▸ hslash)

/-- No number goes on there. -/
theorem endsNumber_rest : ∀ c ∈ (p.path ++ (opened 63 p.query ++ opened 35 p.fragment)).head?, EndsNumber c := by
  intro c hc
  rcases p.head_rest c hc with rfl | rfl | rfl <;> refine ⟨?_, ?_, ?_, ?_⟩ <;> decide

/-- Behind an authority the mark is at the host, or there is none. -/
def markBehind (k : ℕ) : Option ℕ := if p.port = none ∧ p.host ≠ [] then some (k + (ended 64 p.userinfo).length) else none

variable {uristr x : List UInt8} {k : ℕ}

theorem play_own_authority (hs : uristr.drop k = p.authority ++ x) (hx : ∀ c ∈ x.head?, EndsNumber c) :
    play uristr (shift k ((UriParser.authority false).trace p.authority)) ⟨{ empty with m_scheme := p.scheme }, none⟩ =
      if p.userinfo ≠ none ∧ p.host = [] ∧ p.port = some [] then .error .nullText
      else .ok ⟨authorityUri p.scheme p.userinfo p.host p.port, p.markBehind k⟩ :=
  play_authority p.userinfo_mem p.host_mem p.port_mem hs hx

/-- An empty path is saved as what lies behind the mark. -/
theorem play_path (hs : uristr.drop k = p.authority ++ (p.path ++ x)) (u : Uri) :
    play uristr (shift (k + p.authority.length) (marks (false, .path_markh) (false, .path_save_path) p.path))
        ⟨u, p.markBehind k⟩ =
      if p.path = [] ∧ ¬ (p.port = none ∧ p.host ≠ []) then .error .logicError
      else .ok ⟨{ u with m_path := if p.path = [] then p.host else p.path }, none⟩ := by
  by_cases hpath : p.path = []
  · rw [play_marks fun _ _ => rfl, if_pos hpath, markBehind]
    by_cases hmark : p.port = none ∧ p.host ≠ []
    · have hauthority : p.authority = ended 64 p.userinfo ++ p.host := by
        rw [authority, hmark.1, opened, List.append_nil]
      have hhost : uristr.drop (k + (ended 64 p.userinfo).length) = p.host ++ x := by
        refine drop_add ?_
        rw [hs, hauthority, hpath, List.append_assoc]
        rfl
      have hlength : k + p.authority.length + p.path.length =
          k + (ended 64 p.userinfo).length + p.host.length := by
        rw [hauthority, hpath, List.length_append, List.length_nil]
        omega
      rw [if_pos hmark, hlength, if_neg fun h => h.2 hmark, if_pos hpath]
      exact congrArg (fun v => Except.ok (Scan.mk { u with m_path := v } none)) (marked_eq hhost)
    · rw [if_neg hmark, if_pos ⟨hpath, hmark⟩]
      rfl
  · rw [if_neg fun h => hpath h.1, if_neg hpath]
    exact play_saved (g := fun u v => { u with m_path := v }) (fun _ _ => rfl) (fun _ _ => rfl) hpath (drop_add hs) _

theorem play_text {u : Uri} : (∃ m, play p.text (UriParser.URI_reference.trace p.text) ⟨empty, none⟩ = .ok ⟨u, m⟩) ↔
    p.Accepted ∧ u = p.saved := by
  have herror : ∀ e : Fault, ¬ ∃ m, (.error e : Except Fault Scan) = .ok ⟨u, m⟩ := by
    rintro e ⟨m, ⟨⟩⟩
  have hstart : p.text.drop (p.scheme.length + 1 + 2) =
      p.authority ++ (p.path ++ (opened 63 p.query ++ opened 35 p.fragment)) := by
    have hcut : p.text.drop 0 = (p.scheme ++ [58, 47, 47]) ++
        (p.authority ++ (p.path ++ (opened 63 p.query ++ opened 35 p.fragment))) := by
      rw [text_eq]
      simp
    have hdrop := drop_add hcut
    rwa [Nat.zero_add, List.length_append] at hdrop
  have hrest : p.text.drop (p.scheme.length + 1 + (47 :: 47 :: (p.authority ++ p.path)).length) =
      opened 63 p.query ++ opened 35 p.fragment := by
    have hlength : p.scheme.length + 1 + (47 :: 47 :: (p.authority ++ p.path)).length =
        p.scheme.length + 1 + 2 + (p.authority ++ p.path).length := by
      simp only [List.length_cons]
      omega
    rw [hlength]
    exact drop_add (by rw [hstart, List.append_assoc])
  have hscheme := play_scheme p.scheme_mem p.hier_part_mem p.tail_mem
  rw [← text_eq, UriParser.trace_net_path p.authority_mem p.path_mem, shift_append, shift_shift, shift_append,
    shift_shift, shift_shift, List.append_assoc] at hscheme
  rw [hscheme]
  have hauthority := p.play_own_authority hstart p.endsNumber_rest
  by_cases hport : p.userinfo ≠ none ∧ p.host = [] ∧ p.port = some []
  · rw [if_pos hport] at hauthority
    rw [play_append_error hauthority]
    exact iff_of_false (herror _) fun h => h.1.port hport
  · have hpath := p.play_path hstart (authorityUri p.scheme p.userinfo p.host p.port)
    rw [if_neg hport] at hauthority
    rw [play_append hauthority]
    by_cases hempty : p.path = [] ∧ ¬ (p.port = none ∧ p.host ≠ [])
    · rw [if_pos hempty] at hpath
      rw [play_append_error hpath]
      refine iff_of_false (herror _) fun h => hempty.2 ?_
      exact (h.1.path hempty.1).symm
    · rw [if_neg hempty] at hpath
      rw [play_append hpath, play_tail p.query_mem p.fragment_mem hrest]
      by_cases htail : p.query = some [] ∨ p.fragment = some []
      · rw [if_pos htail]
        refine iff_of_false (herror _) fun h => ?_
        exact htail.elim h.1.query h.1.fragment
      · rw [if_neg htail]
        constructor
        · rintro ⟨m, heq⟩
          obtain rfl := congrArg Scan.uri (Except.ok.inj heq)
          refine ⟨⟨hport, fun h => ?_, fun h => htail (.inl h), fun h => htail (.inr h)⟩, rfl⟩
          exact (not_not.mp fun hmark => hempty ⟨h, hmark⟩).symm
        · rintro ⟨-, rfl⟩
          exact ⟨none, rfl⟩

/-- `Create` accepts exactly these texts, and this is the result. -/
theorem Create_text_iff {u : Uri} : Create p.text = .ok (some u) ↔ p.Accepted ∧ u = p.saved := by
  rw [Create_eq_ok_iff, play_text, and_iff_right p.text_mem]

end Parts

/-! ## URIs without an authority -/

/-- Such a URI has no host, and its path is not saved. -/
structure Bare where
  scheme : List UInt8
  path : List UInt8
  query : Option (List UInt8)
  fragment : Option (List UInt8)
  scheme_mem : scheme ∈ UriParser.scheme.language
  path_mem : path ∈ UriParser.bare_path.language
  query_mem : ∀ v ∈ query, v ∈ UriParser.trailer.language
  fragment_mem : ∀ v ∈ fragment, v ∈ UriParser.trailer.language

namespace Bare

/-- `scheme ":" path ("?" query)? ("#" fragment)?`. -/
def text (b : Bare) : List UInt8 := b.scheme ++ ascii ":" ++ b.path ++ opened 63 b.query ++ opened 35 b.fragment

def saved (b : Bare) : Uri :=
  { empty with m_scheme := b.scheme, m_query := b.query.getD [], m_fragment := b.fragment.getD [] }

theorem text_eq (b : Bare) : b.text = b.scheme ++ 58 :: (b.path ++ (opened 63 b.query ++ opened 35 b.fragment)) := by
  have hascii : ascii ":" = [58] := by decide
  simp [text, hascii]

theorem Create_text_iff (b : Bare) {u : Uri} :
    Create b.text = .ok (some u) ↔ ¬ (b.query = some [] ∨ b.fragment = some []) ∧ u = b.saved := by
  have hpath : b.path ∈ UriParser.hier_part.language := UriParser.mem_hier_part.mpr (.inr b.path_mem)
  have htail : opened 63 b.query ++ opened 35 b.fragment ∈ (UriParser.tail false).language :=
    UriParser.mem_tail.mpr ⟨b.query, b.fragment, rfl, b.query_mem, b.fragment_mem⟩
  have hmem : b.text ∈ UriParser.URI_reference.language := by
    rw [text_eq]
    exact .inl (UriParser.mem_URI.mpr ⟨b.scheme, _, _, rfl, b.scheme_mem, hpath, htail⟩)
  have hrest : b.text.drop (b.scheme.length + 1 + b.path.length) = opened 63 b.query ++ opened 35 b.fragment := by
    have hcut : b.text.drop 0 = (b.scheme ++ 58 :: b.path) ++ (opened 63 b.query ++ opened 35 b.fragment) := by
      rw [text_eq]
      simp
    have hdrop := drop_add hcut
    rwa [Nat.zero_add, List.length_append, List.length_cons, Nat.add_comm b.path.length, ← Nat.add_assoc] at hdrop
  have hplay := play_scheme b.scheme_mem hpath htail
  rw [← text_eq, UriParser.trace_no_authority fun v => UriParser.bare_path_head b.path_mem, List.nil_append, shift_shift,
    play_tail b.query_mem b.fragment_mem hrest] at hplay
  rw [Create_eq_ok_iff, hplay, and_iff_right hmem]
  by_cases hempty : b.query = some [] ∨ b.fragment = some []
  · rw [if_pos hempty]
    refine iff_of_false ?_ fun h => h.1 hempty
    rintro ⟨m, ⟨⟩⟩
  · rw [if_neg hempty]
    constructor
    · rintro ⟨m, heq⟩
      exact ⟨hempty, (congrArg Scan.uri (Except.ok.inj heq)).symm⟩
    · rintro ⟨-, rfl⟩
      exact ⟨none, rfl⟩

end Bare

/-- A URI has an authority or it has none. -/
theorem mem_URI_iff {s : List UInt8} :
    s ∈ UriParser.URI.language ↔ (∃ p : Parts, p.text = s) ∨ ∃ b : Bare, b.text = s := by
  rw [UriParser.mem_URI]
  constructor
  · rintro ⟨sc, v, w, rfl, hsc, hv, hw⟩
    obtain ⟨q, f, rfl, hq, hf⟩ := UriParser.mem_tail.mp hw
    rcases UriParser.mem_hier_part.mp hv with hv | hv
    · obtain ⟨x, y, rfl, hx, hy⟩ := UriParser.mem_net_path.mp hv
      obtain ⟨a, z, rfl, ha, hz⟩ := UriParser.mem_authority.mp hx
      obtain ⟨h, o, rfl, hh, ho⟩ := UriParser.mem_hostport.mp hz
      exact .inl ⟨⟨sc, a, h, o, y, q, f, hsc, ha, hh, ho, hy, hq, hf⟩, Parts.text_eq _⟩
    · exact .inr ⟨⟨sc, v, q, f, hsc, hv, hq, hf⟩, Bare.text_eq _⟩
  · rintro (⟨p, rfl⟩ | ⟨b, rfl⟩)
    · exact ⟨p.scheme, _, _, p.text_eq, p.scheme_mem, p.hier_part_mem, p.tail_mem⟩
    · exact ⟨b.scheme, _, _, b.text_eq, b.scheme_mem, UriParser.mem_hier_part.mpr (.inr b.path_mem),
        UriParser.mem_tail.mpr ⟨b.query, b.fragment, rfl, b.query_mem, b.fragment_mem⟩⟩

/-! ## What the getters return -/

/-- The port of a scheme without one. -/
def defaultPort (sc : List UInt8) : ℤ :=
  if sc = ascii "http" ∨ sc = ascii "ws" then 80 else if sc = ascii "https" ∨ sc = ascii "wss" then 443 else 0

theorem getPort_eq (u : Uri) : u.getPort = if u.m_port ≠ 0 then u.m_port else defaultPort u.m_scheme := by
  rw [getPort, defaultPort]
  by_cases hport : u.m_port = 0
  · rw [hport]
  · rw [if_pos hport, if_pos hport]

theorem keptUserinfo_eq_iff {v : List UInt8} : keptUserinfo v = v ↔ digitBehind v = false := by
  rw [keptUserinfo]
  by_cases hdigit : digitBehind v = true
  · have hcolon : 58 ∈ v := by
      by_contra hcolon
      rw [digitBehind, Segments.after_of_not_mem hcolon] at hdigit
      cases hdigit
    rw [if_pos hdigit, hdigit]
    refine iff_of_false (fun heq => ?_) nofun
    exact absurd (congrArg List.length heq) (Segments.after_length_lt hcolon).ne
  · rw [if_neg hdigit]
    exact iff_of_true rfl (Bool.eq_false_iff.mpr hdigit)

theorem atoi_port {d : List UInt8} (hd : d ∈ UriParser.port.language) :
    atoi d = toInt (min (readDigits 10 0 d : ℤ) (2 ^ 63 - 1)) := by
  cases d with
  | nil => decide
  | cons c d =>
    have hdigit : UriParser.isDigit c = true := UriParser.alive_port.mp (Alive.left (v := d) (alive_of_mem hd))
    have hclass : ∀ c : UInt8, UriParser.isDigit c = true → isspace c = false ∧ c ≠ 45 ∧ c ≠ 43 := by
      intro c hc
      have h := forall_byte (p := fun c => !UriParser.isDigit c || (!isspace c && (c != 45 && c != 43)))
        (by decide +kernel) c
      rw [hc] at h
      simpa using h
    obtain ⟨hspace, hminus, hplus⟩ := hclass c hdigit
    rw [atoi, strtol_eq, List.dropWhile_cons_of_neg (by simp [hspace]), signed_of_ne hminus hplus]

theorem atoi_port_eq {d : List UInt8} (hd : d ∈ UriParser.port.language) (hsmall : readDigits 10 0 d ≤ intMax) :
    atoi d = readDigits 10 0 d := by
  have hmin : min (readDigits 10 0 d : ℤ) (2 ^ 63 - 1) = readDigits 10 0 d := by
    unfold intMax at hsmall
    omega
  rw [atoi_port hd, hmin, toInt_eq hsmall]

namespace Parts

/-- The number of the port, or the default where there are no digits. -/
def givenPort (p : Parts) : ℤ :=
  match p.port with
  | some (d :: ds) => readDigits 10 0 (d :: ds)
  | _ => defaultPort p.scheme

/-- The getters return the parts, and what stands for those that are absent. -/
structure Returned (p : Parts) (u : Uri) : Prop where
  scheme : u.getScheme = p.scheme
  userinfo : u.getUserinfo = p.userinfo.getD []
  host : u.getHost = p.host
  port : u.getPort = p.givenPort
  path : u.getPath = if p.path = [] then ascii "/" else p.path
  query : u.getQuery = p.query.getD []
  fragment : u.getFragment = p.fragment.getD []

/-- Every part is saved with its own mark. -/
structure Clean (p : Parts) : Prop where
  path : p.path ≠ []
  query : p.query ≠ some []
  fragment : p.fragment ≠ some []
  userinfo : ∀ v ∈ p.userinfo, digitBehind v = false ∧ (p.host = [] → userinfoHost v = [])
  no_digits : p.port = some [] →
    (p.userinfo ≠ none → p.host ≠ []) ∧ (atoi p.host = 0 ∨ atoi p.host = defaultPort p.scheme)
  zero : ∀ d ∈ p.port, d ≠ [] → readDigits 10 0 d = 0 → defaultPort p.scheme = 0

theorem port_returned_iff (p : Parts) (hport : ∀ d ∈ p.port, readDigits 10 0 d ≤ 65535) :
    p.saved.getPort = p.givenPort ↔
      (p.port = some [] → atoi p.host = 0 ∨ atoi p.host = defaultPort p.scheme) ∧
        ∀ d ∈ p.port, d ≠ [] → readDigits 10 0 d = 0 → defaultPort p.scheme = 0 := by
  have hget : p.saved.getPort =
      if portNumber p.host p.port ≠ 0 then portNumber p.host p.port else defaultPort p.scheme := getPort_eq p.saved
  rw [hget, givenPort]
  cases ho : p.port with
  | none => simp [portNumber]
  | some d =>
    cases d with
    | nil =>
      have hdefault : ∀ n : ℤ, (if n ≠ 0 then n else defaultPort p.scheme) = defaultPort p.scheme ↔
          n = 0 ∨ n = defaultPort p.scheme := by
        intro n
        by_cases hn : n = 0 <;> simp [hn]
      refine (hdefault _).trans ?_
      simp [portNumber]
    | cons c d =>
      have hsmall : readDigits 10 0 (c :: d) ≤ intMax := (hport _ ho).trans (by decide)
      simp only [portNumber, atoi_port_eq (p.port_mem _ ho) hsmall]
      by_cases hzero : readDigits 10 0 (c :: d) = 0 <;> simp [hzero]

theorem host_ne_slash (p : Parts) : p.host ≠ ascii "/" := by
  intro hhost
  rcases UriParser.mem_host p.host_mem with hplain | ⟨v, heq, -⟩
  · exact UriParser.not_plain (c := 47) (by decide) hplain (by rw [hhost]; decide)
  · rw [hhost] at heq
    exact absurd (List.cons.inj heq).1 (by decide)

/-- `http://admin@h:8080/test?id=1#f`. -/
def whole : Parts where
  scheme := ascii "http"
  userinfo := some (ascii "admin")
  host := ascii "h"
  port := some (ascii "8080")
  path := ascii "/test"
  query := some (ascii "id=1")
  fragment := some (ascii "f")
  scheme_mem := by decide +kernel
  userinfo_mem := by decide +kernel
  host_mem := by decide +kernel
  port_mem := by decide +kernel
  path_mem := by decide +kernel
  query_mem := by decide +kernel
  fragment_mem := by decide +kernel

/-- `http://h`. -/
def hostOnly : Parts where
  scheme := ascii "http"
  userinfo := none
  host := ascii "h"
  port := none
  path := []
  query := none
  fragment := none
  scheme_mem := by decide +kernel
  userinfo_mem := nofun
  host_mem := by decide +kernel
  port_mem := nofun
  path_mem := by decide +kernel
  query_mem := nofun
  fragment_mem := nofun

end Parts
end Uri
end Flz
