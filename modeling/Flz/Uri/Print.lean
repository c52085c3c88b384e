import Flz.TcpServer.Conf
import Flz.Uri.Create

/-! # Printing a URI

`Uri::dump` and `Uri::toString` of `src/uri.rl`, and what `Create` makes of the text.
-/
namespace Flz
open Lib Machine Http

namespace Uri

def isDefaultPort (u : Uri) : Bool :=
  if u.m_port = 0 then true
  else if u.m_scheme = ascii "http" ∨ u.m_scheme = ascii "ws" then u.m_port == 80
  else if u.m_scheme = ascii "https" ∨ u.m_scheme = ascii "wss" then u.m_port == 443
  else false

/-- `std::to_string` of an `int`. -/
def to_string : ℤ → List UInt8
  | .ofNat n => decimal n
  | .negSucc n => 45 :: decimal (n + 1)

def dump (os : List UInt8) (u : Uri) : List UInt8 :=
  os ++ u.m_scheme ++ ascii "://" ++ u.m_userinfo ++ (if u.m_userinfo = [] then [] else ascii "@") ++ u.m_host ++
    (if u.isDefaultPort then [] else ascii ":" ++ to_string u.m_port) ++ u.getPath ++
    (if u.m_query = [] then [] else ascii "?") ++ u.m_query ++
    (if u.m_fragment = [] then [] else ascii "#") ++ u.m_fragment

def toString (u : Uri) : List UInt8 := dump [] u

/-- The getters return the same. -/
structure Same (u v : Uri) : Prop where
  scheme : v.getScheme = u.getScheme
  userinfo : v.getUserinfo = u.getUserinfo
  host : v.getHost = u.getHost
  port : v.getPort = u.getPort
  path : v.getPath = u.getPath
  query : v.getQuery = u.getQuery
  fragment : v.getFragment = u.getFragment

/-- What is printed is read as the same URI, and that is printed as the same text. -/
def RoundTrips (u : Uri) : Prop := ∃ v, Create u.toString = .ok (some v) ∧ Same u v ∧ v.toString = u.toString

/-! ## Ports -/

theorem isDefaultPort_iff (u : Uri) : u.isDefaultPort = true ↔ u.m_port = 0 ∨ u.m_port = defaultPort u.m_scheme := by
  rw [isDefaultPort, defaultPort]
  by_cases hzero : u.m_port = 0
  · simp [hzero]
  · split
    · simp_all
    · split
      · simp [hzero]
      · split <;> simp [hzero]

theorem getPort_of_default {u : Uri} (h : u.isDefaultPort = true) : u.getPort = defaultPort u.m_scheme := by
  rw [getPort_eq]
  rcases u.isDefaultPort_iff.mp h with hzero | hdefault
  · exact if_neg (not_not.mpr hzero)
  · split
    · exact hdefault
    · rfl

theorem defaultPort_nonneg (sc : List UInt8) : 0 ≤ defaultPort sc := by
  rw [defaultPort]
  split
  · decide
  · split <;> decide

theorem decimal_ne_nil (n : ℕ) : decimal n ≠ [] := Digits.digits_ne_nil

theorem decimal_port (n : ℕ) : decimal n ∈ UriParser.port.language := by
  have hdigits : ∀ c ∈ decimal n, ByteClass.digit.holds c = true := Digits.forall_mem_digits (by decide) (by decide) n
  have hstar : ∀ u : List UInt8, (∀ c ∈ u, ByteClass.digit.holds c = true) → u ∈ UriParser.port.language := by
    intro u hu
    induction u with
    | nil => exact nil_mem_star
    | cons c u ih =>
      obtain ⟨hc, hu⟩ := List.forall_mem_cons.mp hu
      exact cons_mem_star.mpr ⟨[], u, rfl, ⟨c, hc, rfl⟩, ih hu⟩
  exact hstar _ hdigits

theorem atoi_decimal {n : ℕ} (h : n ≤ intMax) : atoi (decimal n) = n := by
  have hread : readDigits 10 0 (decimal n) = n := readDigits_digits n
  rw [atoi_port_eq (decimal_port n) (hread.symm ▸ h), hread]

/-! ## Texts with an authority -/

/-- A userinfo ends at the only `@`. -/
theorem ended_inj {a b : Option (List UInt8)} {x y : List UInt8} (ha : ∀ v ∈ a, 64 ∉ v) (hb : ∀ v ∈ b, 64 ∉ v)
    (hx : 64 ∉ x) (hy : 64 ∉ y) (h : ended 64 a ++ x = ended 64 b ++ y) : a = b ∧ x = y := by
  cases a with
  | none =>
    cases b with
    | none => exact ⟨rfl, h⟩
    | some w =>
      have h : x = w ++ [64] ++ y := h
      exact absurd (h ▸ by simp) hx
  | some v =>
    cases b with
    | none =>
      have h : v ++ [64] ++ x = y := h
      exact absurd (h ▸ by simp) hy
    | some w =>
      have h : v ++ 64 :: x = w ++ 64 :: y := by simpa [ended] using h
      obtain ⟨rfl, rfl⟩ := Segments.append_cons_inj (ha v rfl) (hb w rfl) h
      exact ⟨rfl, rfl⟩

theorem Bare.rest_ne (b : Bare) {x : List UInt8} :
    b.path ++ (opened 63 b.query ++ opened 35 b.fragment) ≠ 47 :: 47 :: x := by
  have htail : opened 63 b.query ++ opened 35 b.fragment ∈ (UriParser.tail false).language :=
    UriParser.mem_tail.mpr ⟨b.query, b.fragment, rfl, b.query_mem, b.fragment_mem⟩
  have hslash : ∀ v, opened 63 b.query ++ opened 35 b.fragment ≠ 47 :: v := by
    intro v hv
    have hhead := UriParser.head_tail htail 47 (by rw [hv]; rfl)
    exact absurd hhead (by decide)
  intro heq
  cases hpath : b.path with
  | nil =>
    rw [hpath] at heq
    exact hslash _ heq
  | cons c v =>
    rw [hpath] at heq
    obtain ⟨hc, hrest⟩ := List.cons.inj heq
    cases v with
    | nil => exact hslash _ hrest
    | cons d v =>
      obtain ⟨hd, -⟩ := List.cons.inj hrest
      rw [hc, hd] at hpath
      exact UriParser.bare_path_head b.path_mem hpath

section
variable {sc x y : List UInt8} {u : Uri}

/-- `scheme "://"` can only be followed by an authority. -/
theorem Create_authority (hmem : sc ∈ UriParser.scheme.language) (hx : ∀ c ∈ x, UriParser.Segment c)
    (hy : ∀ c ∈ y.head?, ¬ UriParser.Segment c) (h : Create (sc ++ ascii "://" ++ (x ++ y)) = .ok (some u)) :
    ∃ p : Parts, p.authority = x ∧ p.path ++ (opened 63 p.query ++ opened 35 p.fragment) = y ∧ p.Accepted ∧
      u = p.saved := by
  have hsc : 58 ∉ sc := UriParser.not_plain (by decide) (UriParser.scheme_over.alive (alive_of_mem hmem))
  have htext : sc ++ ascii "://" ++ (x ++ y) = sc ++ 58 :: 47 :: 47 :: (x ++ y) := by
    have hascii : ascii "://" = [58, 47, 47] := by decide
    simp [hascii]
  rw [htext] at h
  rcases (Create_eq_ok_iff.mp h).1 with hURI | hrelative
  · rcases mem_URI_iff.mp hURI with ⟨p, hp⟩ | ⟨b, hb⟩
    · have hplain := UriParser.scheme_over.alive (alive_of_mem p.scheme_mem)
      have hcreate := hp ▸ h
      rw [p.text_eq] at hp
      have hrest := (Segments.append_cons_inj (UriParser.not_plain (by decide) hplain) hsc hp).2
      have hauthority : p.authority ++ (p.path ++ (opened 63 p.query ++ opened 35 p.fragment)) = x ++ y := by
        simpa using hrest
      have hnot : ∀ c ∈ (p.path ++ (opened 63 p.query ++ opened 35 p.fragment)).head?, ¬ UriParser.Segment c := by
        intro c hc
        rcases p.head_rest c hc with rfl | rfl | rfl <;> decide
      have hover := (UriParser.authority_over false).alive (alive_of_mem p.authority_mem)
      obtain ⟨hsame, hrest⟩ := Segments.append_inj_of_class hover hx hnot hy hauthority
      exact ⟨p, hsame, hrest, p.Create_text_iff.mp hcreate⟩
    · have hplain := UriParser.scheme_over.alive (alive_of_mem b.scheme_mem)
      rw [b.text_eq] at hb
      have hrest := (Segments.append_cons_inj (UriParser.not_plain (by decide) hplain) hsc hb).2
      exact absurd hrest b.rest_ne
  · have halive := alive_of_mem (e := UriParser.relative_ref) hrelative
    rw [List.append_cons] at halive
    exact absurd halive.left (UriParser.relative_ref_dead (UriParser.scheme_over.alive (alive_of_mem hmem)))

end

/-! ## What is printed -/

theorem keptUserinfo_mem {v : List UInt8} (hv : v ∈ UriParser.userinfo.language) :
    keptUserinfo v ∈ UriParser.userinfo.language := by
  rw [keptUserinfo]
  split
  · by_cases hcolon : 58 ∈ v
    · rw [← Segments.before_append_after hcolon] at hv
      exact (UriParser.mem_userinfo_append Segments.not_mem_before hv).2
    · rw [Segments.after_of_not_mem hcolon]
      exact nil_mem_star
  · exact hv

theorem userinfoHost_mem {v : List UInt8} (hv : v ∈ UriParser.userinfo.language) :
    userinfoHost v ∈ UriParser.host.language := by
  rw [userinfoHost]
  split
  · rename_i hcolon
    rw [← Segments.before_append_after hcolon] at hv
    exact UriParser.host_of_reg_name (UriParser.mem_userinfo_append Segments.not_mem_before hv).1
  · exact UriParser.nil_mem_host

/-- A list as a part that is absent when it is empty. -/
def part (v : List UInt8) : Option (List UInt8) := if v = [] then none else some v

theorem ended_part (s : UInt8) (v : List UInt8) : ended s (part v) = v ++ if v = [] then [] else [s] := by
  rw [part]
  by_cases hv : v = []
  · rw [if_pos hv, if_pos hv, hv]
    rfl
  · rw [if_neg hv, if_neg hv]
    rfl

theorem opened_part (s : UInt8) (v : List UInt8) : opened s (part v) = (if v = [] then [] else [s]) ++ v := by
  rw [part]
  by_cases hv : v = []
  · rw [if_pos hv, if_pos hv, hv]
    rfl
  · rw [if_neg hv, if_neg hv]
    rfl

theorem part_getD {o : Option (List UInt8)} (h : o ≠ some []) : part (o.getD []) = o := by
  cases o with
  | none => rfl
  | some v => exact if_neg fun hv => h (congrArg some hv)

/-- What is printed, with the parts of the grammar. -/
theorem toString_eq (u : Uri) : u.toString = u.m_scheme ++ ascii "://" ++
    ((ended 64 (part u.m_userinfo) ++ (u.m_host ++ if u.isDefaultPort then [] else [58] ++ to_string u.m_port)) ++
      (u.getPath ++ (opened 63 (part u.m_query) ++ opened 35 (part u.m_fragment)))) := by
  have hascii : ascii "@" = [64] ∧ ascii ":" = [58] ∧ ascii "?" = [63] ∧ ascii "#" = [35] := by decide
  rw [toString, dump, ended_part, opened_part, opened_part, hascii.1, hascii.2.1, hascii.2.2.1, hascii.2.2.2]
  simp only [List.append_assoc, List.nil_append]

/-- The port that is printed, if it is not negative. -/
def printedPort (u : Uri) : Option (List UInt8) := if u.isDefaultPort then none else some (decimal u.m_port.toNat)

theorem printedPort_mem (u : Uri) : ∀ d ∈ printedPort u, d ∈ UriParser.port.language := by
  intro d hd
  rw [printedPort] at hd
  split at hd
  · cases hd
  · obtain rfl := Option.some.inj hd
    exact decimal_port _

theorem printedPort_ne (u : Uri) : printedPort u ≠ some [] := by
  rw [printedPort]
  split
  · exact nofun
  · exact fun h => decimal_ne_nil _ (Option.some.inj h)

theorem opened_printedPort {u : Uri} (h : 0 ≤ u.m_port) :
    opened 58 (printedPort u) = if u.isDefaultPort then [] else [58] ++ to_string u.m_port := by
  obtain ⟨n, hn⟩ := Int.eq_ofNat_of_zero_le h
  rw [printedPort, hn]
  by_cases hdefault : u.isDefaultPort = true
  · rw [if_pos hdefault, if_pos hdefault]
    rfl
  · rw [if_neg hdefault, if_neg hdefault]
    rfl

namespace Parts
variable (p : Parts)

/-- The parts of what is printed. -/
def printed : Parts where
  scheme := p.scheme
  userinfo := part p.saved.m_userinfo
  host := p.saved.m_host
  port := printedPort p.saved
  path := p.path
  query := p.query
  fragment := p.fragment
  scheme_mem := p.scheme_mem
  userinfo_mem := by
    intro v hv
    rw [part] at hv
    split at hv
    · cases hv
    · obtain rfl := Option.some.inj hv
      rw [saved, authorityUri]
      cases hu : p.userinfo with
      | none => exact nil_mem_star
      | some w => exact keptUserinfo_mem (p.userinfo_mem w hu)
  host_mem := by
    rw [saved, authorityUri]
    split
    · cases hu : p.userinfo with
      | none => exact UriParser.nil_mem_host
      | some w => exact userinfoHost_mem (p.userinfo_mem w hu)
    · exact p.host_mem
  port_mem := printedPort_mem _
  path_mem := p.path_mem
  query_mem := p.query_mem
  fragment_mem := p.fragment_mem

theorem printed_accepted (h : p.Accepted) (hpath : p.path ≠ []) : p.printed.Accepted where
  port hc := printedPort_ne _ hc.2.2
  path hempty := absurd hempty hpath
  query := h.query
  fragment := h.fragment

theorem getPath_saved (hpath : p.path ≠ []) : p.saved.getPath = p.path := by
  rw [getPath, saved, if_neg hpath]
  exact if_neg hpath

/-- The tail is printed as it was read. -/
theorem part_query (h : p.Accepted) : part p.saved.m_query = p.query := part_getD h.query

theorem part_fragment (h : p.Accepted) : part p.saved.m_fragment = p.fragment := part_getD h.fragment

/-- A port that is not negative is printed as digits. -/
theorem toString_saved (h : p.Accepted) (hpath : p.path ≠ []) (hport : 0 ≤ p.saved.m_port) :
    p.saved.toString = p.printed.text := by
  have hnumber := opened_printedPort hport
  have hauthority : p.printed.authority = ended 64 (part p.saved.m_userinfo) ++
      (p.saved.m_host ++ opened 58 (printedPort p.saved)) := rfl
  rw [toString_eq, text, hauthority, p.getPath_saved hpath, p.part_query h, p.part_fragment h, ← hnumber]
  simp only [List.append_assoc]
  rfl

end Parts

/-! ## What comes back -/

theorem toInt_range (z : ℤ) : -2 ^ 31 ≤ toInt z ∧ toInt z ≤ intMax := by
  rw [toInt, BitVec.toInt_ofInt, Int.bmod_def, intMax]
  omega

theorem part_map {g : List UInt8 → List UInt8} (hg : g [] = []) (v : List UInt8) : ((part v).map g).getD [] = g v := by
  rw [part]
  by_cases hv : v = []
  · rw [if_pos hv, hv, hg]
    rfl
  · rw [if_neg hv]
    rfl

theorem portNumber_printedPort {u : Uri} (h : 0 ≤ u.m_port) (hu : u.m_port ≤ intMax) (x : List UInt8) :
    portNumber x (printedPort u) = if u.isDefaultPort then 0 else u.m_port := by
  obtain ⟨n, hn⟩ := Int.eq_ofNat_of_zero_le h
  rw [hn] at hu
  have hatoi : atoi (decimal n) = n := atoi_decimal (by exact_mod_cast hu)
  rw [printedPort, hn]
  by_cases hdefault : u.isDefaultPort = true
  · rw [if_pos hdefault, if_pos hdefault]
    rfl
  · rw [if_neg hdefault, if_neg hdefault, Int.toNat_natCast]
    cases hd : decimal n with
    | nil => exact absurd hd (decimal_ne_nil n)
    | cons c d =>
      rw [portNumber, ← hd, hatoi]

theorem portNumber_le (x : List UInt8) (o : Option (List UInt8)) : portNumber x o ≤ intMax := by
  have hatoi : ∀ w, atoi w ≤ intMax := fun w => (toInt_range _).2
  cases o with
  | none => exact Int.natCast_nonneg _
  | some d =>
    cases d with
    | nil => exact hatoi x
    | cons c d => exact hatoi (c :: d)

/-- The number itself may be gone when it is the default. -/
theorem default_port_same {u v : Uri} (hscheme : v.m_scheme = u.m_scheme)
    (h : v.m_port = if u.isDefaultPort then 0 else u.m_port) :
    v.isDefaultPort = u.isDefaultPort ∧ v.getPort = u.getPort := by
  by_cases hdefault : u.isDefaultPort = true
  · rw [if_pos hdefault] at h
    have hv : v.isDefaultPort = true := v.isDefaultPort_iff.mpr (.inl h)
    rw [hv, hdefault, getPort_of_default hv, getPort_of_default hdefault, hscheme]
    exact ⟨rfl, rfl⟩
  · rw [if_neg hdefault] at h
    rw [isDefaultPort, isDefaultPort, getPort, getPort, h, hscheme]
    exact ⟨rfl, rfl⟩

theorem toString_congr {u v : Uri} (h : Same u v) (hport : v.m_port = if u.isDefaultPort then 0 else u.m_port) :
    v.toString = u.toString := by
  have hdefault := (default_port_same h.scheme hport).1
  have hnumber : (if v.isDefaultPort then [] else ascii ":" ++ to_string v.m_port) =
      if u.isDefaultPort then [] else ascii ":" ++ to_string u.m_port := by
    rw [hdefault]
    by_cases hu : u.isDefaultPort = true
    · rw [if_pos hu, if_pos hu]
    · rw [if_neg hu] at hport
      rw [hport]
  have hscheme : v.m_scheme = u.m_scheme := h.scheme
  have huserinfo : v.m_userinfo = u.m_userinfo := h.userinfo
  have hhost : v.m_host = u.m_host := h.host
  have hquery : v.m_query = u.m_query := h.query
  have hfragment : v.m_fragment = u.m_fragment := h.fragment
  rw [toString, toString, dump, dump, hnumber, hscheme, huserinfo, hhost, h.path, hquery, hfragment]

namespace Parts
variable (p : Parts)

/-- The parts are printed such that each is saved with its own mark. -/
structure Reprinted (p : Parts) : Prop where
  path : p.path ≠ []
  port : 0 ≤ portNumber p.host p.port
  userinfo : ∀ v ∈ p.userinfo, digitBehind (keptUserinfo v) = false
  host : p.host = [] → ∀ v ∈ p.userinfo, userinfoHost v = [] → userinfoHost (keptUserinfo v) = []

theorem printed_saved_port (hport : 0 ≤ portNumber p.host p.port) :
    p.printed.saved.m_port = if p.saved.isDefaultPort then 0 else p.saved.m_port :=
  portNumber_printedPort hport (portNumber_le _ _) _

theorem printed_saved_userinfo : p.printed.saved.m_userinfo = keptUserinfo p.saved.m_userinfo := part_map rfl _

theorem printed_saved_host : p.printed.saved.m_host =
    if p.saved.m_host = [] then userinfoHost p.saved.m_userinfo else p.saved.m_host := by
  rw [← part_map (g := userinfoHost) rfl p.saved.m_userinfo]
  rfl

theorem same_printed_iff (hpath : p.path ≠ []) (hport : 0 ≤ portNumber p.host p.port) :
    Same p.saved p.printed.saved ↔
    digitBehind p.saved.m_userinfo = false ∧ (p.saved.m_host = [] → userinfoHost p.saved.m_userinfo = []) := by
  constructor
  · intro h
    have huserinfo : p.printed.saved.m_userinfo = p.saved.m_userinfo := h.userinfo
    have hhost : p.printed.saved.m_host = p.saved.m_host := h.host
    rw [printed_saved_userinfo, keptUserinfo_eq_iff] at huserinfo
    refine ⟨huserinfo, fun hempty => ?_⟩
    rwa [printed_saved_host, if_pos hempty, hempty] at hhost
  · rintro ⟨hdigit, hempty⟩
    refine ⟨rfl, ?_, ?_, (default_port_same (u := p.saved) (v := p.printed.saved) rfl
      (p.printed_saved_port hport)).2, ?_, rfl, rfl⟩
    · exact p.printed_saved_userinfo.trans (keptUserinfo_eq_iff.mpr hdigit)
    · refine p.printed_saved_host.trans ?_
      by_cases hhost : p.saved.m_host = []
      · rw [if_pos hhost, hempty hhost]
        exact hhost.symm
      · exact if_neg hhost
    · exact (p.printed.getPath_saved hpath).trans (p.getPath_saved hpath).symm

/-- The condition on the parts themselves. -/
theorem kept_iff : (digitBehind p.saved.m_userinfo = false ∧
      (p.saved.m_host = [] → userinfoHost p.saved.m_userinfo = [])) ↔
    (∀ v ∈ p.userinfo, digitBehind (keptUserinfo v) = false) ∧
      (p.host = [] → ∀ v ∈ p.userinfo, userinfoHost v = [] → userinfoHost (keptUserinfo v) = []) := by
  have huserinfo : p.saved.m_userinfo = (p.userinfo.map keptUserinfo).getD [] := rfl
  have hhost : p.saved.m_host = if p.host = [] then (p.userinfo.map userinfoHost).getD [] else p.host := rfl
  rw [huserinfo, hhost]
  cases p.userinfo with
  | none =>
    have hnil : digitBehind [] = false ∧ userinfoHost [] = [] := ⟨rfl, rfl⟩
    simp [hnil.1, hnil.2]
  | some v =>
    simp only [Option.map_some, Option.getD_some, Option.mem_def, Option.some.injEq, forall_eq']
    refine and_congr_right fun _ => ?_
    by_cases hempty : p.host = []
    · simp [hempty]
    · simp [hempty]

theorem round_trips_of_path (h : p.Accepted) (hpath : p.path ≠ []) (hport : 0 ≤ portNumber p.host p.port) :
    RoundTrips p.saved ↔ Same p.saved p.printed.saved := by
  have hstring : p.saved.toString = p.printed.text := p.toString_saved h hpath hport
  constructor
  · rintro ⟨v, hcreate, hsame, -⟩
    rw [hstring] at hcreate
    rwa [← (p.printed.Create_text_iff.mp hcreate).2]
  · intro hsame
    refine ⟨p.printed.saved, ?_, hsame, toString_congr hsame (p.printed_saved_port hport)⟩
    rw [hstring]
    exact p.printed.Create_text_iff.mpr ⟨p.printed_accepted h hpath, rfl⟩

theorem split_authority {o : Option (List UInt8)} {w : List UInt8} (ho : ∀ v ∈ o, v ∈ UriParser.userinfo.language)
    (hw : ∀ c ∈ w, c ≠ 64 ∧ UriParser.Segment c) (h : p.authority = ended 64 o ++ w) :
    p.userinfo = o ∧ p.host ++ opened 58 p.port = w := by
  have hat : ∀ v ∈ UriParser.userinfo.language, 64 ∉ v := fun v hv =>
    UriParser.not_inner (by decide) ((UriParser.userinfo_over (S := fun _ => True)).alive (alive_of_mem hv))
  have hmem : p.host ++ opened 58 p.port ∈ (UriParser.hostport false).language :=
    UriParser.mem_hostport.mpr ⟨p.host, p.port, rfl, p.host_mem, p.port_mem⟩
  have hover := (UriParser.hostport_over false).alive (alive_of_mem hmem)
  exact ended_inj (fun v hv => hat v (p.userinfo_mem v hv)) (fun v hv => hat v (ho v hv))
    (fun hc => (hover 64 hc).1 rfl) (fun hc => (hw 64 hc).1 rfl) h

theorem segment_authority {o : Option (List UInt8)} {w : List UInt8} (ho : ∀ v ∈ o, v ∈ UriParser.userinfo.language)
    (hw : ∀ c ∈ w, c ≠ 64 ∧ UriParser.Segment c) : ∀ c ∈ ended 64 o ++ w, UriParser.Segment c := by
  intro c hc
  rcases List.mem_append.mp hc with hc | hc
  · cases o with
    | none => cases hc
    | some v =>
      rcases List.mem_append.mp hc with hc | hc
      · exact ((UriParser.userinfo_over (S := fun _ => True)).alive (alive_of_mem (ho v rfl)) c hc).segment
      · rw [List.mem_singleton.mp hc]
        decide
  · exact (hw c hc).2

theorem host_segment : ∀ c ∈ p.host, c ≠ 64 ∧ UriParser.Segment c :=
  (UriParser.host_over (S := fun _ => True)).alive (alive_of_mem p.host_mem)

/-- An empty path is printed as the host once more. -/
theorem not_round_trips_of_path (h : p.Accepted) (hpath : p.path = []) : ¬ RoundTrips p.saved := by
  obtain ⟨hhost, hport⟩ := h.path hpath
  rintro ⟨v, hcreate, hsame, -⟩
  have hget : p.saved.getPath = p.host := by
    rw [getPath, saved, if_pos hpath]
    exact if_neg hhost
  have hdefault : p.saved.isDefaultPort = true := by
    rw [isDefaultPort, saved, authorityUri, hport]
    rfl
  have hsaved : p.saved.m_host = p.host := if_neg hhost
  have htext : p.saved.toString = p.scheme ++ ascii "://" ++ ((ended 64 (part p.saved.m_userinfo) ++
      (p.host ++ p.host)) ++ (opened 63 p.query ++ opened 35 p.fragment)) := by
    rw [toString_eq, hget, if_pos hdefault, p.part_query h, p.part_fragment h, hsaved]
    simp only [List.append_assoc, List.nil_append]
    rfl
  have htwice : ∀ c ∈ p.host ++ p.host, c ≠ 64 ∧ UriParser.Segment c :=
    List.forall_mem_append.mpr ⟨p.host_segment, p.host_segment⟩
  have htail : ∀ c ∈ (opened 63 p.query ++ opened 35 p.fragment).head?, ¬ UriParser.Segment c ∧ c ≠ 47 := by
    intro c hc
    rcases UriParser.head_tail (p.tail_mem (r := false)) c hc with rfl | rfl <;> decide
  rw [htext] at hcreate
  obtain ⟨q, hauthority, hrest, haccepted, rfl⟩ := Create_authority p.scheme_mem
    (segment_authority p.printed.userinfo_mem htwice) (fun c hc => (htail c hc).1) hcreate
  have hempty : q.path = [] := by
    cases hq : q.path with
    | nil => rfl
    | cons c x =>
      have hslash := UriParser.head_path_abempty q.path_mem c (by rw [hq]; rfl)
      exact absurd hslash (htail c (by rw [← hrest, hq]; rfl)).2
  obtain ⟨hne, hnone⟩ := haccepted.path hempty
  have hhost' := (q.split_authority p.printed.userinfo_mem htwice hauthority).2
  have hq : q.saved.m_host = q.host := if_neg hne
  have hsame' : q.saved.m_host = p.saved.m_host := hsame.host
  rw [hnone, opened, List.append_nil, ← hq, hsame', hsaved] at hhost'
  exact hhost (List.self_eq_append_right.mp hhost')

/-- A `-` in front of the port is not read. -/
theorem not_round_trips_of_port (h : p.Accepted) (hpath : p.path ≠ []) (hport : portNumber p.host p.port < 0) :
    ¬ RoundTrips p.saved := by
  rintro ⟨v, hcreate, -⟩
  obtain ⟨n, hn⟩ : ∃ n, p.saved.m_port = .negSucc n := Int.eq_negSucc_of_lt_zero hport
  have hdefault : p.saved.isDefaultPort = false := by
    rw [Bool.eq_false_iff, ne_eq, isDefaultPort_iff, hn]
    have hle := defaultPort_nonneg p.saved.m_scheme
    omega
  have htext : p.saved.toString = p.scheme ++ ascii "://" ++ ((ended 64 (part p.saved.m_userinfo) ++
      (p.printed.host ++ 58 :: 45 :: decimal (n + 1))) ++
      (p.path ++ (opened 63 p.query ++ opened 35 p.fragment))) := by
    rw [toString_eq, p.getPath_saved hpath, hdefault, p.part_query h, p.part_fragment h, hn]
    rfl
  have hnumber : ∀ c ∈ p.printed.host ++ 58 :: 45 :: decimal (n + 1), c ≠ 64 ∧ UriParser.Segment c := by
    refine List.forall_mem_append.mpr ⟨p.printed.host_segment, ?_⟩
    refine List.forall_mem_cons.mpr ⟨by decide, List.forall_mem_cons.mpr ⟨by decide, fun c hc => ?_⟩⟩
    have hplain := (UriParser.port_over (S := fun _ => True)).alive (alive_of_mem (decimal_port (n + 1))) c hc
    exact ⟨hplain.2.2.2.2.1, hplain.2.segment⟩
  rw [htext] at hcreate
  obtain ⟨q, hauthority, -⟩ := Create_authority p.scheme_mem (segment_authority p.printed.userinfo_mem hnumber)
    (fun c hc => by rcases p.head_rest c hc with rfl | rfl | rfl <;> decide) hcreate
  have hhost := (q.split_authority p.printed.userinfo_mem hnumber hauthority).2
  have hsame := UriParser.host_unique q.host_mem p.printed.host_mem hhost.symm (UriParser.head_opened 58 q.port)
  rw [← hsame, List.append_cancel_left_eq] at hhost
  cases hq : q.port with
  | none =>
    rw [hq] at hhost
    cases hhost
  | some d =>
    rw [hq] at hhost
    obtain rfl := (List.cons.inj hhost).2
    have hdigit := UriParser.alive_port.mp (Alive.left (v := decimal (n + 1)) (alive_of_mem (q.port_mem _ hq)))
    exact absurd hdigit (by decide)

theorem reprinted_iff (h : p.Accepted) : RoundTrips p.saved ↔ p.Reprinted := by
  constructor
  · intro hround
    have hpath : p.path ≠ [] := fun hpath => p.not_round_trips_of_path h hpath hround
    have hport : 0 ≤ portNumber p.host p.port := not_lt.mp fun hport => p.not_round_trips_of_port h hpath hport hround
    obtain ⟨huserinfo, hhost⟩ :=
      p.kept_iff.mp ((p.same_printed_iff hpath hport).mp ((p.round_trips_of_path h hpath hport).mp hround))
    exact ⟨hpath, hport, huserinfo, hhost⟩
  · intro hr
    refine (p.round_trips_of_path h hr.path hr.port).mpr ((p.same_printed_iff hr.path hr.port).mpr ?_)
    exact p.kept_iff.mpr ⟨hr.userinfo, hr.host⟩

end Parts

/-! ### The other forms -/

namespace Bare
variable (b : Bare)

/-- The parts of what is printed. -/
def printed : Parts where
  scheme := b.scheme
  userinfo := none
  host := []
  port := none
  path := ascii "/"
  query := b.query
  fragment := b.fragment
  scheme_mem := b.scheme_mem
  userinfo_mem := forall_mem_none
  host_mem := UriParser.nil_mem_host
  port_mem := forall_mem_none
  path_mem := by decide +kernel
  query_mem := b.query_mem
  fragment_mem := b.fragment_mem

theorem round_trips (h : ¬ (b.query = some [] ∨ b.fragment = some [])) : RoundTrips b.saved := by
  obtain ⟨hq, hf⟩ := not_or.mp h
  have hslash : ascii "/" ≠ [] := by decide
  have haccepted : b.printed.Accepted := ⟨nofun, fun hpath => absurd hpath hslash, hq, hf⟩
  have hquery : part b.saved.m_query = b.query := part_getD hq
  have hfragment : part b.saved.m_fragment = b.fragment := part_getD hf
  have htext : b.saved.toString = b.printed.text := by
    rw [toString_eq, Parts.text, hquery, hfragment]
    simp only [List.append_assoc]
    rfl
  have hsame : Same b.saved b.printed.saved := by
    refine ⟨rfl, rfl, rfl, rfl, ?_, rfl, rfl⟩
    have hpath : b.printed.saved.m_path = ascii "/" :=
      (if_neg hslash : (if ascii "/" = [] then [] else ascii "/") = ascii "/")
    rw [getPath, getPath, hpath, if_neg hslash]
    exact (if_pos rfl).symm
  refine ⟨b.printed.saved, ?_, hsame, toString_congr hsame rfl⟩
  rw [htext]
  exact b.printed.Create_text_iff.mpr ⟨haccepted, rfl⟩

end Bare

section
variable {s : List UInt8} {u : Uri}

theorem save_scheme_eq {set : Uri → List UInt8 → Uri} (hset : ∀ u v, (set u v).m_scheme = u.m_scheme) {st st' : Scan}
    {n : ℕ} (h : save s set st n = .ok st') : st'.uri.m_scheme = st.uri.m_scheme := by
  rw [save] at h
  split at h
  · cases h
  · cases h
    exact hset _ _

/-- Only one action sets the scheme. -/
theorem act_scheme {st st' : Scan} {n : ℕ} {r : Bool} {site : UriParser.Site} (hsite : site ≠ .scheme_save_scheme)
    (h : act s st n (r, site) = .ok st') : st'.uri.m_scheme = st.uri.m_scheme := by
  cases site with
  | scheme_save_scheme => exact absurd rfl hsite
  | scheme_marku | query_marku | fragment_marku | authority_markh | host_markh | port_markh | path_markh =>
    cases h
    rfl
  | userinfo_save_userinfo =>
    have h : save_userinfo s st n = .ok st' := h
    rw [save_userinfo] at h
    split at h <;> cases h <;> rfl
  | host_save_host =>
    have h : save_host s st n = .ok st' := h
    rw [save_host] at h
    split at h <;> cases h <;> rfl
  | port_save_port =>
    have h : save_port s st n = .ok st' := h
    rw [save_port] at h
    split at h
    · split at h <;> cases h
      rfl
    · cases h
      rfl
  | path_save_path =>
    refine save_scheme_eq ?_ (show save_path s st n = .ok st' from h)
    exact fun _ _ => rfl
  | query_save_query =>
    refine save_scheme_eq ?_ (show save_query s st n = .ok st' from h)
    exact fun _ _ => rfl
  | fragment_save_fragment =>
    refine save_scheme_eq ?_ (show save_fragment s st n = .ok st' from h)
    exact fun _ _ => rfl

theorem play_scheme_eq {evs : List (ℕ × (Bool × UriParser.Site))} {st st' : Scan}
    (hevs : ∀ n a, (n, a) ∈ evs → a.2 ≠ .scheme_save_scheme) (h : play s evs st = .ok st') :
    st'.uri.m_scheme = st.uri.m_scheme := by
  induction evs generalizing st with
  | nil =>
    cases h
    rfl
  | cons x evs ih =>
    rw [play, List.foldlM_cons] at h
    cases hact : act s st x.1 x.2 with
    | error e =>
      rw [hact] at h
      cases h
    | ok mid =>
      rw [hact] at h
      rw [ih (fun n a ha => hevs n a (List.mem_cons_of_mem _ ha)) h]
      exact act_scheme (hevs x.1 x.2 List.mem_cons_self) hact

theorem relative_scheme (hs : s ∈ UriParser.relative_ref.language) (h : Create s = .ok (some u)) : u.m_scheme = [] := by
  obtain ⟨-, m, hplay⟩ := Create_eq_ok_iff.mp h
  exact play_scheme_eq (fun n a ha => UriParser.no_scheme_saved hs ha) hplay

/-- The text of a URI without a scheme begins with `:`. -/
theorem not_round_trips_of_scheme (hscheme : u.m_scheme = []) : ¬ RoundTrips u := by
  rintro ⟨v, hcreate, -⟩
  obtain ⟨x, hx⟩ : ∃ x, u.toString = 58 :: x := by
    rw [toString_eq, hscheme]
    exact ⟨_, rfl⟩
  rw [hx] at hcreate
  rcases (Create_eq_ok_iff.mp hcreate).1 with hURI | hrelative
  · obtain ⟨sc, w, y, heq, hsc, -⟩ := UriParser.mem_URI.mp hURI
    cases sc with
    | nil => exact UriParser.scheme_ne_nil hsc rfl
    | cons c sc =>
      obtain rfl : 58 = c := (List.cons.inj heq).1
      exact absurd (UriParser.scheme_over.alive (alive_of_mem hsc) 58 List.mem_cons_self) (by decide)
  · have halive : UriParser.relative_ref.Alive ([] ++ [58]) := Alive.left (v := x) (alive_of_mem hrelative)
    exact UriParser.relative_ref_dead (fun c hc => absurd hc List.not_mem_nil) halive

end

/-- A URI without an authority, or one whose parts are printed such that each is saved with its own mark. -/
def Reprintable (s : List UInt8) : Prop := (∃ b : Bare, b.text = s) ∨ ∃ p : Parts, p.text = s ∧ p.Reprinted

end Uri
end Flz
