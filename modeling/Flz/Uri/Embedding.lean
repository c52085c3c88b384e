import Flz.Uri.Grammar

/-! # What the machine of URIs executes

The actions of each rule on a text, with their positions. Up to the `@` behind a userinfo those of the host and the
port are executed, too.
-/
namespace Flz.UriParser
open Lib Machine

section
variable {r : Bool} {u v w : List UInt8} {o q f : Option (List UInt8)}

/-! ## Authorities -/

theorem splits_hostport (hu : u ∈ host.language) (hw : ∀ c ∈ w.head?, c = 58) :
    Splits (.leave (r, .host_save_host) (.enter (r, .host_markh) host))
      (.opt (.cat (byte 58) (.leave (r, .port_save_port) (.enter (r, .port_markh) port)))) u w where
  mem := hu
  unique v x hx hprefix hv halive := by
    obtain ⟨c, x, rfl⟩ := List.exists_cons_of_ne_nil hx
    obtain rfl := alive_opened halive
    obtain ⟨z, hz⟩ := hprefix
    refine host_unique hu hv (x := x ++ z) ?_ hw
    rw [← hz, List.append_assoc, List.cons_append]
  dead c hc halive := by
    obtain rfl := hw c hc
    rw [alive_leave, alive_enter] at halive
    exact host_dead hu halive

theorem head_opened (s : UInt8) (o : Option (List UInt8)) : ∀ c ∈ (opened s o).head?, c = s := by
  cases o with
  | none => exact nofun
  | some u => exact fun c hc => (Option.some.inj hc).symm

theorem trace_hostport (hu : u ∈ host.language) (ho : ∀ v ∈ o, v ∈ port.language) :
    (hostport r).trace (u ++ opened 58 o) = marks (r, .host_markh) (r, .host_save_host) u ++
      shift u.length ((o.map fun v => shift 1 (marks (r, .port_markh) (r, .port_save_port) v)).getD []) := by
  have hd : List.Disjoint [(r, Site.host_markh), (r, .host_save_host)] [(r, .port_markh), (r, .port_save_port)] := by
    simp
  have hmem : opened 58 o ∈
      (opt (.cat (byte 58) (.leave (r, .port_save_port) (.enter (r, .port_markh) port)))).language :=
    mem_language_opened.mpr ⟨o, rfl, ho⟩
  have hport : (opt (.cat (byte 58) (.leave (r, .port_save_port) (.enter (r, .port_markh) port)))).trace (opened 58 o) =
      (o.map fun v => shift 1 (marks (r, .port_markh) (r, .port_save_port) v)).getD [] := by
    rw [byte, trace_opened]
    cases o with
    | none => rfl
    | some v => rw [Option.map_some, trace_marked rfl (by simp) (ho v rfl)]; rfl
  rw [hostport, (splits_hostport hu (head_opened 58 o)).trace_append hd hmem, hport, trace_marked rfl (by simp) hu]

/-- The characters of a port. -/
def isDigit (c : UInt8) : Bool := ByteClass.digit.holds c

theorem alive_port {c : UInt8} : port.Alive [c] ↔ isDigit c = true := by
  rw [alive_singleton, port]
  simp only [step, cls, isDigit, List.mem_map]
  by_cases hc : ByteClass.digit.holds c = true <;> simp [hc]

/-- What a host does on a text that it reads. -/
theorem events_host (hu : u ∈ host.language) :
    (Machine.leave (r, .host_save_host) (.enter (r, .host_markh) host)).events u =
      if u = [] then [] else [(0, (r, .host_markh))] := by
  classical
  rw [events_marked rfl (by simp)]
  cases u with
  | nil => exact if_neg (by simp)
  | cons c u => rw [if_pos ⟨c, rfl, Alive.left (v := u) (alive_of_mem hu)⟩, if_neg (List.cons_ne_nil c u)]

/-- A userinfo without a `:` is taken for a host. -/
theorem events_userinfo (hu : u ∈ userinfo.language) (hcolon : 58 ∉ u) :
    (hostport r).events u = if u = [] then [] else [(0, (r, .host_markh))] := by
  have hhost := host_of_reg_name (reg_name_of_userinfo hcolon hu)
  have hd : List.Disjoint [(r, Site.host_markh), (r, .host_save_host)] [(r, .port_markh), (r, .port_save_port)] := by
    simp
  rw [hostport, (splits_hostport hhost (w := []) (by simp)).events_left hd, events_host hhost]

/-- What stands behind its first `:` is taken for a port. -/
theorem events_userinfo_append (hu : u ++ 58 :: v ∈ userinfo.language) (hcolon : 58 ∉ u) :
    (hostport r).events (u ++ 58 :: v) = (if u = [] then [] else [(0, (r, .host_markh))]) ++
      (u.length, (r, .host_save_host)) ::
        if (v.head?.any isDigit) = true then [(u.length + 1, (r, .port_markh))] else [] := by
  have hhost := host_of_reg_name (mem_userinfo_append hcolon hu).1
  have hd : List.Disjoint [(r, Site.host_markh), (r, .host_save_host)] [(r, .port_markh), (r, .port_save_port)] := by
    simp
  have hport : (opt (.cat (byte 58) (.leave (r, .port_save_port) (.enter (r, .port_markh) port)))).events (58 :: v) =
      if (v.head?.any isDigit) = true then [(1, (r, .port_markh))] else [] := by
    have hiff : (∃ c ∈ v.head?, port.Alive [c]) ↔ (v.head?.any isDigit) = true := by
      simp only [alive_port, Option.any_eq_true]
      rfl
    classical
    rw [events_opt, byte, events_one_cat (by simp), events_marked rfl (by simp)]
    by_cases hv : (v.head?.any isDigit) = true
    · rw [if_pos hv, if_pos (hiff.mpr hv)]; rfl
    · rw [if_neg hv, if_neg (hiff.not.mpr hv)]; rfl
  have halive : ∀ c ∈ (58 :: v).head?,
      (opt (.cat (byte 58) (.leave (r, .port_save_port) (.enter (r, .port_markh) port)))).Alive [c] := by
    rintro c ⟨⟩
    exact alive_alt.mpr (.inl (alive_one_cat.mpr ⟨rfl, alive_nil⟩))
  rw [hostport, (splits_hostport hhost (w := 58 :: v) (by simp)).events_append hd halive, events_host hhost,
    outs_marked rfl (by simp) hhost, hport, if_neg (List.cons_ne_nil 58 v), List.append_assoc]
  by_cases hv : (v.head?.any isDigit) = true <;> simp [hv]

theorem sites_hostport : (hostport r).sites =
    [(r, .host_markh), (r, .host_save_host), (r, .port_markh), (r, .port_save_port)] := rfl

/-- What an authority does behind its start. -/
def authorityActions (r : Bool) (a : Option (List UInt8)) (u : List UInt8) : List (ℕ × (Bool × Site)) :=
  match a with
  | none => (hostport r).trace u
  | some v => (hostport r).events v ++ (v.length, (r, .userinfo_save_userinfo)) ::
      shift (v.length + 1) ((hostport r).trace u)

theorem sites_authority : (authority r).sites = [(r, .authority_markh), (r, .userinfo_save_userinfo), (r, .host_markh),
    (r, .host_save_host), (r, .port_markh), (r, .port_save_port)] := rfl

theorem trace_authority {a : Option (List UInt8)} (ha : ∀ w ∈ a, w ∈ userinfo.language)
    (hu : u ∈ (hostport r).language) : (authority r).trace (ended 64 a ++ u) =
      (if ended 64 a ++ u = [] then [] else [(0, (r, .authority_markh))]) ++ authorityActions r a u := by
  have hsite : (r, Site.userinfo_save_userinfo) ∉ (hostport r).sites := by simp [sites_hostport]
  have hsites : (r, Site.authority_markh) ∉ (Machine.cat (.opt (.cat
      (.leave (r, .userinfo_save_userinfo) userinfo) (byte 64))) (hostport r)).sites := by
    rw [byte, sites_ended rfl, sites_hostport]
    simp
  have hat : ∀ x, (hostport r).Alive x → 64 ∉ x := fun x hx hmem => ((hostport_over r).alive hx 64 hmem).1 rfl
  have hinner : (Machine.cat (.opt (.cat (.leave (r, .userinfo_save_userinfo) userinfo) (byte 64)))
      (hostport r)).trace (ended 64 a ++ u) = authorityActions r a u := by
    cases a with
    | none => exact trace_unended rfl hsite (hat u (alive_of_mem hu))
    | some v =>
      have htrace := trace_ended (s := 64) rfl hsite
        (fun v hv => not_inner (by decide) ((userinfo_over (S := fun _ => True)).alive (alive_of_mem hv))) hat
        (ha v rfl) u
      rwa [List.append_cons] at htrace
  have hmem : ended 64 a ++ u ∈ (authority r).language := mem_authority.mpr ⟨a, u, rfl, ha, hu⟩
  rw [authority] at hmem ⊢
  cases htext : ended 64 a ++ u with
  | nil => rw [htext] at hinner; rw [trace_enter_nil hsites, hinner]; rfl
  | cons c t =>
    rw [htext] at hinner hmem
    rw [trace_enter hsites (alive_enter.mp (Alive.left (v := t) (alive_of_mem hmem))), hinner]
    rfl

/-! ## References -/

theorem trace_tail (hq : ∀ v ∈ q, v ∈ trailer.language) (hf : ∀ v ∈ f, v ∈ trailer.language) :
    (tail r).trace (opened 63 q ++ opened 35 f) =
      (q.map fun v => shift 1 (marks (r, .query_marku) (r, .query_save_query) v)).getD [] ++
        shift (opened 63 q).length
          ((f.map fun v => shift 1 (marks (r, .fragment_marku) (r, .fragment_save_fragment) v)).getD []) := by
  have hquery : (opt (.cat (byte 63) (query r))).trace (opened 63 q) =
      (q.map fun v => shift 1 (marks (r, .query_marku) (r, .query_save_query) v)).getD [] := by
    rw [byte, trace_opened]
    cases q with
    | none => rfl
    | some v => rw [Option.map_some, query, trace_marked rfl (by simp) (hq v rfl)]; rfl
  have hfragment : (opt (.cat (byte 35) (fragment r))).trace (opened 35 f) =
      (f.map fun v => shift 1 (marks (r, .fragment_marku) (r, .fragment_save_fragment) v)).getD [] := by
    rw [byte, trace_opened]
    cases f with
    | none => rfl
    | some v => rw [Option.map_some, fragment, trace_marked rfl (by simp) (hf v rfl)]; rfl
  have hover : (opt (.cat (byte 63) (query r))).Over (· ≠ 35) (fun _ => True) :=
    over_opt.mpr ⟨over_byte.mpr (by decide), trivial, trivial, trailer_over⟩
  have hsplits : Splits (opt (.cat (byte 63) (query r))) (opt (.cat (byte 35) (fragment r)))
      (opened 63 q) (opened 35 f) :=
    .of_class hover (fun c hc hne => hne (alive_opened hc)) (mem_language_opened.mpr ⟨q, rfl, hq⟩)
      fun c hc hne => hne (head_opened 35 f c hc)
  have hd : List.Disjoint [(r, Site.query_marku), (r, .query_save_query)]
      [(r, .fragment_marku), (r, .fragment_save_fragment)] := by simp
  rw [tail, hsplits.trace_append hd (mem_language_opened.mpr ⟨f, rfl, hf⟩), hquery, hfragment]

theorem trace_hier_part : hier_part.trace u = net_path.trace u := by
  have halt : ∀ e f : Rule, f.sites = [] → (Machine.alt e f).trace u = e.trace u := by
    intro e f hf
    exact trace_alt_left (hf ▸ List.disjoint_nil_right _) (silent_of_sites hf u)
  rw [hier_part, anyOf, List.foldl_cons, List.foldl_cons, List.foldl_cons, List.foldl_nil, halt _ _ rfl, halt _ _ rfl,
    halt _ _ rfl]

theorem trace_net_path (hu : u ∈ (authority false).language) (hv : v ∈ path_abempty.language) :
    net_path.trace (47 :: 47 :: (u ++ v)) = shift 2 ((authority false).trace u ++
      shift u.length (marks (false, .path_markh) (false, .path_save_path) v)) := by
  have hd : (authority false).sites.Disjoint [(false, .path_markh), (false, .path_save_path)] := by
    rw [sites_authority]
    simp
  have hsplits : Splits (authority false)
      (.leave (false, .path_save_path) (.enter (false, .path_markh) path_abempty)) u v := by
    refine .of_class (authority_over false) (fun c hc hne => hne.1 ?_) hu fun c hc hne =>
      hne.1 (head_path_abempty hv c hc)
    rw [alive_leave, alive_enter] at hc
    exact alive_path_abempty hc
  rw [net_path, byte, trace_one_cat (by simp), trace_one_cat (by simp), hsplits.trace_append hd hv,
    trace_marked rfl (by simp) hv, shift_shift]

theorem trace_no_authority (hu : ∀ v, u ≠ 47 :: 47 :: v) : net_path.trace u = [] := by
  refine Silent.trace ⟨fun v c hprefix a hfire => ?_, fun a hleave => ?_⟩
  · obtain ⟨d, v, rfl, hd, hfire⟩ := fires_one_cat.mp hfire
    obtain ⟨e, v, rfl, he, -⟩ := fires_one_cat.mp hfire
    obtain ⟨z, rfl⟩ := hprefix
    rw [eq_of_beq hd, eq_of_beq he] at hu
    exact hu _ rfl
  · obtain ⟨d, v, rfl, hd, hleave⟩ := leaves_one_cat.mp hleave
    obtain ⟨e, v, rfl, he, -⟩ := leaves_one_cat.mp hleave
    rw [eq_of_beq hd, eq_of_beq he] at hu
    exact hu _ rfl

/-! ### Relative references -/

theorem alive_tail {c : UInt8} (h : (tail r).Alive (c :: u)) : c = 63 ∨ c = 35 := by
  rw [tail, alive_cat] at h
  rcases h with h | ⟨v, w, heq, hv, hw⟩
  · exact .inl (alive_opened h)
  · cases v with
    | nil =>
      obtain rfl : c :: u = w := heq
      exact .inr (alive_opened hw)
    | cons d v =>
      obtain rfl : c = d := (List.cons.inj heq).1
      exact .inl (alive_opened (alive_of_mem hv))

theorem head_tail (h : u ∈ (tail r).language) : ∀ c ∈ u.head?, c = 63 ∨ c = 35 := by
  intro c hc
  obtain ⟨v, rfl⟩ := List.head?_eq_some_iff.mp hc
  exact alive_tail (alive_of_mem h)

theorem alive_relative_part (h : relative_part.Alive u) (hu : 47 ∉ u) : 58 ∉ u := by
  cases u with
  | nil => exact List.not_mem_nil
  | cons c u =>
    have hc : c ≠ 47 := fun hc => hu (hc ▸ List.mem_cons_self)
    rw [relative_part, anyOf, List.foldl_cons, List.foldl_cons, List.foldl_cons, List.foldl_nil, alive_alt, alive_alt,
      alive_alt] at h
    rcases h with ((h | h) | h) | h
    · exact absurd (eq_of_beq (alive_one_cat.mp h).1) hc
    · exact absurd (eq_of_beq (alive_one_cat.mp h).1) hc
    · rw [path_noscheme, alive_cat] at h
      have hname : ∀ v, segment_nz_nc.Alive v → 58 ∉ v := fun v hv hmem =>
        ((segment_nz_nc_over (S := fun _ => True)).alive hv 58 hmem).1 rfl
      rcases h with h | ⟨v, w, heq, hv, hw⟩
      · exact hname _ h
      · cases w with
        | nil =>
          rw [heq, List.append_nil]
          exact hname v (alive_of_mem hv)
        | cons d w =>
          obtain rfl : d = 47 := eq_of_beq (alive_one_cat.mp hw.star_head).1
          exact absurd (heq ▸ by simp) hu
    · exact absurd (alive_eps.mp h) (List.cons_ne_nil c u)

theorem fires_relative_part {c : UInt8} {a : Bool × Site} (h : relative_part.Fires u c a) : 47 ∈ u := by
  rw [relative_part, anyOf, List.foldl_cons, List.foldl_cons, List.foldl_cons, List.foldl_nil, fires_alt, fires_alt,
    fires_alt] at h
  rcases h with ((h | h) | h) | h
  · obtain ⟨d, v, rfl, hd, -⟩ := fires_one_cat.mp h
    exact eq_of_beq hd ▸ List.mem_cons_self
  · exact absurd h (not_fires_of_sites rfl)
  · exact absurd h (not_fires_of_sites rfl)
  · exact absurd h (not_fires_of_sites rfl)

theorem leaves_relative_part {a : Bool × Site} (h : relative_part.Leaves u a) : 47 ∈ u := by
  rw [relative_part, anyOf, List.foldl_cons, List.foldl_cons, List.foldl_cons, List.foldl_nil, leaves_alt, leaves_alt,
    leaves_alt] at h
  rcases h with ((h | h) | h) | h
  · obtain ⟨d, v, rfl, hd, -⟩ := leaves_one_cat.mp h
    exact eq_of_beq hd ▸ List.mem_cons_self
  · exact absurd h (not_leaves_of_sites rfl)
  · exact absurd h (not_leaves_of_sites rfl)
  · exact absurd h (not_leaves_of_sites rfl)

/-- A relative reference is not read beyond a `:` in front. -/
theorem relative_ref_dead (hplain : ∀ c ∈ u, Plain c) : ¬ relative_ref.Alive (u ++ [58]) := by
  have hnot : ∀ c, c ≠ 58 → ¬ Plain c → c ∉ u ++ [58] := by
    intro c hc hc'
    rw [List.mem_append, List.mem_singleton]
    exact not_or.mpr ⟨not_plain hc' hplain, hc⟩
  rw [relative_ref, alive_cat]
  rintro (h | ⟨v, w, heq, hv, hw⟩)
  · exact alive_relative_part h (hnot 47 (by decide) (by decide)) (by simp)
  · cases w with
    | nil =>
      rw [List.append_nil] at heq
      subst heq
      exact alive_relative_part (alive_of_mem hv) (hnot 47 (by decide) (by decide)) (by simp)
    | cons c w =>
      rcases alive_tail hw with rfl | rfl
      · exact hnot 63 (by decide) (by decide) (heq ▸ by simp)
      · exact hnot 35 (by decide) (by decide) (heq ▸ by simp)

theorem silent_relative_ref (hu : u ∈ scheme.language) : relative_ref.Silent (u ++ 58 :: v) := by
  have hplain := scheme_over.alive (alive_of_mem hu)
  refine ⟨fun x c hprefix a hfire => ?_, fun a hleave => ?_⟩
  · have hshort : x ++ [c] <+: u := by
      have hcolon : u ++ [58] <+: u ++ 58 :: v := ⟨v, by simp⟩
      rcases List.prefix_or_prefix_of_prefix hprefix hcolon with h | ⟨z, hz⟩
      · refine (List.prefix_concat_iff.mp h).resolve_left fun heq => ?_
        exact relative_ref_dead hplain (heq ▸ hfire.alive)
      · have halive := hfire.alive
        rw [← hz] at halive
        exact absurd halive.left (relative_ref_dead hplain)
    have hmem : ∀ d, ¬ Plain d → d ∉ x ++ [c] := fun d hd h => not_plain hd hplain (hshort.subset h)
    have hslash : 47 ∉ x := fun h => hmem 47 (by decide) (List.mem_append_left _ h)
    rcases fires_cat.mp hfire with hfire | ⟨hleave, -⟩ | ⟨y, w, rfl, -, hfire⟩
    · exact hslash (fires_relative_part hfire)
    · exact hslash (leaves_relative_part hleave)
    · cases w with
      | nil =>
        rcases alive_tail hfire.alive with rfl | rfl
        · exact hmem 63 (by decide) (by simp)
        · exact hmem 35 (by decide) (by simp)
      | cons d w =>
        rcases alive_tail hfire.alive with rfl | rfl
        · exact hmem 63 (by decide) (by simp)
        · exact hmem 35 (by decide) (by simp)
  · have halive := alive_of_mem hleave.mem
    rw [List.append_cons] at halive
    exact relative_ref_dead hplain halive.left

theorem trace_scheme (hu : u ∈ scheme.language) :
    scheme.trace u = marks (false, .scheme_marku) (false, .scheme_save_scheme) u := by
  have hname : u ∈ (Machine.cat (cls ByteClass.alpha)
    (.star (.anyOf (cls ByteClass.alpha) [cls ByteClass.digit, byte 43, byte 45, byte 46]))).language := hu
  exact trace_marked rfl (by simp) hname

theorem sites_tail : (tail r).sites =
    [(r, .query_marku), (r, .query_save_query), (r, .fragment_marku), (r, .fragment_save_fragment)] := rfl

theorem sites_hier_part :
    hier_part.sites = (authority false).sites ++ [(false, .path_markh), (false, .path_save_path)] := rfl

theorem sites_relative_ref : relative_ref.sites = (authority true).sites ++ (tail true).sites := rfl

theorem sites_URI : URI.sites =
    [(false, .scheme_marku), (false, .scheme_save_scheme)] ++ (hier_part.sites ++ (tail false).sites) := rfl

theorem trace_URI_reference (hu : u ∈ scheme.language) (hv : v ∈ hier_part.language) (hw : w ∈ (tail false).language) :
    URI_reference.trace (u ++ 58 :: (v ++ w)) = marks (false, .scheme_marku) (false, .scheme_save_scheme) u ++
      shift (u.length + 1) (net_path.trace v ++ shift v.length ((tail false).trace w)) := by
  have hd : URI.sites.Disjoint relative_ref.sites := by
    simp [sites_URI, sites_relative_ref, sites_hier_part, sites_authority, sites_tail]
  have hd1 : List.Disjoint [(false, Site.scheme_marku), (false, .scheme_save_scheme)]
      (hier_part.sites ++ (tail false).sites) := by
    simp [sites_hier_part, sites_authority, sites_tail]
  have hd2 : hier_part.sites.Disjoint (tail false).sites := by
    simp [sites_hier_part, sites_authority, sites_tail]
  have htail : ∀ c, (tail false).Alive [c] → ¬ Path c := by
    intro c hc
    rcases alive_tail hc with rfl | rfl <;> decide
  have hsplits : Splits hier_part (tail false) v w := by
    refine .of_class hier_part_over htail hv fun c hc => ?_
    rcases head_tail hw c hc with rfl | rfl <;> decide
  have hrest : (Machine.cat (byte 58) (.cat hier_part (tail false))).trace (58 :: (v ++ w)) =
      shift 1 (net_path.trace v ++ shift v.length ((tail false).trace w)) := by
    rw [byte, trace_one_cat (by simp), hsplits.trace_append hd2 hw, trace_hier_part]
  have hmem : 58 :: (v ++ w) ∈ (Machine.cat (byte 58) (.cat hier_part (tail false))).language :=
    mem_language_one_cat.mpr ⟨58, v ++ w, rfl, rfl, mem_language_cat.mpr ⟨v, w, rfl, hv, hw⟩⟩
  have hscheme : Splits scheme (.cat (byte 58) (.cat hier_part (tail false))) u (58 :: (v ++ w)) := by
    refine .of_class scheme_over (fun c hc => ?_) hu fun c hc => ?_
    · rw [eq_of_beq (alive_one_cat.mp hc).1]
      decide
    · rw [← Option.some.inj hc]
      decide
  rw [URI_reference, trace_alt_left hd (silent_relative_ref hu), URI, hscheme.trace_append hd1 hmem, hrest, shift_shift,
    trace_scheme hu]

/-- No scheme is saved from a relative reference. -/
theorem no_scheme_saved {n : ℕ} {a : Bool × Site} (hu : u ∈ relative_ref.language) (h : (n, a) ∈ URI_reference.trace u) :
    a.2 ≠ .scheme_save_scheme := by
  intro ha
  have hrelative : a ∉ relative_ref.sites := by
    rw [sites_relative_ref, sites_authority, sites_tail]
    intro hmem
    have hall : ∀ b ∈ (authority true).sites ++ (tail true).sites, b.2 ≠ .scheme_save_scheme := by decide
    exact hall a hmem ha
  have hrest : a ∉ (Machine.cat (byte 58) (.cat hier_part (tail false))).sites := by
    intro hmem
    have hall : ∀ b ∈ hier_part.sites ++ (tail false).sites, b.2 ≠ .scheme_save_scheme := by decide
    exact hall a hmem ha
  rcases mem_trace h with ⟨x, c, hprefix, hfire⟩ | hleave
  · rcases fires_alt.mp hfire with hfire | hfire
    · rcases fires_cat.mp hfire with hfire | ⟨hleave, halive⟩ | ⟨y, z, -, -, hfire⟩
      · rw [scheme, fires_leave, fires_enter] at hfire
        rcases hfire with ⟨rfl, -⟩ | hfire
        · cases ha
        · exact not_fires_of_sites rfl hfire
      · obtain rfl : c = 58 := eq_of_beq (alive_one_cat.mp halive).1
        obtain ⟨z, rfl⟩ := hprefix
        exact relative_ref_dead (scheme_over.alive (alive_of_mem hleave.mem)) (alive_of_mem hu).left
      · exact hrest hfire.mem_sites
    · exact hrelative hfire.mem_sites
  · rcases leaves_alt.mp hleave with hleave | hleave
    · rcases leaves_cat.mp hleave with ⟨-, hnull⟩ | ⟨y, z, -, -, hleave⟩
      · cases hnull
      · exact hrest hleave.mem_sites
    · exact hrelative hleave.mem_sites

end
end Flz.UriParser
