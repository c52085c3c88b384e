import Flz.Lib.Table
import Flz.Lib.Trace

/-! # The grammar of URIs

The machine `uri_parser` of `src/uri.rl`. A rule that `URI` and `relative_ref` both have stands in the machine twice,
with actions of its own; the flag says in which of them it stands. A union of characters is a class.
-/
namespace Flz.UriParser
open Lib Machine

/-- Where an action is embedded. -/
inductive Site
  | scheme_marku
  | scheme_save_scheme
  | authority_markh
  | userinfo_save_userinfo
  | host_markh
  | host_save_host
  | port_markh
  | port_save_port
  | path_markh
  | path_save_path
  | query_marku
  | query_save_query
  | fragment_marku
  | fragment_save_fragment
  deriving DecidableEq, Repr

abbrev Rule := Machine UInt8 (Bool × Site)

def byte (b : UInt8) : Rule := .one (· == b)

def cls (c : ByteClass) : Rule := .one c.holds

/-! ## Characters -/

def sub_delims : ByteClass :=
  [(33, 33), (36, 36), (38, 38), (39, 39), (40, 40), (41, 41), (42, 42), (43, 43), (44, 44), (59, 59), (61, 61)]

def unreserved : ByteClass := ByteClass.alpha ++ ByteClass.digit ++ [(45, 45), (46, 46), (95, 95), (126, 126)]

def pct_encoded : Rule := .cat (byte 37) (.cat (cls ByteClass.xdigit) (cls ByteClass.xdigit))

/-- `any -- ascii`. -/
def nonascii : ByteClass := [(128, 255)]

def pchar : Rule := .anyOf (cls nonascii) [cls unreserved, pct_encoded, cls sub_delims, byte 58, byte 64]

/-- `pchar - ":"`. -/
def pchar_nc : Rule := .anyOf (cls nonascii) [cls unreserved, pct_encoded, cls sub_delims, byte 64]

/-! ## Authorities -/

def userinfo : Rule := .star (.anyOf (cls unreserved) [pct_encoded, cls sub_delims, byte 58])

/-- The `2` of the fourth alternative is the character with this number. -/
def dec_octet : Rule :=
  .anyOf (cls ByteClass.digit)
    [.cat (cls [(49, 57)]) (cls ByteClass.digit),
      .cat (byte 49) (.times 2 (cls ByteClass.digit)),
      .cat (byte 2) (.cat (cls [(48, 52)]) (cls ByteClass.digit)),
      .cat (byte 50) (.cat (byte 53) (cls [(48, 53)]))]

def IPv4address : Rule :=
  .cat dec_octet (.cat (byte 46) (.cat dec_octet (.cat (byte 46) (.cat dec_octet (.cat (byte 46) dec_octet)))))

def h16 : Rule := .cat (cls ByteClass.xdigit) (.atMost 3 (cls ByteClass.xdigit))

def ls32 : Rule := .alt (.cat h16 (.cat (byte 58) h16)) IPv4address

/-- `(h16 ":"){n}`. -/
def pieces (n : ℕ) : Rule := .times n (.cat h16 (byte 58))

/-- `"::"`. -/
def gap : Rule := .cat (byte 58) (byte 58)

def IPv6address : Rule :=
  .anyOf (.cat (pieces 6) ls32)
    [.cat gap (.cat (pieces 5) ls32),
      .cat (.opt h16) (.cat gap (.cat (pieces 4) ls32)),
      .cat (.opt (.cat (pieces 1) h16)) (.cat gap (.cat (pieces 3) ls32)),
      .cat (.opt (.cat (pieces 2) h16)) (.cat gap (.cat (pieces 2) ls32)),
      .cat (.opt (.cat (pieces 3) h16)) (.cat gap (.cat (pieces 1) ls32)),
      .cat (.opt (.cat (pieces 4) h16)) (.cat gap ls32),
      .cat (.opt (.cat (pieces 5) h16)) (.cat gap h16),
      .cat (.opt (.cat (pieces 6) h16)) gap]

def IPvFuture : Rule :=
  .cat (byte 118) (.cat (.plus (cls ByteClass.xdigit))
    (.cat (byte 46) (.plus (.anyOf (cls unreserved) [cls sub_delims, byte 58]))))

def IP_literal : Rule := .cat (byte 91) (.cat (.alt IPv6address IPvFuture) (byte 93))

def reg_name : Rule := .star (.anyOf (cls unreserved) [pct_encoded, cls sub_delims])

def host : Rule := .anyOf IP_literal [IPv4address, reg_name]

def port : Rule := .star (cls ByteClass.digit)

/-- What stands behind the userinfo. -/
def hostport (r : Bool) : Rule :=
  .cat (.leave (r, .host_save_host) (.enter (r, .host_markh) host))
    (.opt (.cat (byte 58) (.leave (r, .port_save_port) (.enter (r, .port_markh) port))))

def authority (r : Bool) : Rule :=
  .enter (r, .authority_markh)
    (.cat (.opt (.cat (.leave (r, .userinfo_save_userinfo) userinfo) (byte 64))) (hostport r))

/-! ## Paths -/

def segment : Rule := .star pchar

def segment_nz : Rule := .plus pchar

def segment_nz_nc : Rule := .plus pchar_nc

def path_abempty : Rule := .cat (.opt (.cat (byte 47) segment)) (.star (.cat (byte 47) segment))

def path_absolute : Rule := .cat (byte 47) (.opt (.cat segment_nz (.star (.cat (byte 47) segment))))

def path_noscheme : Rule := .cat segment_nz_nc (.star (.cat (byte 47) segment))

def path_rootless : Rule := .cat segment_nz (.star (.cat (byte 47) segment))

def path_empty : Rule := .eps

/-! ## References -/

def scheme : Rule :=
  .leave (false, .scheme_save_scheme) (.enter (false, .scheme_marku)
    (.cat (cls ByteClass.alpha) (.star (.anyOf (cls ByteClass.alpha) [cls ByteClass.digit, byte 43, byte 45, byte 46]))))

/-- The text of a query or a fragment. -/
def trailer : Rule := .star (.anyOf pchar [byte 47, byte 63])

def query (r : Bool) : Rule := .leave (r, .query_save_query) (.enter (r, .query_marku) trailer)

def fragment (r : Bool) : Rule := .leave (r, .fragment_save_fragment) (.enter (r, .fragment_marku) trailer)

/-- `("?" query)? ("#" fragment)?`. -/
def tail (r : Bool) : Rule := .cat (.opt (.cat (byte 63) (query r))) (.opt (.cat (byte 35) (fragment r)))

/-- The first alternative of `hier_part`. -/
def net_path : Rule :=
  .cat (byte 47) (.cat (byte 47) (.cat (authority false)
    (.leave (false, .path_save_path) (.enter (false, .path_markh) path_abempty))))

def hier_part : Rule := .anyOf net_path [path_absolute, path_rootless, path_empty]

/-- The path has no actions here. -/
def relative_part : Rule :=
  .anyOf (.cat (byte 47) (.cat (byte 47) (.cat (authority true) path_abempty)))
    [path_absolute, path_noscheme, path_empty]

def relative_ref : Rule := .cat relative_part (tail true)

def URI : Rule := .cat scheme (.cat (byte 58) (.cat hier_part (tail false)))

def URI_reference : Rule := .alt URI relative_ref

/-! ## What the rules read -/

/-- None of `#`, `/`, `?`, `@`, `[`, `]`. -/
def Inner (c : UInt8) : Prop := c ≠ 35 ∧ c ≠ 47 ∧ c ≠ 63 ∧ c ≠ 64 ∧ c ≠ 91 ∧ c ≠ 93

/-- No `:` either. -/
def Plain (c : UInt8) : Prop := c ≠ 58 ∧ Inner c

instance : DecidablePred Inner := fun c => inferInstanceAs (Decidable (c ≠ 35 ∧ c ≠ 47 ∧ c ≠ 63 ∧ c ≠ 64 ∧ c ≠ 91 ∧ c ≠ 93))

instance : DecidablePred Plain := fun c => inferInstanceAs (Decidable (c ≠ 58 ∧ Inner c))

section
variable {X : UInt8 → Prop} {S : Bool × Site → Prop} {u v w : List UInt8}

theorem over_byte {b : UInt8} : (byte b).Over X S ↔ X b :=
  ⟨fun h => h b (beq_self_eq_true b), fun h _ hc => eq_of_beq hc ▸ h⟩

/-- A class without the characters `w`. -/
theorem over_cls {c : ByteClass} (hx : ∀ b, b ∉ w → X b) (h : w.any c.holds = false) : (cls c).Over X S :=
  fun b hb => hx b fun hmem => List.any_eq_false.mp h b hmem hb

theorem plain_of_not_mem (b : UInt8) (h : b ∉ [58, 35, 47, 63, 64, 91, 93]) : Plain b := by
  simpa [Plain, Inner] using h

theorem over_pct_encoded (h : X 37) (hx : (cls ByteClass.xdigit).Over X S) : pct_encoded.Over X S :=
  ⟨over_byte.mpr h, hx, hx⟩

theorem unreserved_over : (cls unreserved).Over Plain S := over_cls plain_of_not_mem rfl

theorem sub_delims_over : (cls sub_delims).Over Plain S := over_cls plain_of_not_mem rfl

theorem xdigit_over : (cls ByteClass.xdigit).Over Plain S := over_cls plain_of_not_mem rfl

theorem digit_over : (cls ByteClass.digit).Over Plain S := over_cls plain_of_not_mem rfl

theorem pct_encoded_over : pct_encoded.Over Plain S := over_pct_encoded (by decide) xdigit_over

theorem reg_name_over : reg_name.Over Plain S := over_anyOf.mpr ⟨unreserved_over, by
  simpa using ⟨pct_encoded_over, sub_delims_over⟩⟩

theorem dec_octet_over : dec_octet.Over Plain S := by
  refine over_anyOf.mpr ⟨digit_over, ?_⟩
  simp only [List.forall_mem_cons, List.not_mem_nil, false_imp_iff, implies_true, and_true]
  refine ⟨⟨over_cls plain_of_not_mem rfl, digit_over⟩, ⟨over_byte.mpr (by decide), digit_over.times 2⟩,
    ⟨over_byte.mpr (by decide), over_cls plain_of_not_mem rfl, digit_over⟩,
    over_byte.mpr (by decide), over_byte.mpr (by decide), over_cls plain_of_not_mem rfl⟩

theorem IPv4address_over : IPv4address.Over Plain S :=
  have hdot : (byte 46).Over Plain S := over_byte.mpr (by decide)
  ⟨dec_octet_over, hdot, dec_octet_over, hdot, dec_octet_over, hdot, dec_octet_over⟩

theorem h16_over : h16.Over Plain S := ⟨xdigit_over, xdigit_over.atMost 3⟩

theorem port_over : port.Over Plain S := digit_over (S := S)

theorem Plain.inner {c : UInt8} (h : Plain c) : Inner c := h.2

theorem colon_over : (byte 58).Over Inner S := over_byte.mpr (by decide)

theorem ls32_over : ls32.Over Inner S :=
  have h := h16_over.imp fun _ => Plain.inner
  ⟨⟨h, colon_over, h⟩, IPv4address_over.imp fun _ => Plain.inner⟩

theorem pieces_over (n : ℕ) : (pieces n).Over Inner S :=
  have h : (Machine.cat h16 (byte 58)).Over Inner S := ⟨h16_over.imp fun _ => Plain.inner, colon_over⟩
  h.times n

theorem IPv6address_over : IPv6address.Over Inner S := by
  have h : h16.Over Inner S := h16_over.imp fun _ => Plain.inner
  have hgap : gap.Over Inner S := ⟨colon_over, colon_over⟩
  have hfront : ∀ n, (opt (.cat (pieces n) h16)).Over Inner S := fun n => over_opt.mpr ⟨pieces_over n, h⟩
  refine over_anyOf.mpr ⟨⟨pieces_over 6, ls32_over⟩, ?_⟩
  simp only [List.forall_mem_cons, List.not_mem_nil, false_imp_iff, implies_true, and_true]
  exact ⟨⟨hgap, pieces_over 5, ls32_over⟩, ⟨over_opt.mpr h, hgap, pieces_over 4, ls32_over⟩,
    ⟨hfront 1, hgap, pieces_over 3, ls32_over⟩, ⟨hfront 2, hgap, pieces_over 2, ls32_over⟩,
    ⟨hfront 3, hgap, pieces_over 1, ls32_over⟩, ⟨hfront 4, hgap, ls32_over⟩, ⟨hfront 5, hgap, h⟩, hfront 6, hgap⟩

theorem IPvFuture_over : IPvFuture.Over Inner S := by
  have hx : (cls ByteClass.xdigit).Over Inner S := xdigit_over.imp fun _ => Plain.inner
  refine ⟨over_byte.mpr (by decide), over_plus.mpr hx, over_byte.mpr (by decide), over_plus.mpr (over_anyOf.mpr ?_)⟩
  simp only [List.forall_mem_cons, List.not_mem_nil, false_imp_iff, implies_true, and_true]
  exact ⟨unreserved_over.imp fun _ => Plain.inner, sub_delims_over.imp fun _ => Plain.inner, colon_over⟩

theorem userinfo_over : userinfo.Over Inner S := by
  refine over_anyOf.mpr ?_
  simp only [List.forall_mem_cons, List.not_mem_nil, false_imp_iff, implies_true, and_true]
  exact ⟨unreserved_over.imp fun _ => Plain.inner, pct_encoded_over.imp fun _ => Plain.inner,
    sub_delims_over.imp fun _ => Plain.inner, colon_over⟩

/-! ### Hosts -/

theorem literal_over : (Machine.alt IPv6address IPvFuture).Over Inner S := ⟨IPv6address_over, IPvFuture_over⟩

/-- A literal ends with its only `]`, any other host has no `:`. -/
theorem alive_host (h : host.Alive u) :
    (∀ c ∈ u, Plain c) ∨ ∃ v w, u = 91 :: (v ++ w) ∧ (∀ c ∈ v, Inner c) ∧ (w = [] ∨ w = [93]) := by
  have hplain : ∀ e : Rule, e.Over Plain (fun _ => True) → e.Alive u → ∀ c ∈ u, Plain c := fun e he => he.alive
  have h : (Machine.alt (.alt IP_literal IPv4address) reg_name).Alive u := h
  rw [alive_alt, alive_alt] at h
  rcases h with (h | h) | h
  · cases u with
    | nil => exact .inl nofun
    | cons c u =>
      obtain ⟨hc, htail⟩ := alive_one_cat.mp h
      obtain rfl : c = 91 := eq_of_beq hc
      rcases alive_cat.mp htail with htail | ⟨v, w, rfl, hv, hw⟩
      · exact .inr ⟨u, [], by simp, (literal_over (S := fun _ => True)).alive htail, .inl rfl⟩
      · refine .inr ⟨v, w, rfl, (literal_over (S := fun _ => True)).alive (alive_of_mem hv), ?_⟩
        cases w with
        | nil => exact .inl rfl
        | cons d w =>
          obtain ⟨hd, hw⟩ := alive_one.mp hw d List.mem_cons_self
          rw [hw, eq_of_beq hd]
          exact .inr rfl
  · exact .inl (hplain _ IPv4address_over h)
  · exact .inl (hplain _ reg_name_over h)

theorem mem_host (h : u ∈ host.language) :
    (∀ c ∈ u, Plain c) ∨ ∃ v, u = 91 :: (v ++ [93]) ∧ ∀ c ∈ v, Inner c := by
  have hplain : ∀ e : Rule, e.Over Plain (fun _ => True) → u ∈ e.language → ∀ c ∈ u, Plain c :=
    fun e he hu => he.alive (alive_of_mem hu)
  rcases h with (h | h) | h
  · obtain ⟨c, _, rfl, hc, h⟩ := mem_language_one_cat.mp h
    obtain ⟨v, _, rfl, hv, d, hd, rfl⟩ := mem_language_cat.mp h
    rw [eq_of_beq hc, eq_of_beq hd]
    exact .inr ⟨v, rfl, (literal_over (S := fun _ => True)).alive (alive_of_mem hv)⟩
  · exact .inl (hplain _ IPv4address_over h)
  · exact .inl (hplain _ reg_name_over h)

theorem not_plain {c : UInt8} (h : ¬ Plain c) (hu : ∀ d ∈ u, Plain d) : c ∉ u := fun hc => h (hu c hc)

theorem not_inner {c : UInt8} (h : ¬ Inner c) (hu : ∀ d ∈ u, Inner d) : c ∉ u := fun hc => h (hu c hc)

/-- A host ends in one way only in front of a `:`. -/
theorem host_unique (hu : u ∈ host.language) (hv : v ∈ host.language) {x : List UInt8}
    (h : v ++ 58 :: x = u ++ w) (hw : ∀ c ∈ w.head?, c = 58) : v = u := by
  rcases mem_host hu with hu | ⟨u, rfl, hin⟩
  · have hcolon : 58 ∉ u := not_plain (by decide) hu
    rcases mem_host hv with hv | ⟨v, rfl, -⟩
    · cases w with
      | nil =>
        rw [List.append_nil] at h
        exact absurd (h ▸ by simp) hcolon
      | cons c w =>
        obtain rfl := hw c rfl
        exact (Segments.append_cons_inj (not_plain (by decide) hv) hcolon h).1
    · cases u with
      | nil =>
        rw [List.nil_append] at h
        exact absurd (hw 91 (h ▸ rfl)) (by decide)
      | cons c u =>
        obtain rfl : 91 = c := (List.cons.inj h).1
        exact absurd (hu 91 List.mem_cons_self) (by decide)
  · rcases mem_host hv with hv | ⟨v, rfl, hin'⟩
    · cases v with
      | nil => exact absurd (List.cons.inj h).1 (by decide)
      | cons c v =>
        obtain rfl : c = 91 := (List.cons.inj h).1
        exact absurd (hv 91 List.mem_cons_self) (by decide)
    · have h : v ++ 93 :: 58 :: x = u ++ 93 :: w := by simpa using h
      rw [(Segments.append_cons_inj (not_inner (by decide) hin') (not_inner (by decide) hin) h).1]

theorem host_dead (hu : u ∈ host.language) : ¬ host.Alive (u ++ [58]) := by
  intro h
  rcases alive_host h with hplain | ⟨v, w, heq, hv, hw⟩
  · exact absurd (hplain 58 (by simp)) (by decide)
  · have hw : w = [] := by
      refine hw.resolve_right ?_
      rintro rfl
      have hlast := congrArg List.getLast? heq
      rw [← List.cons_append, List.getLast?_concat, List.getLast?_concat] at hlast
      exact absurd (Option.some.inj hlast) (by decide)
    rw [hw, List.append_nil] at heq
    rcases mem_host hu with hu | ⟨u, rfl, -⟩
    · cases u with
      | nil => exact absurd (List.cons.inj heq).1 (by decide)
      | cons c u =>
        obtain rfl : c = 91 := (List.cons.inj heq).1
        exact absurd (hu 91 List.mem_cons_self) (by decide)
    · obtain rfl : u ++ [93] ++ [58] = v := (List.cons.inj heq).2
      exact absurd (hv 93 (by simp)) (by decide)

theorem host_of_reg_name (h : u ∈ reg_name.language) : u ∈ host.language := .inr h

theorem nil_mem_host : [] ∈ host.language := host_of_reg_name nil_mem_star

/-! ### Userinfos -/

/-- A userinfo consists of names with `:` between them. -/
theorem reg_name_of_userinfo (hu : 58 ∉ u) (h : u ∈ userinfo.language) : u ∈ reg_name.language := by
  obtain ⟨L, rfl, hL⟩ := Language.mem_kstar.mp h
  refine Language.mem_kstar.mpr ⟨L, rfl, fun y hy => (hL y hy).resolve_right ?_⟩
  rintro ⟨c, hc, rfl⟩
  obtain rfl : c = 58 := eq_of_beq hc
  exact hu (List.mem_flatten.mpr ⟨[58], hy, List.mem_singleton_self _⟩)

theorem append_mem_reg_name (hu : u ∈ (anyOf (cls unreserved) [pct_encoded, cls sub_delims]).language)
    (hv : v ∈ reg_name.language) : u ++ v ∈ reg_name.language := by
  obtain ⟨L, rfl, hL⟩ := Language.mem_kstar.mp hv
  exact Language.mem_kstar.mpr ⟨u :: L, rfl, List.forall_mem_cons.mpr ⟨hu, hL⟩⟩

theorem mem_userinfo_append (hv : 58 ∉ v) (h : v ++ 58 :: w ∈ userinfo.language) :
    v ∈ reg_name.language ∧ w ∈ userinfo.language := by
  obtain ⟨L, heq, hL⟩ := Language.mem_kstar.mp h
  clear h
  induction L generalizing v with
  | nil => exact absurd heq (by simp)
  | cons y L ih =>
    obtain ⟨hy, htail⟩ := List.forall_mem_cons.mp hL
    rw [List.flatten_cons] at heq
    rcases hy with hy | ⟨c, hc, rfl⟩
    · have hcolon : 58 ∉ y := not_plain (by decide) ((reg_name_over (S := fun _ => True)).alive
        (alive_of_mem (append_mem_reg_name hy nil_mem_star))) ∘ List.mem_append_left _
      rcases List.append_eq_append_iff.mp heq with ⟨a, rfl, ha⟩ | ⟨a, rfl, ha⟩
      · cases a with
        | nil =>
          have hrest := ih List.not_mem_nil ha htail
          rw [List.append_nil] at hy
          exact ⟨by simpa using append_mem_reg_name hy hrest.1, hrest.2⟩
        | cons c a =>
          obtain rfl : 58 = c := (List.cons.inj ha).1
          exact absurd (by simp) hcolon
      · have hrest := ih (fun h => hv (List.mem_append_right y h)) ha.symm htail
        exact ⟨append_mem_reg_name hy hrest.1, hrest.2⟩
    · obtain rfl : c = 58 := eq_of_beq hc
      cases v with
      | nil => exact ⟨nil_mem_star, Language.mem_kstar.mpr ⟨L, (List.cons.inj heq).2, htail⟩⟩
      | cons d v =>
        obtain rfl : d = 58 := (List.cons.inj heq).1
        exact absurd List.mem_cons_self hv

/-! ### Paths and what follows them -/

/-- No `#` and no `?`. -/
def Path (c : UInt8) : Prop := c ≠ 35 ∧ c ≠ 63

/-- No `/` either. -/
def Segment (c : UInt8) : Prop := c ≠ 47 ∧ Path c

instance : DecidablePred Path := fun c => inferInstanceAs (Decidable (c ≠ 35 ∧ c ≠ 63))

instance : DecidablePred Segment := fun c => inferInstanceAs (Decidable (c ≠ 47 ∧ Path c))

theorem Segment.path {c : UInt8} (h : Segment c) : Path c := h.2

theorem Inner.segment {c : UInt8} (h : Inner c) : Segment c := ⟨h.2.1, h.1, h.2.2.1⟩

theorem segment_of_not_mem (b : UInt8) (h : b ∉ [47, 35, 63]) : Segment b := by
  simpa [Segment, Path] using h

theorem nonascii_over : (cls nonascii).Over Segment S := over_cls segment_of_not_mem rfl

theorem pchar_nc_over : pchar_nc.Over (fun c => c ≠ 58 ∧ Segment c) S := by
  have h : ∀ c, Plain c → c ≠ 58 ∧ Segment c := fun c h => ⟨h.1, h.2.segment⟩
  have hnot : ∀ b, b ∉ [58, 47, 35, 63] → b ≠ 58 ∧ Segment b := by
    intro b hb
    obtain ⟨hcolon, hb⟩ := not_or.mp fun h => hb (List.mem_cons.mpr h)
    exact ⟨hcolon, segment_of_not_mem b hb⟩
  refine over_anyOf.mpr ⟨over_cls hnot rfl, ?_⟩
  simp only [List.forall_mem_cons, List.not_mem_nil, false_imp_iff, implies_true, and_true]
  exact ⟨unreserved_over.imp h, pct_encoded_over.imp h, sub_delims_over.imp h, over_byte.mpr (by decide)⟩

theorem pchar_over : pchar.Over Segment S := by
  have h : ∀ c, Plain c → Segment c := fun c h => h.2.segment
  refine over_anyOf.mpr ⟨nonascii_over, ?_⟩
  simp only [List.forall_mem_cons, List.not_mem_nil, false_imp_iff, implies_true, and_true]
  exact ⟨unreserved_over.imp h, pct_encoded_over.imp h, sub_delims_over.imp h, over_byte.mpr (by decide),
    over_byte.mpr (by decide)⟩

theorem segments_over : (Machine.star (.cat (byte 47) segment)).Over Path S :=
  ⟨over_byte.mpr (by decide), pchar_over.imp fun _ => Segment.path⟩

theorem path_abempty_over : path_abempty.Over Path S := ⟨over_opt.mpr segments_over, segments_over⟩

theorem segment_nz_over : segment_nz.Over Path S := over_plus.mpr (pchar_over.imp fun _ => Segment.path)

theorem path_absolute_over : path_absolute.Over Path S :=
  ⟨over_byte.mpr (by decide), over_opt.mpr ⟨segment_nz_over, segments_over⟩⟩

theorem path_rootless_over : path_rootless.Over Path S := ⟨segment_nz_over, segments_over⟩

theorem segment_nz_nc_over : segment_nz_nc.Over (fun c => c ≠ 58 ∧ Segment c) S := over_plus.mpr pchar_nc_over

theorem trailer_over : trailer.Over (· ≠ 35) S := by
  refine over_anyOf.mpr ⟨pchar_over.imp fun _ h => h.2.1, ?_⟩
  simp only [List.forall_mem_cons, List.not_mem_nil, false_imp_iff, implies_true, and_true]
  exact ⟨over_byte.mpr (by decide), over_byte.mpr (by decide)⟩

theorem host_over : host.Over (fun c => c ≠ 64 ∧ Segment c) S := by
  have hp : ∀ c, Plain c → c ≠ 64 ∧ Segment c := fun c h => ⟨h.2.2.2.2.1, h.2.segment⟩
  have hi : ∀ c, Inner c → c ≠ 64 ∧ Segment c := fun c h => ⟨h.2.2.2.1, h.segment⟩
  exact ⟨⟨⟨over_byte.mpr (by decide), literal_over.imp hi, over_byte.mpr (by decide)⟩, IPv4address_over.imp hp⟩,
    reg_name_over.imp hp⟩

theorem hostport_over (r : Bool) : (hostport r).Over (fun c => c ≠ 64 ∧ Segment c) (fun _ => True) :=
  ⟨⟨trivial, trivial, host_over⟩, over_opt.mpr ⟨over_byte.mpr (by decide), trivial, trivial,
    port_over.imp fun _ h => ⟨h.2.2.2.2.1, h.2.segment⟩⟩⟩

theorem authority_over (r : Bool) : (authority r).Over Segment (fun _ => True) :=
  ⟨trivial, over_opt.mpr ⟨⟨trivial, userinfo_over.imp fun _ => Inner.segment⟩, over_byte.mpr (by decide)⟩,
    (hostport_over r).imp fun _ h => h.2⟩

theorem hier_part_over : hier_part.Over Path (fun _ => True) := by
  refine over_anyOf.mpr ⟨⟨over_byte.mpr (by decide), over_byte.mpr (by decide),
    (authority_over false).imp fun _ => Segment.path, trivial, trivial, path_abempty_over⟩, ?_⟩
  simp only [List.forall_mem_cons, List.not_mem_nil, false_imp_iff, implies_true, and_true]
  exact ⟨path_absolute_over, path_rootless_over, trivial⟩

/-- A path of this kind is empty or begins with `/`. -/
theorem alive_path_abempty {c : UInt8} (h : path_abempty.Alive (c :: u)) : c = 47 := by
  have hsegments : ∀ w, (Machine.star (.cat (byte 47) segment)).Alive (c :: w) → c = 47 := by
    intro w hw
    exact eq_of_beq (alive_one_cat.mp hw.star_head).1
  rw [path_abempty, alive_cat] at h
  rcases h with h | ⟨v, w, heq, hv, hw⟩
  · exact alive_opened h
  · cases v with
    | nil =>
      obtain rfl : c :: u = w := heq
      exact hsegments u hw
    | cons d v =>
      obtain rfl : c = d := (List.cons.inj heq).1
      exact alive_opened (alive_of_mem hv)

theorem head_path_abempty (h : u ∈ path_abempty.language) : ∀ c ∈ u.head?, c = 47 := by
  intro c hc
  cases u with
  | nil => cases hc
  | cons d u =>
    obtain rfl : d = c := Option.some.inj hc
    exact alive_path_abempty (alive_of_mem h)

theorem scheme_over : scheme.Over Plain (fun _ => True) := by
  refine ⟨trivial, trivial, over_cls plain_of_not_mem rfl, over_anyOf.mpr ⟨over_cls plain_of_not_mem rfl, ?_⟩⟩
  simp only [List.forall_mem_cons, List.not_mem_nil, false_imp_iff, implies_true, and_true]
  exact ⟨digit_over, over_byte.mpr (by decide), over_byte.mpr (by decide), over_byte.mpr (by decide)⟩

theorem scheme_ne_nil (h : u ∈ scheme.language) : u ≠ [] := by
  rintro rfl
  exact absurd (nullable_iff.mpr h) (by decide)

/-- The paths of a URI without an authority. -/
def bare_path : Rule := .anyOf path_absolute [path_rootless, path_empty]

theorem mem_hier_part : u ∈ hier_part.language ↔ u ∈ net_path.language ∨ u ∈ bare_path.language := by
  rw [hier_part, bare_path, mem_language_anyOf, mem_language_anyOf, List.exists_mem_cons_iff]

theorem pchar_head {c : UInt8} {e : Rule} (h : (Machine.cat segment_nz e).Alive (c :: u)) : c ≠ 47 :=
  ((pchar_over (S := fun _ => True)).alive ((h.cat_head rfl).cat_head rfl) c List.mem_cons_self).1

/-- Such a path does not begin like an authority. -/
theorem bare_path_head (h : u ∈ bare_path.language) : u ≠ 47 :: 47 :: v := by
  rintro rfl
  rcases h with (h | h) | h
  · obtain ⟨hc, hrest⟩ := alive_one_cat.mp (alive_of_mem h)
    rw [opt, alive_alt, alive_eps] at hrest
    rcases hrest with hrest | hrest
    · exact pchar_head hrest rfl
    · cases hrest
  · exact pchar_head (alive_of_mem h) rfl
  · cases h

/-! ### The texts of the rules -/

section
variable {r : Bool}

theorem mem_hostport :
    u ∈ (hostport r).language ↔ ∃ v o, u = v ++ opened 58 o ∧ v ∈ host.language ∧ ∀ w ∈ o, w ∈ port.language := by
  rw [hostport, mem_language_cat]
  simp only [byte, mem_language_opened]
  constructor
  · rintro ⟨v, _, rfl, hv, o, rfl, ho⟩
    exact ⟨v, o, rfl, hv, ho⟩
  · rintro ⟨v, o, rfl, hv, ho⟩
    exact ⟨v, opened 58 o, rfl, hv, o, rfl, ho⟩

theorem mem_authority : u ∈ (authority r).language ↔
    ∃ a v, u = ended 64 a ++ v ∧ (∀ w ∈ a, w ∈ userinfo.language) ∧ v ∈ (hostport r).language := by
  have hcat : u ∈ (authority r).language ↔ u ∈ (Machine.cat (.opt (.cat
      (.leave (r, .userinfo_save_userinfo) userinfo) (byte 64))) (hostport r)).language := Iff.rfl
  rw [hcat, mem_language_cat]
  simp only [byte, mem_language_opt_ended]
  constructor
  · rintro ⟨_, v, rfl, ⟨a, rfl, ha⟩, hv⟩
    exact ⟨a, v, rfl, ha, hv⟩
  · rintro ⟨a, v, rfl, ha, hv⟩
    exact ⟨ended 64 a, v, rfl, ⟨a, rfl, ha⟩, hv⟩

theorem mem_tail : u ∈ (tail r).language ↔ ∃ q f, u = opened 63 q ++ opened 35 f ∧
    (∀ v ∈ q, v ∈ trailer.language) ∧ ∀ v ∈ f, v ∈ trailer.language := by
  rw [tail, mem_language_cat]
  simp only [byte, mem_language_opened]
  constructor
  · rintro ⟨_, _, rfl, ⟨q, rfl, hq⟩, f, rfl, hf⟩
    exact ⟨q, f, rfl, hq, hf⟩
  · rintro ⟨q, f, rfl, hq, hf⟩
    exact ⟨opened 63 q, opened 35 f, rfl, ⟨q, rfl, hq⟩, f, rfl, hf⟩

theorem mem_net_path : u ∈ net_path.language ↔ ∃ v w, u = 47 :: 47 :: (v ++ w) ∧
    v ∈ (authority false).language ∧ w ∈ path_abempty.language := by
  simp only [net_path, byte, mem_language_one_cat, beq_iff_eq]
  constructor
  · rintro ⟨_, _, rfl, rfl, _, _, rfl, rfl, h⟩
    obtain ⟨v, w, rfl, hv, hw⟩ := mem_language_cat.mp h
    exact ⟨v, w, rfl, hv, hw⟩
  · rintro ⟨v, w, rfl, hv, hw⟩
    exact ⟨47, _, rfl, rfl, 47, _, rfl, rfl, mem_language_cat.mpr ⟨v, w, rfl, hv, hw⟩⟩

theorem mem_URI : u ∈ URI.language ↔ ∃ sc v w, u = sc ++ 58 :: (v ++ w) ∧ sc ∈ scheme.language ∧
    v ∈ hier_part.language ∧ w ∈ (tail false).language := by
  constructor
  · intro h
    obtain ⟨sc, _, rfl, hsc, h⟩ := mem_language_cat.mp h
    obtain ⟨c, _, rfl, hc, h⟩ := mem_language_one_cat.mp h
    obtain ⟨v, w, rfl, hv, hw⟩ := mem_language_cat.mp h
    rw [eq_of_beq hc]
    exact ⟨sc, v, w, rfl, hsc, hv, hw⟩
  · rintro ⟨sc, v, w, rfl, hsc, hv, hw⟩
    exact mem_language_cat.mpr ⟨sc, _, rfl, hsc, mem_language_one_cat.mpr ⟨58, _, rfl, rfl,
      mem_language_cat.mpr ⟨v, w, rfl, hv, hw⟩⟩⟩

end

end

end Flz.UriParser
