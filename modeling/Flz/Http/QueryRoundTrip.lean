import Flz.Http.UrlEncode

/-! # A query that is encoded and read again

`getParam` on the query of a list of names and values. A name is kept as it stands in the query, up to its
first `=`, which the encoder leaves bare.
-/
namespace Flz.Http
open Lib OrderedMap Segments

/-- `getParam(key, def)`. -/
def ParamRequest.getParam (r : ParamRequest) (key default : List UInt8) :
    Option (ParamRequest × List UInt8) := do
  let r ← r.initQueryParam
  let r ← r.initBodyParam
  return (r, (r.params.find key).getD default)

/-- Names and their values. -/
abbrev Pairs := List (List UInt8 × List UInt8)

/-- The query of a list of names and values. -/
def encodeQuery (ps : Pairs) : List UInt8 :=
  [38].intercalate (ps.map fun e => UrlEncode true e.1 ++ 61 :: UrlEncode true e.2)

/-- Names that are not empty, without `NUL`, and different whatever their case. -/
structure Pairs.Named (ps : Pairs) : Prop where
  nonempty : ∀ e ∈ ps, e.1 ≠ []
  plain : ∀ e ∈ ps, 0 ∉ e.1
  apart : ps.Pairwise fun e f => sameName e.1 f.1 = false

/-- Every name gives its value. -/
def ParamRequest.Returns (q : ParamRequest) (ps : Pairs) : Prop :=
  ∀ e ∈ ps, ∃ q', q.getParam e.1 [] = some (q', e.2)

/-- What stands in the query for a pair: the name up to its first `=`, as it is encoded, and what follows. -/
def standsFor (e : List UInt8 × List UInt8) : List UInt8 × List UInt8 :=
  (UrlEncode true (before 61 e.1), if 61 ∈ e.1 then after 61 e.1 ++ 61 :: e.2 else e.2)

/-- The first pair that stands under a name has its value, or none does and the value is empty. -/
def Pairs.Kept (ps : Pairs) : Prop :=
  ∀ e ∈ ps, (((ps.map standsFor).find? fun f => sameName f.1 e.1).map Prod.snd).getD [] = e.2

/-! ## Encoded texts -/

section
variable {p : Bool} {s t : List UInt8} {b : UInt8}

theorem UrlEncode_append : UrlEncode p (s ++ t) = UrlEncode p s ++ UrlEncode p t := by
  simp [UrlEncode_eq]

theorem UrlEncode_cons_mark : UrlEncode p (61 :: t) = 61 :: UrlEncode p t := by
  simp [UrlEncode_eq, encodedByte, CHAR_IS_UNRESERVED_iff]

theorem mem_piece {w : List UInt8} (h : Piece p w) (hb : b ∈ w) :
    b ∈ unreserved ∨ w = [61] ∧ b = 61 ∨ b = 43 ∨ b = 37 := by
  have hall : hexdigits.all (fun x => unreserved.contains x) = true := by decide
  have hdigits : ∀ x ∈ hexdigits, x ∈ unreserved := fun x hx =>
    List.contains_iff_mem.mp (List.all_eq_true.mp hall x hx)
  rcases h with ⟨c, hc, rfl⟩ | ⟨-, rfl⟩ | ⟨x, hx, y, hy, rfl⟩
  · obtain rfl := List.mem_singleton.mp hb
    rcases hc with hc | rfl
    · exact Or.inl hc
    · exact Or.inr (Or.inl ⟨rfl, rfl⟩)
  · exact Or.inr (Or.inr (Or.inl (List.mem_singleton.mp hb)))
  · simp only [List.mem_cons, List.not_mem_nil, or_false] at hb
    rcases hb with rfl | rfl | rfl
    · exact Or.inr (Or.inr (Or.inr rfl))
    · exact Or.inl (hdigits _ hx)
    · exact Or.inl (hdigits _ hy)

theorem mem_UrlEncode (h : b ∈ UrlEncode p s) : b ∈ unreserved ∨ b = 61 ∨ b = 43 ∨ b = 37 := by
  rw [UrlEncode_eq] at h
  obtain ⟨c, -, hb⟩ := List.mem_flatMap.mp h
  rcases mem_piece (encodedByte_piece p c) hb with h | ⟨-, h⟩ | h
  · exact Or.inl h
  · exact Or.inr (Or.inl h)
  · exact Or.inr (Or.inr h)

theorem nul_not_mem_UrlEncode : (0 : UInt8) ∉ UrlEncode p s := by
  intro h
  have hmem := mem_UrlEncode h
  revert hmem
  decide

theorem sep_not_mem_UrlEncode : (38 : UInt8) ∉ UrlEncode p s := by
  intro h
  have hmem := mem_UrlEncode h
  revert hmem
  decide

theorem mark_not_mem_UrlEncode (h : 61 ∉ s) : 61 ∉ UrlEncode p s := by
  intro hmem
  rw [UrlEncode_eq] at hmem
  obtain ⟨c, hc, hb⟩ := List.mem_flatMap.mp hmem
  rcases mem_piece (encodedByte_piece p c) hb with hb | ⟨heq, -⟩ | hb
  · exact absurd hb (by decide)
  · -- only the mark itself is encoded to it
    have hdec := urlDecoded_encodedByte p c []
    rw [heq] at hdec
    cases p <;> simp [urlDecoded] at hdec
    all_goals exact h (hdec ▸ hc)
  · revert hb
    decide

theorem UrlEncode_unreserved (h : ∀ c ∈ s, c ∈ unreserved) : UrlEncode p s = s := by
  rw [UrlEncode_eq]
  have hsame : s.flatMap (encodedByte p) = s.flatMap fun c => [c] := by
    apply List.flatMap_congr
    intro c hc
    exact if_pos ((CHAR_IS_UNRESERVED_iff c).mpr (Or.inl (h c hc)))
  simpa using hsame

end

/-! ## The text of the query -/

theorem entry_segment (e : List UInt8 × List UInt8) :
    (ParamCall.query.entry (before 61 (UrlEncode true e.1 ++ 61 :: UrlEncode true e.2))
      (after 61 (UrlEncode true e.1 ++ 61 :: UrlEncode true e.2))) = standsFor e := by
  have hname : 61 ∉ UrlEncode true (before 61 e.1) := mark_not_mem_UrlEncode not_mem_before
  by_cases hmark : 61 ∈ e.1
  · have hsplit : UrlEncode true e.1 ++ 61 :: UrlEncode true e.2 =
        UrlEncode true (before 61 e.1) ++ 61 :: UrlEncode true (after 61 e.1 ++ 61 :: e.2) := by
      calc UrlEncode true e.1 ++ 61 :: UrlEncode true e.2
        _ = UrlEncode true (before 61 e.1 ++ 61 :: after 61 e.1) ++ 61 :: UrlEncode true e.2 := by
          rw [before_append_after hmark]
        _ = _ := by simp only [UrlEncode_append, UrlEncode_cons_mark, List.append_assoc, List.cons_append]
    rw [hsplit, before_append hname, Segments.after_append hname, ParamCall.entry, UrlDecode_UrlEncode,
      standsFor, if_pos hmark]
  · rw [before_of_not_mem hmark] at hname
    rw [before_append hname, Segments.after_append hname, ParamCall.entry, UrlDecode_UrlEncode, standsFor,
      if_neg hmark, before_of_not_mem hmark]

theorem scanned_encodeQuery {r : HttpRequest} {ps : Pairs} (h : r.query = encodeQuery ps) :
    ParamCall.query.scanned r = ps.map standsFor := by
  have hseg : ∀ s ∈ ps.map (fun e => UrlEncode true e.1 ++ 61 :: UrlEncode true e.2),
      (38 : UInt8) ∉ s ∧ 61 ∈ s := by
    intro s hs
    obtain ⟨e, -, rfl⟩ := List.mem_map.mp hs
    simp [sep_not_mem_UrlEncode]
  have htext : ParamCall.query.text r = encodeQuery ps := h
  rw [ParamCall.scanned, htext, encodeQuery, ParamCall.flag, scan_intercalate hseg, List.map_map]
  apply List.map_congr_left
  intro e _
  exact entry_segment e

/-! ## The calls -/

section
variable {r : HttpRequest} {ps : Pairs} {cs : List ParamCall} {q : ParamRequest}

/-- Of the texts for the parameters only the query has names. -/
theorem entry_scans (hq : r.query = encodeQuery ps) (hbody : ParamCall.body.text r = [])
    (key : List UInt8) (cs : List ParamCall) : entry strcasecmp key (ParamCall.scans false r cs) =
      if .query ∈ cs then entry strcasecmp key (ps.map standsFor) else none := by
  induction cs with
  | nil => rfl
  | cons c cs ih =>
    have hnone : ParamCall.body.scanned r = [] := by
      rw [ParamCall.scanned, hbody, scan_of_not_mem List.not_mem_nil]
    cases c with
    | query =>
      have hcons : ParamCall.scans false r (.query :: cs) =
          ps.map standsFor ++ ParamCall.scans false r cs := by
        rw [← scanned_encodeQuery hq]
        rfl
      rw [hcons, entry, List.find?_append, ← entry, ← entry, ih]
      by_cases hmem : ParamCall.query ∈ cs <;> simp [hmem]
    | body =>
      have hcons : ParamCall.scans false r (.body :: cs) = ParamCall.scans false r cs := by
        simp [ParamCall.scans, ParamCall.isCookies, hnone]
      rw [hcons, ih]
      simp
    | cookies =>
      have hcons : ParamCall.scans false r (.cookies :: cs) = ParamCall.scans false r cs := rfl
      rw [hcons, ih]
      simp

theorem getParam_eq (hq : r.query = encodeQuery ps) (hbody : ParamCall.body.text r = [])
    (hrun : ParamCall.runAll (.received r) cs = some q) (key default : List UInt8) :
    ∃ q', q.getParam key default =
      some (q', ((entry strcasecmp key (ps.map standsFor)).map Prod.snd).getD default) := by
  obtain ⟨q₀, hq₀, hafter⟩ := ParamCall.runAll_after r cs
  obtain rfl := Option.some.inj (hrun.symm.trans hq₀)
  obtain ⟨q₁, hrun₁, hafter₁⟩ := ParamCall.run_after (c := .query) hafter
  obtain ⟨q₂, hrun₂, hafter₂⟩ := ParamCall.run_after (c := .body) hafter₁
  have hquery : q.initQueryParam = some q₁ := hrun₁
  have hform : q₁.initBodyParam = some q₂ := hrun₂
  refine ⟨q₂, ?_⟩
  have hfind : q₂.params.find key = (entry strcasecmp key (ps.map standsFor)).map Prod.snd := by
    rw [MapType.find, hafter₂.params, entry_insertAll List.Pairwise.nil, entry_scans hq hbody]
    simp [OrderedMap.entry]
  simp [ParamRequest.getParam, hquery, hform, hfind]

theorem entry_standsFor {key : List UInt8} (hkey : 0 ∉ key) (ps : Pairs) :
    entry strcasecmp key (ps.map standsFor) = (ps.map standsFor).find? fun f => sameName f.1 key := by
  apply List.find?_congr
  intro f hf
  obtain ⟨e, -, rfl⟩ := List.mem_map.mp hf
  rw [Bool.eq_iff_iff, beq_iff_eq, sameName_comm]
  exact ⟨sameName_of_strcasecmp hkey nul_not_mem_UrlEncode, strcasecmp_of_sameName⟩

theorem returns_iff (hps : ps.Named) (hq : r.query = encodeQuery ps) (hbody : ParamCall.body.text r = [])
    (hrun : ParamCall.runAll (.received r) cs = some q) : q.Returns ps ↔ ps.Kept := by
  have hone : ∀ e ∈ ps, (∃ q', q.getParam e.1 [] = some (q', e.2)) ↔
      (((ps.map standsFor).find? fun f => sameName f.1 e.1).map Prod.snd).getD [] = e.2 := by
    intro e he
    obtain ⟨q', hget⟩ := getParam_eq hq hbody hrun e.1 []
    rw [entry_standsFor (hps.plain e he)] at hget
    simp [hget]
  exact forall₂_congr hone

end

/-! ## Which names come back -/

section
variable {ps : Pairs}

theorem find?_of_apart (h : ps.Pairwise fun e f => sameName e.1 f.1 = false) {e : List UInt8 × List UInt8}
    (he : e ∈ ps) : ps.find? (fun f => sameName f.1 e.1) = some e := by
  induction ps with
  | nil => cases he
  | cons g ps ih =>
    obtain ⟨hg, hps⟩ := List.pairwise_cons.mp h
    rcases List.mem_cons.mp he with rfl | hmem
    · have hself : sameName e.1 e.1 = true := by simp [sameName]
      simp [hself]
    · simpa [List.find?_cons, hg e hmem] using ih hps hmem

theorem kept_of_unreserved (hps : ps.Named) (h : ∀ e ∈ ps, ∀ c ∈ e.1, c ∈ unreserved) : ps.Kept := by
  have hsame : ps.map standsFor = ps := by
    apply (List.map_congr_left ?_).trans ps.map_id
    intro e he
    have hmark : 61 ∉ e.1 := fun hmem => absurd (h e he 61 hmem) (by decide)
    rw [standsFor, before_of_not_mem hmark, UrlEncode_unreserved (h e he), if_neg hmark]
    rfl
  intro e he
  rw [hsame, find?_of_apart hps.apart he]
  rfl

theorem length_encodedByte_pos (p : Bool) (c : UInt8) : 0 < (encodedByte p c).length := by
  rw [encodedByte]
  split
  · exact Nat.one_pos
  · split <;> simp

theorem length_le_UrlEncode (p : Bool) (s : List UInt8) : s.length ≤ (UrlEncode p s).length := by
  rw [UrlEncode_eq]
  induction s with
  | nil => simp
  | cons c s ih =>
    have hpos := length_encodedByte_pos p c
    simp only [List.flatMap_cons, List.length_append, List.length_cons]
    omega

/-- A byte that is encoded to one byte with the same lower case was left bare. -/
theorem unreserved_of_byte {p : Bool} {c d : UInt8} (h : encodedByte p c = [d])
    (hsame : tolower d = tolower c) (hmark : c ≠ 61) : c ∈ unreserved := by
  by_cases hres : CHAR_IS_UNRESERVED c
  · exact ((CHAR_IS_UNRESERVED_iff c).mp hres).resolve_right hmark
  · rw [encodedByte, if_neg hres] at h
    split at h
    · rename_i hspace
      rw [hspace.1, ← List.head_eq_of_cons_eq h] at hsame
      exact absurd hsame (by decide)
    · simp at h

/-- A text that is encoded to itself, but for its case, is of unreserved characters. -/
theorem unreserved_of_sameName {p : Bool} {s : List UInt8} (h : sameName (UrlEncode p s) s = true)
    (hmark : 61 ∉ s) : ∀ c ∈ s, c ∈ unreserved := by
  induction s with
  | nil => simp
  | cons c s ih =>
    have hcons : UrlEncode p (c :: s) = encodedByte p c ++ UrlEncode p s := by simp [UrlEncode_eq]
    rw [hcons] at h
    have hmap := beq_iff_eq.mp h
    have hlen := congrArg List.length hmap
    have hle := length_le_UrlEncode p s
    have hpos := length_encodedByte_pos p c
    simp only [List.length_map, List.length_append, List.length_cons] at hlen
    obtain ⟨d, hd⟩ := List.length_eq_one_iff.mp (by omega : (encodedByte p c).length = 1)
    simp only [hd, List.cons_append, List.nil_append, List.map_cons, List.cons.injEq] at hmap
    obtain ⟨hne, hrest⟩ := not_or.mp (List.mem_cons.not.mp hmark)
    intro b hb
    rcases List.mem_cons.mp hb with rfl | hb
    · exact unreserved_of_byte hd hmap.1 (Ne.symm hne)
    · exact ih (beq_iff_eq.mpr hmap.2) hrest b hb

theorem unreserved_of_kept (hps : ps.Named) (hval : ∀ e ∈ ps, e.2 = e.1) (h : ps.Kept) :
    ∀ e ∈ ps, ∀ c ∈ e.1, c ∈ unreserved := by
  intro e he
  have hkept := h e he
  rw [hval e he] at hkept
  cases hfind : (ps.map standsFor).find? fun f => sameName f.1 e.1 with
  | none =>
    rw [hfind] at hkept
    exact absurd hkept.symm (hps.nonempty e he)
  | some f =>
    have hsame : sameName f.1 e.1 = true :=
      List.find?_some (p := fun f : List UInt8 × List UInt8 => sameName f.1 e.1) hfind
    obtain ⟨e', he', rfl⟩ := List.mem_map.mp (List.mem_of_find?_eq_some hfind)
    rw [hfind, Option.map_some, Option.getD_some, standsFor] at hkept
    rw [standsFor] at hsame
    have hname : 61 ∉ UrlEncode true (before 61 e'.1) := mark_not_mem_UrlEncode not_mem_before
    have hmark : 61 ∉ e.1 := by
      intro hmem
      rw [sameName_comm] at hsame
      exact hname (mem_of_sameName (by decide) (by decide) hsame hmem)
    by_cases hmark' : 61 ∈ e'.1
    · -- then the value has a mark in it, and the name does not
      simp only [if_pos hmark'] at hkept
      exact absurd (hkept ▸ by simp) hmark
    · simp only [if_neg hmark', hval e' he'] at hkept
      rw [hkept, before_of_not_mem hmark] at hsame
      exact unreserved_of_sameName hsame hmark

end

/-- With whatever values names come back exactly when they are of unreserved characters. -/
theorem kept_names_iff (ps : Pairs) (hps : ps.Named) :
    (∀ qs : Pairs, qs.map Prod.fst = ps.map Prod.fst → qs.Kept) ↔ ∀ e ∈ ps, ∀ c ∈ e.1, c ∈ unreserved := by
  have hnamed : ∀ qs : Pairs, qs.map Prod.fst = ps.map Prod.fst → qs.Named := by
    intro qs hqs
    have hmem : ∀ e ∈ qs, ∃ e' ∈ ps, e'.1 = e.1 := by
      intro e he
      have hin : e.1 ∈ ps.map Prod.fst := hqs ▸ List.mem_map_of_mem he
      exact List.mem_map.mp hin
    refine ⟨fun e he => ?_, fun e he => ?_, ?_⟩
    · obtain ⟨e', he', heq⟩ := hmem e he
      exact heq ▸ hps.nonempty e' he'
    · obtain ⟨e', he', heq⟩ := hmem e he
      exact heq ▸ hps.plain e' he'
    · have hapart : (ps.map Prod.fst).Pairwise fun s t => sameName s t = false :=
        List.pairwise_map.mpr hps.apart
      rw [← hqs] at hapart
      exact List.pairwise_map.mp hapart
  constructor
  · intro h e he
    have hnames : (ps.map fun e => (e.1, e.1)).map Prod.fst = ps.map Prod.fst := by simp
    have hself : ∀ f ∈ ps.map (fun e => (e.1, e.1)), f.2 = f.1 := by
      intro f hf
      obtain ⟨e', -, rfl⟩ := List.mem_map.mp hf
      rfl
    exact unreserved_of_kept (hnamed _ hnames) hself (h _ hnames) (e.1, e.1)
      (List.mem_map.mpr ⟨e, he, rfl⟩)
  · intro h qs hqs
    apply kept_of_unreserved (hnamed qs hqs)
    intro e he
    have hin : e.1 ∈ ps.map Prod.fst := hqs ▸ List.mem_map_of_mem he
    obtain ⟨e', he', heq⟩ := List.mem_map.mp hin
    exact heq ▸ h e' he'

/-- Behind a query that was encoded `getParam` gives every name its value exactly when what stands under
each name is its pair; it does so when the names are of unreserved characters. -/
theorem getParam_encodeQuery_iff {r : HttpRequest} {ps : Pairs} {cs : List ParamCall} {q : ParamRequest}
    (hps : ps.Named) (hq : r.query = encodeQuery ps) (hbody : ParamCall.body.text r = [])
    (hrun : ParamCall.runAll (.received r) cs = some q) :
    (q.Returns ps ↔ ps.Kept) ∧ ((∀ e ∈ ps, ∀ c ∈ e.1, c ∈ unreserved) → q.Returns ps) := by
  have hiff := returns_iff hps hq hbody hrun
  exact ⟨hiff, fun h => hiff.mpr (kept_of_unreserved hps h)⟩

/-- A request with one name and its value. -/
def onePair (name value : List UInt8) : HttpRequest :=
  { HttpRequest.new with query := encodeQuery [(name, value)] }

theorem getParam_encodeQuery_iff_sample :
    (ParamRequest.received (onePair (ascii "a.b") (ascii "x = &"))).Returns [(ascii "a.b", ascii "x = &")] := by
  have hps : Pairs.Named [(ascii "a.b", ascii "x = &")] := ⟨by decide, by decide, List.pairwise_singleton _ _⟩
  have hrun : ParamCall.runAll (.received (onePair (ascii "a.b") (ascii "x = &"))) [] = some _ := rfl
  have hchars : (ascii "a.b").all (fun c => unreserved.contains c) = true := by decide
  exact (getParam_encodeQuery_iff hps rfl (by decide) hrun).2 (List.forall_mem_singleton.mpr fun c hc =>
    List.contains_iff_mem.mp (List.all_eq_true.mp hchars c hc))

/-- A blank in a name is encoded, and not decoded. -/
theorem blank_name_lost : ¬ ∀ (r : HttpRequest) (ps : Pairs), ps.Named → r.query = encodeQuery ps →
    ParamCall.body.text r = [] → (ParamRequest.received r).Returns ps := by
  intro h
  have hps : Pairs.Named [(ascii "a b", ascii "1")] := ⟨by decide, by decide, List.pairwise_singleton _ _⟩
  obtain ⟨q, hq⟩ := h (onePair (ascii "a b") (ascii "1")) _ hps rfl (by decide) _ List.mem_cons_self
  have hempty : ((ParamRequest.received (onePair (ascii "a b") (ascii "1"))).getParam (ascii "a b") []).map
      Prod.snd = some [] := by decide
  rw [hq] at hempty
  cases hempty

end Flz.Http
