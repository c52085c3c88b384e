import Flz.Http.Tokens

/-! # What a cut changes

The request that is built from the tokens of a head when it is cut into pieces, beside the one
that is built when it is not.
-/
namespace Flz.Http
open Lib

/-- Every place belongs to one piece. -/
def uncut : ℕ → ℕ := fun _ => 0

namespace Token

/-- The action that reports a token. -/
def action : Token → HttpParserAction
  | .method .. => .requestMethod
  | .path .. => .requestPath
  | .query .. => .queryString
  | .fragment .. => .fragment
  | .version .. => .httpVersion
  | .field .. => .writeValue

def start : Token → ℕ
  | .method i _ | .path i _ | .query i _ | .fragment i _ | .version i _ | .field _ i _ => i

def stop : Token → ℕ
  | .method _ j | .path _ j | .query _ j | .fragment _ j | .version _ j | .field _ _ j => j

/-- Where the name of a field ends. -/
def nameStop : Token → ℕ
  | .field name _ _ => name.2
  | _ => 0

/-- The cut does not change what is made of the token: a path, a query and a fragment begin in
the piece in which they end, and the method and the version are told from the part in that
piece. -/
def Kept (w : List UInt8) (base : ℕ → ℕ) : Token → Prop
  | .method i j =>
    CharsToHttpMethod (slice w (max i (base j)) j) = CharsToHttpMethod (slice w i j)
  | .path i j | .query i j | .fragment i j => base j ≤ i
  | .version i j =>
    versionOf (slice w (max i (base j)) j) (j - max i (base j)) = versionOf (slice w i j) (j - i)
  | .field .. => True

instance (w : List UInt8) (base : ℕ → ℕ) : (t : Token) → Decidable (t.Kept w base)
  | .method i j => inferInstanceAs (Decidable (CharsToHttpMethod (slice w (max i (base j)) j) =
      CharsToHttpMethod (slice w i j)))
  | .path i j | .query i j | .fragment i j => inferInstanceAs (Decidable (base j ≤ i))
  | .version i j => inferInstanceAs (Decidable (versionOf (slice w (max i (base j)) j)
      (j - max i (base j)) = versionOf (slice w i j) (j - i)))
  | .field .. => inferInstanceAs (Decidable True)

/-- The part of a field in the piece in which its value ends, if any of its name is there. -/
def fieldPart (w : List UInt8) (base : ℕ → ℕ) : Token → Option (List UInt8 × List UInt8)
  | .field name i j =>
    if name.2 ≤ max name.1 (base j) then none
    else some (slice w (max name.1 (base j)) name.2, slice w (max i (base j)) j)
  | _ => none

end Token

/-- The fields of a head as a cut leaves them. -/
def fieldParts (w : List UInt8) (base : ℕ → ℕ) (ts : List Token) : List (List UInt8 × List UInt8) :=
  ts.filterMap (Token.fieldPart w base)

/-- The condition on the pieces of a head: every token is kept, and every header name has its
first spelling and its last value. -/
structure Harmless (w : List UInt8) (base : ℕ → ℕ) (ts : List Token) : Prop where
  kept : ∀ t ∈ ts, t.Kept w base
  spelling : ∀ key, OrderedMap.firstKey strcasecmp key (fieldParts w base ts) =
    OrderedMap.firstKey strcasecmp key (fieldParts w uncut ts)
  value : ∀ key, OrderedMap.lastVal strcasecmp key (fieldParts w base ts) =
    OrderedMap.lastVal strcasecmp key (fieldParts w uncut ts)

section
variable {w : List UInt8} {base : ℕ → ℕ} {ts : List Token} {t : Token} {r d : HttpRequest}

theorem build_cons (w : List UInt8) (base : ℕ → ℕ) (t : Token) (ts : List Token) (r : HttpRequest) :
    build w base (t :: ts) r = (t.apply w base r).bind (build w base ts) := rfl

/-- A token is made into its own part of the request and into a header field. -/
theorem apply_keeps (h : t.apply w base r = some d) :
    (t.action ≠ .requestMethod → d.method = r.method) ∧ (t.action ≠ .requestPath → d.path = r.path) ∧
    (t.action ≠ .queryString → d.query = r.query) ∧ (t.action ≠ .fragment → d.fragment = r.fragment) ∧
    (t.action ≠ .httpVersion → d.version = r.version) ∧ d.body = r.body ∧ d.close = r.close ∧
    d.headers = (t.fieldPart w base).toList.foldl (fun m e => m.set e.1 e.2) r.headers := by
  cases t with
  | method i j =>
    dsimp only [Token.apply] at h
    split at h
    · cases h
    · cases h
      exact ⟨fun h => absurd rfl h, fun _ => rfl, fun _ => rfl, fun _ => rfl, fun _ => rfl, rfl, rfl, rfl⟩
  | path i j =>
    cases h
    exact ⟨fun _ => rfl, fun h => absurd rfl h, fun _ => rfl, fun _ => rfl, fun _ => rfl, rfl, rfl, rfl⟩
  | query i j =>
    dsimp only [Token.apply] at h
    split at h
    · cases h
      exact ⟨fun _ => rfl, fun _ => rfl, fun h => absurd rfl h, fun _ => rfl, fun _ => rfl, rfl, rfl, rfl⟩
    · cases h
  | fragment i j =>
    cases h
    exact ⟨fun _ => rfl, fun _ => rfl, fun _ => rfl, fun h => absurd rfl h, fun _ => rfl, rfl, rfl, rfl⟩
  | version i j =>
    obtain ⟨v, -, rfl⟩ := Option.map_eq_some_iff.mp h
    exact ⟨fun _ => rfl, fun _ => rfl, fun _ => rfl, fun _ => rfl, fun h => absurd rfl h, rfl, rfl, rfl⟩
  | field name i j =>
    dsimp only [Token.apply] at h
    rw [Token.fieldPart]
    split at h
    · rename_i hlost
      cases h
      rw [if_pos hlost]
      exact ⟨fun _ => rfl, fun _ => rfl, fun _ => rfl, fun _ => rfl, fun _ => rfl, rfl, rfl, rfl⟩
    · rename_i hpart
      cases h
      rw [if_neg hpart]
      exact ⟨fun _ => rfl, fun _ => rfl, fun _ => rfl, fun _ => rfl, fun _ => rfl, rfl, rfl, rfl⟩

theorem build_rest (h : build w base ts r = some d) : d.body = r.body ∧ d.close = r.close ∧
    d.headers = (fieldParts w base ts).foldl (fun m e => m.set e.1 e.2) r.headers := by
  induction ts generalizing r with
  | nil =>
    cases h
    exact ⟨rfl, rfl, rfl⟩
  | cons t ts ih =>
    rw [build_cons] at h
    obtain ⟨r', happly, hbuild⟩ := Option.bind_eq_some_iff.mp h
    obtain ⟨-, -, -, -, -, hbody, hclose, hheaders⟩ := apply_keeps happly
    obtain ⟨hbody', hclose', hheaders'⟩ := ih hbuild
    refine ⟨hbody'.trans hbody, hclose'.trans hclose, ?_⟩
    rw [hheaders', hheaders, fieldParts, fieldParts, List.filterMap_cons]
    cases t.fieldPart w base <;> rfl

/-- The header map is the one of the fields as they are left. -/
theorem build_headers (h : build w base ts .new = some d) :
    d.headers = OrderedMap.ofAssignments strcasecmp (fieldParts w base ts) := (build_rest h).2.2

/-! ## The other parts -/

section
variable {γ : Type} {g : HttpRequest → γ} {a : HttpParserAction}

theorem build_part_none
    (hg : ∀ t r d, Token.apply w base t r = some d → t.action ≠ a → g d = g r)
    (hnone : ∀ t ∈ ts, t.action ≠ a) (h : build w base ts r = some d) : g d = g r := by
  induction ts generalizing r with
  | nil =>
    cases h
    rfl
  | cons t ts ih =>
    obtain ⟨hhead, htail⟩ := List.forall_mem_cons.mp hnone
    rw [build_cons] at h
    obtain ⟨r', happly, hbuild⟩ := Option.bind_eq_some_iff.mp h
    exact (ih htail hbuild).trans (hg t r r' happly hhead)

/-- A part that only one token is made into is as that token makes it. -/
theorem build_part (hg : ∀ t r d, Token.apply w base t r = some d → t.action ≠ a → g d = g r)
    (hone : (ts.filter (fun t => t.action == a)).length ≤ 1) (ht : t ∈ ts) (hta : t.action = a)
    (h : build w base ts r = some d) :
    ∃ r₁ r₂, t.apply w base r₁ = some r₂ ∧ g d = g r₂ := by
  induction ts generalizing r with
  | nil => cases ht
  | cons u ts ih =>
    rw [build_cons] at h
    obtain ⟨r', happly, hbuild⟩ := Option.bind_eq_some_iff.mp h
    by_cases hu : u.action = a
    · rw [List.filter_cons, if_pos (beq_iff_eq.mpr hu), List.length_cons] at hone
      have hnil := List.eq_nil_of_length_eq_zero (Nat.le_zero.mp (Nat.le_of_succ_le_succ hone))
      have hnone : ∀ t ∈ ts, t.action ≠ a := fun t ht hta =>
        List.filter_eq_nil_iff.mp hnil t ht (beq_iff_eq.mpr hta)
      rcases List.mem_cons.mp ht with rfl | ht
      · exact ⟨r, r', happly, build_part_none hg hnone hbuild⟩
      · exact absurd hta (hnone t ht)
    · rw [List.filter_cons, if_neg (fun h => hu (beq_iff_eq.mp h))] at hone
      rcases List.mem_cons.mp ht with rfl | ht
      · exact absurd hta hu
      · exact ih hone ht hbuild

end

/-! ## A harmless cut -/

theorem slice_length {i j : ℕ} (hj : j ≤ w.length) : (slice w i j).length = j - i := by
  rw [slice, List.length_take, List.length_drop]
  omega

/-- What is known of where the pieces start. -/
structure Cut (base : ℕ → ℕ) : Prop where
  le : ∀ i, base i ≤ i
  same : ∀ i j, base j ≤ i → i ≤ j → base i = base j

theorem cut_readStart (n : ℕ) (ps : List (List UInt8)) : Cut (Pieces.readStart n ps) :=
  ⟨Pieces.readStart_le n ps, fun _ _ => Pieces.readStart_eq⟩

/-- What a cut leaves of the text from `i` to `j` is all of it only when it begins in the piece
in which it ends. -/
theorem slice_max_eq_iff (hbase : Cut base) {i j : ℕ} (hij : i ≤ j) (hj : j < w.length) :
    slice w (max i (base j)) j = slice w i j ↔ base j ≤ i := by
  constructor
  · intro h
    have hlen := congrArg List.length h
    have hle := hbase.le j
    rw [slice_length hj.le, slice_length hj.le] at hlen
    omega
  · intro h
    rw [max_eq_left h]

/-- All of a request but its header fields. -/
def bare (r : HttpRequest) : HttpRequest := { r with headers := [] }

/-- The tokens of a head: none ends before it starts, a value comes after its name, and only
fields come more than once. -/
structure Regular (w : List UInt8) (ts : List Token) : Prop where
  named : ∀ t ∈ ts, t.nameStop ≤ t.stop
  ordered : ∀ t ∈ ts, t.start ≤ t.stop ∧ t.stop < w.length
  once : ∀ a, a ≠ .writeValue → (ts.filter (fun t => t.action == a)).length ≤ 1

theorem apply_method {i j : ℕ} (h : (Token.method i j).apply w base r = some d) :
    d.method = CharsToHttpMethod (slice w (max i (base j)) j) := by
  dsimp only [Token.apply] at h
  split at h
  · cases h
  · cases h
    rfl

theorem apply_query {i j : ℕ} (h : (Token.query i j).apply w base r = some d) :
    base j + (i - base i) ≤ j ∧ d.query = slice w (base j + (i - base i)) j := by
  dsimp only [Token.apply] at h
  split at h
  · rename_i hle
    cases h
    exact ⟨hle, rfl⟩
  · cases h

theorem apply_version {i j : ℕ} (h : (Token.version i j).apply w base r = some d) :
    versionOf (slice w (max i (base j)) j) (j - max i (base j)) = some d.version := by
  obtain ⟨v, hv, rfl⟩ := Option.map_eq_some_iff.mp h
  exact hv

/-- A cut that leaves the request alone is harmless. -/
theorem harmless_of_build (hbase : Cut base) (hts : Regular w ts)
    (h : build w uncut ts .new = some d) (hcut : build w base ts .new = some d) :
    Harmless w base ts := by
  have hmap := (build_headers hcut).symm.trans (build_headers h)
  have hfields := OrderedMap.ofAssignments_eq_iff.mp hmap
  refine ⟨fun t ht => ?_, fun key => (hfields key).1, fun key => (hfields key).2⟩
  obtain ⟨hij, hj⟩ := hts.ordered t ht
  have huncut : ∀ i j : ℕ, max i (uncut j) = i := fun i _ => Nat.max_zero i
  cases t with
  | method i j =>
    have hpart : ∀ base, build w base ts .new = some d →
        d.method = CharsToHttpMethod (slice w (max i (base j)) j) := by
      intro base hbuild
      obtain ⟨r₁, r₂, happly, hd⟩ := build_part (g := HttpRequest.method)
        (fun t r d h => (apply_keeps h).1) (hts.once .requestMethod (by decide)) ht rfl hbuild
      exact hd.trans (apply_method happly)
    have heq := (hpart base hcut).symm.trans (hpart uncut h)
    rw [huncut] at heq
    exact heq
  | path i j =>
    have hpart : ∀ base, build w base ts .new = some d → d.path = slice w (max i (base j)) j := by
      intro base hbuild
      obtain ⟨r₁, r₂, happly, hd⟩ := build_part (g := HttpRequest.path)
        (fun t r d h => (apply_keeps h).2.1) (hts.once .requestPath (by decide)) ht rfl hbuild
      cases happly
      exact hd
    have heq := (hpart base hcut).symm.trans (hpart uncut h)
    rw [huncut] at heq
    exact (slice_max_eq_iff hbase hij hj).mp heq
  | query i j =>
    have hpart : ∀ base, build w base ts .new = some d →
        base j + (i - base i) ≤ j ∧ d.query = slice w (base j + (i - base i)) j := by
      intro base hbuild
      obtain ⟨r₁, r₂, happly, hd⟩ := build_part (g := HttpRequest.query)
        (fun t r d h => (apply_keeps h).2.2.1) (hts.once .queryString (by decide)) ht rfl hbuild
      exact ⟨(apply_query happly).1, hd.trans (apply_query happly).2⟩
    obtain ⟨hle, hquery⟩ := hpart base hcut
    obtain ⟨-, hquery'⟩ := hpart uncut h
    have hlen := congrArg List.length (hquery.symm.trans hquery')
    change j < w.length at hj
    rw [slice_length hj.le, slice_length hj.le] at hlen
    simp only [uncut, Nat.sub_zero, Nat.zero_add] at hlen
    have hi := hbase.le i
    change i ≤ j at hij
    change base j ≤ i
    omega
  | fragment i j =>
    have hpart : ∀ base, build w base ts .new = some d →
        d.fragment = slice w (max i (base j)) j := by
      intro base hbuild
      obtain ⟨r₁, r₂, happly, hd⟩ := build_part (g := HttpRequest.fragment)
        (fun t r d h => (apply_keeps h).2.2.2.1) (hts.once .fragment (by decide)) ht rfl hbuild
      cases happly
      exact hd
    have heq := (hpart base hcut).symm.trans (hpart uncut h)
    rw [huncut] at heq
    exact (slice_max_eq_iff hbase hij hj).mp heq
  | version i j =>
    have hpart : ∀ base, build w base ts .new = some d →
        versionOf (slice w (max i (base j)) j) (j - max i (base j)) = some d.version := by
      intro base hbuild
      obtain ⟨r₁, r₂, happly, hd⟩ := build_part (g := HttpRequest.version)
        (fun t r d h => (apply_keeps h).2.2.2.2.1) (hts.once .httpVersion (by decide)) ht rfl hbuild
      rw [hd]
      exact apply_version happly
    have heq := (hpart base hcut).trans (hpart uncut h).symm
    rw [huncut] at heq
    exact heq
  | field name i j => trivial

/-- A token that is kept is made into the same, but for the header fields. -/
theorem apply_kept (hbase : Cut base) (hij : t.start ≤ t.stop) (hkept : t.Kept w base)
    {s : HttpRequest} (h : t.apply w uncut r = some d) (hrs : bare s = bare r) :
    ∃ s', t.apply w base s = some s' ∧ bare s' = bare d := by
  obtain ⟨m, rfl⟩ : ∃ m, s = { r with headers := m } :=
    ⟨s.headers, congrArg (fun b : HttpRequest => { b with headers := s.headers }) hrs⟩
  have huncut : ∀ i j : ℕ, max i (uncut j) = i := fun i _ => Nat.max_zero i
  cases t with
  | method i j =>
    change CharsToHttpMethod _ = _ at hkept
    dsimp only [Token.apply] at h ⊢
    rw [huncut] at h
    rw [hkept]
    split at h
    · cases h
    · rename_i hvalid
      cases h
      exact ⟨_, if_neg hvalid, rfl⟩
  | path i j =>
    cases h
    refine ⟨_, rfl, ?_⟩
    change base j ≤ i at hkept
    rw [huncut, max_eq_left hkept]
    rfl
  | fragment i j =>
    cases h
    refine ⟨_, rfl, ?_⟩
    change base j ≤ i at hkept
    rw [huncut, max_eq_left hkept]
    rfl
  | query i j =>
    change base j ≤ i at hkept
    have hij' : i ≤ j := hij
    have hle := hbase.le i
    have hstart : base j + (i - base i) = i := by
      rw [← hbase.same i j hkept hij]
      omega
    have hstart' : uncut j + (i - uncut i) = i := Nat.zero_add i
    dsimp only [Token.apply] at h ⊢
    rw [hstart', if_pos hij'] at h
    rw [hstart, if_pos hij']
    cases h
    exact ⟨_, rfl, rfl⟩
  | version i j =>
    change versionOf _ _ = _ at hkept
    obtain ⟨v, hv, rfl⟩ := Option.map_eq_some_iff.mp h
    rw [huncut] at hv
    rw [Token.apply, hkept, hv]
    exact ⟨_, rfl, rfl⟩
  | field name i j =>
    have hd : bare d = bare r := by
      dsimp only [Token.apply] at h
      split at h
      · cases h
        rfl
      · cases h
        rfl
    rw [hd, Token.apply]
    split
    · exact ⟨_, rfl, rfl⟩
    · exact ⟨_, rfl, rfl⟩

theorem build_kept (hbase : Cut base) (hordered : ∀ t ∈ ts, t.start ≤ t.stop)
    (hkept : ∀ t ∈ ts, t.Kept w base) {s : HttpRequest} (h : build w uncut ts r = some d)
    (hrs : bare s = bare r) : ∃ s', build w base ts s = some s' ∧ bare s' = bare d := by
  induction ts generalizing r s with
  | nil =>
    cases h
    exact ⟨s, rfl, hrs⟩
  | cons t ts ih =>
    obtain ⟨hij, hordered⟩ := List.forall_mem_cons.mp hordered
    obtain ⟨ht, hkept⟩ := List.forall_mem_cons.mp hkept
    rw [build_cons] at h ⊢
    obtain ⟨r', happly, hbuild⟩ := Option.bind_eq_some_iff.mp h
    obtain ⟨s₁, hs₁, hbare⟩ := apply_kept hbase hij ht happly hrs
    rw [hs₁]
    exact ih hordered hkept hbuild hbare

/-- A harmless cut leaves the request alone. -/
theorem build_of_harmless (hbase : Cut base) (hts : Regular w ts)
    (h : build w uncut ts .new = some d) (hharmless : Harmless w base ts) :
    build w base ts .new = some d := by
  obtain ⟨s, hs, hbare⟩ :=
    build_kept hbase (fun t ht => (hts.ordered t ht).1) hharmless.kept h rfl
  have hheaders : s.headers = d.headers := by
    rw [build_headers hs, build_headers h]
    exact OrderedMap.ofAssignments_eq_iff.mpr
      (fun key => ⟨hharmless.spelling key, hharmless.value key⟩)
  have heq : s = { bare d with headers := s.headers } := by
    rw [← hbare]
    rfl
  rw [hs, heq, hheaders]
  rfl

/-- A text in one piece is not changed. -/
theorem harmless_whole (hbase : ∀ t ∈ ts, base t.stop = 0) : Harmless w base ts := by
  have hfields : fieldParts w base ts = fieldParts w uncut ts := by
    refine List.filterMap_congr fun t ht => ?_
    have h0 := hbase t ht
    cases t with
    | field name i j =>
      change base j = 0 at h0
      rw [Token.fieldPart, Token.fieldPart, h0]
      rfl
    | method | path | query | fragment | version => rfl
  refine ⟨fun t ht => ?_, fun _ => by rw [hfields], fun _ => by rw [hfields]⟩
  have h0 := hbase t ht
  cases t with
  | method i j =>
    change base j = 0 at h0
    rw [Token.Kept, h0, Nat.max_zero]
  | version i j =>
    change base j = 0 at h0
    rw [Token.Kept, h0, Nat.max_zero]
  | path i j | query i j | fragment i j =>
    change base j = 0 at h0
    rw [Token.Kept, h0]
    exact Nat.zero_le i
  | field name i j => trivial

end
end Flz.Http
