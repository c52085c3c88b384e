import Flz.Address.Order
import Flz.Lib.CString
import Mathlib.Data.List.Count

/-! # Hosts and services

`Address::Lookup` of `src/address.cc`. A pointer into the text stands for what there is from it on.
-/
namespace Flz
open Lib Segments

structure Hints where
  ai_family : ℤ
  ai_socktype : ℤ
  ai_protocol : ℤ
  deriving DecidableEq, Repr

namespace Address

/-- `node` and `service` behind a `[`. -/
def bracketed : List UInt8 → List UInt8 × Option (List UInt8)
  | 91 :: t =>
    if 93 ∈ t then
      (before 93 t, if (after 93 t).head? = some 58 then some (after 93 t).tail else none)
    else ([], none)
  | _ => ([], none)

/-- What both become if there is no `node` yet. -/
def divided (host : List UInt8) : List UInt8 × Option (List UInt8) :=
  if 58 ∈ host then
    if 58 ∈ after 58 host then ([], some (58 :: after 58 host))
    else (before 58 host, some (after 58 host))
  else ([], none)

/-- What `getaddrinfo` is called with. -/
def request (host : List UInt8) : List UInt8 × Option (List UInt8) :=
  let (node, service) := bracketed host
  let (node, service) := if node = [] then divided host else (node, service)
  let node := if node = [] then host else node
  (c_str node, service.map c_str)

/-- The addresses that are found are put behind those in `result`. -/
def Lookup {S : Type} (getaddrinfo : List UInt8 → Option (List UInt8) → Hints → Except ℤ (List S))
    (Create : S → Address) (result : List Address) (host : List UInt8) (family type protocol : ℤ) : Bool × List Address :=
  match getaddrinfo (request host).1 (request host).2 ⟨family, type, protocol⟩ with
  | .error _ => (false, result)
  | .ok results => (!(result ++ results.map Create).isEmpty, result ++ results.map Create)

/-- `[n]` with something behind it. -/
def Led (host n r : List UInt8) : Prop := n ≠ [] ∧ 93 ∉ n ∧ host = 91 :: (n ++ 93 :: r)

/-- `[n]` or `[n]:s`. -/
def Bracketed (host : List UInt8) : Prop := ∃ n r, Led host n r ∧ (r = [] ∨ r.head? = some 58)

/-- What does not stand in leading brackets. -/
def outside : List UInt8 → List UInt8
  | 91 :: t => if 93 ∈ t then after 93 t else 91 :: t
  | host => host

/-- How the texts are divided into a node and a service. -/
structure Divides (host : List UInt8) : Prop where
  service : ∀ n s, Led host n (58 :: s) → request host = (c_str n, some (c_str s))
  brackets : ∀ n, Led host n [] → request host = (c_str n, none)
  colon : ¬ Bracketed host → ∀ n s, n ≠ [] → host = n ++ 58 :: s → 58 ∉ n → 58 ∉ s →
    request host = (c_str n, some (c_str s))
  whole : ¬ Bracketed host → 58 ∉ host ∨ 2 ≤ (outside host).count 58 → request host = (c_str host, none)

/-- Brackets with nothing behind them but a service, or at most one colon and no brackets in front. Of brackets with
something else behind them nothing is said if there are two colons, but not two behind the brackets. -/
def Understood (host : List UInt8) : Prop :=
  Bracketed host ∨ (∀ n r, ¬ Led host n r) ∧ host.count 58 ≤ 1 ∨
    (∃ n r, Led host n r) ∧ 2 ≤ host.count 58 ∧ (outside host).count 58 ≤ 1

section
variable {host n r s m : List UInt8}

theorem Led.parts (h : Led host n r) : bracketed host = (n, if r.head? = some 58 then some r.tail else none) := by
  obtain ⟨-, hn, rfl⟩ := h
  rw [bracketed, if_pos (by simp), before_append hn, Segments.after_append hn]

theorem Led.outside_eq (h : Led host n r) : outside host = r := by
  obtain ⟨-, hn, rfl⟩ := h
  rw [outside, if_pos (by simp), Segments.after_append hn]

theorem Led.unique (h : Led host n r) (h' : Led host m s) : n = m ∧ r = s := by
  refine ⟨congrArg Prod.fst (h.parts.symm.trans h'.parts), ?_⟩
  rw [← h.outside_eq, h'.outside_eq]

theorem Led.request_eq (h : Led host n r) :
    request host = (c_str n, (if r.head? = some 58 then some r.tail else none).map c_str) := by
  simp only [request, h.parts, if_neg h.1]

/-- Brackets with nothing in them do not count. -/
theorem before_of_not_led {t : List UInt8} (h : ∀ n r, ¬ Led (91 :: t) n r) (ht : 93 ∈ t) : before 93 t = [] := by
  by_contra hne
  exact h _ _ ⟨hne, not_mem_before, by rw [before_append_after ht]⟩

/-- Without brackets in front there is no node yet. -/
theorem bracketed_of_not_led (h : ∀ n r, ¬ Led host n r) : (bracketed host).1 = [] := by
  cases host with
  | nil => rfl
  | cons c t =>
    by_cases hc : c = 91
    · subst hc
      by_cases ht : 93 ∈ t
      · rw [bracketed, if_pos ht, before_of_not_led h ht]
      · rw [bracketed, if_neg ht]
    · unfold bracketed
      split
      · rename_i heq
        exact absurd (List.cons.inj heq).1 hc
      · rfl

theorem outside_of_not_led (h : ∀ n r, ¬ Led host n r) : (outside host).count 58 = host.count 58 := by
  unfold outside
  split
  · rename_i t
    split
    · rename_i ht
      have hcut := before_append_after ht
      rw [before_of_not_led h ht, List.nil_append] at hcut
      calc (after 93 t).count 58
        _ = (91 :: 93 :: after 93 t).count 58 := by simp
        _ = (91 :: t).count 58 := by rw [hcut]
    · rfl
  · rfl

theorem request_of_not_led (h : ∀ n r, ¬ Led host n r) :
    request host = (c_str (if (divided host).1 = [] then host else (divided host).1), (divided host).2.map c_str) := by
  simp only [request, bracketed_of_not_led h, if_true]

theorem divided_append (hn : 58 ∉ n) :
    divided (n ++ 58 :: s) = if 58 ∈ s then ([], some (58 :: s)) else (n, some s) := by
  rw [divided, if_pos (by simp), before_append hn, Segments.after_append hn]

theorem divided_of_not_mem (h : 58 ∉ host) : divided host = ([], none) := if_neg h

theorem exists_append (h : 58 ∈ host) : ∃ n s, host = n ++ 58 :: s ∧ 58 ∉ n :=
  ⟨_, _, (before_append_after h).symm, not_mem_before⟩

theorem count_append (hn : 58 ∉ n) : (n ++ 58 :: s).count 58 = s.count 58 + 1 := by
  rw [List.count_append, List.count_eq_zero_of_not_mem hn, List.count_cons_self, Nat.zero_add]

theorem Led.not_bracketed (h : Led host n r) (hr : r ≠ []) (hhead : r.head? ≠ some 58) : ¬ Bracketed host := by
  rintro ⟨m, s, hled, hs⟩
  obtain ⟨rfl, rfl⟩ := h.unique hled
  exact hs.elim hr hhead

theorem Led.c_str_ne (h : Led host n r) : c_str n ≠ c_str host := by
  obtain ⟨-, -, rfl⟩ := h
  have hlong : c_str (91 :: (n ++ 93 :: r)) = 91 :: c_str (n ++ 93 :: r) := rfl
  intro heq
  have hlength := congrArg List.length heq
  have hprefix := (c_str_prefix_append n (93 :: r)).length_le
  rw [hlong, List.length_cons] at hlength
  omega

/-- A text with one colon. -/
theorem exists_of_count (h : host.count 58 = 1) : ∃ n s, host = n ++ 58 :: s ∧ 58 ∉ n ∧ 58 ∉ s := by
  have hpos : 0 < host.count 58 := by omega
  obtain ⟨n, s, rfl, hn⟩ := exists_append (List.count_pos_iff.mp hpos)
  rw [count_append hn] at h
  have hs : s.count 58 = 0 := by omega
  exact ⟨n, s, rfl, hn, List.count_eq_zero.mp hs⟩

/-- Brackets with something else behind them are taken for the whole text. -/
theorem Led.divides_iff_count (h : Led host n r) (hr : r ≠ []) (hhead : r.head? ≠ some 58) :
    Divides host ↔ 2 ≤ host.count 58 ∧ (outside host).count 58 ≤ 1 := by
  have hnot := h.not_bracketed hr hhead
  have hrequest : request host = (c_str n, none) := by
    rw [h.request_eq, if_neg hhead]
    rfl
  constructor
  · intro hd
    have hwhole : ¬ (58 ∉ host ∨ 2 ≤ (outside host).count 58) := by
      intro hor
      have heq := hrequest.symm.trans (hd.whole hnot hor)
      exact h.c_str_ne (congrArg Prod.fst heq)
    have hone : host.count 58 ≠ 1 := by
      intro hcount
      obtain ⟨m, s, heq, hm, hs⟩ := exists_of_count hcount
      have hne : m ≠ [] := by
        rintro rfl
        obtain ⟨-, -, hled⟩ := h
        cases hled.symm.trans heq
      cases congrArg Prod.snd (hrequest.symm.trans (hd.colon hnot m s hne heq hm hs))
    have hpos : 0 < host.count 58 := List.count_pos_iff.mpr (not_not.mp (not_or.mp hwhole).1)
    omega
  · rintro ⟨htwo, hout⟩
    refine ⟨fun m s hled => ?_, fun m hled => ?_, fun _ m s _ heq hm hs => ?_, fun _ hor => ?_⟩
    · obtain ⟨-, rfl⟩ := h.unique hled
      exact absurd rfl hhead
    · exact absurd (h.unique hled).2 hr
    · rw [heq, count_append hm, List.count_eq_zero_of_not_mem hs] at htwo
      omega
    · rcases hor with hnone | hcolons
      · rw [List.count_eq_zero_of_not_mem hnone] at htwo
        omega
      · omega

/-- Without brackets in front two colons are too many. -/
theorem divides_iff_of_not_led (h : ∀ n r, ¬ Led host n r) : Divides host ↔ host.count 58 ≤ 1 := by
  have hnot : ¬ Bracketed host := fun ⟨n, r, hled, _⟩ => h n r hled
  constructor
  · intro hd
    by_contra hcount
    have hrequest := hd.whole hnot (.inr (by rw [outside_of_not_led h]; omega))
    have hpos : 0 < host.count 58 := by omega
    obtain ⟨n, s, rfl, hn⟩ := exists_append (List.count_pos_iff.mp hpos)
    rw [count_append hn] at hcount
    rw [request_of_not_led h, divided_append hn, if_pos (List.count_pos_iff.mp (by omega))] at hrequest
    cases congrArg Prod.snd hrequest
  · intro hcount
    refine ⟨fun m s hled => absurd hled (h _ _), fun m hled => absurd hled (h _ _), fun _ n s hne heq hn hs => ?_,
      fun _ hor => ?_⟩
    · subst heq
      rw [request_of_not_led h, divided_append hn, if_neg hs, if_neg hne]
      rfl
    · rw [outside_of_not_led h] at hor
      rw [request_of_not_led h, divided_of_not_mem (hor.resolve_right (by omega)), if_pos rfl]
      rfl

theorem Bracketed.divides (h : Bracketed host) : Divides host where
  service n s hled := by
    rw [hled.request_eq]
    rfl
  brackets n hled := by
    rw [hled.request_eq]
    rfl
  colon hnot := absurd h hnot
  whole hnot := absurd h hnot

end

/-- `getaddrinfo` is called with the node and the service of exactly these texts. -/
theorem divides_iff (host : List UInt8) : Divides host ↔ Understood host := by
  by_cases hbracketed : Bracketed host
  · exact iff_of_true hbracketed.divides (.inl hbracketed)
  by_cases hled : ∃ n r, Led host n r
  · obtain ⟨n, r, h⟩ := hled
    obtain ⟨hr, hhead⟩ : r ≠ [] ∧ r.head? ≠ some 58 := not_or.mp fun hor => hbracketed ⟨n, r, h, hor⟩
    rw [h.divides_iff_count hr hhead]
    refine ⟨fun hcounts => .inr (.inr ⟨⟨n, r, h⟩, hcounts⟩), ?_⟩
    rintro (hbrackets | ⟨hnone, -⟩ | ⟨-, hcounts⟩)
    · exact absurd hbrackets hbracketed
    · exact absurd h (hnone n r)
    · exact hcounts
  · have hnone : ∀ n r, ¬ Led host n r := fun n r h => hled ⟨n, r, h⟩
    rw [divides_iff_of_not_led hnone]
    refine ⟨fun hcount => .inr (.inl ⟨hnone, hcount⟩), ?_⟩
    rintro (hbrackets | ⟨-, hcount⟩ | ⟨hsome, -⟩)
    · exact absurd hbrackets hbracketed
    · exact hcount
    · exact absurd hsome hled

/-- `::1` is called with itself as the service. -/
theorem address_as_service : ¬ ∀ host, Divides host := by
  intro h
  have hled : ∀ n r, ¬ Led [58, 58, 49] n r := by
    rintro n r ⟨-, -, heq⟩
    cases heq
  exact absurd ((divides_iff_of_not_led hled).mp (h _)) (by decide)

end Address
end Flz
