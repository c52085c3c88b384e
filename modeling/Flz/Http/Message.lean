import Flz.Lib.OrderedMap
import Flz.Stream

/-! # Requests and responses

`HttpRequest` and `HttpResponse` of `http/http.h` and what `http/http.cc` and the parsers'
callbacks do with them. A `std::string` and a buffer are lists of bytes.
-/
namespace Flz.Http

/-- How a call ends that does not return. -/
inductive Fault
  /-- An `assert` fails. -/
  | assertion
  /-- `std::length_error` from a string longer than `max_size()`. -/
  | lengthError
  /-- An access to a number of bytes that is negative or more than there are. -/
  | outside (count : ℤ) (valid : ℕ)
  | overflow (value : ℤ)
  deriving DecidableEq, Repr

/-- The bytes of a literal. -/
def ascii (s : String) : List UInt8 := s.toList.map (fun c => UInt8.ofNat c.toNat)

/-! ## C strings -/

/-- `strncmp(s, t, n) == 0`; after its end a list goes on with `NUL`. -/
def strncmpEq : List UInt8 → List UInt8 → ℕ → Bool
  | _, _, 0 => true
  | s, t, n + 1 => s.headD 0 == t.headD 0 && (s.headD 0 == 0 || strncmpEq s.tail t.tail n)

/-- `p - start` as a `size_t`. -/
def LEN (start p : ℕ) : ℕ := if start ≤ p then p - start else 2 ^ 64 + p - start

/-- `std::string(buffer + start, length)`. -/
def stdString (buffer : List UInt8) (start length : ℕ) : Except Fault (List UInt8) :=
  if length < 2 ^ 63 then .ok ((buffer.drop start).take length) else .error .lengthError

def tolower (b : UInt8) : UInt8 := if 65 ≤ b ∧ b ≤ 90 then b + 32 else b

def compareLower : List UInt8 → List UInt8 → Ordering
  | [], [] => .eq
  | [], _ :: _ => .lt
  | _ :: _, [] => .gt
  | a :: as, b :: bs =>
    if tolower a < tolower b then .lt
    else if tolower b < tolower a then .gt
    else compareLower as bs

/-- `strcasecmp(s.c_str(), t.c_str())`. -/
def strcasecmp (s t : List UInt8) : Ordering :=
  compareLower (s.takeWhile (· ≠ 0)) (t.takeWhile (· ≠ 0))

theorem compareLower_eq (s t : List UInt8) :
    compareLower s t = compare (s.map tolower) (t.map tolower) := by
  induction s generalizing t with
  | nil => cases t <;> rfl
  | cons a s ih =>
    cases t with
    | nil => rfl
    | cons b t =>
      have hcmp : compare (tolower a) (tolower b) = if tolower a < tolower b then .lt
          else if tolower a = tolower b then .eq else .gt := rfl
      rw [compareLower, List.map_cons, List.map_cons, List.compare_cons_cons, ih, hcmp]
      by_cases hlt : tolower a < tolower b
      · rw [if_pos hlt, if_pos hlt]
        rfl
      · rw [if_neg hlt, if_neg hlt]
        by_cases heq : tolower a = tolower b
        · rw [if_pos heq, heq, if_neg (UInt8.lt_irrefl _)]
          rfl
        · have hgt : tolower b < tolower a :=
            UInt8.lt_of_le_of_ne (UInt8.not_lt.mp hlt) (Ne.symm heq)
          rw [if_neg heq, if_pos hgt]
          rfl

instance : Std.TransCmp strcasecmp := by
  have heq : strcasecmp = compareOn (fun s => (s.takeWhile (· ≠ 0)).map tolower) := by
    funext s t
    exact compareLower_eq _ _
  rw [heq]
  infer_instance

theorem tolower_eq_iff {b c : UInt8} (h : ¬ (97 ≤ c ∧ c ≤ 122)) (hc : ¬ (65 ≤ c ∧ c ≤ 90)) :
    tolower b = c ↔ b = c := by
  constructor
  · intro hb
    rw [tolower] at hb
    split at hb
    · exfalso
      apply h
      rw [← hb]
      simp only [UInt8.le_iff_toNat_le, UInt8.toNat_add, UInt8.reduceToNat] at *
      omega
    · exact hb
  · rintro rfl
    exact if_neg hc

theorem strcasecmp_of_lower {s t : List UInt8} (h : s.map tolower = t.map tolower) : strcasecmp s t = .eq := by
  have hzero : ∀ b : UInt8, (tolower b ≠ 0) = (b ≠ 0) := by
    intro b
    rw [ne_eq, tolower_eq_iff (by decide) (by decide)]
  have hcut : ∀ u : List UInt8, (u.takeWhile (· ≠ 0)).map tolower = (u.map tolower).takeWhile (· ≠ 0) := by
    intro u
    rw [List.takeWhile_map]
    simp only [Function.comp_def, hzero]
  rw [strcasecmp, compareLower_eq, hcut, hcut, h]
  exact Std.ReflCmp.compare_self

def isspace (b : UInt8) : Bool := b == 32 || (9 ≤ b && b ≤ 13)

/-- The value of a digit in some base up to 16. -/
def digitValue (base : ℕ) (b : UInt8) : Option ℕ :=
  let v := b.toNat
  let d :=
    if 48 ≤ v ∧ v ≤ 57 then v - 48
    else if 65 ≤ v ∧ v ≤ 70 then v - 55
    else if 97 ≤ v ∧ v ≤ 102 then v - 87
    else base
  if d < base then some d else none

def readDigits (base : ℕ) : ℕ → List UInt8 → ℕ
  | n, [] => n
  | n, b :: bs =>
    match digitValue base b with
    | none => n
    | some d => readDigits base (n * base + d) bs

/-- The text behind the prefix that `strtol` allows in base 16. -/
def skipPrefix (base : ℕ) (s : List UInt8) : List UInt8 :=
  match s with
  | 48 :: x :: d :: rest =>
    if base = 16 ∧ (x = 120 ∨ x = 88) ∧ (digitValue base d).isSome then d :: rest else s
  | _ => s

/-- `strtol(s, NULL, base)` with a `long` of 64 bits. -/
def strtol (base : ℕ) (s : List UInt8) : ℤ :=
  match s.dropWhile isspace with
  | 45 :: s => max (-(readDigits base 0 (skipPrefix base s) : ℤ)) (-2 ^ 63)
  | 43 :: s => min (readDigits base 0 (skipPrefix base s)) (2 ^ 63 - 1)
  | s => min (readDigits base 0 (skipPrefix base s)) (2 ^ 63 - 1)

def atoi (s : List UInt8) : ℤ := toInt (strtol 10 s)

/-! ## Methods -/

inductive HttpMethod
  | DELETE | GET | HEAD | POST | PUT | CONNECT | OPTIONS | TRACE | COPY | LOCK | MKCOL | MOVE
  | PROPFIND | PROPPATCH | SEARCH | UNLOCK | BIND | REBIND | UNBIND | ACL | REPORT | MKACTIVITY
  | CHECKOUT | MERGE | MSEARCH | NOTIFY | SUBSCRIBE | UNSUBSCRIBE | PATCH | PURGE | MKCALENDAR
  | LINK | UNLINK | SOURCE | INVALID_METHOD
  deriving DecidableEq, Repr

/-- `HTTP_METHOD_MAP`. -/
def httpMethodMap : List (HttpMethod × String) :=
  [(.DELETE, "DELETE"), (.GET, "GET"), (.HEAD, "HEAD"), (.POST, "POST"), (.PUT, "PUT"),
   (.CONNECT, "CONNECT"), (.OPTIONS, "OPTIONS"), (.TRACE, "TRACE"), (.COPY, "COPY"),
   (.LOCK, "LOCK"), (.MKCOL, "MKCOL"), (.MOVE, "MOVE"), (.PROPFIND, "PROPFIND"),
   (.PROPPATCH, "PROPPATCH"), (.SEARCH, "SEARCH"), (.UNLOCK, "UNLOCK"), (.BIND, "BIND"),
   (.REBIND, "REBIND"), (.UNBIND, "UNBIND"), (.ACL, "ACL"), (.REPORT, "REPORT"),
   (.MKACTIVITY, "MKACTIVITY"), (.CHECKOUT, "CHECKOUT"), (.MERGE, "MERGE"),
   (.MSEARCH, "M-SEARCH"), (.NOTIFY, "NOTIFY"), (.SUBSCRIBE, "SUBSCRIBE"),
   (.UNSUBSCRIBE, "UNSUBSCRIBE"), (.PATCH, "PATCH"), (.PURGE, "PURGE"),
   (.MKCALENDAR, "MKCALENDAR"), (.LINK, "LINK"), (.UNLINK, "UNLINK"), (.SOURCE, "SOURCE")]

/-- `m` points into a buffer: the list goes on behind the method. -/
def CharsToHttpMethod (m : List UInt8) : HttpMethod :=
  ((httpMethodMap.find? (fun e => strncmpEq (ascii e.2) m (ascii e.2).length)).map
    Prod.fst).getD .INVALID_METHOD

/-- The version a callback sets, if it knows it. -/
def versionOf (at_ : List UInt8) (length : ℕ) : Option UInt8 :=
  if strncmpEq at_ (ascii "HTTP/1.1") length then some 0x11
  else if strncmpEq at_ (ascii "HTTP/1.0") length then some 0x10
  else none

/-! ## Header fields -/

/-- `std::map` with the order `CaseInsensitiveLess`. -/
abbrev MapType := List (List UInt8 × List UInt8)

def MapType.set (key val : List UInt8) (m : MapType) : MapType :=
  Lib.OrderedMap.set strcasecmp key val m

def MapType.find (key : List UInt8) (m : MapType) : Option (List UInt8) :=
  (Lib.OrderedMap.entry strcasecmp key m).map Prod.snd

/-- `getAs<uint64_t>(m, key, 0)`; `lexicalCast` is `boost::lexical_cast`, which may throw. -/
def MapType.getAs (lexicalCast : List UInt8 → Option UInt64) (m : MapType) (key : List UInt8) :
    UInt64 :=
  ((m.find key).bind lexicalCast).getD 0

structure HttpRequest where
  method : HttpMethod
  version : UInt8
  close : Bool
  path : List UInt8
  query : List UInt8
  fragment : List UInt8
  body : List UInt8
  headers : MapType
  deriving DecidableEq, Repr

namespace HttpRequest

/-- `HttpRequest()`. -/
def new : HttpRequest where
  method := .GET
  version := 0x11
  close := true
  path := ascii "/"
  query := []
  fragment := []
  body := []
  headers := []

def setHeader (r : HttpRequest) (key val : List UInt8) : HttpRequest :=
  { r with headers := r.headers.set key val }

def getHeader (r : HttpRequest) (key : List UInt8) : List UInt8 := (r.headers.find key).getD []

def init (r : HttpRequest) : HttpRequest :=
  let conn := r.getHeader (ascii "connection")
  if conn ≠ [] then { r with close := strcasecmp conn (ascii "keep-alive") != .eq } else r

end HttpRequest

structure HttpResponse where
  status : ℤ
  version : UInt8
  close : Bool
  reason : List UInt8
  body : List UInt8
  headers : MapType
  deriving DecidableEq, Repr

namespace HttpResponse

/-- `HttpResponse()`. -/
def new : HttpResponse where
  status := 200
  version := 0x11
  close := true
  reason := []
  body := []
  headers := []

def setHeader (r : HttpResponse) (key val : List UInt8) : HttpResponse :=
  { r with headers := r.headers.set key val }

end HttpResponse
end Flz.Http
