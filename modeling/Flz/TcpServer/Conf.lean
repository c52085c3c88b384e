import Flz.Http.Message
import Flz.Lib.Digits
import Flz.Lib.Yaml
import Mathlib.Data.List.TakeWhile

/-! # The configuration of a server

`TcpServerConf` of `include/tcp_server.h`, its two casts, and those for `std::map<std::string, std::string>` of
`include/config.h` that they use.
-/
namespace Flz
open Lib Yaml Digits Http

/-- `std::map<std::string, std::string>`. -/
structure StringMap where
  toList : List (List UInt8 × List UInt8)
  sorted : OrderedMap.Sorted compare toList
  deriving DecidableEq

namespace StringMap

def empty : StringMap := ⟨[], List.Pairwise.nil⟩

/-- `insert(make_pair(key, val))`. -/
def insert (m : StringMap) (key val : List UInt8) : StringMap :=
  ⟨OrderedMap.insert compare key val m.toList, m.sorted.insert key val⟩

end StringMap

structure TcpServerConf where
  address : List (List UInt8) := []
  keepalive : Int32 := 0
  timeout : Int32 := 1000 * 2 * 60
  ssl : Int32 := 0
  id : List UInt8 := []
  type : List UInt8 := ascii "http"
  name : List UInt8 := []
  cert_file : List UInt8 := []
  key_file : List UInt8 := []
  accept_worker : List UInt8 := []
  io_worker : List UInt8 := []
  process_worker : List UInt8 := []
  args : StringMap := .empty
  deriving DecidableEq

/-- `operator==`. -/
def TcpServerConf.eq (c oth : TcpServerConf) : Bool :=
  c.address == oth.address && c.keepalive == oth.keepalive && c.timeout == oth.timeout && c.name == oth.name &&
    c.ssl == oth.ssl && c.cert_file == oth.cert_file && c.key_file == oth.key_file &&
    c.accept_worker == oth.accept_worker && c.io_worker == oth.io_worker &&
    c.process_worker == oth.process_worker && c.args == oth.args && c.id == oth.id && c.type == oth.type

/-! ## Numbers -/

/-- An `int` that is put into a node. -/
def intText (n : Int32) : List UInt8 :=
  if n.toInt < 0 then 45 :: digits 10 n.toInt.natAbs else digits 10 n.toInt.natAbs

/-- Digits of a base, with nothing but blanks behind them. -/
def wholeDigits (base : ℕ) (s : List UInt8) : Option ℕ :=
  let read := s.takeWhile fun c => (digitValue base c).isSome
  if read = [] then none
  else if (s.dropWhile fun c => (digitValue base c).isSome).all isspace then some (readDigits base 0 read)
  else none

/-- A number without its sign, whose prefix tells the base. -/
def wholeNumber : List UInt8 → Option ℕ
  | 48 :: 120 :: s => wholeDigits 16 s
  | 48 :: 88 :: s => wholeDigits 16 s
  | 48 :: d :: s => wholeDigits 8 (48 :: d :: s)
  | s => wholeDigits 10 s

def signedNumber : List UInt8 → Option ℤ
  | 45 :: s => (wholeNumber s).map fun n : ℕ => -(n : ℤ)
  | 43 :: s => (wholeNumber s).map Int.ofNat
  | s => (wholeNumber s).map Int.ofNat

/-- The text of a node as an `int`: all of it is read from a stream that has no base set. -/
def textInt (s : List UInt8) : Option Int32 :=
  (signedNumber s).bind fun n => if -2 ^ 31 ≤ n ∧ n < 2 ^ 31 then some (Int32.ofInt n) else none

/-- `as<int>(fallback)`. -/
def asIntOr (fallback : Int32) : Option (Yaml (List UInt8)) → Int32
  | some (.scalar text) => (textInt text).getD fallback
  | _ => fallback

/-! ## The casts -/

namespace LexicalCast
variable (y : Library (List UInt8))

/-- The node that `LexicalCast<std::map<std::string, std::string>, std::string>` prints. -/
def stringMapTree (v : StringMap) : Except Exception (Yaml (List UInt8)) := do
  let fields ← v.toList.mapM fun i => do return (i.1, ← y.load i.2)
  return mapOf fields

def ofStringMap (v : StringMap) : Except Exception (List UInt8) := do return y.print (← stringMapTree y v)

/-- `LexicalCast<std::string, std::map<std::string, std::string>>`; the items of a sequence have no keys. -/
def toStringMap (v : List UInt8) : Except Exception StringMap := do
  match ← y.load v with
  | .map entries => return entries.foldl (fun vec it => vec.insert it.1.Scalar (y.print it.2)) .empty
  | .seq (_ :: _) => .error .invalidNode
  | _ => return .empty

/-- The fields of a configuration, with the node for its arguments. -/
def confNode (conf : TcpServerConf) (args : Yaml (List UInt8)) : Yaml (List UInt8) :=
  mapOf ([(ascii "id", scalar conf.id), (ascii "type", scalar conf.type), (ascii "name", scalar conf.name),
    (ascii "keepalive", scalar (intText conf.keepalive)), (ascii "timeout", scalar (intText conf.timeout)),
    (ascii "ssl", scalar (intText conf.ssl)), (ascii "cert_file", scalar conf.cert_file),
    (ascii "key_file", scalar conf.key_file), (ascii "accept_worker", scalar conf.accept_worker),
    (ascii "io_worker", scalar conf.io_worker), (ascii "process_worker", scalar conf.process_worker),
    (ascii "args", args)] ++ fieldIf (conf.address ≠ []) (ascii "address") (seq (conf.address.map scalar)))

/-- The node that `LexicalCast<TcpServerConf, std::string>` prints. -/
def confTree (conf : TcpServerConf) : Except Exception (Yaml (List UInt8)) := do
  return confNode conf (← y.load (← ofStringMap y conf.args))

def ofTcpServerConf (conf : TcpServerConf) : Except Exception (List UInt8) := do return y.print (← confTree y conf)

/-- `LexicalCast<std::string, TcpServerConf>` behind `YAML::Load`. -/
def treeToTcpServerConf (node : Yaml (List UInt8)) : Except Exception TcpServerConf := do
  let conf : TcpServerConf := {}
  let conf := { conf with id := asTextOr conf.id (← node.get (ascii "id")) }
  let conf := { conf with type := asTextOr conf.type (← node.get (ascii "type")) }
  let conf := { conf with keepalive := asIntOr conf.keepalive (← node.get (ascii "keepalive")) }
  let conf := { conf with timeout := asIntOr conf.timeout (← node.get (ascii "timeout")) }
  let conf := { conf with name := asTextOr conf.name (← node.get (ascii "name")) }
  let conf := { conf with ssl := asIntOr conf.ssl (← node.get (ascii "ssl")) }
  let conf := { conf with cert_file := asTextOr conf.cert_file (← node.get (ascii "cert_file")) }
  let conf := { conf with key_file := asTextOr conf.key_file (← node.get (ascii "key_file")) }
  let conf := { conf with accept_worker := ← asText (← node.get (ascii "accept_worker")) }
  let conf := { conf with io_worker := ← asText (← node.get (ascii "io_worker")) }
  let conf := { conf with process_worker := ← asText (← node.get (ascii "process_worker")) }
  let conf := { conf with args := ← toStringMap y (asTextOr [] (← node.get (ascii "args"))) }
  match ← node.get (ascii "address") with
  | none => return conf
  | some address =>
    let address ← (← address.elements (digits 10)).mapM asText
    return { conf with address := address }

def toTcpServerConf (v : List UInt8) : Except Exception TcpServerConf := do treeToTcpServerConf y (← y.load v)

end LexicalCast

/-! ## Numbers are read back -/

theorem readDigits_eq {base : ℕ} {ds : List UInt8} (h : ∀ c ∈ ds, (digitValue base c).isSome = true) (n : ℕ) :
    readDigits base n ds = ds.foldl (fun v c => v * base + (digitValue base c).getD 0) n := by
  induction ds generalizing n with
  | nil => rfl
  | cons c ds ih =>
    obtain ⟨hc, hds⟩ := List.forall_mem_cons.mp h
    obtain ⟨d, hd⟩ := Option.isSome_iff_exists.mp hc
    rw [readDigits, hd, List.foldl_cons, hd]
    exact ih hds _

theorem readDigits_digits (n : ℕ) : readDigits 10 0 (digits 10 n) = n := by
  rw [readDigits_eq (forall_mem_digits (by decide) (by decide) n)]
  exact foldl_digits (fun c => (digitValue 10 c).getD 0) (by decide) (by decide) n

theorem wholeDigits_digits (n : ℕ) : wholeDigits 10 (digits 10 n) = some n := by
  have hall : ∀ c ∈ digits 10 n, (digitValue 10 c).isSome = true := forall_mem_digits (by decide) (by decide) n
  have hread : (digits 10 n).takeWhile (fun c => (digitValue 10 c).isSome) = digits 10 n :=
    List.takeWhile_eq_self_iff.mpr hall
  have hdrop : (digits 10 n).dropWhile (fun c => (digitValue 10 c).isSome) = [] := List.dropWhile_eq_nil_iff.mpr hall
  simp only [wholeDigits, hread, hdrop]
  rw [if_neg digits_ne_nil, List.all_nil, if_pos rfl, readDigits_digits]

/-- Without a zero in front the base is ten. -/
theorem wholeNumber_digits (n : ℕ) : wholeNumber (digits 10 n) = some n ∧
    (digits 10 n).head? ≠ some 45 ∧ (digits 10 n).head? ≠ some 43 := by
  rcases Nat.eq_zero_or_pos n with rfl | hn
  · exact ⟨wholeDigits_digits 0, by decide, by decide⟩
  · obtain ⟨d, ds, hds, hpos, hlt⟩ := digits_head (show 1 < 10 by decide) hn
    have hfirst : ∀ d < 10, 0 < d → ofDigit d ≠ 48 ∧ ofDigit d ≠ 45 ∧ ofDigit d ≠ 43 := by decide
    obtain ⟨hzero, hminus, hplus⟩ := hfirst d hlt hpos
    have hwhole := wholeDigits_digits n
    rw [hds] at hwhole ⊢
    refine ⟨?_, fun h => hminus (Option.some.inj h), fun h => hplus (Option.some.inj h)⟩
    unfold wholeNumber
    split
    · rename_i heq
      exact absurd (List.cons.inj heq).1 hzero
    · rename_i heq
      exact absurd (List.cons.inj heq).1 hzero
    · rename_i heq
      exact absurd (List.cons.inj heq).1 hzero
    · exact hwhole

theorem textInt_intText (n : Int32) : textInt (intText n) = some n := by
  obtain ⟨hread, hminus, hplus⟩ := wholeNumber_digits n.toInt.natAbs
  have hsigned : signedNumber (intText n) = some n.toInt := by
    by_cases hneg : n.toInt < 0
    · have habs : -((n.toInt.natAbs : ℕ) : ℤ) = n.toInt := by omega
      rw [intText, if_pos hneg, signedNumber, hread, Option.map_some, habs]
    · have habs : Int.ofNat n.toInt.natAbs = n.toInt := by
        rw [Int.ofNat_eq_natCast]
        omega
      rw [intText, if_neg hneg]
      unfold signedNumber
      split
      · rename_i heq
        rw [heq] at hminus
        exact absurd rfl hminus
      · rename_i heq
        rw [heq] at hplus
        exact absurd rfl hplus
      · rw [hread, Option.map_some, habs]
  rw [textInt, hsigned, Option.bind_some, if_pos ⟨n.le_toInt, n.toInt_lt⟩, Int32.ofInt_toInt]

@[simp] theorem asIntOr_intText (fallback n : Int32) : asIntOr fallback (some (scalar (intText n))) = n := by
  rw [asIntOr, textInt_intText]
  rfl

/-! ## The round trip -/

namespace LexicalCast
variable {y : Library (List UInt8)} {c : TcpServerConf} {args : Yaml (List UInt8)}

theorem mapM_asText (ts : List (List UInt8)) : (ts.map fun t => some (scalar t)).mapM asText = .ok ts := by
  induction ts with
  | nil => rfl
  | cons t ts ih =>
    rw [List.map_cons, List.mapM_cons, ih]
    rfl

/-- All fields but the arguments are read as they were written. -/
theorem treeToTcpServerConf_confNode (c : TcpServerConf) (args : Yaml (List UInt8)) :
    treeToTcpServerConf y (confNode c args) =
      do return { c with args := ← toStringMap y (asTextOr [] (some args)) } := by
  have hid : (confNode c args).get (ascii "id") = .ok (some (scalar c.id)) := rfl
  have htype : (confNode c args).get (ascii "type") = .ok (some (scalar c.type)) := rfl
  have hname : (confNode c args).get (ascii "name") = .ok (some (scalar c.name)) := rfl
  have hkeepalive : (confNode c args).get (ascii "keepalive") = .ok (some (scalar (intText c.keepalive))) := rfl
  have htimeout : (confNode c args).get (ascii "timeout") = .ok (some (scalar (intText c.timeout))) := rfl
  have hssl : (confNode c args).get (ascii "ssl") = .ok (some (scalar (intText c.ssl))) := rfl
  have hcert : (confNode c args).get (ascii "cert_file") = .ok (some (scalar c.cert_file)) := rfl
  have hkey : (confNode c args).get (ascii "key_file") = .ok (some (scalar c.key_file)) := rfl
  have haccept : (confNode c args).get (ascii "accept_worker") = .ok (some (scalar c.accept_worker)) := rfl
  have hio : (confNode c args).get (ascii "io_worker") = .ok (some (scalar c.io_worker)) := rfl
  have hprocess : (confNode c args).get (ascii "process_worker") = .ok (some (scalar c.process_worker)) := rfl
  have hargs : (confNode c args).get (ascii "args") = .ok (some args) := rfl
  have haddress : (confNode c args).get (ascii "address") =
      .ok (if c.address = [] then none else some (seq (c.address.map scalar))) := by
    have hlast : lookup (ascii "address") (fieldIf (c.address ≠ []) (ascii "address")
        (seq (c.address.map scalar))) = if c.address = [] then none else some (seq (c.address.map scalar)) := by
      rw [lookup_fieldIf]
      by_cases hnone : c.address = [] <;> simp [hnone]
    rw [confNode, get_mapOf, lookup_append, hlast]
    rfl
  simp only [treeToTcpServerConf, hid, htype, hname, hkeepalive, htimeout, hssl, hcert, hkey, haccept, hio, hprocess,
    hargs, haddress, ok_bind, asTextOr_scalar, asText_scalar, asIntOr_intText]
  refine bind_congr fun map => ?_
  by_cases hnone : c.address = []
  · rw [if_pos hnone, hnone]
  · have helements : (seq (c.address.map scalar)).elements (digits 10) =
        .ok (c.address.map fun t => some (scalar t)) := by
      rw [elements, List.map_map]
      rfl
    rw [if_neg hnone]
    simp only [helements, ok_bind, mapM_asText]

/-- A configuration comes back as it was. -/
def RoundTrips (y : Library (List UInt8)) (c : TcpServerConf) : Prop :=
  ∃ text, ofTcpServerConf y c = .ok text ∧ ∃ c', toTcpServerConf y text = .ok c' ∧ c'.eq c = true

theorem conf_eq_iff {c c' : TcpServerConf} : c'.eq c = true ↔ c' = c := by
  cases c
  cases c'
  simp only [TcpServerConf.eq, Bool.and_eq_true, beq_iff_eq, TcpServerConf.mk.injEq]
  tauto

/-- The node of the arguments is a map, which is no text. -/
theorem toStringMap_tree {n : Yaml (List UInt8)} (hempty : y.load [] = .ok .null)
    (hn : stringMapTree y c.args = .ok n) : toStringMap y (asTextOr [] (some n)) = .ok .empty := by
  have htext : asTextOr [] (some n) = ([] : List UInt8) := by
    rw [stringMapTree] at hn
    cases hfields : c.args.toList.mapM fun i => do return (i.1, ← y.load i.2) with
    | error e =>
      rw [hfields] at hn
      cases hn
    | ok fields =>
      rw [hfields] at hn
      cases hn
      rfl
  rw [htext, toStringMap, hempty]
  rfl

/-- It does exactly when there are no arguments: they are written as a map and read as a text. -/
theorem conf_round_trip_iff (hempty : y.load [] = .ok .null)
    (hargs : ∀ n, stringMapTree y c.args = .ok n → y.Reloads n) (hconf : ∀ n, confTree y c = .ok n → y.Reloads n) :
    RoundTrips y c ↔ c.args = .empty := by
  cases hn : stringMapTree y c.args with
  | error e =>
    have hfails : ofTcpServerConf y c = .error e := by
      rw [ofTcpServerConf, confTree, ofStringMap, hn]
      rfl
    refine iff_of_false ?_ ?_
    · rintro ⟨text, htext, -⟩
      rw [hfails] at htext
      cases htext
    · intro hnone
      rw [hnone] at hn
      cases hn
  | ok n =>
    have htree : confTree y c = .ok (confNode c n) := by
      rw [confTree, ofStringMap, hn]
      simp only [ok_bind, pure_bind]
      rw [hargs n hn]
      rfl
    have hwritten : ofTcpServerConf y c = .ok (y.print (confNode c n)) := by
      rw [ofTcpServerConf, htree]
      rfl
    have hread : toTcpServerConf y (y.print (confNode c n)) = .ok { c with args := .empty } := by
      rw [toTcpServerConf, hconf _ htree, ok_bind, treeToTcpServerConf_confNode, toStringMap_tree hempty hn]
      rfl
    have hself : ({ c with args := .empty } : TcpServerConf) = c ↔ c.args = .empty := by
      cases c
      simp [eq_comm]
    simp only [RoundTrips, hwritten, Except.ok.injEq, exists_eq_left', hread, conf_eq_iff, hself]

/-- A server with one address. -/
def localConf : TcpServerConf := { address := [ascii "127.0.0.1:8020"], id := ascii "local" }

/-- The library on `localConf`, whose text is put together from lines. -/
def localText : Library (List UInt8) where
  print
    | .map [] => ascii "\x7b\x7d"
    | _ => ["id: local", "type: http", "name: \"\"", "keepalive: 0", "timeout: 120000", "ssl: 0", "cert_file: \"\"",
        "key_file: \"\"", "accept_worker: \"\"", "io_worker: \"\"", "process_worker: \"\"", "args:\n  \x7b\x7d",
        "address:\n  - 127.0.0.1:8020"].flatMap fun line => ascii (line ++ "\n")
  load
    | [] => .ok .null
    | 123 :: _ => .ok (.map [])
    | _ => .ok (confNode localConf (.map []))

theorem conf_round_trip_iff_local : RoundTrips localText localConf ↔ localConf.args = .empty := by
  refine conf_round_trip_iff (y := localText) (c := localConf) rfl ?_ ?_
  · rintro n hn
    cases hn
    rfl
  · rintro n hn
    cases hn
    rfl

/-- A server with one argument. -/
def servletConf : TcpServerConf := { args := .insert .empty (ascii "servlet") (ascii "/") }

/-- The texts that are printed for it, and the trees that they are loaded as. -/
def servletLibrary : Library (List UInt8) where
  print
    | map [_] => ascii "servlet: /"
    | _ => ascii "args:\n  servlet: /"
  load
    | [] => .ok .null
    | [_] => .ok (scalar (ascii "/"))
    | 115 :: _ => .ok (mapOf [(ascii "servlet", scalar (ascii "/"))])
    | _ => .ok (confNode servletConf (mapOf [(ascii "servlet", scalar (ascii "/"))]))

/-- The arguments of a server are lost. -/
theorem args_lost : ¬ ∀ (y : Library (List UInt8)) (c : TcpServerConf), y.load [] = .ok .null →
    (∀ n, stringMapTree y c.args = .ok n → y.Reloads n) → (∀ n, confTree y c = .ok n → y.Reloads n) →
      RoundTrips y c := by
  intro h
  have hargs : ∀ n, stringMapTree servletLibrary servletConf.args = .ok n → servletLibrary.Reloads n := by
    rintro n hn
    cases hn
    rfl
  have hconf : ∀ n, confTree servletLibrary servletConf = .ok n → servletLibrary.Reloads n := by
    rintro n hn
    cases hn
    rfl
  obtain ⟨text, htext, c', hc', heq⟩ := h servletLibrary servletConf rfl hargs hconf
  cases htext
  cases hc'
  exact absurd heq (by decide)

end LexicalCast
end Flz
