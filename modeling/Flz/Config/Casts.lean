import Flz.Lib.Results
import Flz.TcpServer.Conf

/-! # Casts of containers

The casts of `include/config.h` between YAML and `std::vector`, `std::list`, `std::set`, `std::unordered_set`,
`std::map` and `std::unordered_map`, for any type of the elements that has casts, and those of `bool`.
-/
namespace Flz
open Lib Yaml Digits Http OrderedMap

/-- `LexicalCast<std::string, T>` and `LexicalCast<T, std::string>`. -/
structure Casts (T : Type) where
  fromStr : List UInt8 → Except Exception T
  toStr : T → Except Exception (List UInt8)

namespace Casts
variable (y : Library (List UInt8)) {T C : Type}

/-! ## The casts -/

/-- `LexicalCast<std::string, bool>` and `LexicalCast<bool, std::string>`; `boost` is what is left to
`boost::lexical_cast`. -/
def bool (boost : List UInt8 → Except Exception Bool) : Casts Bool where
  fromStr v :=
    let str := v.map tolower
    if str = ascii "1" ∨ str = ascii "true" ∨ str = ascii "yes" ∨ str = ascii "on" then .ok true
    else if str = ascii "0" ∨ str = ascii "false" ∨ str = ascii "no" ∨ str = ascii "off" ∨ str = [] then .ok false
    else boost v
  toStr v := .ok (if v then ascii "true" else ascii "false")

/-- `boost::lexical_cast` between texts. -/
def string : Casts (List UInt8) := ⟨.ok, .ok⟩

/-- `ss << node[i]`; nothing is printed for a node that is not defined. -/
def printed : Option (Yaml (List UInt8)) → List UInt8
  | some n => y.print n
  | none => []

/-- `YAML::Load(LexicalCast<T, std::string>()(i))`. -/
def node (c : Casts T) (i : T) : Except Exception (Yaml (List UInt8)) := do y.load (← c.toStr i)

/-- The loop over `node[i]`. -/
def readItems (c : Casts T) (node : Yaml (List UInt8)) : Except Exception (List T) := do
  (← node.elements (digits 10)).mapM fun i => c.fromStr (printed y i)

/-- The loop over the iterators of `node`, which have no keys and no values in a sequence. -/
def readEntries (c : Casts T) : Yaml (List UInt8) → Except Exception (List (List UInt8 × T))
  | .map entries => entries.mapM fun it => do return (it.1.Scalar, ← c.fromStr (y.print it.2))
  | .seq (_ :: _) => .error .invalidNode
  | _ => .ok []

/-- The loop with `push_back`. -/
def sequenceNode (c : Casts T) (v : List T) : Except Exception (Yaml (List UInt8)) := do
  return .seq (← v.mapM (node y c))

/-- The loop with `node[i.first] =`. -/
def mappingNode (c : Casts T) (v : List (List UInt8 × T)) : Except Exception (Yaml (List UInt8)) := do
  return mapOf (← v.mapM fun i => do return (i.1, ← node y c i.2))

/-- The casts of a container of elements: what the loop over it meets, and what the loop over `node[i]` makes of the
elements that it reads. -/
def sequence (items : C → List T) (ofItems : List T → C) (c : Casts T) : Casts C where
  fromStr v := do return ofItems (← readItems y c (← y.load v))
  toStr v := do return y.print (← sequenceNode y c (items v))

/-- The casts of a container of entries. -/
def mapping (items : C → List (List UInt8 × T)) (ofItems : List (List UInt8 × T) → C) (c : Casts T) : Casts C where
  fromStr v := do return ofItems (← readEntries y c (← y.load v))
  toStr v := do return y.print (← mappingNode y c (items v))

/-- `std::vector<T>`. -/
def vector (c : Casts T) : Casts (List T) := sequence y id id c

/-- `std::list<T>`. -/
def list (c : Casts T) : Casts (List T) := sequence y id id c

/-- `insert` of one element after the other. -/
def ofElements {cmp : T → T → Ordering} [Std.TransCmp cmp] (is : List T) : Map Unit cmp :=
  .ofList (is.map fun i => (i, ()))

/-- `std::set<T>`, for any order of the elements. -/
def set (cmp : T → T → Ordering) [Std.TransCmp cmp] (c : Casts T) : Casts (Map Unit cmp) :=
  sequence y (fun s => s.toList.map Prod.fst) ofElements c

/-- `std::unordered_set<T>`, which the loop goes over in some order; `cmp` only tells which elements are the same. -/
def unordered_set (cmp : T → T → Ordering) [Std.TransCmp cmp] (order : Map Unit cmp → List (T × Unit)) (c : Casts T) :
    Casts (Map Unit cmp) :=
  sequence y (fun s => (order s).map Prod.fst) ofElements c

/-- `std::map<std::string, T>`. -/
def map (c : Casts T) : Casts (Map T (compare (α := List UInt8))) := mapping y Map.toList .ofList c

/-- `std::unordered_map<std::string, T>`. -/
def unordered_map (order : Map T (compare (α := List UInt8)) → List (List UInt8 × T)) (c : Casts T) :
    Casts (Map T (compare (α := List UInt8))) :=
  mapping y order .ofList c

/-! ## What comes back -/

/-- `w` is read of the node that `v` is written as. -/
def Reads (c : Casts T) (v w : T) : Prop := ∃ n, node y c v = .ok n ∧ c.fromStr (y.print n) = .ok w

/-- `w` is read of the text that `v` is written as. -/
def Returns (c : Casts T) (v w : T) : Prop := ∃ text, c.toStr v = .ok text ∧ c.fromStr text = .ok w

/-- Entries with the same key. -/
def Keyed {α β : Type} (R : α → β → Prop) (e : List UInt8 × α) (f : List UInt8 × β) : Prop := e.1 = f.1 ∧ R e.2 f.2

/-- A type that is put together from others with containers. -/
inductive Shape : {T : Type} → Casts T → Type 1
  | part {T : Type} (c : Casts T) : Shape c
  | sequence {T C : Type} {c : Casts T} (items : C → List T) (ofItems : List T → C) (h : ∀ v, ofItems (items v) = v)
    (s : Shape c) : Shape (sequence y items ofItems c)
  | mapping {T C : Type} {c : Casts T} (items : C → List (List UInt8 × T)) (ofItems : List (List UInt8 × T) → C)
    (h : ∀ v, ofItems (items v) = v) (s : Shape c) : Shape (mapping y items ofItems c)

namespace Shape
variable {y} {c : Casts T}

def vector (s : Shape y c) : Shape y (vector y c) := .sequence id id (fun _ => rfl) s

def list (s : Shape y c) : Shape y (list y c) := .sequence id id (fun _ => rfl) s

/-- A set is put together again from its elements, in whatever order. -/
theorem ofElements_perm {cmp : T → T → Ordering} [Std.TransCmp cmp] {v : Map Unit cmp} {es : List (T × Unit)}
    (h : es.Perm v.toList) : ofElements (es.map Prod.fst) = v := by
  rw [ofElements, List.map_map]
  exact Map.ofList_perm ((List.map_id es).symm ▸ h)

def set (cmp : T → T → Ordering) [Std.TransCmp cmp] (s : Shape y c) : Shape y (set y cmp c) :=
  .sequence _ _ (fun v => ofElements_perm (List.Perm.refl v.toList)) s

def unordered_set (cmp : T → T → Ordering) [Std.TransCmp cmp] {order : Map Unit cmp → List (T × Unit)}
    (horder : ∀ v, (order v).Perm v.toList) (s : Shape y c) : Shape y (unordered_set y cmp order c) :=
  .sequence _ _ (fun v => ofElements_perm (horder v)) s

def map (s : Shape y c) : Shape y (map y c) := .mapping _ _ (fun v => Map.ofList_perm (List.Perm.refl v.toList)) s

def unordered_map {order : Map T (compare (α := List UInt8)) → List (List UInt8 × T)}
    (horder : ∀ v, (order v).Perm v.toList) (s : Shape y c) : Shape y (unordered_map y order c) :=
  .mapping _ _ (fun v => Map.ofList_perm (horder v)) s

/-- What comes back of a container is put together from what comes back of its elements. -/
def Back : {T : Type} → {c : Casts T} → Shape y c → T → T → Prop
  | _, _, part c => Reads y c
  | _, _, .sequence items ofItems _ s => fun v w => ∃ is, List.Forall₂ s.Back (items v) is ∧ w = ofItems is
  | _, _, .mapping items ofItems _ s => fun v w =>
    ∃ is, List.Forall₂ (Keyed s.Back) (items v) is ∧ w = ofItems is

/-- The nodes of the container and of those in it are loaded from their own texts. -/
def Reloads : {T : Type} → {c : Casts T} → Shape y c → T → Prop
  | _, _, part _ => fun _ => True
  | _, _, .sequence (c := c) items _ _ s => fun v =>
    (∀ i ∈ items v, s.Reloads i) ∧ ∀ n, sequenceNode y c (items v) = .ok n → y.Reloads n
  | _, _, .mapping (c := c) items _ _ s => fun v =>
    (∀ e ∈ items v, s.Reloads e.2) ∧ ∀ n, mappingNode y c (items v) = .ok n → y.Reloads n

/-- Not a mere part. -/
def Container : {T : Type} → {c : Casts T} → Shape y c → Prop
  | _, _, part _ => False
  | _, _, _ => True

/-- Each part comes back as it is. -/
def Whole : {T : Type} → {c : Casts T} → Shape y c → T → Prop
  | _, _, part c => fun v => Reads y c v v
  | _, _, .sequence items _ _ s => fun v => ∀ i ∈ items v, s.Whole i
  | _, _, .mapping items _ _ s => fun v => ∀ e ∈ items v, s.Whole e.2

end Shape

/-! ## One container -/

section
variable {y} {c : Casts T} {v w : C} {n : Yaml (List UInt8)}

/-- What comes back of a container whose node is loaded from its own text is made of the items that are read of it,
whether the text is put into another node or not. -/
theorem reads_printed {d : Casts C} {ι : Type} {m : Except Exception (Yaml (List UInt8))}
    {read : Yaml (List UInt8) → Except Exception ι} {f : ι → C} (htext : d.toStr v = do return y.print (← m))
    (hread : ∀ text, d.fromStr text = do return f (← read (← y.load text))) (h : ∀ n, m = .ok n → y.Reloads n) :
    (Reads y d v w ↔ ∃ n is, m = .ok n ∧ read n = .ok is ∧ w = f is) ∧ (Returns d v w ↔ Reads y d v w) := by
  rw [Reads, Returns, node, htext]
  cases m with
  | error e =>
    have hnot : ∀ {α : Type} {a : α}, (Except.error e : Except Exception α) ≠ .ok a := fun h => by cases h
    refine ⟨iff_of_false ?_ ?_, iff_of_false ?_ ?_⟩
    · rintro ⟨n, hn, -⟩
      exact hnot hn
    · rintro ⟨n, is, hn, -⟩
      exact hnot hn
    · rintro ⟨text, htext, -⟩
      exact hnot htext
    · rintro ⟨n, hn, -⟩
      exact hnot hn
  | ok n =>
    have hload : y.load (y.print n) = .ok n := h n rfl
    have hfrom : d.fromStr (y.print n) = .ok w ↔ ∃ is, read n = .ok is ∧ w = f is := by
      rw [hread, hload, ok_bind, Results.bind_eq_ok]
      exact exists_congr fun is => and_congr Iff.rfl ⟨fun hw => (Except.ok.inj hw).symm, fun hw => congrArg Except.ok hw.symm⟩
    refine ⟨?_, ?_⟩
    · constructor
      · rintro ⟨n', hn', hw⟩
        obtain rfl := Except.ok.inj (hload.symm.trans hn')
        obtain ⟨is, his, hw⟩ := hfrom.mp hw
        exact ⟨n, is, rfl, his, hw⟩
      · rintro ⟨n', is, hn', his, hw⟩
        cases hn'
        exact ⟨n, hload, hfrom.mpr ⟨is, his, hw⟩⟩
    · constructor
      · rintro ⟨text, htext, hw⟩
        cases htext
        exact ⟨n, hload, hw⟩
      · rintro ⟨n', hn', hw⟩
        obtain rfl := Except.ok.inj (hload.symm.trans hn')
        exact ⟨y.print n, rfl, hw⟩

theorem sequenceNode_eq_ok {is : List T} :
    sequenceNode y c is = .ok n ↔ ∃ ns, List.Forall₂ (fun i n => node y c i = .ok n) is ns ∧ seq ns = n := by
  rw [sequenceNode, Results.bind_eq_ok]
  exact exists_congr fun ns => and_congr Results.mapM_eq_ok ⟨Except.ok.inj, congrArg Except.ok⟩

theorem readItems_seq {ns : List (Yaml (List UInt8))} {is : List T} :
    readItems y c (seq ns) = .ok is ↔ List.Forall₂ (fun n i => c.fromStr (y.print n) = .ok i) ns is := by
  rw [readItems, elements, ok_bind, Results.mapM_eq_ok, List.forall₂_map_left_iff]
  rfl

/-- What comes back of the elements comes back in their container. -/
theorem reads_sequence {items : C → List T} {ofItems : List T → C}
    (h : ∀ n, sequenceNode y c (items v) = .ok n → y.Reloads n) :
    (Reads y (sequence y items ofItems c) v w ↔ ∃ is, List.Forall₂ (Reads y c) (items v) is ∧ w = ofItems is) ∧
      (Returns (sequence y items ofItems c) v w ↔ Reads y (sequence y items ofItems c) v w) := by
  obtain ⟨hreads, hreturns⟩ := reads_printed (d := sequence y items ofItems c) (w := w) rfl (fun _ => rfl) h
  refine ⟨hreads.trans ?_, hreturns⟩
  constructor
  · rintro ⟨n, is, hn, his, rfl⟩
    obtain ⟨ns, hns, rfl⟩ := sequenceNode_eq_ok.mp hn
    exact ⟨is, Results.forall₂_comp.mp ⟨ns, hns, readItems_seq.mp his⟩, rfl⟩
  · rintro ⟨is, his, rfl⟩
    obtain ⟨ns, hns, hback⟩ := Results.forall₂_comp.mpr his
    exact ⟨seq ns, is, sequenceNode_eq_ok.mpr ⟨ns, hns, rfl⟩, readItems_seq.mpr hback, rfl⟩

/-- A key with what a step makes of its value. -/
theorem keyed_eq_ok {α β : Type} {f : α → Except Exception β} {e : List UInt8 × α} {e' : List UInt8 × β} :
    (do return (e.1, ← f e.2) : Except Exception (List UInt8 × β)) = .ok e' ↔ Keyed (fun a b => f a = .ok b) e e' := by
  cases e' with
  | mk key b =>
    rw [Results.bind_eq_ok]
    constructor
    · rintro ⟨b', hb', heq⟩
      cases heq
      exact ⟨rfl, hb'⟩
    · rintro ⟨rfl, hb⟩
      exact ⟨b, hb, rfl⟩

theorem keyed_comp {α β γ : Type} (R : α → β → Prop) (S : β → γ → Prop) :
    Relation.Comp (Keyed R) (Keyed S) = Keyed (Relation.Comp R S) := by
  funext e f
  refine propext ⟨?_, ?_⟩
  · rintro ⟨⟨key, b⟩, ⟨hkey, hab⟩, hkey', hbc⟩
    exact ⟨hkey.trans hkey', b, hab, hbc⟩
  · rintro ⟨hkey, b, hab, hbc⟩
    exact ⟨(e.1, b), ⟨rfl, hab⟩, hkey, hbc⟩

theorem mappingNode_eq_ok {es : List (List UInt8 × T)} : mappingNode y c es = .ok n ↔
    ∃ fields, List.Forall₂ (Keyed fun i n => node y c i = .ok n) es fields ∧ mapOf fields = n := by
  rw [mappingNode, Results.bind_eq_ok]
  simp only [Results.mapM_eq_ok, keyed_eq_ok]
  exact exists_congr fun fields => and_congr Iff.rfl ⟨Except.ok.inj, congrArg Except.ok⟩

theorem readEntries_mapOf {fields : List (List UInt8 × Yaml (List UInt8))} {is : List (List UInt8 × T)} :
    readEntries y c (mapOf fields) = .ok is ↔
      List.Forall₂ (Keyed fun n i => c.fromStr (y.print n) = .ok i) fields is := by
  rw [mapOf, readEntries, Results.mapM_eq_ok, List.forall₂_map_left_iff]
  simp only [Scalar, @keyed_eq_ok _ _ fun n => c.fromStr (y.print n)]

/-- What comes back of the values comes back under their keys. -/
theorem reads_mapping {items : C → List (List UInt8 × T)} {ofItems : List (List UInt8 × T) → C}
    (h : ∀ n, mappingNode y c (items v) = .ok n → y.Reloads n) :
    (Reads y (mapping y items ofItems c) v w ↔
        ∃ is, List.Forall₂ (Keyed (Reads y c)) (items v) is ∧ w = ofItems is) ∧
      (Returns (mapping y items ofItems c) v w ↔ Reads y (mapping y items ofItems c) v w) := by
  obtain ⟨hreads, hreturns⟩ := reads_printed (d := mapping y items ofItems c) (w := w) rfl (fun _ => rfl) h
  have hcomp : Relation.Comp (Keyed fun i n => node y c i = .ok n) (Keyed fun n i => c.fromStr (y.print n) = .ok i) =
      Keyed (Reads y c) := keyed_comp _ _
  refine ⟨hreads.trans ?_, hreturns⟩
  constructor
  · rintro ⟨n, is, hn, his, rfl⟩
    obtain ⟨fields, hfields, rfl⟩ := mappingNode_eq_ok.mp hn
    exact ⟨is, hcomp ▸ Results.forall₂_comp.mp ⟨fields, hfields, readEntries_mapOf.mp his⟩, rfl⟩
  · rintro ⟨is, his, rfl⟩
    rw [← hcomp] at his
    obtain ⟨fields, hfields, hback⟩ := Results.forall₂_comp.mpr his
    exact ⟨mapOf fields, is, mappingNode_eq_ok.mpr ⟨fields, hfields, rfl⟩, readEntries_mapOf.mpr hback, rfl⟩

end

/-! ## All of them -/

section
variable {y} {c : Casts T}

/-- A pass over a list, where its elements are known. -/
theorem forall₂_congr {α β : Type} {R S : α → β → Prop} {l : List α} {is : List β} (h : ∀ a ∈ l, ∀ b, R a b ↔ S a b) :
    List.Forall₂ R l is ↔ List.Forall₂ S l is := by
  induction l generalizing is with
  | nil => rw [List.forall₂_nil_left_iff, List.forall₂_nil_left_iff]
  | cons a l ih =>
    obtain ⟨ha, hl⟩ := List.forall_mem_cons.mp h
    rw [List.forall₂_cons_left_iff, List.forall₂_cons_left_iff]
    exact exists_congr fun b => exists_congr fun bs => and_congr (ha b) (and_congr (ih hl) Iff.rfl)

/-- What is read of the node of a value, with containers in each other to any depth. -/
theorem Shape.reads_iff (s : Shape y c) {v : T} (h : s.Reloads v) (w : T) : Reads y c v w ↔ s.Back v w := by
  induction s with
  | part c => exact Iff.rfl
  | sequence items ofItems hitems s ih =>
    refine (reads_sequence h.2).1.trans (exists_congr fun is => and_congr ?_ Iff.rfl)
    exact forall₂_congr fun i hi w => ih (h.1 i hi) w
  | mapping items ofItems hitems s ih =>
    refine (reads_mapping h.2).1.trans (exists_congr fun is => and_congr ?_ Iff.rfl)
    exact forall₂_congr fun e he f => and_congr Iff.rfl (ih (h.1 e he) f.2)

/-- A container has the same of its own text as of its node. -/
theorem Shape.returns_iff (s : Shape y c) (hs : s.Container) {v : T} (h : s.Reloads v) (w : T) :
    Returns c v w ↔ Reads y c v w := by
  cases s with
  | part c => exact hs.elim
  | sequence items ofItems hitems s => exact (reads_sequence h.2).2
  | mapping items ofItems hitems s => exact (reads_mapping h.2).2

theorem Shape.back_of_whole (s : Shape y c) {v : T} (h : s.Whole v) : s.Back v v := by
  induction s with
  | part c => exact h
  | sequence items ofItems hitems s ih =>
    exact ⟨items v, List.forall₂_same.mpr fun i hi => ih (h i hi), (hitems v).symm⟩
  | mapping items ofItems hitems s ih =>
    exact ⟨items v, List.forall₂_same.mpr fun e he => ⟨rfl, ih (h e he)⟩, (hitems v).symm⟩

/-- What comes back of a value, with containers in each other to any depth, is put together from what comes back of
its parts, whether its text is put into a document or taken by itself; a value whose parts come back comes back. -/
theorem comes_back (s : Shape y c) {v : T} (h : s.Reloads v) :
    (∀ w, Reads y c v w ↔ s.Back v w) ∧ (s.Container → ∀ w, Returns c v w ↔ s.Back v w) ∧
      (s.Whole v → Reads y c v v) :=
  ⟨s.reads_iff h, fun hs w => (s.returns_iff hs h w).trans (s.reads_iff h w), fun hv =>
    (s.reads_iff h v).mpr (s.back_of_whole hv)⟩

end

/-! ## Maps of texts -/

/-- The map as it is in a `TcpServerConf`. -/
def ofStringMap (m : StringMap) : Map (List UInt8) (compare (α := List UInt8)) := ⟨m.toList, m.sorted⟩

/-- The two casts for the arguments of a server are those of `std::map` with the ones of texts. -/
theorem map_string (m : StringMap) (v : List UInt8) :
    (map y string).toStr (ofStringMap m) = LexicalCast.ofStringMap y m ∧
      (map y string).fromStr v = do return ofStringMap (← LexicalCast.toStringMap y v) := by
  refine ⟨rfl, ?_⟩
  have hinsert : ∀ (es : List (Yaml (List UInt8) × Yaml (List UInt8))) (m : StringMap),
      (ofStringMap (es.foldl (fun vec it => vec.insert it.1.Scalar (y.print it.2)) m)).toList =
        insertAll compare m.toList (es.map fun it => (it.1.Scalar, y.print it.2)) := by
    intro es
    induction es with
    | nil => exact fun _ => rfl
    | cons e es ih => exact fun m => ih (m.insert e.1.Scalar (y.print e.2))
  have hentries : ∀ es : List (Yaml (List UInt8) × Yaml (List UInt8)),
      readEntries y string (.map es) = .ok (es.map fun it => (it.1.Scalar, y.print it.2)) := by
    intro es
    rw [readEntries, Results.mapM_eq_ok, List.forall₂_map_right_iff]
    exact List.forall₂_same.mpr fun _ _ => rfl
  rw [map, mapping, LexicalCast.toStringMap]
  dsimp only
  cases y.load v with
  | error e => rfl
  | ok n =>
    cases n with
    | map es =>
      rw [ok_bind, ok_bind, hentries]
      exact congrArg Except.ok (Map.ext (hinsert es .empty).symm)
    | seq items => cases items <;> rfl
    | null => rfl
    | scalar text => rfl

/-! ## A map of vectors -/

def flags : Yaml (List UInt8) := seq [scalar (ascii "true"), scalar (ascii "false")]

/-- The library on a map with `flags` for its only value. -/
def flagsText : Library (List UInt8) where
  print
    | scalar text => text
    | seq _ => ascii "- true\n- false"
    | _ => ascii "keepalive:\n  - true\n  - false"
  load
    | 45 :: _ => .ok flags
    | 107 :: _ => .ok (mapOf [(ascii "keepalive", flags)])
    | text => .ok (scalar text)

def flagsShape : Shape flagsText (map flagsText (vector flagsText (bool fun _ => .error .badConversion))) :=
  .map (.vector (.part _))

theorem flagsShape_reloads : flagsShape.Reloads (.ofList [(ascii "keepalive", [true, false])]) := by
  refine ⟨fun e he => ?_, fun n hn => ?_⟩
  · obtain rfl := List.mem_singleton.mp he
    refine ⟨fun i hi => trivial, fun n hn => ?_⟩
    cases hn
    rfl
  · cases hn
    rfl

theorem comes_back_flags :
    Returns (map flagsText (vector flagsText (bool fun _ => .error .badConversion)))
      (.ofList [(ascii "keepalive", [true, false])]) (.ofList [(ascii "keepalive", [true, false])]) := by
  obtain ⟨hreads, hreturns, hwhole⟩ := comes_back flagsShape flagsShape_reloads
  refine (hreturns trivial _).mpr ((hreads _).mp (hwhole fun e he => ?_))
  obtain rfl := List.mem_singleton.mp he
  intro i hi
  cases i with
  | true => exact ⟨scalar (ascii "true"), rfl, rfl⟩
  | false => exact ⟨scalar (ascii "false"), rfl, rfl⟩

end Casts
end Flz
