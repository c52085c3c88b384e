import Flz.Http.Message
import Flz.Lib.Table
import Flz.Lib.Yaml
import Mathlib.Logic.Function.Basic

/-! # Loading the configuration

`Config::Lookup` of `include/config.h`, `ListAllMember` and `Config::LoadFromYaml` of `src/config.cc`.
-/
namespace Flz
open Lib Http

/-- `name.find_first_not_of(..) == std::string::npos`. -/
def ValidName (name : List UInt8) : Prop := ∀ c ∈ name, c ∈ ascii "abcdefghikjlmnopqrstuvwxyz._012345678"

/-- `[0-9a-z_.]`. -/
def DocumentedName (name : List UInt8) : Prop :=
  ∀ c ∈ name, 48 ≤ c ∧ c ≤ 57 ∨ 97 ≤ c ∧ c ≤ 122 ∨ c = 95 ∨ c = 46

instance : DecidablePred ValidName := fun name => inferInstanceAs (Decidable (∀ c ∈ name, _))
instance : DecidablePred DocumentedName := fun name => inferInstanceAs (Decidable (∀ c ∈ name, _))

/-- A variable, for any type of its value. -/
structure ConfigVarBase {τ : Type} (T : τ → Type) where
  m_name : List UInt8
  m_description : List UInt8
  type : τ
  m_val : T type

/-- The registered variables; only names from the alphabet get there. -/
structure Config {τ : Type} (T : τ → Type) where
  datas : List UInt8 → Option (ConfigVarBase T)
  valid : ∀ name var, datas name = some var → ValidName name

variable {τ : Type} {T : τ → Type} {t : τ}

/-- `ConfigVar(name, default_value, description)`. -/
def ConfigVarBase.new (name : List UInt8) (default_value : T t) (description : List UInt8) : ConfigVarBase T :=
  ⟨name.map tolower, description, t, default_value⟩

namespace Config

/-- `GetDatas()[name] = v`. -/
def register (g : Config T) (name : List UInt8) (h : ValidName name) (v : ConfigVarBase T) : Config T where
  datas := Function.update g.datas name (some v)
  valid n var hvar := by
    rw [Function.update_apply] at hvar
    split at hvar
    · rename_i heq
      exact heq ▸ h
    · exact g.valid n var hvar

/-- `Lookup(name, default_value, description)`, with the registered variables after it; the error is the argument
of `std::invalid_argument`. -/
def Lookup [DecidableEq τ] (g : Config T) (name : List UInt8) (default_value : T t) (description : List UInt8) :
    Except (List UInt8) (Config T × Option (ConfigVarBase T)) :=
  match g.datas name with
  | some tmp => .ok (g, if tmp.type = t then some tmp else none)
  | none =>
    if h : ValidName name then
      let v := ConfigVarBase.new name default_value description
      .ok (g.register name h v, some v)
    else .error name

/-- `prefix.empty() ? key : prefix + "." + key`. -/
def member (pre key : List UInt8) : List UInt8 := if pre = [] then key else pre ++ ascii "." ++ key

mutual

/-- What `ListAllMember` appends to `output`. -/
def ListAllMember (pre : List UInt8) (node : Yaml (List UInt8)) : List (List UInt8 × Yaml (List UInt8)) :=
  if ValidName pre then
    (pre, node) :: match node with
      | .map entries => ListEntries pre entries
      | _ => []
  else []

/-- Its loop over the entries of a map. -/
def ListEntries (pre : List UInt8) : List (Yaml (List UInt8) × Yaml (List UInt8)) →
    List (List UInt8 × Yaml (List UInt8))
  | [] => []
  | (key, node) :: entries => ListAllMember (member pre key.Scalar) node ++ ListEntries pre entries

end

/-- The argument of `fromString`. -/
def valueText (print : Yaml (List UInt8) → List UInt8) : Yaml (List UInt8) → List UInt8
  | .scalar text => text
  | node => print node

/-- `LoadFromYaml`: the calls of `fromString`, each with the name under which its variable is registered. -/
def LoadFromYaml (g : Config T) (print : Yaml (List UInt8) → List UInt8) (root : Yaml (List UInt8)) :
    List (List UInt8 × List UInt8) :=
  (ListAllMember [] root).filterMap fun i =>
    if i.1 = [] then none
    else (g.datas (i.1.map tolower)).map fun _ => (i.1.map tolower, valueText print i.2)

/-! ## The values of a document -/

mutual

/-- The values of a document, each with the keys that lead to it. -/
def members : Yaml (List UInt8) → List (List (List UInt8) × Yaml (List UInt8))
  | .map entries => entryMembers entries
  | _ => []

def entryMembers : List (Yaml (List UInt8) × Yaml (List UInt8)) → List (List (List UInt8) × Yaml (List UInt8))
  | [] => []
  | (key, node) :: entries =>
    ([key.Scalar], node) :: (members node).map (fun m => (key.Scalar :: m.1, m.2)) ++ entryMembers entries

end

/-- The keys with dots between them; empty ones in front leave none. -/
def dotted (keys : List (List UInt8)) : List UInt8 := (ascii ".").intercalate (keys.dropWhile (· = []))

/-- The values at a name. -/
def valuesAt (print : Yaml (List UInt8) → List UInt8) (root : Yaml (List UInt8)) (name : List UInt8) :
    List (List UInt8) :=
  ((members root).filter fun m => (dotted m.1).map tolower = name).map fun m => valueText print m.2

/-- A name gets registered, and every registered variable is called with its values. -/
structure Loads [DecidableEq τ] (g : Config T) (name : List UInt8) (default_value : T t) (description : List UInt8)
    (print : Yaml (List UInt8) → List UInt8) (root : Yaml (List UInt8)) : Prop where
  registers : ∃ g' var, g.Lookup name default_value description = .ok (g', var) ∧ (g'.datas name).isSome
  calls : ∀ var, (g.datas var).isSome →
    ((g.LoadFromYaml print root).filter (·.1 = var)).map Prod.snd = valuesAt print root var

/-! ## The names that the walk finds -/

theorem not_validName_foldl {pre : List UInt8} (h : ¬ ValidName pre) (keys : List (List UInt8)) :
    ¬ ValidName (keys.foldl member pre) := by
  induction keys generalizing pre with
  | nil => exact h
  | cons key keys ih =>
    refine ih fun hvalid => h fun c hc => hvalid c ?_
    rw [member, if_neg (List.ne_nil_of_mem hc), List.append_assoc]
    exact List.mem_append_left _ hc

theorem foldl_member {pre : List UInt8} (h : pre ≠ []) (keys : List (List UInt8)) :
    keys.foldl member pre = (ascii ".").intercalate (pre :: keys) := by
  induction keys generalizing pre with
  | nil => simp [List.intercalate]
  | cons key keys ih =>
    have hne : pre ++ ascii "." ++ key ≠ [] := by simp [h]
    rw [List.foldl_cons, member, if_neg h, ih hne]
    cases keys <;> simp [List.intercalate, List.intersperse]

/-- The name of a value is its keys with dots between them. -/
theorem foldl_member_nil (keys : List (List UInt8)) : keys.foldl member [] = dotted keys := by
  induction keys with
  | nil => rfl
  | cons key keys ih =>
    rw [List.foldl_cons, member, if_pos rfl, dotted, List.dropWhile_cons]
    by_cases hkey : key = []
    · rw [if_pos (by simpa using hkey), hkey]
      exact ih
    · rw [if_neg (by simpa using hkey)]
      exact foldl_member hkey keys

mutual

theorem ListAllMember_eq (pre : List UInt8) (node : Yaml (List UInt8)) : ListAllMember pre node =
    ((pre, node) :: (members node).map fun m => (m.1.foldl member pre, m.2)).filter (ValidName ·.1) := by
  have hcut : ¬ ValidName pre →
      ((members node).map fun m => (m.1.foldl member pre, m.2)).filter (ValidName ·.1) = [] := by
    intro h
    rw [List.filter_eq_nil_iff]
    rintro _ hm
    obtain ⟨m, -, rfl⟩ := List.mem_map.mp hm
    simpa using not_validName_foldl h m.1
  rw [ListAllMember.eq_def, List.filter_cons]
  by_cases h : ValidName pre
  · rw [if_pos h, if_pos (by simpa using h)]
    congr 1
    match node with
    | .map entries => exact ListEntries_eq pre entries
    | .null | .scalar _ | .seq _ => rfl
  · rw [if_neg h, if_neg (by simpa using h), hcut h]

theorem ListEntries_eq (pre : List UInt8) (entries : List (Yaml (List UInt8) × Yaml (List UInt8))) :
    ListEntries pre entries =
      ((entryMembers entries).map fun m => (m.1.foldl member pre, m.2)).filter (ValidName ·.1) := by
  match entries with
  | [] => rfl
  | (key, node) :: entries =>
    rw [ListEntries, ListAllMember_eq (member pre key.Scalar) node, ListEntries_eq pre entries, entryMembers,
      List.map_append, List.filter_append, List.map_cons, List.map_map]
    rfl

end

/-! ## Which values are loaded -/

@[simp] theorem validName_nil : ValidName [] := nofun

section
variable {g : Config T} {name : List UInt8} {print : Yaml (List UInt8) → List UInt8} {root : Yaml (List UInt8)}

/-- A registered name in capital letters is the only one that the walk does not accept. -/
theorem validName_iff {name : List UInt8} (h : ValidName (name.map tolower)) :
    ValidName name ↔ ∀ c ∈ name, tolower c = c := by
  have hbyte := forall_byte (p := fun c => decide (tolower c ∈ ascii "abcdefghikjlmnopqrstuvwxyz._012345678" →
    (c ∈ ascii "abcdefghikjlmnopqrstuvwxyz._012345678" ↔ tolower c = c))) (by decide +kernel)
  exact forall₂_congr fun c hc => of_decide_eq_true (hbyte c) (h _ (List.mem_map_of_mem hc))

theorem documentedName_validName_iff {name : List UInt8} (h : DocumentedName name) : ValidName name ↔ 57 ∉ name := by
  have hbyte := forall_byte (p := fun c => decide (48 ≤ c ∧ c ≤ 57 ∨ 97 ≤ c ∧ c ≤ 122 ∨ c = 95 ∨ c = 46 →
    (c ∈ ascii "abcdefghikjlmnopqrstuvwxyz._012345678" ↔ c ≠ 57))) (by decide +kernel)
  rw [ValidName, forall₂_congr fun c hc => of_decide_eq_true (hbyte c) (h c hc)]
  exact ⟨fun h hc => h 57 hc rfl, fun h c hc heq => h (heq ▸ hc)⟩

/-- A value is passed on if its name is not empty and the walk accepts it. -/
theorem calls_eq (hname : (g.datas name).isSome) :
    ((g.LoadFromYaml print root).filter (·.1 = name)).map Prod.snd =
      (((members root).filter fun m => (dotted m.1).map tolower = name).filter fun m =>
        dotted m.1 ≠ [] ∧ ValidName (dotted m.1)).map fun m => valueText print m.2 := by
  have hkept : g.LoadFromYaml print root = ((members root).filter fun m => ValidName (dotted m.1)).filterMap fun m =>
      if dotted m.1 = [] then none
      else (g.datas ((dotted m.1).map tolower)).map fun _ => ((dotted m.1).map tolower, valueText print m.2) := by
    rw [LoadFromYaml, ListAllMember_eq, List.filter_cons, if_pos (decide_eq_true validName_nil), List.filterMap_cons,
      if_pos rfl, List.filter_map, List.filterMap_map]
    simp only [Function.comp_def, foldl_member_nil]
  rw [hkept, List.filter_filter]
  induction members root with
  | nil => rfl
  | cons m ms ih =>
    rw [List.filter_cons, List.filter_cons]
    by_cases hvalid : ValidName (dotted m.1)
    · by_cases hempty : dotted m.1 = []
      · simpa [hempty] using ih
      · by_cases hat : (dotted m.1).map tolower = name
        · obtain ⟨var, hvar⟩ := Option.isSome_iff_exists.mp hname
          simpa [hvalid, hempty, hat, hvar] using ih
        · cases hvar : g.datas ((dotted m.1).map tolower) with
          | none => simpa [hvalid, hempty, hat, hvar] using ih
          | some var => simpa [hvalid, hempty, hat, hvar] using ih
    · simpa [hvalid] using ih

/-- The calls of a registered variable are its values exactly when none of these is left out. -/
theorem calls_iff (hname : (g.datas name).isSome) :
    ((g.LoadFromYaml print root).filter (·.1 = name)).map Prod.snd = valuesAt print root name ↔
      ∀ m ∈ members root, (dotted m.1).map tolower = name → dotted m.1 ≠ [] ∧ ∀ c ∈ dotted m.1, tolower c = c := by
  obtain ⟨var, hvar⟩ := Option.isSome_iff_exists.mp hname
  have hvalid := g.valid name var hvar
  have hall : (∀ m ∈ (members root).filter fun m => (dotted m.1).map tolower = name,
        decide (dotted m.1 ≠ [] ∧ ValidName (dotted m.1)) = true) ↔
      ∀ m ∈ members root, (dotted m.1).map tolower = name → dotted m.1 ≠ [] ∧ ∀ c ∈ dotted m.1, tolower c = c := by
    simp only [List.mem_filter, decide_eq_true_eq, and_imp]
    refine forall₂_congr fun m _ => forall_congr' fun hat => and_congr_right fun _ => ?_
    exact validName_iff (hat ▸ hvalid)
  rw [calls_eq hname, valuesAt, ← hall]
  constructor
  · intro h
    have hlength := congrArg List.length h
    rw [List.length_map, List.length_map] at hlength
    exact List.length_filter_eq_length_iff.mp hlength
  · intro h
    rw [List.filter_eq_self.mpr h]

theorem registers_iff [DecidableEq τ] {default_value : T t} {description : List UInt8} (hname : DocumentedName name) :
    (∃ g' var, g.Lookup name default_value description = .ok (g', var) ∧ (g'.datas name).isSome) ↔ 57 ∉ name := by
  rw [← documentedName_validName_iff hname]
  cases hvar : g.datas name with
  | some var =>
    refine iff_of_true ⟨g, if var.type = t then some var else none, ?_, ?_⟩ (g.valid name var hvar)
    · rw [Lookup, hvar]
    · rw [hvar]
      rfl
  | none =>
    by_cases h : ValidName name
    · let v := ConfigVarBase.new name default_value description
      refine iff_of_true ⟨g.register name h v, some v, ?_, ?_⟩ h
      · rw [Lookup, hvar]
        exact dif_pos h
      · simp [register]
    · refine iff_of_false ?_ h
      rintro ⟨g', var, hlookup, -⟩
      rw [Lookup, hvar] at hlookup
      simp [h] at hlookup

/-- Loading does what the documentation says exactly when the name has no `9`, and every value whose name, in small
letters, is registered has a name that is not empty and has no capital letter: the walk does not know the digit, and
compares before the letters are made small. -/
theorem loads_iff [DecidableEq τ] {default_value : T t} {description : List UInt8} (hname : DocumentedName name) :
    g.Loads name default_value description print root ↔
      57 ∉ name ∧ ∀ m ∈ members root, (g.datas ((dotted m.1).map tolower)).isSome →
        dotted m.1 ≠ [] ∧ ∀ c ∈ dotted m.1, tolower c = c := by
  constructor
  · rintro ⟨hregisters, hcalls⟩
    exact ⟨(registers_iff hname).mp hregisters, fun m hm hvar => (calls_iff hvar).mp (hcalls _ hvar) m hm rfl⟩
  · rintro ⟨hnine, hall⟩
    refine ⟨(registers_iff hname).mpr hnine, fun var hvar => (calls_iff hvar).mpr fun m hm hat => ?_⟩
    exact hall m hm (hat ▸ hvar)

end

set_option maxRecDepth 2000 in
/-- One variable, among those that are numbers. -/
def timeoutVariable : Config fun _ : Unit => ℕ :=
  register ⟨fun _ => none, nofun⟩ (ascii "tcp.timeout") (by decide) (.new (t := ()) (ascii "tcp.timeout") 5000 [])

/-- A document with one value, below two keys. -/
def document (outer inner : String) : Yaml (List UInt8) :=
  .map [(.scalar (ascii outer), .map [(.scalar (ascii inner), .scalar (ascii "100"))])]

set_option maxRecDepth 2000 in
theorem loads_iff_timeout :
    timeoutVariable.Loads (t := ()) (ascii "tcp.backlog") 16 [] (fun _ => []) (document "tcp" "timeout") ↔
      57 ∉ ascii "tcp.backlog" ∧ ∀ m ∈ members (document "tcp" "timeout"),
        (timeoutVariable.datas ((dotted m.1).map tolower)).isSome →
          dotted m.1 ≠ [] ∧ ∀ c ∈ dotted m.1, tolower c = c :=
  loads_iff (t := ()) (by decide)

set_option maxRecDepth 2000 in
/-- A key in capital letters is passed over. -/
theorem capital_key_ignored : ¬ ∀ {τ : Type} [DecidableEq τ] {T : τ → Type} {t : τ} (g : Config T) (name : List UInt8)
    (default_value : T t) (description : List UInt8) (print : Yaml (List UInt8) → List UInt8)
    (root : Yaml (List UInt8)), DocumentedName name → g.Loads name default_value description print root := by
  intro h
  have hloads := h (t := ()) timeoutVariable (ascii "tcp.timeout") 5000 [] (fun _ => [])
    (document "Tcp" "timeout") (by decide)
  have hcalls := hloads.calls (ascii "tcp.timeout") (by decide)
  exact absurd hcalls (by decide)

end Config
end Flz
