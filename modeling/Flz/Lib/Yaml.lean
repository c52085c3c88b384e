import Mathlib.Data.List.Basic
import Mathlib.Tactic.Cases

/-! # Node trees

Trees of a YAML document over texts of some type: what can be asked of a node, and maps put together from their
fields. Printing and loading are left open.
-/
namespace Flz.Lib

/-- The keys of a map are nodes themselves. -/
inductive Yaml (α : Type)
  | null
  | scalar (text : α)
  | seq (items : List (Yaml α))
  | map (entries : List (Yaml α × Yaml α))

namespace Yaml

inductive Exception
  | parser
  | badSubscript
  | badConversion
  | invalidNode
  /-- One that the caller throws. -/
  | thrown (what : String)
  deriving DecidableEq, Repr

/-- A step that returns is followed by the next one. -/
@[simp] theorem ok_bind {ε β γ : Type} (b : β) (f : β → Except ε γ) : (Except.ok b >>= f) = f b := rfl

/-- Printing a tree and loading a text. -/
structure Library (α : Type) where
  print : Yaml α → α
  load : α → Except Exception (Yaml α)

/-- The tree is loaded from its own text. -/
def Library.Reloads {α : Type} (y : Library α) (n : Yaml α) : Prop := y.load (y.print n) = .ok n

variable {α : Type}

/-- `Scalar()`, which is empty for what is no scalar. -/
def Scalar [Inhabited α] : Yaml α → α
  | scalar text => text
  | _ => default

/-- `as<std::string>()` of a node that need not be defined. -/
def asText : Option (Yaml α) → Except Exception α
  | some (scalar text) => .ok text
  | _ => .error .badConversion

/-- `as<std::string>(fallback)`. -/
def asTextOr (fallback : α) : Option (Yaml α) → α
  | some (scalar text) => text
  | _ => fallback

@[simp] theorem asText_scalar (text : α) : asText (some (scalar text)) = .ok text := rfl

@[simp] theorem asTextOr_scalar (fallback text : α) : asTextOr fallback (some (scalar text)) = text := rfl

/-- The value of a key in the fields of a map. -/
def lookup [BEq α] (key : α) (fields : List (α × Yaml α)) : Option (Yaml α) :=
  (fields.find? (·.1 == key)).map Prod.snd

/-- `n[key]` of a defined node; `none` is not defined. -/
def get [BEq α] (n : Yaml α) (key : α) : Except Exception (Option (Yaml α)) :=
  match n with
  | scalar _ => .error .badSubscript
  | map entries => .ok ((entries.find? fun e => match e.1 with
    | scalar text => text == key
    | _ => false).map Prod.snd)
  | _ => .ok none

/-- `n[0]` to `n[n.size() - 1]`; in a map these are keys, with `index` as their texts. -/
def elements [BEq α] (index : ℕ → α) : Yaml α → Except Exception (List (Option (Yaml α)))
  | seq items => .ok (items.map some)
  | map entries => (List.range entries.length).mapM fun x => (map entries).get (index x)
  | _ => .ok []

/-- A map with texts as its keys. -/
def mapOf (fields : List (α × Yaml α)) : Yaml α := map (fields.map fun f => (scalar f.1, f.2))

/-- A field that is written under a condition. -/
def fieldIf (p : Prop) [Decidable p] (key : α) (n : Yaml α) : List (α × Yaml α) := if p then [(key, n)] else []

section
variable [BEq α] {key k : α} {n : Yaml α} {p : Prop} [Decidable p] {fields : List (α × Yaml α)}

@[simp] theorem get_mapOf : (mapOf fields).get key = .ok (lookup key fields) := by
  rw [mapOf, get, lookup, List.find?_map, Option.map_map]
  rfl

@[simp] theorem lookup_nil : lookup key ([] : List (α × Yaml α)) = none := rfl

@[simp] theorem lookup_append (gs : List (α × Yaml α)) :
    lookup key (fields ++ gs) = (lookup key fields).or (lookup key gs) := by
  rw [lookup, List.find?_append, Option.map_or]
  rfl

@[simp] theorem lookup_cons : lookup key ((k, n) :: fields) = if k == key then some n else lookup key fields := by
  rw [lookup, List.find?_cons]
  split <;> simp_all [lookup]

@[simp] theorem lookup_fieldIf :
    lookup key (fieldIf p k n) = if p ∧ (k == key) = true then some n else none := by
  rw [fieldIf]
  by_cases h : p <;> simp [h]

end
end Yaml
end Flz.Lib
