import Mathlib.Data.List.AList

/-! # Indexes

A map with an index, which has the entries of the map once more under what a function says of
their values.
-/
namespace Flz.Lib

/-- A map in which every key has one value. -/
abbrev Dict (κ ν : Type) := AList fun _ : κ => ν

namespace Index
variable {κ τ ν : Type} [DecidableEq κ] [DecidableEq τ]

/-- What the index has under `t` and a key. -/
def find (s : Dict τ (Dict κ ν)) (t : τ) (k : κ) : Option ν := (s.lookup t).bind (·.lookup k)

def put (t : τ) (k : κ) (v : ν) (s : Dict τ (Dict κ ν)) : Dict τ (Dict κ ν) :=
  s.insert t (((s.lookup t).getD ∅).insert k v)

/-- The key is taken out, and `t` with it when it was the last one. -/
def remove (t : τ) (k : κ) (s : Dict τ (Dict κ ν)) : Dict τ (Dict κ ν) :=
  let row := ((s.lookup t).getD ∅).erase k
  if row.entries.isEmpty then s.erase t else s.insert t row

/-- The values under `t`. -/
def values (s : Dict τ (Dict κ ν)) (t : τ) : List ν :=
  match s.lookup t with
  | none => []
  | some row => row.entries.map Sigma.snd

/-- The index has exactly the entries of the map, each under what `f` says of its value. -/
def Agrees (f : ν → τ) (p : Dict κ ν) (s : Dict τ (Dict κ ν)) : Prop :=
  ∀ t k v, find s t k = some v ↔ p.lookup k = some v ∧ f v = t

variable {f : ν → τ} {p : Dict κ ν} {s : Dict τ (Dict κ ν)} {t t' : τ} {k k' : κ} {v w : ν}

theorem find_eq_getD (s : Dict τ (Dict κ ν)) (t : τ) (k : κ) :
    find s t k = ((s.lookup t).getD ∅).lookup k := by
  cases h : s.lookup t <;> simp [find, h]

theorem find_put : find (put t k v s) t' k' = if t' = t ∧ k' = k then some v else find s t' k' := by
  by_cases ht : t' = t
  · subst ht
    by_cases hk : k' = k
    · subst hk
      simp [find, put]
    · simp [find, put, hk, AList.lookup_insert_ne hk, ← find_eq_getD]
  · simp [find, put, ht, AList.lookup_insert_ne ht]

theorem find_remove : find (remove t k s) t' k' = if t' = t ∧ k' = k then none else find s t' k' := by
  by_cases ht : t' = t
  · subst ht
    have hrow : find (remove t' k s) t' k' = (((s.lookup t').getD ∅).erase k).lookup k' := by
      rw [remove]
      split
      · rename_i hempty
        have hnone : ((s.lookup t').getD ∅).erase k = ∅ := AList.ext (List.isEmpty_iff.mp hempty)
        simp [find, hnone]
      · simp [find]
    rw [hrow]
    by_cases hk : k' = k
    · subst hk
      simp
    · simp [hk, AList.lookup_erase_ne hk, ← find_eq_getD]
  · rw [remove]
    split <;> simp [find, ht, AList.lookup_erase_ne ht, AList.lookup_insert_ne ht]

theorem agrees_empty : Agrees f (∅ : Dict κ ν) (∅ : Dict τ (Dict κ ν)) := by
  intro t k v
  simp [find]

/-- Putting an entry into both keeps them in agreement exactly when it does not replace one that
stands elsewhere in the index. -/
theorem Agrees.put_iff (h : Agrees f p s) :
    Agrees f (p.insert k v) (put (f v) k v s) ↔ ∀ w, p.lookup k = some w → f w = f v := by
  constructor
  · intro hput w hw
    by_contra hne
    have hold := (h (f w) k w).mpr ⟨hw, rfl⟩
    have hfind : find (put (f v) k v s) (f w) k = some w := by
      rw [find_put, if_neg (fun hsame => hne hsame.1)]
      exact hold
    obtain ⟨hlookup, -⟩ := (hput (f w) k w).mp hfind
    rw [AList.lookup_insert] at hlookup
    exact hne (congrArg f (Option.some.inj hlookup)).symm
  · intro hsame t k' w
    rw [find_put]
    by_cases hk : k' = k
    · subst hk
      rw [AList.lookup_insert]
      by_cases ht : t = f v
      · subst ht
        simp only [and_self, if_true]
        exact ⟨fun heq => ⟨heq, by rw [Option.some.inj heq]⟩, fun heq => heq.1⟩
      · rw [if_neg (fun hboth => ht hboth.1), h]
        constructor
        · rintro ⟨hw, rfl⟩
          exact absurd (hsame w hw) ht
        · rintro ⟨heq, rfl⟩
          exact absurd (congrArg f (Option.some.inj heq)).symm ht
    · rw [if_neg (fun hboth => hk hboth.2), AList.lookup_insert_ne hk]
      exact h t k' w

theorem Agrees.remove (h : Agrees f p s) (hv : p.lookup k = some v) :
    Agrees f (p.erase k) (remove (f v) k s) := by
  intro t k' w
  rw [find_remove]
  by_cases hk : k' = k
  · subst hk
    rw [AList.lookup_erase]
    by_cases ht : t = f v
    · simp [ht]
    · rw [if_neg (fun hboth => ht hboth.1), h]
      constructor
      · rintro ⟨hw, rfl⟩
        obtain rfl := Option.some.inj (hv.symm.trans hw)
        exact absurd rfl ht
      · rintro ⟨hnone, -⟩
        cases hnone
  · rw [if_neg (fun hboth => hk hboth.2), AList.lookup_erase_ne hk]
    exact h t k' w

theorem mem_entries {m : Dict κ ν} : ⟨k, v⟩ ∈ m.entries ↔ m.lookup k = some v := AList.mem_lookup_iff.symm

theorem mem_values : v ∈ values s t ↔ ∃ k, find s t k = some v := by
  cases h : s.lookup t with
  | none => simp [values, find, h]
  | some row =>
    simp only [values, find, h, List.mem_map, Option.bind_some]
    constructor
    · rintro ⟨⟨k, w⟩, hmem, rfl⟩
      exact ⟨k, mem_entries.mp hmem⟩
    · rintro ⟨k, hk⟩
      exact ⟨⟨k, v⟩, mem_entries.mpr hk, rfl⟩

/-- Values that tell their keys stand in a row once. -/
theorem values_nodup {key : ν → κ} (h : ∀ k v, find s t k = some v → key v = k) : (values s t).Nodup := by
  cases hrow : s.lookup t with
  | none => simp [values, hrow]
  | some row =>
    simp only [values, hrow]
    have hkey : ∀ e ∈ row.entries, key e.2 = e.1 := by
      rintro ⟨k, v⟩ he
      refine h k v ?_
      simp only [find, hrow, Option.bind_some]
      exact mem_entries.mp he
    have hnodup : ((row.entries.map Sigma.snd).map key).Nodup := by
      have hkeys : (row.entries.map Sigma.snd).map key = row.keys := by
        rw [List.map_map]
        exact List.map_congr_left hkey
      rw [hkeys]
      exact row.keys_nodup
    exact List.Nodup.of_map key hnodup

end Index
end Flz.Lib
