import Mathlib.Data.List.Nodup
import Mathlib.Logic.Function.Basic

/-! # What a history leaves under its keys

Events that set or delete what is kept under a key: what the last one about a key has left, and the keys
that are set in the order in which they were set last.
-/
namespace Flz.Lib.History
variable {ε κ ν : Type*} [DecidableEq κ] (effect : ε → Option (κ × Option ν))

/-- What an event says of a key: a value, or that there is none any more. -/
def about (key : κ) (e : ε) : Option (Option ν) :=
  match effect e with
  | none => none
  | some (k, v) => if k = key then some v else none

/-- What the last event about a key has left. -/
def last (key : κ) (es : List ε) : Option ν := (es.reverse.findSome? (about effect key)).join

/-- The keys that are set, in the order in which they were set last. -/
def entries : List ε → List (κ × ν)
  | [] => []
  | e :: later =>
    (match effect e with
      | some (k, some v) => if later.any fun f => (about effect k f).isSome then [] else [(k, v)]
      | _ => []) ++ entries later

/-- A key is set behind all others, or deleted. -/
def moveToEnd (key : κ) (val : Option ν) (l : List (κ × ν)) : List (κ × ν) :=
  l.eraseP (fun e => e.1 = key) ++ (val.map (Prod.mk key)).toList

section
variable {effect} {e : ε} {es : List ε} {key k : κ} {val : Option ν} {l : List (κ × ν)}

theorem last_append_none (h : effect e = none) (key : κ) (es : List ε) :
    last effect key (es ++ [e]) = last effect key es := by
  simp [last, about, h]

theorem last_append_some (h : effect e = some (k, val)) (es : List ε) :
    (fun key => last effect key (es ++ [e])) = Function.update (fun key => last effect key es) k val := by
  funext key
  by_cases hkey : key = k
  · subst hkey
    simp [last, about, h]
  · simp [last, about, h, hkey, Ne.symm hkey]

theorem entries_append_none (h : effect e = none) (es : List ε) :
    entries effect (es ++ [e]) = entries effect es := by
  induction es with
  | nil => simp [entries, h]
  | cons f es ih => simp [entries, ih, about, h]

theorem mem_entries {p : κ × ν} (h : p ∈ entries effect es) : ∃ e ∈ es, effect e = some (p.1, some p.2) := by
  induction es with
  | nil => cases h
  | cons f es ih =>
    rcases List.mem_append.mp h with h | h
    · split at h
      · rename_i k v heffect
        split at h
        · cases h
        · obtain rfl := List.mem_singleton.mp h
          exact ⟨f, List.mem_cons_self, heffect⟩
      · cases h
    · obtain ⟨e, he, heffect⟩ := ih h
      exact ⟨e, List.mem_cons_of_mem f he, heffect⟩

theorem entries_append_some (h : effect e = some (k, val)) (es : List ε) :
    entries effect (es ++ [e]) =
      (entries effect es).filter (fun p => p.1 ≠ k) ++ (val.map (Prod.mk k)).toList := by
  induction es with
  | nil => cases val <;> simp [entries, h]
  | cons f es ih =>
    rw [List.cons_append, entries, entries, ih, List.filter_append, List.append_assoc]
    congr 1
    split
    · rename_i k' v heffect
      by_cases hkey : k' = k
      · subst hkey
        have hlater : (es ++ [e]).any (fun g => (about effect k' g).isSome) = true := by
          simp [about, h]
        rw [if_pos hlater]
        split <;> simp
      · have hlater : (es ++ [e]).any (fun g => (about effect k' g).isSome) =
            es.any fun g => (about effect k' g).isSome := by
          simp [about, h, Ne.symm hkey]
        rw [hlater]
        split <;> simp [hkey]
    · rfl

theorem entries_nodup (effect : ε → Option (κ × Option ν)) (es : List ε) :
    ((entries effect es).map Prod.fst).Nodup := by
  induction es with
  | nil => exact List.nodup_nil
  | cons f es ih =>
    rw [entries, List.map_append]
    split
    · rename_i k v heffect
      split
      · exact ih
      · rename_i hlater
        refine List.nodup_cons.mpr ⟨fun hmem => hlater ?_, ih⟩
        obtain ⟨p, hp, hkey⟩ := List.mem_map.mp hmem
        obtain ⟨e, he, hset⟩ := mem_entries hp
        refine List.any_eq_true.mpr ⟨e, he, ?_⟩
        simp [about, hset, hkey]
    · exact ih

/-- Where keys occur once, the first entry with a key is the only one. -/
theorem eraseP_eq_filter (h : (l.map Prod.fst).Nodup) (key : κ) :
    l.eraseP (fun e => e.1 = key) = l.filter fun e => e.1 ≠ key := by
  induction l with
  | nil => rfl
  | cons p l ih =>
    obtain ⟨hp, hl⟩ := List.nodup_cons.mp h
    by_cases hkey : p.1 = key
    · have hall : l.filter (fun e => e.1 ≠ key) = l := by
        apply List.filter_eq_self.mpr
        intro e he
        have hne : e.1 ≠ key := by
          rintro rfl
          exact hp (hkey ▸ List.mem_map_of_mem he)
        simpa using hne
      rw [List.eraseP_cons_of_pos (by simpa using hkey), List.filter_cons_of_neg (by simpa using hkey), hall]
    · rw [List.eraseP_cons_of_neg (by simpa using hkey), List.filter_cons_of_pos (by simpa using hkey), ih hl]

/-- The list that is kept with `moveToEnd` is that of the history. -/
theorem entries_append (h : effect e = some (k, val)) (es : List ε) :
    entries effect (es ++ [e]) = moveToEnd k val (entries effect es) := by
  rw [entries_append_some h, moveToEnd, eraseP_eq_filter (entries_nodup effect es)]

end
end Flz.Lib.History
