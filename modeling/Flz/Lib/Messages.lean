import Flz.Lib.Pieces

/-! # Messages one after the other

Each message arrives in pieces of its own: its sender waits for an answer before the next one.
-/
namespace Flz.Lib.Pieces
variable {α : Type*}

/-- The pieces of one sequence, then those of another. -/
def append (ps qs : Pieces α) : Pieces α where
  parts := ps.parts ++ qs.parts
  parts_ne p hp := (List.mem_append.mp hp).elim (ps.parts_ne p) (qs.parts_ne p)

def join (ms : List (Pieces α)) : Pieces α := ms.foldr append empty

@[simp] theorem join_nil : join ([] : List (Pieces α)) = empty := rfl

@[simp] theorem join_cons (m : Pieces α) (ms : List (Pieces α)) : join (m :: ms) = m.append (join ms) := rfl

@[simp] theorem flatten_append (ps qs : Pieces α) : (ps.append qs).flatten = ps.flatten ++ qs.flatten :=
  List.flatten_append

theorem flatten_join (ms : List (Pieces α)) : (join ms).flatten = (ms.map flatten).flatten := by
  induction ms with
  | nil => rfl
  | cons m ms ih => rw [join_cons, flatten_append, ih, List.map_cons, List.flatten_cons]

/-- A read takes nothing of the next message. -/
theorem next_of_append (n : ℕ) {ps : Pieces α} (hps : ps.parts ≠ []) (qs : Pieces α) :
    ((ps.append qs).next n).1 = (ps.next n).1 := by
  obtain ⟨p, rest, hp⟩ := List.exists_cons_of_ne_nil hps
  have happ : (ps.append qs).parts = p :: (rest ++ qs.parts) := by
    change ps.parts ++ qs.parts = _
    rw [hp, List.cons_append]
  unfold next
  split
  · rename_i hnil
    cases happ.symm.trans hnil
  · rename_i p' rest' hp'
    obtain ⟨rfl, -⟩ := List.cons.inj (hp'.symm.trans happ)
    split <;> split <;> rename_i hpart
    · cases hp.symm.trans hpart
    · obtain ⟨rfl, -⟩ := List.cons.inj (hpart.symm.trans hp)
      rw [dif_pos ‹_›]
    · cases hp.symm.trans hpart
    · obtain ⟨rfl, -⟩ := List.cons.inj (hpart.symm.trans hp)
      rw [dif_neg ‹_›]

/-- Behind a message comes the next one, in the same pieces. -/
theorem skip_of_append (ps qs : Pieces α) : (ps.append qs).skip ps.flatten.length = qs := by
  have hparts : ∀ parts : List (List α), skipParts parts.flatten.length (parts ++ qs.parts) = qs.parts := by
    intro parts
    induction parts with
    | nil => exact congrArg parts (skip_zero qs)
    | cons p parts ih =>
      have hle : ¬ (p ++ parts.flatten).length < p.length := by
        rw [List.length_append]
        omega
      have hsub : (p ++ parts.flatten).length - p.length = parts.flatten.length := by
        rw [List.length_append]
        omega
      rw [List.flatten_cons, List.cons_append, skipParts, if_neg hle, hsub, ih]
  exact ext (hparts ps.parts)

end Flz.Lib.Pieces
