import Flz.Lib.Overwrite

/-! # A contiguous vector with a cursor

The cursor never lies beyond the end. Putting elements overwrites from the cursor on and
appends what does not fit; skipping and moving leave the elements alone, except that a move
beyond the end extends the vector by the given padding.
-/
namespace Flz.Lib
variable {α : Type*}

/-- A vector and a position in it. -/
@[ext] structure Cursor (α : Type*) where
  items : List α
  pos : ℕ
  pos_le : pos ≤ items.length

namespace Cursor

def empty : Cursor α := ⟨[], 0, Nat.le_refl _⟩

/-- The elements from the cursor on. -/
def rest (c : Cursor α) : List α := c.items.drop c.pos

theorem rest_length (c : Cursor α) : c.rest.length = c.items.length - c.pos := List.length_drop

def put (c : Cursor α) (ys : List α) : Cursor α where
  items := overwrite c.items c.pos ys
  pos := c.pos + ys.length
  pos_le := by
    rw [overwrite_length_le c.pos_le]
    exact Nat.le_max_right _ _

def skip (c : Cursor α) (n : ℕ) (h : n ≤ c.rest.length) : Cursor α where
  items := c.items
  pos := c.pos + n
  pos_le := by
    have := c.pos_le
    rw [rest_length] at h
    omega

/-- The cursor at the start of a vector. -/
def ofList (xs : List α) : Cursor α := ⟨xs, 0, Nat.zero_le _⟩

/-- The cursor at the end of a vector. -/
def atEnd (xs : List α) : Cursor α := ⟨xs, xs.length, Nat.le_refl _⟩

@[simp] theorem rest_ofList (xs : List α) : (ofList xs).rest = xs := rfl
@[simp] theorem put_nil (c : Cursor α) : c.put [] = c := by
  ext1
  · exact overwrite_nil _ _
  · rfl

@[simp] theorem put_atEnd (xs ys : List α) : (atEnd xs).put ys = atEnd (xs ++ ys) := by
  ext1
  · exact overwrite_end xs ys
  · simp [put, atEnd]

theorem put_put (c : Cursor α) (xs ys : List α) : (c.put xs).put ys = c.put (xs ++ ys) := by
  ext1
  · exact overwrite_overwrite c.pos_le
  · simp [put, Nat.add_assoc]

/-- Reading a known prefix. -/
theorem take_rest_append {c : Cursor α} {xs ys : List α} (h : c.rest = xs ++ ys) :
    c.rest.take xs.length = xs := by rw [h, List.take_left]

end Cursor
end Flz.Lib
