import Mathlib.Data.Fintype.Card
import Mathlib.Data.List.Basic
import Mathlib.Data.Set.Finite.Basic

/-! # Mixing steps

A step that takes one block into a state and loses neither of them: the state after a list of blocks is a
bijection of the first one, and lists that differ in one block lead to different states. The operations that such
steps are made of, on bit vectors.
-/
namespace Flz.Lib.Mixing
open Function

/-- The state is recovered from the block, and the block from the state. -/
structure Mixes {σ β : Type*} (step : σ → β → σ) : Prop where
  state : ∀ b, Bijective (step · b)
  block : ∀ s, Injective (step s)

section
variable {σ β : Type*} {step : σ → β → σ}

theorem Mixes.foldl_bijective (h : Mixes step) (bs : List β) : Bijective (bs.foldl step) := by
  induction bs with
  | nil => exact bijective_id
  | cons b bs ih => exact ih.comp (h.state b)

/-- Another block in one place makes another state. -/
theorem Mixes.foldl_ne (h : Mixes step) (s : σ) {i : ℕ} {bs cs : List β} (hlen : bs.length = cs.length)
    (hsame : ∀ j, j ≠ i → bs[j]? = cs[j]?) (hne : bs ≠ cs) : bs.foldl step s ≠ cs.foldl step s := by
  induction bs generalizing s i cs with
  | nil => exact absurd (List.eq_nil_of_length_eq_zero hlen.symm).symm hne
  | cons b bs ih =>
    obtain _ | ⟨c, cs⟩ := cs
    · exact absurd hlen (Nat.succ_ne_zero _)
    · rw [List.foldl_cons, List.foldl_cons]
      cases i with
      | zero =>
        -- the lists go on alike, so the first blocks differ
        have hrest : bs = cs := List.ext_getElem? fun j => hsame (j + 1) (Nat.succ_ne_zero j)
        have hfirst : b ≠ c := fun hb => hne (by rw [hb, hrest])
        rw [hrest]
        exact fun heq => hfirst (h.block s ((h.foldl_bijective cs).injective heq))
      | succ i =>
        have hfirst : b = c := Option.some.inj (hsame 0 (Nat.succ_ne_zero i).symm)
        rw [hfirst]
        exact ih (step s c) (Nat.succ.inj hlen) (fun j hj => hsame (j + 1) fun heq => hj (Nat.succ.inj heq))
          fun heq => hne (by rw [hfirst, heq])

end

section Bits
variable {w n : ℕ}

/-- `h ^= h >> n` is undone from the highest bits on. -/
theorem xorShiftRight_injective (hn : 0 < n) : Injective fun h : BitVec w => h ^^^ h >>> n := by
  intro g h heq
  have hbit : ∀ i, (g.getLsbD i ^^ g.getLsbD (n + i)) = (h.getLsbD i ^^ h.getLsbD (n + i)) := by
    intro i
    have hi := congrArg (BitVec.getLsbD · i) heq
    simpa only [BitVec.getLsbD_xor, BitVec.getLsbD_ushiftRight] using hi
  have hhigh : ∀ k i, w ≤ i + k → g.getLsbD i = h.getLsbD i := by
    intro k
    induction k with
    | zero =>
      intro i hi
      rw [BitVec.getLsbD_of_ge g i hi, BitVec.getLsbD_of_ge h i hi]
    | succ k ih =>
      intro i hi
      have hshifted := ih (n + i) (by omega)
      have hboth := hbit i
      rw [hshifted] at hboth
      exact Bool.xor_right_inj.mp (by rw [Bool.xor_comm, hboth, Bool.xor_comm])
  exact BitVec.eq_of_getLsbD_eq fun i _ => hhigh w i (Nat.le_add_left w i)

theorem rotateLeft_injective (hn : n < w) : Injective fun x : BitVec w => x.rotateLeft n := by
  intro x y heq
  refine BitVec.eq_of_getLsbD_eq fun i hi => ?_
  have hbit := congrArg (BitVec.getLsbD · ((i + n) % w)) heq
  simp only [BitVec.getLsbD_rotateLeft_of_le hn] at hbit
  rcases Nat.lt_or_ge (i + n) w with hlow | hhigh
  · have hsub : i + n - n = i := Nat.add_sub_cancel i n
    rwa [Nat.mod_eq_of_lt hlow, decide_eq_false (by omega), decide_eq_true hlow, cond_false, cond_false, Bool.true_and,
      Bool.true_and, hsub] at hbit
  · -- the bits that leave at the top
    have hmod : (i + n) % w = i + n - w := by
      rw [Nat.mod_eq_sub_mod hhigh, Nat.mod_eq_of_lt (by omega)]
    have hadd : w - n + (i + n - w) = i := by omega
    rwa [hmod, decide_eq_true (by omega), cond_true, cond_true, hadd] at hbit

end Bits

end Flz.Lib.Mixing
