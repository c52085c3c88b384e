import Flz.ByteArray.Sequence
import Flz.Stream.FixSize

/-! # Values across a connection

Values are written into a `ByteArray` on one side, go over a connection with `writeFixSize` and `readFixSize`, in
pieces of any sizes on either side, and are read from another `ByteArray` on the other. The two machines may differ in
their byte order, and the objects in their block sizes.
-/
namespace Flz.FixSize
open Lib Flz.ByteArray

/-! ## The bytes of a value -/

/-- The setting of the object alone decides on the order of the bytes. -/
theorem fixedBytes_eq {w : ℕ} (hw : 8 * (w / 8) = w) (host endian : Endian) (v : BitVec w) :
    fixedBytes host endian v = memory endian v := by
  by_cases hsame : endian = host
  · rw [fixedBytes, if_neg (not_not_intro hsame), hsame]
  · rw [fixedBytes, if_pos hsame]
    cases host with
    | little =>
      cases endian with
      | little => exact absurd rfl hsame
      | big => exact leBytes_byteswap hw v
    | big =>
      cases endian with
      | little =>
        have hback := congrArg List.reverse (leBytes_byteswap hw v)
        rwa [List.reverse_reverse] at hback
      | big => exact absurd rfl hsame

theorem itemBytes_host (host host' endian : Endian) (v : Item) : itemBytes host endian v = itemBytes host' endian v := by
  have hfixed : ∀ {w : ℕ}, 8 * (w / 8) = w → ∀ v : BitVec w, fixedBytes host endian v = fixedBytes host' endian v := by
    intro w hw v
    rw [fixedBytes_eq hw, fixedBytes_eq hw]
  cases v with
  | fint16 v => exact hfixed (w := 16) rfl _
  | fuint16 v => exact hfixed (w := 16) rfl _
  | fint32 v => exact hfixed (w := 32) rfl _
  | fuint32 v => exact hfixed (w := 32) rfl _
  | fint64 v => exact hfixed (w := 64) rfl _
  | fuint64 v => exact hfixed (w := 64) rfl _
  | _ => rfl

/-! ## What the loops keep -/

theorem fixLoop_keeps {σ : Type} {call : ℕ → σ → Except Trap (ℤ × σ)} {P : σ → Prop}
    (hcall : ∀ {n s r t}, call n s = .ok (r, t) → P s → P t) {left : ℤ} {s t : σ} {o : Option ℤ}
    (hrun : fixLoop call left s = .ok (o, t)) (hs : P s) : P t := by
  induction hleft : left.toNat using Nat.strong_induction_on generalizing left s with
  | _ k ih =>
    rw [fixLoop] at hrun
    by_cases hpos : left > 0
    · rw [if_pos hpos] at hrun
      cases hresult : call left.toNat s with
      | error e => simp [hresult] at hrun
      | ok result =>
        obtain ⟨len, s'⟩ := result
        rw [hresult] at hrun
        have hs' := hcall hresult hs
        dsimp only at hrun
        by_cases hstop : len ≤ 0
        · rw [if_pos hstop] at hrun
          cases hrun
          exact hs'
        · rw [if_neg hstop] at hrun
          exact ih _ (by omega) hrun hs' rfl
    · rw [if_neg hpos] at hrun
      cases hrun
      exact hs

theorem addCapacity_endian (len : ℕ) (s : ByteArray) : (addCapacity len s).endian = s.endian := by
  unfold addCapacity
  split
  · rfl
  · split <;> rfl

theorem getWriteBuffers_endian {len n : ℕ} {iovs : List IoVec} {s t : ByteArray}
    (h : getWriteBuffers len s = .ok (n, iovs) t) : t.endian = s.endian := by
  unfold getWriteBuffers at h
  split at h
  · cases h
    rfl
  · dsimp only at h
    split at h
    · cases h
    · split at h
      · cases h
      · cases h
        exact addCapacity_endian len s

theorem setPosition_endian {v : ℕ} {s t : ByteArray} (h : setPosition v s = .ok () t) : t.endian = s.endian := by
  unfold setPosition at h
  split at h
  · cases h
  · split at h
    · cases h
    · cases h
      rfl

theorem readBA_endian {length : ℕ} {s t : Link} {r : ℤ} (h : readBA length s = .ok (r, t)) :
    t.ba.endian = s.ba.endian := by
  unfold readBA at h
  split at h
  · cases h
  · rename_i hbuffers
    have hsame := getWriteBuffers_endian hbuffers
    simp only [bind, Except.bind] at h
    split at h
    · cases h
    · split at h
      · split at h
        · cases h
        · rename_i hset
          cases h
          exact (setPosition_endian hset).trans hsame
      · cases h
        exact hsame

/-! ## A transfer that is delivered -/

section
variable {s : Link} {length : ℕ}

theorem fixSize_delivered (v : Version) (hlt : length < 2 ^ 31) (h : Inv s.ba)
    (hall : Delivers s.peer.results s.peer.calls length) (hstock : v.Stocked length s) :
    ∃ t, fixSize v (.ofNat length) s = .ok ((length : ℤ), t) ∧ v.Moved s length t := by
  have hnat : (UInt64.ofNat length).toNat = length := UInt64.toNat_ofNat_of_lt' (Nat.lt_trans hlt (by decide))
  obtain ⟨o, t, k, hrun, hmoved, -, ⟨rfl, rfl, -⟩ | ⟨r, -, -, -, hnot⟩⟩ :=
    (steps_call v length h).fixLoop (moved_start v h) (Nat.zero_le _) (Nat.zero_le _)
  · refine ⟨t, ?_, hmoved⟩
    rw [Nat.sub_zero] at hrun
    have hint : toInt (k : ℤ) = k := toInt_eq (Nat.le_of_lt_succ hlt)
    simp only [fixSize, hnat, toInt64_eq (Nat.lt_trans hlt (by decide)), hrun, bind, Except.bind, Option.getD_none, hint]
    rfl
  · exact absurd ⟨hall, stocked_iff.mp hstock⟩ hnot

theorem readFixSizeBA_endian {t : Link} {r : ℤ} {n : UInt64} (h : readFixSizeBA n s = .ok (r, t)) :
    t.ba.endian = s.ba.endian := by
  simp only [readFixSizeBA, fixSize, bind, Except.bind] at h
  split at h
  · cases h
  · rename_i hrun
    cases h
    exact fixLoop_keeps (P := fun t => t.ba.endian = s.ba.endian)
      (fun hcall hs => (readBA_endian hcall).trans hs) hrun rfl

/-! ## From one side to the other -/

/-- The bytes that come in to `r` are those that go out of `s` in a transfer of `n` bytes. -/
def Carried (n : ℕ) (s s' r : Peer) : Prop := s'.sent = s.sent ++ r.next n

end

theorem delivers_ones (i n : ℕ) : Delivers (fun _ => 1) i n :=
  ⟨n, fun _ _ => (by decide : 0 < (1 : Int32).toInt), le_of_eq (by simp)⟩

end Flz.FixSize
