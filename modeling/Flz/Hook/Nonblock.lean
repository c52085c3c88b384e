import Flz.Hook.FdCtx
import Mathlib.Data.List.Infix

/-! # The mode of a socket

The hooked `fcntl` with `F_SETFL` and `F_GETFL` and the hooked `ioctl` with `FIONBIO`, of
`src/hook.cc`. A managed socket does not block for the kernel, and the mode that the user asks for
is only noted.
-/
namespace Flz

/-- A descriptor with the context that `FdMgr` has for it, if any. -/
structure Descriptor where
  ctx : Option FdCtx
  flags : BitVec 32
  deriving DecidableEq, Repr

/-- The calls, for `F_SETFL` with whether the kernel takes the flags. -/
inductive ModeCall
  | setfl (arg : BitVec 32) (ok : Bool)
  | getfl
  | fionbio (arg : BitVec 32)
  deriving DecidableEq, Repr

/-- What `F_SETFL` makes of the flags. -/
def kernelSetfl (settable arg : BitVec 32) (ok : Bool) (flags : BitVec 32) : BitVec 32 :=
  if ok then setFlags settable arg flags else flags

/-- What `FIONBIO` makes of the flags. -/
def kernelFionbio (arg flags : BitVec 32) : BitVec 32 :=
  if arg ≠ 0 then flags ||| O_NONBLOCK else flags &&& ~~~O_NONBLOCK

namespace Descriptor

/-- The context that the calls look at. -/
def managed (d : Descriptor) : Option FdCtx := d.ctx.filter fun c => !(c.isClosed || !c.isSocket)

/-- `fcntl(fd, F_SETFL, arg)`. -/
def fcntlSetfl (settable : BitVec 32) (d : Descriptor) (arg : BitVec 32) (ok : Bool) : Descriptor :=
  match d.managed with
  | none => { d with flags := kernelSetfl settable arg ok d.flags }
  | some c =>
    let c := { c with userNonblock := arg &&& O_NONBLOCK != 0 }
    let arg := if c.sysNonblock then arg ||| O_NONBLOCK else arg &&& ~~~O_NONBLOCK
    { ctx := some c, flags := kernelSetfl settable arg ok d.flags }

/-- What `fcntl(fd, F_GETFL)` returns. -/
def fcntlGetfl (d : Descriptor) : BitVec 32 :=
  match d.managed with
  | none => d.flags
  | some c => if c.userNonblock then d.flags ||| O_NONBLOCK else d.flags &&& ~~~O_NONBLOCK

/-- `ioctl(fd, FIONBIO, &arg)`. -/
def ioctl (d : Descriptor) (arg : BitVec 32) : Descriptor :=
  match d.managed with
  | none => { d with flags := kernelFionbio arg d.flags }
  | some c =>
    { ctx := some { c with userNonblock := arg != 0 }, flags := kernelFionbio arg d.flags }

def exec (settable : BitVec 32) (d : Descriptor) : ModeCall → Descriptor
  | .setfl arg ok => d.fcntlSetfl settable arg ok
  | .getfl => d
  | .fionbio arg => d.ioctl arg

/-- A socket is registered. -/
def register (settable : BitVec 32) (fd : ℕ) (flags : BitVec 32) : Descriptor where
  ctx := some (.new fd (some true))
  flags := FdCtx.initFlags settable (some true) flags

end Descriptor

/-- What the user has asked for last. -/
def requested (as : List ModeCall) : Bool :=
  as.foldl (fun v a => match a with
    | .setfl arg _ => arg &&& O_NONBLOCK != 0
    | .getfl => v
    | .fionbio arg => arg != 0) false

/-- The flags behind the same calls without the hook. -/
def plainFlags (settable flags : BitVec 32) (as : List ModeCall) : BitVec 32 :=
  as.foldl (fun flags a => match a with
    | .setfl arg ok => kernelSetfl settable arg ok flags
    | .getfl => flags
    | .fionbio arg => kernelFionbio arg flags) flags

/-- The kernel does not block, the user sees what he has asked for, and the other flags are those
that they are without the hook. -/
structure Managed (settable flags : BitVec 32) (as : List ModeCall) (d : Descriptor) : Prop where
  nonblock : d.flags &&& O_NONBLOCK = O_NONBLOCK
  user : ∃ c, d.ctx = some c ∧ c.userNonblock = requested as
  getfl : d.fcntlGetfl &&& O_NONBLOCK = if requested as then O_NONBLOCK else 0
  others : d.flags &&& ~~~O_NONBLOCK = plainFlags settable flags as &&& ~~~O_NONBLOCK
  passed : d.fcntlGetfl &&& ~~~O_NONBLOCK = d.flags &&& ~~~O_NONBLOCK

/-- A call that does not make the kernel block. -/
def ModeCall.Spares (a : ModeCall) : Prop := a ≠ .fionbio 0

/-- The invariant of the context. -/
structure Noted (v : Bool) (d : Descriptor) (c : FdCtx) : Prop where
  ctx : d.ctx = some c
  isClosed : c.isClosed = false
  isSocket : c.isSocket = true
  sysNonblock : c.sysNonblock = true
  user : c.userNonblock = v

section
variable {settable flags arg : BitVec 32} {d : Descriptor} {c : FdCtx} {v : Bool} {as : List ModeCall}
  {a : ModeCall}

theorem or_mask (x m : BitVec 32) : (x ||| m) &&& m = m ∧ (x ||| m) &&& ~~~m = x &&& ~~~m := by
  constructor
  · ext i hi
    simp only [BitVec.getElem_and, BitVec.getElem_or]
    cases x[i] <;> simp
  · ext i hi
    simp only [BitVec.getElem_and, BitVec.getElem_or, BitVec.getElem_not]
    cases m[i] <;> simp

theorem and_mask (x m : BitVec 32) : (x &&& ~~~m) &&& m = 0 ∧ (x &&& ~~~m) &&& ~~~m = x &&& ~~~m := by
  constructor <;> ext i hi <;> simp

/-- Flags that are taken have the bits of a mask as the argument has them. -/
theorem setFlags_mask {m : BitVec 32} (h : settable &&& m = m) (arg flags : BitVec 32) :
    setFlags settable arg flags &&& m = arg &&& m := by
  ext i hi
  have hbit : (settable[i] && m[i]) = m[i] := by
    rw [← BitVec.getElem_and, h]
  simp only [setFlags, BitVec.getElem_and, BitVec.getElem_or, BitVec.getElem_not]
  cases hs : settable[i] <;> cases hm : m[i] <;> simp [hs, hm] at hbit ⊢

/-- Outside of a mask the flags depend only on what is outside of it. -/
theorem setFlags_others {m x y f g : BitVec 32} (hx : x &&& ~~~m = y &&& ~~~m) (hf : f &&& ~~~m = g &&& ~~~m) :
    setFlags settable x f &&& ~~~m = setFlags settable y g &&& ~~~m := by
  ext i hi
  have hxi : (x[i] && !m[i]) = (y[i] && !m[i]) := by
    simpa using congrArg (fun b : BitVec 32 => b[i]) hx
  have hfi : (f[i] && !m[i]) = (g[i] && !m[i]) := by
    simpa using congrArg (fun b : BitVec 32 => b[i]) hf
  simp only [setFlags, BitVec.getElem_and, BitVec.getElem_or, BitVec.getElem_not]
  cases hm : m[i] <;> simp [hm] at hxi hfi ⊢
  rw [hxi, hfi]

theorem kernelSetfl_others {m x y f g : BitVec 32} (ok : Bool) (hx : x &&& ~~~m = y &&& ~~~m)
    (hf : f &&& ~~~m = g &&& ~~~m) :
    kernelSetfl settable x ok f &&& ~~~m = kernelSetfl settable y ok g &&& ~~~m := by
  cases ok with
  | false => exact hf
  | true => exact setFlags_others hx hf

theorem kernelFionbio_others (arg : BitVec 32) {f g : BitVec 32}
    (hf : f &&& ~~~O_NONBLOCK = g &&& ~~~O_NONBLOCK) :
    kernelFionbio arg f &&& ~~~O_NONBLOCK = kernelFionbio arg g &&& ~~~O_NONBLOCK := by
  rw [kernelFionbio, kernelFionbio]
  split
  · rw [(or_mask f _).2, (or_mask g _).2, hf]
  · rw [(and_mask f _).2, (and_mask g _).2, hf]

theorem Noted.managed (h : Noted v d c) : d.managed = some c := by
  simp [Descriptor.managed, h.ctx, h.isClosed, h.isSocket]

theorem requested_append (as : List ModeCall) (a : ModeCall) :
    requested (as ++ [a]) = match a with
      | .setfl arg _ => arg &&& O_NONBLOCK != 0
      | .getfl => requested as
      | .fionbio arg => arg != 0 := by
  rw [requested, List.foldl_append]
  cases a <;> rfl

/-- A call notes what the user asks for. -/
theorem Noted.exec (h : Noted (requested as) d c) (settable : BitVec 32) (a : ModeCall) :
    ∃ c', Noted (requested (as ++ [a])) (d.exec settable a) c' := by
  rw [requested_append]
  cases a with
  | setfl arg ok =>
    refine ⟨{ c with userNonblock := arg &&& O_NONBLOCK != 0 }, ?_, h.isClosed, h.isSocket, h.sysNonblock, rfl⟩
    rw [Descriptor.exec, Descriptor.fcntlSetfl, h.managed]
  | getfl => exact ⟨c, h⟩
  | fionbio arg =>
    refine ⟨{ c with userNonblock := arg != 0 }, ?_, h.isClosed, h.isSocket, h.sysNonblock, rfl⟩
    rw [Descriptor.exec, Descriptor.ioctl, h.managed]

/-- What a call makes of the flags. -/
theorem Noted.exec_flags (h : Noted v d c) (settable : BitVec 32) (a : ModeCall) :
    (d.exec settable a).flags = match a with
      | .setfl arg ok => kernelSetfl settable (arg ||| O_NONBLOCK) ok d.flags
      | .getfl => d.flags
      | .fionbio arg => kernelFionbio arg d.flags := by
  cases a with
  | setfl arg ok =>
    simp only [Descriptor.exec, Descriptor.fcntlSetfl, h.managed]
    rw [if_pos h.sysNonblock]
  | getfl => rfl
  | fionbio arg => simp only [Descriptor.exec, Descriptor.ioctl, h.managed]

theorem Noted.exec_others (h : Noted v d c) (hothers : d.flags &&& ~~~O_NONBLOCK =
    plainFlags settable flags as &&& ~~~O_NONBLOCK) (a : ModeCall) :
    (d.exec settable a).flags &&& ~~~O_NONBLOCK =
      plainFlags settable flags (as ++ [a]) &&& ~~~O_NONBLOCK := by
  rw [h.exec_flags, plainFlags, List.foldl_append]
  cases a with
  | setfl arg ok => exact kernelSetfl_others ok (or_mask arg _).2 hothers
  | getfl => exact hothers
  | fionbio arg => exact kernelFionbio_others arg hothers

/-- A call leaves the kernel's mode as it should be, unless it is the one that asks for blocking
with `FIONBIO`. -/
theorem Noted.exec_nonblock_iff (h : Noted v d c) (hsettable : settable &&& O_NONBLOCK = O_NONBLOCK)
    (hnonblock : d.flags &&& O_NONBLOCK = O_NONBLOCK) :
    (d.exec settable a).flags &&& O_NONBLOCK = O_NONBLOCK ↔ a.Spares := by
  rw [h.exec_flags]
  cases a with
  | setfl arg ok =>
    refine iff_of_true ?_ nofun
    cases ok with
    | false => exact hnonblock
    | true => exact (setFlags_mask hsettable _ _).trans (or_mask arg _).1
  | getfl => exact iff_of_true hnonblock nofun
  | fionbio arg =>
    simp only [kernelFionbio, ModeCall.Spares, ne_eq, ModeCall.fionbio.injEq]
    split
    · rename_i harg
      exact iff_of_true (or_mask d.flags _).1 harg
    · rename_i harg
      refine iff_of_false ?_ harg
      rw [(and_mask d.flags _).1]
      decide

theorem Noted.getfl (h : Noted v d c) : d.fcntlGetfl &&& O_NONBLOCK = (if v then O_NONBLOCK else 0) ∧
    d.fcntlGetfl &&& ~~~O_NONBLOCK = d.flags &&& ~~~O_NONBLOCK := by
  rw [Descriptor.fcntlGetfl, h.managed]
  dsimp only
  rw [h.user]
  cases v with
  | true => exact or_mask d.flags _
  | false => exact and_mask d.flags _

end

/-- The descriptor behind the calls. -/
def Descriptor.after (settable : BitVec 32) (d : Descriptor) (as : List ModeCall) : Descriptor :=
  as.foldl (·.exec settable) d

section
variable {settable : BitVec 32} {fd : ℕ} {flags : BitVec 32} {d : Descriptor} {as : List ModeCall}

theorem after_append (d : Descriptor) (as : List ModeCall) (a : ModeCall) :
    d.after settable (as ++ [a]) = (d.after settable as).exec settable a := by
  simp [Descriptor.after]

theorem and_nonblock (x : BitVec 32) : x &&& O_NONBLOCK = 0 ∨ x &&& O_NONBLOCK = O_NONBLOCK := by
  rw [show O_NONBLOCK = BitVec.twoPow 32 11 from rfl, BitVec.and_twoPow]
  split
  · exact .inr rfl
  · exact .inl rfl

theorem register_flags (hsettable : settable &&& O_NONBLOCK = O_NONBLOCK) :
    (Descriptor.register settable fd flags).flags &&& O_NONBLOCK = O_NONBLOCK ∧
      (Descriptor.register settable fd flags).flags &&& ~~~O_NONBLOCK = flags &&& ~~~O_NONBLOCK := by
  simp only [Descriptor.register, FdCtx.initFlags, Option.getD_some, Bool.true_and, beq_iff_eq]
  split
  · rename_i hclear
    refine ⟨(setFlags_mask hsettable _ _).trans (or_mask flags _).1, ?_⟩
    rw [setFlags_others (y := flags) (g := flags) (or_mask flags _).2 rfl]
    congr 1
    ext i hi
    simp only [setFlags, BitVec.getElem_or, BitVec.getElem_and, BitVec.getElem_not]
    cases settable[i] <;> simp
  · rename_i hset
    refine ⟨?_, rfl⟩
    exact (and_nonblock flags).resolve_left hset

theorem noted_register : Noted (requested []) (Descriptor.register settable fd flags)
    (.new fd (some true)) := ⟨rfl, rfl, rfl, rfl, rfl⟩

/-- After any calls the context notes what has been asked for, and the other flags have passed. -/
theorem noted_after (hsettable : settable &&& O_NONBLOCK = O_NONBLOCK) (fd : ℕ) (flags : BitVec 32)
    (as : List ModeCall) :
    (∃ c, Noted (requested as) ((Descriptor.register settable fd flags).after settable as) c) ∧
      ((Descriptor.register settable fd flags).after settable as).flags &&& ~~~O_NONBLOCK =
        plainFlags settable flags as &&& ~~~O_NONBLOCK := by
  induction as using List.reverseRecOn with
  | nil => exact ⟨⟨_, noted_register⟩, (register_flags hsettable).2⟩
  | append_singleton as a ih =>
    obtain ⟨⟨c, hc⟩, hothers⟩ := ih
    rw [after_append]
    exact ⟨hc.exec settable a, hc.exec_others hothers a⟩

/-- The kernel does not block as long as no call has asked for it with `FIONBIO`. -/
theorem after_nonblock (hsettable : settable &&& O_NONBLOCK = O_NONBLOCK) (h : ∀ a ∈ as, a.Spares) :
    ((Descriptor.register settable fd flags).after settable as).flags &&& O_NONBLOCK = O_NONBLOCK := by
  induction as using List.reverseRecOn with
  | nil => exact (register_flags hsettable).1
  | append_singleton as a ih =>
    obtain ⟨⟨c, hc⟩, -⟩ := noted_after hsettable fd flags as
    rw [after_append]
    refine (hc.exec_nonblock_iff hsettable (ih fun b hb => h b ?_)).mpr (h a ?_) <;> simp [*]

/-- The mode of a socket is managed throughout some calls exactly when none of them asks for
blocking with `FIONBIO`. -/
theorem managed_iff (hsettable : settable &&& O_NONBLOCK = O_NONBLOCK) (fd : ℕ) (flags : BitVec 32)
    (as : List ModeCall) :
    (∀ bs, bs <+: as →
      Managed settable flags bs ((Descriptor.register settable fd flags).after settable bs)) ↔
      ∀ a ∈ as, a.Spares := by
  constructor
  · intro h a ha
    obtain ⟨bs, cs, rfl⟩ := List.append_of_mem ha
    have hbefore := (h bs (List.prefix_append bs _)).nonblock
    have hbehind := (h (bs ++ [a]) ⟨cs, by simp⟩).nonblock
    obtain ⟨⟨c, hc⟩, -⟩ := noted_after hsettable fd flags bs
    rw [after_append] at hbehind
    exact (hc.exec_nonblock_iff hsettable hbefore).mp hbehind
  · intro h bs hbs
    obtain ⟨⟨c, hc⟩, hothers⟩ := noted_after hsettable fd flags bs
    have hgetfl := hc.getfl
    exact ⟨after_nonblock hsettable fun a ha => h a (hbs.subset ha), ⟨c, hc.ctx, hc.user⟩, hgetfl.1,
      hothers, hgetfl.2⟩

/-- Flags that the kernel takes from `F_SETFL`: append, direct, non-blocking and no access time. -/
def SETFL_MASK : BitVec 32 := 0x44c00

/-- A socket is switched to non-blocking and back with `F_SETFL`. -/
theorem managed_switched :
    Managed SETFL_MASK 2 [.setfl 0x802 true, .getfl, .setfl 2 true]
      ((Descriptor.register SETFL_MASK 3 2).after SETFL_MASK [.setfl 0x802 true, .getfl, .setfl 2 true]) :=
  (managed_iff (by decide) 3 2 [.setfl 0x802 true, .getfl, .setfl 2 true]).mpr
    (by simp [ModeCall.Spares]) _ List.prefix_rfl

/-- Asked for blocking with `FIONBIO`, a new socket blocks for the kernel. -/
theorem blocking_passed : ¬ Managed SETFL_MASK 2 [.fionbio 0]
    ((Descriptor.register SETFL_MASK 3 2).after SETFL_MASK [.fionbio 0]) := by
  intro h
  exact absurd h.nonblock (by decide)

end
end Flz
