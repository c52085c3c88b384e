import Flz.Hook.Connect
import Flz.Lib.Owners
import Flz.Lib.Runs
import Mathlib.Tactic.Cases

/-! # The descriptors of the sockets

The sockets of `src/socket.cc` in one process, over `socket`, `accept` and `close` of `src/hook.cc` and the contexts of
`src/fd_manager.cc`. The calls on them come in any order, and so does what the rest of the process opens and closes.
What a call does is one step; of `connect` it is one step before `::connect` and one behind it. A call of `bind` on a
unix address makes a socket of its own, which is one of them.
-/
namespace Flz
open Lib

/-- The sockets by their addresses, the calls in `::connect` with the descriptors that these were called with, the
contexts, the open descriptors, and those of them that the rest of the process has. -/
structure Sockets where
  objects : ℕ → Option Socket
  connecting : List (ℕ × ℕ)
  contexts : ℕ → Option FdCtx
  opened : Finset ℕ
  others : Finset ℕ

/-- `hook` is `t_hook_enable` in the thread of the call, and `fd` what the system opens. -/
inductive SocketsEvent
  /-- `CreateTCP` and its siblings. -/
  | createTCP (i : ℕ)
  /-- `CreateUDP` and its siblings. -/
  | createUDP (i : ℕ) (hook : Bool) (fd : Option ℕ)
  | bind (i : ℕ) (hook : Bool) (fd : Option ℕ)
  | connect (i : ℕ) (hook : Bool) (fd : Option ℕ) (family : Bool)
  /-- The end of `connect`, with what `::connect` says. -/
  | connected (i fd : ℕ) (hook ok : Bool)
  /-- `accept`, with the address of the new socket. -/
  | accept (i : ℕ) (fd : Option ℕ)
  | close (i : ℕ) (hook : Bool)
  | destroy (i : ℕ) (hook : Bool)
  /-- The rest of the process opens a socket or something else. -/
  | openOther (fd : ℕ) (hook isSocket : Bool)
  | closeOther (fd : ℕ) (hook : Bool)
  deriving DecidableEq, Repr

/-- `accept` makes a context in every thread. -/
def SocketsEvent.hook : SocketsEvent → Bool
  | .createTCP _ => true
  | .createUDP _ hook _ => hook
  | .bind _ hook _ => hook
  | .connect _ hook _ _ => hook
  | .connected _ _ hook _ => hook
  | .accept _ _ => true
  | .close _ hook => hook
  | .destroy _ hook => hook
  | .openOther _ hook _ => hook
  | .closeOther _ hook => hook

/-- What an event may open. -/
def SocketsEvent.opens : SocketsEvent → Option ℕ
  | .createUDP _ _ fd => fd
  | .bind _ _ fd => fd
  | .connect _ _ fd _ => fd
  | .accept _ fd => fd
  | .openOther fd _ _ => some fd
  | _ => none

namespace Sockets

def start (others : Finset ℕ) : Sockets where
  objects _ := none
  connecting := []
  contexts _ := none
  opened := others
  others := others

/-- The descriptor of a socket. -/
def held (t : Sockets) (i : ℕ) : Option ℕ := (t.objects i).bind Socket.sock

def put (t : Sockets) (i : ℕ) (s : Option Socket) : Sockets := { t with objects := Function.update t.objects i s }

/-- `FdMgr::get(fd, true)` on a socket. -/
def getCtx (contexts : ℕ → Option FdCtx) (fd : ℕ) : ℕ → Option FdCtx :=
  if (contexts fd).isSome then contexts else Function.update contexts fd (some (FdCtx.new fd (some true)))

/-- The system opens a socket; `known` is whether it gets a context. -/
def openFd (t : Sockets) (known : Bool) (fd : ℕ) : Sockets :=
  { t with
    contexts := if known then getCtx t.contexts fd else t.contexts
    opened := insert fd t.opened }

/-- `socket` of `src/hook.cc`. -/
def socket (t : Sockets) (hook : Bool) : Option ℕ → Sockets
  | none => t
  | some fd => t.openFd hook fd

/-- `accept` of `src/hook.cc`. -/
def acceptFd (t : Sockets) : Option ℕ → Sockets
  | none => t
  | some fd => t.openFd (0 < fd) fd

/-- `close` of `src/hook.cc`. -/
def closeFd (t : Sockets) (hook : Bool) (fd : ℕ) : Sockets :=
  { t with
    contexts := if hook then Function.update t.contexts fd none else t.contexts
    opened := t.opened.erase fd }

/-- The beginning of `bind` and of `connect`. -/
def ensure (t : Sockets) (i : ℕ) (s : Socket) (hook : Bool) (fd : Option ℕ) : Sockets :=
  if s.sock.isSome then t else (t.socket hook fd).put i (some { s with sock := fd })

/-- `connect` up to `::connect`; `family` is whether the address is of the family of the socket. -/
def connect (t : Sockets) (i : ℕ) (s : Socket) (hook : Bool) (fd : Option ℕ) (family : Bool) : Sockets :=
  let t := t.ensure i s hook fd
  match t.held i with
  | none => t
  | some fd => if family then { t with connecting := t.connecting ++ [(i, fd)] } else t

def close (t : Sockets) (i : ℕ) (s : Socket) (hook : Bool) : Sockets :=
  if !s.isConnected && s.sock.isNone then t
  else
    match s.sock with
    | none => t.put i (some ⟨none, false⟩)
    | some fd => (t.closeFd hook fd).put i (some ⟨none, false⟩)

/-- `connect` behind `::connect`. -/
def connected (t : Sockets) (i : ℕ) (s : Socket) (fd : ℕ) (hook ok : Bool) : Sockets :=
  let t := { t with connecting := t.connecting.erase (i, fd) }
  if ok then t.put i (some { s with isConnected := true }) else t.close i s hook

/-- `init`, with what it makes of the new socket. -/
def init (t : Sockets) (fd : ℕ) : Option Socket :=
  match t.contexts fd with
  | none => none
  | some ctx => if ctx.isSocket && !ctx.isClosed then some ⟨some fd, true⟩ else none

/-- A socket that is not initialised is destroyed without a descriptor. -/
def accept (t : Sockets) (i : ℕ) (fd : Option ℕ) : Sockets :=
  let t := t.acceptFd fd
  t.put i (fd.bind t.init)

def openOther (t : Sockets) (fd : ℕ) (hook isSocket : Bool) : Sockets :=
  { t with others := insert fd t.others }.openFd (isSocket && hook) fd

def closeOther (t : Sockets) (fd : ℕ) (hook : Bool) : Sockets :=
  { t with others := t.others.erase fd }.closeFd hook fd

/-- The system opens no descriptor that is open. -/
def Unused (t : Sockets) (fd : Option ℕ) : Prop := ∀ n ∈ fd, n ∉ t.opened

instance instDecidableUnused (t : Sockets) (fd : Option ℕ) : Decidable (t.Unused fd) := by
  unfold Unused
  infer_instance

/-- A connect does not succeed on a descriptor that is not open, and a socket is not destroyed in a call. -/
inductive Step : Sockets → SocketsEvent → Sockets → Prop
  | createTCP {t : Sockets} {i : ℕ} (hi : t.objects i = none) :
    Step t (.createTCP i) (t.put i (some ⟨none, false⟩))
  | createUDP {t : Sockets} {i : ℕ} {hook : Bool} {fd : Option ℕ} (hi : t.objects i = none) (hfd : t.Unused fd) :
    Step t (.createUDP i hook fd) ((t.socket hook fd).put i (some ⟨fd, true⟩))
  | bind {t : Sockets} {i : ℕ} {s : Socket} {hook : Bool} {fd : Option ℕ} (hi : t.objects i = some s)
    (hfd : t.Unused fd) : Step t (.bind i hook fd) (t.ensure i s hook fd)
  | connect {t : Sockets} {i : ℕ} {s : Socket} {hook : Bool} {fd : Option ℕ} {family : Bool}
    (hi : t.objects i = some s) (hfd : t.Unused fd) :
    Step t (.connect i hook fd family) (t.connect i s hook fd family)
  | connected {t : Sockets} {i fd : ℕ} {s : Socket} {hook ok : Bool} (hi : t.objects i = some s)
    (hcall : (i, fd) ∈ t.connecting) (hok : ok = true → fd ∈ t.opened) :
    Step t (.connected i fd hook ok) (t.connected i s fd hook ok)
  | accept {t : Sockets} {i : ℕ} {fd : Option ℕ} (hi : t.objects i = none) (hfd : t.Unused fd) :
    Step t (.accept i fd) (t.accept i fd)
  | close {t : Sockets} {i : ℕ} {s : Socket} {hook : Bool} (hi : t.objects i = some s) :
    Step t (.close i hook) (t.close i s hook)
  | destroy {t : Sockets} {i : ℕ} {s : Socket} {hook : Bool} (hi : t.objects i = some s)
    (hcalls : ∀ c ∈ t.connecting, c.1 ≠ i) : Step t (.destroy i hook) ((t.close i s hook).put i none)
  | openOther {t : Sockets} {fd : ℕ} {hook isSocket : Bool} (hfd : fd ∉ t.opened) :
    Step t (.openOther fd hook isSocket) (t.openOther fd hook isSocket)
  | closeOther {t : Sockets} {fd : ℕ} {hook : Bool} (hfd : fd ∈ t.others) :
    Step t (.closeOther fd hook) (t.closeOther fd hook)

/-- No number of a call in `::connect` is given out again, and a UDP socket gets a descriptor. -/
def Spared (t : Sockets) (e : SocketsEvent) : Prop :=
  (∀ fd ∈ e.opens, ∀ c ∈ t.connecting, c.2 ≠ fd) ∧ ∀ i hook, e ≠ .createUDP i hook none

/-- A client connects while another one is accepted. -/
theorem sample_run : ∃ es t, Run (fun t e u => Step t e u ∧ e.hook = true ∧ t.Spared e) (start {0, 1, 2}) es t ∧
    t.objects 7 = some ⟨some 3, true⟩ ∧ t.held 8 = some 4 := by
  have hrun : Run (fun t e u => Step t e u ∧ e.hook = true ∧ t.Spared e) (start {0, 1, 2}) [] (start {0, 1, 2}) := .nil
  have hrun := hrun.snoc ⟨.createTCP (i := 7) rfl, rfl, by decide, fun _ _ h => by cases h⟩
  have hrun := hrun.snoc ⟨@Step.connect _ 7 _ true (some 3) true rfl (by decide), rfl, by decide,
    fun _ _ h => by cases h⟩
  have hrun := hrun.snoc ⟨@Step.accept _ 8 (some 4) rfl (by decide), rfl, by decide, fun _ _ h => by cases h⟩
  have hrun := hrun.snoc ⟨@Step.connected _ 7 3 _ true true rfl (by decide) (by decide), rfl, by decide,
    fun _ _ h => by cases h⟩
  exact ⟨_, _, hrun, rfl, rfl⟩

/-! ## The descriptors alone -/

/-- What the sockets and the rest of the process have of the descriptors. -/
structure Descriptors where
  held : ℕ → Option ℕ
  contexts : ℕ → Option FdCtx
  opened : Finset ℕ
  others : Finset ℕ

def descriptors (t : Sockets) : Descriptors := ⟨t.held, t.contexts, t.opened, t.others⟩

/-- What one step does with the descriptors. -/
inductive Move (hook : Bool) : Descriptors → Descriptors → Prop
  | stay {d : Descriptors} : Move hook d d
  | take {d : Descriptors} {i fd : ℕ} {known : Bool} (hi : d.held i = none) (hfd : fd ∉ d.opened)
    (hknown : hook = true → known = true ∨ d.contexts fd ≠ none) :
    Move hook d ⟨Function.update d.held i (some fd), if known then getCtx d.contexts fd else d.contexts,
      insert fd d.opened, d.others⟩
  /-- `accept` opens 0, which gets no context. -/
  | lose {d : Descriptors} (hfd : 0 ∉ d.opened) : Move hook d { d with opened := insert 0 d.opened }
  | release {d : Descriptors} {i fd : ℕ} (hi : d.held i = some fd) :
    Move hook d ⟨Function.update d.held i none, if hook then Function.update d.contexts fd none else d.contexts,
      d.opened.erase fd, d.others⟩
  | takeOther {d : Descriptors} {fd : ℕ} {known : Bool} (hfd : fd ∉ d.opened) :
    Move hook d { d with
      contexts := if known then getCtx d.contexts fd else d.contexts
      opened := insert fd d.opened
      others := insert fd d.others }
  | releaseOther {d : Descriptors} {fd : ℕ} (hfd : fd ∈ d.others) :
    Move hook d { d with
      contexts := if hook then Function.update d.contexts fd none else d.contexts
      opened := d.opened.erase fd
      others := d.others.erase fd }

/-- The contexts are those of sockets. -/
def Known (contexts : ℕ → Option FdCtx) : Prop :=
  ∀ fd c, contexts fd = some c → c.isSocket = true ∧ c.isClosed = false

variable {t u : Sockets} {e : SocketsEvent} {i fd : ℕ} {s : Socket} {hook known : Bool} {o : Option ℕ}

theorem held_put (t : Sockets) (i : ℕ) (s : Option Socket) :
    (t.put i s).held = Function.update t.held i (s.bind Socket.sock) :=
  Function.comp_update (fun s : Option Socket => s.bind Socket.sock) t.objects i s

theorem descriptors_put (t : Sockets) (i : ℕ) (s : Option Socket) :
    (t.put i s).descriptors = { t.descriptors with held := Function.update t.held i (s.bind Socket.sock) } := by
  rw [descriptors, held_put]
  rfl

/-- A socket changes, and has what it had. -/
theorem descriptors_put_same {s : Option Socket} (h : s.bind Socket.sock = t.held i) :
    (t.put i s).descriptors = t.descriptors := by
  rw [descriptors_put, h, Function.update_eq_self]
  rfl

theorem held_of_object (hi : t.objects i = some s) : t.held i = s.sock := by
  rw [held, hi]
  rfl

theorem held_of_absent (hi : t.objects i = none) : t.held i = none := by
  rw [held, hi]
  rfl

theorem move_open {t : Sockets} (hi : t.held i = none) (hfd : fd ∉ t.opened) {s : Option Socket}
    (hs : s.bind Socket.sock = some fd) (hknown : hook = true → known = true ∨ t.contexts fd ≠ none) :
    Move hook t.descriptors ((t.openFd known fd).put i s).descriptors := by
  rw [descriptors_put, hs]
  exact Move.take (d := t.descriptors) hi hfd hknown

theorem move_socket (hi : t.held i = none) (hfd : t.Unused o) (hs : s.sock = o) :
    Move hook t.descriptors ((t.socket hook o).put i (some s)).descriptors := by
  cases o with
  | none =>
    have hsame : (some s).bind Socket.sock = t.held i := hs.trans hi.symm
    rw [socket, descriptors_put_same hsame]
    exact Move.stay
  | some fd => exact move_open hi (hfd fd rfl) hs Or.inl

theorem move_ensure (hi : t.objects i = some s) (hfd : t.Unused o) :
    Move hook t.descriptors (t.ensure i s hook o).descriptors := by
  unfold ensure
  split
  · exact Move.stay
  · rename_i hnone
    refine move_socket ?_ hfd rfl
    rw [held_of_object hi]
    exact Option.not_isSome_iff_eq_none.mp hnone

theorem descriptors_connect (family : Bool) :
    (t.connect i s hook o family).descriptors = (t.ensure i s hook o).descriptors := by
  unfold connect
  dsimp only
  split
  · rfl
  · split <;> rfl

theorem move_close (hi : t.objects i = some s) : Move hook t.descriptors (t.close i s hook).descriptors := by
  have hheld : t.held i = s.sock := held_of_object hi
  unfold close
  split
  · exact Move.stay
  · split
    · rename_i hsock
      have hsame : (some (Socket.mk none false)).bind Socket.sock = t.held i := (hheld.trans hsock).symm
      rw [descriptors_put_same hsame]
      exact Move.stay
    · rename_i fd hsock
      rw [descriptors_put]
      exact Move.release (d := t.descriptors) (hheld.trans hsock)

theorem held_close (hi : t.objects i = some s) (hook : Bool) : (t.close i s hook).held i = none := by
  have hheld : t.held i = s.sock := held_of_object hi
  have hput (v : Sockets) : (v.put i (some ⟨none, false⟩)).held i = none := by
    rw [held_put, Function.update_self]
    rfl
  unfold close
  split
  · rename_i hclosed
    rw [hheld]
    exact Option.isNone_iff_eq_none.mp (Bool.and_eq_true_iff.mp hclosed).2
  · split
    · exact hput _
    · exact hput _

theorem getCtx_isSome (contexts : ℕ → Option FdCtx) (fd : ℕ) : (getCtx contexts fd fd).isSome = true := by
  unfold getCtx
  split
  · assumption
  · rw [Function.update_self]
    rfl

theorem getCtx_of_ne (contexts : ℕ → Option FdCtx) {n : ℕ} (h : n ≠ fd) : getCtx contexts fd n = contexts n := by
  unfold getCtx
  split
  · rfl
  · rw [Function.update_of_ne h]

theorem known_getCtx {contexts : ℕ → Option FdCtx} (h : Known contexts) (fd : ℕ) : Known (getCtx contexts fd) := by
  unfold getCtx
  split
  · exact h
  · intro n c hc
    by_cases hn : n = fd
    · rw [hn, Function.update_self] at hc
      rw [← Option.some.inj hc]
      exact ⟨rfl, rfl⟩
    · rw [Function.update_of_ne hn] at hc
      exact h n c hc

/-- A context is enough for `init`. -/
theorem init_of_known (h : Known t.contexts) (fd : ℕ) :
    t.init fd = if (t.contexts fd).isSome then some ⟨some fd, true⟩ else none := by
  unfold init
  cases hctx : t.contexts fd with
  | none => rfl
  | some c =>
    obtain ⟨hsocket, hclosed⟩ := h fd c hctx
    dsimp only
    rw [hsocket, hclosed]
    rfl

theorem move_accept (h : Known t.contexts) (hi : t.objects i = none) (hfd : t.Unused o) :
    Move true t.descriptors (t.accept i o).descriptors := by
  have hheld : t.held i = none := held_of_absent hi
  cases o with
  | none =>
    have hsame : (none : Option Socket).bind Socket.sock = t.held i := hheld.symm
    rw [accept, acceptFd, Option.bind_none, descriptors_put_same hsame]
    exact Move.stay
  | some fd =>
    have hopened : Known (t.openFd (0 < fd) fd).contexts := by
      unfold openFd
      dsimp only
      split
      · exact known_getCtx h fd
      · exact h
    rw [accept, acceptFd, Option.bind_some, init_of_known hopened]
    by_cases hctx : ((t.openFd (0 < fd) fd).contexts fd).isSome = true
    · rw [if_pos hctx]
      refine move_open hheld (hfd fd rfl) rfl fun _ => ?_
      by_cases hzero : 0 < fd
      · exact Or.inl (decide_eq_true hzero)
      · refine Or.inr fun hnone => ?_
        rw [decide_eq_false hzero] at hctx
        have hsome : (t.contexts fd).isSome = true := hctx
        rw [hnone] at hsome
        cases hsome
    · rw [if_neg hctx]
      have hzero : fd = 0 := by
        by_contra hne
        refine hctx ?_
        rw [openFd, decide_eq_true (Nat.pos_of_ne_zero hne)]
        exact getCtx_isSome t.contexts fd
      subst hzero
      have hsame : (none : Option Socket).bind Socket.sock = (t.openFd (0 < 0) 0).held i := hheld.symm
      rw [descriptors_put_same hsame]
      exact Move.lose (d := t.descriptors) (hfd 0 rfl)

/-- Every step is a move on the descriptors. -/
theorem move_step (h : Known t.contexts) (hstep : Step t e u) : Move e.hook t.descriptors u.descriptors := by
  cases hstep with
  | createTCP hi =>
    rw [descriptors_put_same (s := some ⟨none, false⟩) (held_of_absent hi).symm]
    exact Move.stay
  | createUDP hi hfd => exact move_socket (held_of_absent hi) hfd rfl
  | bind hi hfd => exact move_ensure hi hfd
  | connect hi hfd =>
    rw [descriptors_connect]
    exact move_ensure hi hfd
  | @connected i fd s hook ok hi _ _ =>
    let left : Sockets := { t with connecting := t.connecting.erase (i, fd) }
    change Move hook left.descriptors (if ok then left.put i (some ⟨s.sock, true⟩) else left.close i s hook).descriptors
    split
    · rw [descriptors_put_same (s := some ⟨s.sock, true⟩) (held_of_object (t := left) hi).symm]
      exact Move.stay
    · exact move_close (t := left) hi
  | accept hi hfd => exact move_accept h hi hfd
  | close hi => exact move_close hi
  | @destroy i s hook hi _ =>
    have hsame : (none : Option Socket).bind Socket.sock = (t.close i s hook).held i := (held_close hi hook).symm
    rw [descriptors_put_same hsame]
    exact move_close hi
  | openOther hfd => exact Move.takeOther (d := t.descriptors) hfd
  | closeOther hfd => exact Move.releaseOther (d := t.descriptors) hfd

/-! ## Whose the descriptors are -/

/-- No two have the same descriptor, what a socket has is open, and only 0 may be open with nobody who has it. -/
def Descriptors.Owned (d : Descriptors) : Prop := Lib.Owned d.held d.opened d.others {0}

theorem owned_move {d d' : Descriptors} (h : d.Owned) (hmove : Move hook d d') : d'.Owned := by
  cases hmove with
  | stay => exact h
  | take hi hfd _ => exact h.take hi hfd
  | lose _ => exact h.lose rfl
  | release hi => exact h.release hi
  | takeOther hfd => exact h.takeOther hfd
  | releaseOther hfd => exact h.releaseOther hfd

theorem known_if {contexts : ℕ → Option FdCtx} (h : Known contexts) (known : Bool) (fd : ℕ) :
    Known (if known then getCtx contexts fd else contexts) := by
  split
  · exact known_getCtx h fd
  · exact h

theorem known_del {contexts : ℕ → Option FdCtx} (h : Known contexts) (hook : Bool) (fd : ℕ) :
    Known (if hook then Function.update contexts fd none else contexts) := by
  split
  · intro n c hc
    rcases Lib.Owned.update_eq_some hc with ⟨-, hnone⟩ | ⟨-, hc⟩
    · cases hnone
    · exact h n c hc
  · exact h

theorem known_move {d d' : Descriptors} (h : Known d.contexts) (hmove : Move hook d d') : Known d'.contexts := by
  cases hmove with
  | stay => exact h
  | take _ _ _ => exact known_if h _ _
  | lose _ => exact h
  | release _ => exact known_del h _ _
  | takeOther _ => exact known_if h _ _
  | releaseOther _ => exact known_del h _ _

/-- What every run keeps. -/
structure Kept (t : Sockets) : Prop where
  owned : t.descriptors.Owned
  known : Known t.contexts

theorem kept_start (others : Finset ℕ) : (start others).Kept := by
  refine ⟨Lib.Owned.start others {0}, fun fd c hc => ?_⟩
  cases hc

theorem Kept.step (h : t.Kept) (hstep : Step t e u) : u.Kept := by
  have hmove := move_step h.known hstep
  exact ⟨owned_move h.owned hmove, known_move h.known hmove⟩

variable {others : Finset ℕ} {es : List SocketsEvent}

/-- In every run a descriptor that a socket has is open and nobody else has it, so that `close` closes no other; all
that is open is had by somebody, except for 0. -/
theorem descriptors_owned (h : Run Step (start others) es t) : Lib.Owned t.held t.opened t.others {0} := by
  have hkept : t.Kept := h.keeps (fun _ _ _ ht hstep => ht.step hstep) (kept_start others)
  exact hkept.owned

theorem descriptors_owned_sample : ∃ es t, Run Step (start {0, 1, 2}) es t ∧ t.held 7 = some 3 ∧ t.held 8 = some 4 ∧
    Lib.Owned t.held t.opened t.others {0} := by
  obtain ⟨es, t, hrun, hclient, hserver⟩ := sample_run
  have hsteps : Run Step (start {0, 1, 2}) es t := hrun.mono fun _ _ _ hstep => hstep.1
  exact ⟨es, t, hsteps, held_of_object hclient, hserver, descriptors_owned hsteps⟩

/-- Where 0 is closed, a client that gets it is lost. -/
example : ((start ∅).accept 8 (some 0)).held 8 = none ∧ 0 ∈ ((start ∅).accept 8 (some 0)).opened := by decide

/-! ## Contexts that are not left behind -/

/-- What a socket has is known, and what is known is open. -/
structure Descriptors.Current (d : Descriptors) : Prop where
  held : ∀ i fd, d.held i = some fd → d.contexts fd ≠ none
  live : ∀ fd, d.contexts fd ≠ none → fd ∈ d.opened

theorem if_getCtx_of_ne (contexts : ℕ → Option FdCtx) (known : Bool) {n : ℕ} (h : n ≠ fd) :
    (if known then getCtx contexts fd else contexts) n = contexts n := by
  split
  · exact getCtx_of_ne contexts h
  · rfl

theorem current_open {d : Descriptors} (h : d.Current) (known : Bool) (n : ℕ)
    (hn : (if known then getCtx d.contexts fd else d.contexts) n ≠ none) : n ∈ insert fd d.opened := by
  by_cases hfd : n = fd
  · rw [hfd]
    exact Finset.mem_insert_self fd d.opened
  · rw [if_getCtx_of_ne d.contexts known hfd] at hn
    exact Finset.mem_insert_of_mem (h.live n hn)

theorem current_close {d : Descriptors} (h : d.Current) (n : ℕ) (hn : Function.update d.contexts fd none n ≠ none) :
    n ∈ d.opened.erase fd := by
  by_cases hfd : n = fd
  · rw [hfd, Function.update_self] at hn
    exact absurd rfl hn
  · rw [Function.update_of_ne hfd] at hn
    exact Finset.mem_erase.mpr ⟨hfd, h.live n hn⟩

theorem current_move {d d' : Descriptors} (howned : d.Owned) (h : d.Current) (hmove : Move true d d') : d'.Current := by
  cases hmove with
  | stay => exact h
  | @take i fd known hi hfd hknown =>
    refine ⟨fun j q hj => ?_, current_open h known⟩
    rcases Lib.Owned.update_eq_some hj with ⟨-, hq⟩ | ⟨-, hq⟩
    · obtain rfl := Option.some.inj hq
      have hknown' : known = true := (hknown rfl).resolve_right fun hctx => hfd (h.live fd hctx)
      dsimp only
      rw [if_pos hknown']
      exact Option.isSome_iff_ne_none.mp (getCtx_isSome d.contexts fd)
    · have hne : q ≠ fd := fun heq => hfd (heq ▸ howned.given j q hq)
      dsimp only
      rw [if_getCtx_of_ne d.contexts known hne]
      exact h.held j q hq
  | lose _ => exact ⟨h.held, fun n hn => Finset.mem_insert_of_mem (h.live n hn)⟩
  | @release i fd hi =>
    refine ⟨fun j q hj => ?_, current_close h⟩
    rcases Lib.Owned.update_eq_some hj with ⟨-, hq⟩ | ⟨hji, hq⟩
    · cases hq
    · have hne : q ≠ fd := by
        rintro rfl
        exact hji (howned.alone j i q hq hi)
      dsimp only
      rw [if_pos rfl, Function.update_of_ne hne]
      exact h.held j q hq
  | @takeOther fd known hfd =>
    refine ⟨fun j q hq => ?_, current_open h known⟩
    have hne : q ≠ fd := fun heq => hfd (heq ▸ howned.given j q hq)
    dsimp only
    rw [if_getCtx_of_ne d.contexts known hne]
    exact h.held j q hq
  | @releaseOther fd hfd =>
    refine ⟨fun j q hq => ?_, current_close h⟩
    have hne : q ≠ fd := by
      rintro rfl
      exact howned.apart j q hq hfd
    dsimp only
    rw [if_pos rfl, Function.update_of_ne hne]
    exact h.held j q hq

/-- Where all threads are hooked, no context outlives its descriptor, and every socket with a descriptor has one. -/
theorem contexts_current (h : Run (fun t e u => Step t e u ∧ e.hook = true) (start others) es t) :
    t.descriptors.Current := by
  have hstart : (start others).descriptors.Current := by
    refine ⟨fun i fd hi => ?_, fun fd hfd => absurd rfl hfd⟩
    cases hi
  have hboth : t.Kept ∧ t.descriptors.Current := by
    refine h.keeps (P := fun t => t.Kept ∧ t.descriptors.Current) ?_ ⟨kept_start others, hstart⟩
    rintro t e u ⟨hkept, hcurrent⟩ ⟨hstep, hook⟩
    have hmove := move_step hkept.known hstep
    rw [hook] at hmove
    exact ⟨hkept.step hstep, current_move hkept.owned hcurrent hmove⟩
  exact hboth.2

theorem contexts_current_sample : ∃ es t, Run (fun t e u => Step t e u ∧ e.hook = true) (start {0, 1, 2}) es t ∧
    t.held 8 = some 4 ∧ t.contexts 4 ≠ none ∧ t.descriptors.Current := by
  obtain ⟨es, t, hrun, -, hserver⟩ := sample_run
  have hsteps : Run (fun t e u => Step t e u ∧ e.hook = true) (start {0, 1, 2}) es t :=
    hrun.mono fun _ _ _ hstep => ⟨hstep.1, hstep.2.1⟩
  have hcurrent : t.descriptors.Current := contexts_current hsteps
  exact ⟨es, t, hsteps, hserver, hcurrent.held 8 4 hserver, hcurrent⟩

/-! ## Connected sockets -/

/-- A call in `::connect` has the descriptor of its socket, or one that is closed. -/
def Awaited (d : Descriptors) (calls : List (ℕ × ℕ)) : Prop :=
  ∀ c ∈ calls, d.held c.1 = some c.2 ∨ c.2 ∉ d.opened

theorem awaited_move {d d' : Descriptors} {calls : List (ℕ × ℕ)} (h : Awaited d calls) (hmove : Move hook d d')
    (hspared : ∀ c ∈ calls, c.2 ∈ d'.opened → c.2 ∈ d.opened) : Awaited d' calls := by
  intro c hc
  rcases h c hc with hheld | hclosed
  · cases hmove with
    | stay => exact Or.inl hheld
    | @take i fd known hi _ _ =>
      refine Or.inl ?_
      dsimp only
      rw [Function.update_of_ne, hheld]
      rintro rfl
      rw [hi] at hheld
      cases hheld
    | lose _ => exact Or.inl hheld
    | @release i fd hi =>
      by_cases hci : c.1 = i
      · rw [hci, hi] at hheld
        rw [← Option.some.inj hheld]
        exact Or.inr (Finset.notMem_erase fd d.opened)
      · refine Or.inl ?_
        dsimp only
        rw [Function.update_of_ne hci, hheld]
    | takeOther _ => exact Or.inl hheld
    | releaseOther _ => exact Or.inl hheld
  · exact Or.inr fun hopened => hclosed (hspared c hc hopened)

theorem opened_socket {n : ℕ} (h : n ∈ (t.socket hook o).opened) : n ∈ t.opened ∨ o = some n := by
  cases o with
  | none => exact Or.inl h
  | some fd =>
    rcases Finset.mem_insert.mp h with rfl | h
    · exact Or.inr rfl
    · exact Or.inl h

theorem opened_ensure {n : ℕ} (h : n ∈ (t.ensure i s hook o).opened) : n ∈ t.opened ∨ o = some n := by
  unfold ensure at h
  split at h
  · exact Or.inl h
  · exact opened_socket h

theorem opened_close {n : ℕ} (h : n ∈ (t.close i s hook).opened) : n ∈ t.opened := by
  unfold close at h
  split at h
  · exact h
  · split at h
    · exact h
    · exact Finset.mem_of_mem_erase h

theorem opened_step {n : ℕ} (hstep : Step t e u) (h : n ∈ u.opened) : n ∈ t.opened ∨ e.opens = some n := by
  cases hstep with
  | createTCP _ => exact Or.inl h
  | createUDP _ _ => exact opened_socket h
  | bind _ _ => exact opened_ensure h
  | @connect i s hook fd family _ _ =>
    have hsame : (t.connect i s hook fd family).opened = (t.ensure i s hook fd).opened :=
      congrArg Descriptors.opened (descriptors_connect family)
    rw [hsame] at h
    exact opened_ensure h
  | @connected i fd s hook ok _ _ _ =>
    unfold connected at h
    dsimp only at h
    split at h
    · exact Or.inl h
    · exact Or.inl (opened_close (t := { t with connecting := t.connecting.erase (i, fd) }) h)
  | @accept i fd _ _ =>
    cases fd with
    | none => exact Or.inl h
    | some fd =>
      have hopened : n ∈ (t.socket (0 < fd) (some fd)).opened := h
      exact opened_socket hopened
  | close _ => exact Or.inl (opened_close h)
  | destroy _ _ => exact Or.inl (opened_close h)
  | openOther _ =>
    rcases Finset.mem_insert.mp h with rfl | h
    · exact Or.inr rfl
    · exact Or.inl h
  | closeOther _ => exact Or.inl (Finset.mem_of_mem_erase h)

theorem connecting_socket (t : Sockets) (hook : Bool) (o : Option ℕ) : (t.socket hook o).connecting = t.connecting := by
  cases o <;> rfl

theorem connecting_ensure : (t.ensure i s hook o).connecting = t.connecting := by
  unfold ensure
  split
  · rfl
  · exact connecting_socket t hook o

theorem connecting_close : (t.close i s hook).connecting = t.connecting := by
  unfold close
  split
  · rfl
  · split <;> rfl

theorem connecting_step (hstep : Step t e u) {c : ℕ × ℕ} (hc : c ∈ u.connecting) :
    c ∈ t.connecting ∨ u.held c.1 = some c.2 := by
  cases hstep with
  | createTCP _ => exact Or.inl hc
  | createUDP _ _ => exact Or.inl (connecting_socket t _ _ ▸ hc)
  | bind _ _ => exact Or.inl (connecting_ensure ▸ hc)
  | @connect i s hook o family _ _ =>
    have hheld : (t.connect i s hook o family).held = (t.ensure i s hook o).held :=
      congrArg Descriptors.held (descriptors_connect family)
    rw [hheld]
    unfold connect at hc
    dsimp only at hc
    split at hc
    · exact Or.inl (connecting_ensure ▸ hc)
    · rename_i fd hfd
      split at hc
      · rcases List.mem_append.mp hc with hc | hc
        · exact Or.inl (connecting_ensure ▸ hc)
        · rw [List.mem_singleton.mp hc]
          exact Or.inr hfd
      · exact Or.inl (connecting_ensure ▸ hc)
  | @connected i fd s hook ok _ _ _ =>
    unfold connected at hc
    dsimp only at hc
    split at hc
    · exact Or.inl (List.mem_of_mem_erase hc)
    · rw [connecting_close] at hc
      exact Or.inl (List.mem_of_mem_erase hc)
  | @accept i fd _ _ =>
    cases fd with
    | none => exact Or.inl hc
    | some fd => exact Or.inl hc
  | close _ => exact Or.inl (connecting_close ▸ hc)
  | destroy _ _ => exact Or.inl (connecting_close (t := t) ▸ hc)
  | openOther _ => exact Or.inl hc
  | closeOther _ => exact Or.inl hc

/-- Who believes to be connected has a descriptor. -/
def Valid (objects : ℕ → Option Socket) : Prop := ∀ i s, objects i = some s → s.isConnected = true → s.sock ≠ none

theorem valid_put {objects : ℕ → Option Socket} (h : Valid objects) (hs : s.isConnected = true → s.sock ≠ none) :
    Valid (Function.update objects i (some s)) := by
  intro j s' hj hconnected
  rcases Lib.Owned.update_eq_some hj with ⟨-, heq⟩ | ⟨-, hs'⟩
  · obtain rfl := Option.some.inj heq
    exact hs hconnected
  · exact h j s' hs' hconnected

theorem valid_put_none {objects : ℕ → Option Socket} (h : Valid objects) :
    Valid (Function.update objects i none) := by
  intro j s hj hconnected
  rcases Lib.Owned.update_eq_some hj with ⟨-, hnone⟩ | ⟨-, hs⟩
  · cases hnone
  · exact h j s hs hconnected

theorem objects_socket (t : Sockets) (hook : Bool) (o : Option ℕ) : (t.socket hook o).objects = t.objects := by
  cases o <;> rfl

theorem valid_ensure (h : Valid t.objects) (hi : t.objects i = some s) : Valid (t.ensure i s hook o).objects := by
  unfold ensure
  split
  · exact h
  · rename_i hnone
    refine valid_put ((objects_socket t hook o).symm ▸ h) fun hconnected => ?_
    exact absurd (Option.isSome_iff_ne_none.mpr (h i s hi hconnected)) hnone

theorem valid_close (h : Valid t.objects) : Valid (t.close i s hook).objects := by
  unfold close
  split
  · exact h
  · split
    · exact valid_put h fun hconnected => absurd hconnected Bool.false_ne_true
    · exact valid_put h fun hconnected => absurd hconnected Bool.false_ne_true

theorem valid_init (h : Valid t.objects) (v : Sockets) (n : ℕ) : Valid (Function.update t.objects i (v.init n)) := by
  unfold init
  split
  · exact valid_put_none h
  · split
    · exact valid_put h fun _ => Option.some_ne_none n
    · exact valid_put_none h

theorem valid_step (h : Valid t.objects) (hcalls : Awaited t.descriptors t.connecting) (hspared : t.Spared e)
    (hstep : Step t e u) : Valid u.objects := by
  cases hstep with
  | createTCP _ => exact valid_put h fun hconnected => absurd hconnected Bool.false_ne_true
  | @createUDP i hook fd _ _ =>
    refine valid_put ((objects_socket t hook fd).symm ▸ h) fun _ hnone => hspared.2 i hook ?_
    rw [show fd = none from hnone]
  | bind hi _ => exact valid_ensure h hi
  | @connect i s hook fd family hi _ =>
    have hsame : (t.connect i s hook fd family).objects = (t.ensure i s hook fd).objects := by
      unfold connect
      dsimp only
      split
      · rfl
      · split <;> rfl
    rw [hsame]
    exact valid_ensure h hi
  | @connected i fd s hook ok hi hcall hok =>
    unfold connected
    dsimp only
    split
    · rename_i htrue
      -- the descriptor of the call is open, so that it is the one of the socket
      have hheld : t.held i = some fd := (hcalls _ hcall).resolve_right fun hclosed => hclosed (hok htrue)
      rw [held_of_object hi] at hheld
      refine valid_put h fun _ => ?_
      rw [show s.sock = some fd from hheld]
      exact Option.some_ne_none fd
    · exact valid_close (t := { t with connecting := t.connecting.erase (i, fd) }) h
  | @accept i fd _ _ =>
    cases fd with
    | none => exact valid_put_none h
    | some fd => exact valid_init h _ fd
  | close _ => exact valid_close h
  | destroy _ _ => exact valid_put_none (valid_close h)
  | openOther _ => exact h
  | closeOther _ => exact h

/-- A socket that says that it is connected has an open descriptor, where no number of a call in `::connect` is given
out again and every UDP socket gets a descriptor. -/
theorem connected_valid (h : Run (fun t e u => Step t e u ∧ t.Spared e) (start others) es t)
    (hi : t.objects i = some s) (hconnected : s.isConnected = true) : ∃ fd ∈ t.opened, s.sock = some fd := by
  let P (t : Sockets) : Prop := t.Kept ∧ Awaited t.descriptors t.connecting ∧ Valid t.objects
  have hstart : P (start others) := by
    refine ⟨kept_start others, fun c hc => ?_, fun i s hs => ?_⟩
    · cases hc
    · cases hs
  have hall : P t := by
    refine h.keeps ?_ hstart
    rintro t e u ⟨hkept, hcalls, hvalid⟩ ⟨hstep, hspared⟩
    refine ⟨hkept.step hstep, ?_, valid_step hvalid hcalls hspared hstep⟩
    have hbefore : Awaited u.descriptors t.connecting := by
      refine awaited_move hcalls (move_step hkept.known hstep) fun c hc hopened => ?_
      refine (opened_step hstep hopened).resolve_right fun hopens => ?_
      exact hspared.1 c.2 hopens c hc rfl
    intro c hc
    rcases connecting_step hstep hc with hc | hheld
    · exact hbefore c hc
    · exact Or.inl hheld
  obtain ⟨hkept, -, hvalid⟩ := hall
  obtain ⟨fd, hfd⟩ := Option.ne_none_iff_exists'.mp (hvalid i s hi hconnected)
  exact ⟨fd, hkept.owned.given i fd ((held_of_object hi).trans hfd), hfd⟩

theorem connected_valid_sample : ∃ es t, Run (fun t e u => Step t e u ∧ t.Spared e) (start {0, 1, 2}) es t ∧
    t.objects 7 = some ⟨some 3, true⟩ ∧ 3 ∈ t.opened := by
  obtain ⟨es, t, hrun, hclient, -⟩ := sample_run
  have hsteps : Run (fun t e u => Step t e u ∧ t.Spared e) (start {0, 1, 2}) es t :=
    hrun.mono fun _ _ _ hstep => ⟨hstep.1, hstep.2.2⟩
  obtain ⟨fd, hopened, hfd⟩ := connected_valid hsteps hclient rfl
  obtain rfl := Option.some.inj hfd
  exact ⟨es, t, hsteps, hclient, hopened⟩

end Sockets
end Flz
