import Flz.Lib.Runs
import Mathlib.Algebra.BigOperators.Group.List.Basic
import Mathlib.Data.List.Perm.Basic
import Mathlib.Data.UInt
import Mathlib.Tactic.Cases

/-! # A server from its start to its end

`TcpServer::start`, `startAccept` and `stop` of `src/tcp_server.cc` on a server whose sockets are bound, while the fibers
of `m_acceptWorker` and of `m_ioWorker` run in any order. A call of `start` or of `stop` is one step, and so is what a
fiber does from one of its calls to the next.
-/
namespace Flz.TcpServer
open Lib
variable {σ κ : Type}

/-- What is scheduled on `m_acceptWorker`: `startAccept`, or the function that `stop` schedules. -/
inductive Task (σ : Type)
  | startAccept (sock : σ)
  | close
  deriving DecidableEq, Repr

/-- A fiber in the loop of `startAccept`: before its test, or in `accept`. -/
structure Accepting (σ : Type) where
  sock : σ
  inAccept : Bool
  deriving DecidableEq, Repr

/-- The members that the functions use, what the schedulers have to run, the fibers in `startAccept`, the sockets that
are closed, and the clients that came out of `accept` and that `handleClient` was called with. -/
structure Server (σ κ : Type) where
  m_isStop : Bool
  m_socks : List σ
  m_recvTimeout : UInt64
  acceptWorker : List (Task σ)
  loops : List (Accepting σ)
  ioWorker : List (κ × UInt64)
  closed : List σ
  accepted : List κ
  handled : List κ

namespace Server

/-- After `bind`. -/
def bound (socks : List σ) (recvTimeout : UInt64) : Server σ κ where
  m_isStop := true
  m_socks := socks
  m_recvTimeout := recvTimeout
  acceptWorker := []
  loops := []
  ioWorker := []
  closed := []
  accepted := []
  handled := []

def start (s : Server σ κ) : Server σ κ :=
  if !s.m_isStop then s
  else { s with m_isStop := false, acceptWorker := s.acceptWorker ++ s.m_socks.map .startAccept }

def stop (s : Server σ κ) : Server σ κ := { s with m_isStop := true, acceptWorker := s.acceptWorker ++ [.close] }

/-- A task is taken off the queue, of which `rest` is left. -/
def run (s : Server σ κ) (task : Task σ) (rest : List (Task σ)) : Server σ κ :=
  match task with
  | .startAccept sock => { s with acceptWorker := rest, loops := s.loops ++ [⟨sock, false⟩] }
  | .close => { s with acceptWorker := rest, closed := s.closed ++ s.m_socks, m_socks := [] }

/-- `while(!m_isStop)`. -/
def test (s : Server σ κ) (before after : List (Accepting σ)) (sock : σ) : Server σ κ :=
  { s with loops := if s.m_isStop then before ++ after else before ++ ⟨sock, true⟩ :: after }

/-- The body of the loop with a client, whose timeout is set before it is passed on. -/
def accept (s : Server σ κ) (before after : List (Accepting σ)) (sock : σ) (client : κ) : Server σ κ :=
  { s with
    loops := before ++ ⟨sock, false⟩ :: after
    ioWorker := s.ioWorker ++ [(client, s.m_recvTimeout)]
    accepted := s.accepted ++ [client] }

/-- The body of the loop without a client. -/
def fail (s : Server σ κ) (before after : List (Accepting σ)) (sock : σ) : Server σ κ :=
  { s with loops := before ++ ⟨sock, false⟩ :: after }

def handle (s : Server σ κ) (client : κ) (rest : List (κ × UInt64)) : Server σ κ :=
  { s with ioWorker := rest, handled := s.handled ++ [client] }

end Server

/-- The calls from outside, and what the fibers do. `accept` may fail at any time, and can only fail on a closed
socket. -/
inductive Event (σ κ : Type)
  | start
  | stop
  | run (task : Task σ)
  | test
  | accept (client : κ)
  | fail
  | failClosed
  | handle (client : κ)

inductive Step : Server σ κ → Event σ κ → Server σ κ → Prop
  | start (s : Server σ κ) : Step s .start s.start
  | stop (s : Server σ κ) : Step s .stop s.stop
  | run {s : Server σ κ} {before after : List (Task σ)} {task : Task σ} (h : s.acceptWorker = before ++ task :: after) :
    Step s (.run task) (s.run task (before ++ after))
  | test {s : Server σ κ} {before after : List (Accepting σ)} {sock : σ} (h : s.loops = before ++ ⟨sock, false⟩ :: after) :
    Step s .test (s.test before after sock)
  | accept {s : Server σ κ} {before after : List (Accepting σ)} {sock : σ} {client : κ}
    (h : s.loops = before ++ ⟨sock, true⟩ :: after) (hopen : sock ∉ s.closed) :
    Step s (.accept client) (s.accept before after sock client)
  | fail {s : Server σ κ} {before after : List (Accepting σ)} {sock : σ} (h : s.loops = before ++ ⟨sock, true⟩ :: after)
    (hopen : sock ∉ s.closed) : Step s .fail (s.fail before after sock)
  | failClosed {s : Server σ κ} {before after : List (Accepting σ)} {sock : σ}
    (h : s.loops = before ++ ⟨sock, true⟩ :: after) (hclosed : sock ∈ s.closed) :
    Step s .failClosed (s.fail before after sock)
  | handle {s : Server σ κ} {before after : List (κ × UInt64)} {client : κ} {timeout : UInt64}
    (h : s.ioWorker = before ++ (client, timeout) :: after) : Step s (.handle client) (s.handle client (before ++ after))

/-! ## Clients -/

/-- The clients that came out of `accept`. -/
def clients : List (Event σ κ) → List κ
  | [] => []
  | .accept client :: es => client :: clients es
  | _ :: es => clients es

section
variable {s t : Server σ κ} {e : Event σ κ} {es fs : List (Event σ κ)} {socks : List σ} {recvTimeout : UInt64}

theorem clients_append (es fs : List (Event σ κ)) : clients (es ++ fs) = clients es ++ clients fs := by
  induction es with
  | nil => rfl
  | cons e es ih =>
    cases e with
    | accept client => exact congrArg (client :: ·) ih
    | _ => exact ih

/-- Where the clients are. -/
structure Kept (es : List (Event σ κ)) (s : Server σ κ) : Prop where
  accepted : s.accepted = clients es
  handled : (s.handled ++ s.ioWorker.map Prod.fst).Perm s.accepted
  timeouts : ∀ c ∈ s.ioWorker, c.2 = s.m_recvTimeout

/-- A step without a client keeps the clients where they are. -/
theorem Kept.same (h : Kept es s) (hnone : clients [e] = []) (haccepted : t.accepted = s.accepted)
    (hhandled : t.handled = s.handled) (hio : t.ioWorker = s.ioWorker) (htimeout : t.m_recvTimeout = s.m_recvTimeout) :
    Kept (es ++ [e]) t where
  accepted := by rw [clients_append, hnone, List.append_nil, haccepted, h.accepted]
  handled := by
    rw [hhandled, hio, haccepted]
    exact h.handled
  timeouts := by
    rw [hio, htimeout]
    exact h.timeouts

theorem kept_step (h : Kept es s) (hstep : Step s e t) : Kept (es ++ [e]) t := by
  cases hstep with
  | start =>
    unfold Server.start
    split <;> exact h.same rfl rfl rfl rfl rfl
  | stop => exact h.same rfl rfl rfl rfl rfl
  | @run before after task _ => cases task <;> exact h.same rfl rfl rfl rfl rfl
  | test _ => exact h.same rfl rfl rfl rfl rfl
  | @accept before after sock client _ _ =>
    refine ⟨?_, ?_, ?_⟩
    · rw [Server.accept, h.accepted, clients_append]
      rfl
    · rw [Server.accept, List.map_append, ← List.append_assoc]
      exact h.handled.append_right [client]
    · intro c hc
      rcases List.mem_append.mp hc with hc | hc
      · exact h.timeouts c hc
      · rw [List.mem_singleton.mp hc]
        rfl
  | fail _ _ => exact h.same rfl rfl rfl rfl rfl
  | failClosed _ _ => exact h.same rfl rfl rfl rfl rfl
  | @handle before after client timeout hio =>
    have hperm := h.handled
    rw [hio, List.map_append, List.map_cons] at hperm
    refine ⟨?_, List.Perm.trans ?_ hperm, fun c hc => h.timeouts c ?_⟩
    · rw [clients_append]
      exact h.accepted.trans (List.append_nil _).symm
    · rw [Server.handle, List.append_assoc, List.map_append]
      exact (@List.perm_middle κ client (before.map Prod.fst) (after.map Prod.fst)).symm.append_left s.handled
    · rw [hio]
      rcases List.mem_append.mp hc with hc | hc
      · exact List.mem_append_left _ hc
      · exact List.mem_append_right _ (List.mem_cons_of_mem _ hc)

theorem kept_run (h : Run Step (Server.bound socks recvTimeout) es s) : Kept es s :=
  h.keeps_history (fun _ _ _ _ => kept_step) ⟨rfl, List.Perm.refl _, fun c hc => by cases hc⟩

/-! ## Sockets -/

/-- A fiber is in `startAccept` with the socket, or there is to be one. -/
def Server.Serves (s : Server σ κ) (sock : σ) : Prop :=
  .startAccept sock ∈ s.acceptWorker ∨ ∃ inAccept, ⟨sock, inAccept⟩ ∈ s.loops

/-- The sockets that are served are those of the server, until they are closed. -/
def SocksKept (s : Server σ κ) : Prop := ∀ sock, s.Serves sock → sock ∈ s.m_socks ∨ sock ∈ s.closed

theorem serves_loops {before after : List (Accepting σ)} {sock other : σ} {b b' : Bool} (hserves : t.Serves other)
    (h : s.loops = before ++ ⟨sock, b⟩ :: after) (hworker : t.acceptWorker = s.acceptWorker)
    (hloops : t.loops = before ++ ⟨sock, b'⟩ :: after ∨ t.loops = before ++ after) : s.Serves other := by
  rcases hserves with htask | ⟨inAccept, hloop⟩
  · exact Or.inl (hworker ▸ htask)
  · have hmem : ∀ l : Accepting σ, l ∈ before ++ after → l ∈ s.loops := by
      intro l hl
      rw [h]
      rcases List.mem_append.mp hl with hl | hl
      · exact List.mem_append_left _ hl
      · exact List.mem_append_right _ (List.mem_cons_of_mem _ hl)
    rcases hloops with heq | heq <;> rw [heq] at hloop
    · rcases List.mem_append.mp hloop with hloop | hloop
      · exact Or.inr ⟨inAccept, hmem _ (List.mem_append_left _ hloop)⟩
      · rcases List.mem_cons.mp hloop with hsame | hloop
        · refine Or.inr ⟨b, ?_⟩
          rw [h, (Accepting.mk.injEq .. ▸ hsame : other = sock ∧ inAccept = b').1]
          exact List.mem_append_right _ List.mem_cons_self
        · exact Or.inr ⟨inAccept, hmem _ (List.mem_append_right _ hloop)⟩
    · exact Or.inr ⟨inAccept, hmem _ hloop⟩

theorem mem_of_mem_rest {α : Type} {before after : List α} {a x : α} (h : x ∈ before ++ after) :
    x ∈ before ++ a :: after := by
  rcases List.mem_append.mp h with h | h
  · exact List.mem_append_left _ h
  · exact List.mem_append_right _ (List.mem_cons_of_mem a h)

theorem socksKept_step (h : SocksKept s) (hstep : Step s e t) : SocksKept t := by
  cases hstep with
  | start =>
    unfold Server.start
    split
    · exact h
    · rintro sock (htask | hloop)
      · rcases List.mem_append.mp htask with htask | htask
        · exact h sock (Or.inl htask)
        · obtain ⟨sock', hsock, heq⟩ := List.mem_map.mp htask
          cases heq
          exact Or.inl hsock
      · exact h sock (Or.inr hloop)
  | stop =>
    rintro sock (htask | hloop)
    · rcases List.mem_append.mp htask with htask | htask
      · exact h sock (Or.inl htask)
      · cases List.mem_singleton.mp htask
    · exact h sock (Or.inr hloop)
  | @run before after task hworker =>
    cases task with
    | startAccept sock' =>
      rintro sock (htask | ⟨inAccept, hloop⟩)
      · exact h sock (Or.inl (hworker ▸ mem_of_mem_rest htask))
      · rcases List.mem_append.mp hloop with hloop | hloop
        · exact h sock (Or.inr ⟨inAccept, hloop⟩)
        · cases List.mem_singleton.mp hloop
          exact h _ (Or.inl (hworker ▸ List.mem_append_right before List.mem_cons_self))
    | close =>
      intro sock hserves
      have hbefore : s.Serves sock := hserves.imp_left fun htask => hworker ▸ mem_of_mem_rest htask
      exact Or.inr (List.mem_append.mpr (h sock hbefore).symm)
  | @test before after sock' hloops =>
    intro sock hserves
    refine h sock (@serves_loops _ _ _ _ _ _ _ _ _ true hserves hloops rfl ?_)
    unfold Server.test
    split
    · exact Or.inr rfl
    · exact Or.inl rfl
  | accept hloops _ => exact fun sock hserves => h sock (serves_loops hserves hloops rfl (Or.inl rfl))
  | fail hloops _ => exact fun sock hserves => h sock (serves_loops hserves hloops rfl (Or.inl rfl))
  | failClosed hloops _ => exact fun sock hserves => h sock (serves_loops hserves hloops rfl (Or.inl rfl))
  | handle _ => exact h

theorem socksKept_run (h : Run Step (Server.bound socks recvTimeout) es s) : SocksKept s := by
  refine h.keeps (fun _ _ _ => socksKept_step) ?_
  rintro sock (htask | ⟨inAccept, hloop⟩)
  · cases htask
  · cases hloop

/-! ## The end -/

/-- A step that no call of `start` or of `stop` is. -/
def InnerStep (s : Server σ κ) (e : Event σ κ) (t : Server σ κ) : Prop := Step s e t ∧ e ≠ .start ∧ e ≠ .stop

/-- Only a fiber in `accept` on an open socket, which may wait for a client for ever, has a step left. -/
def Server.Idle (t : Server σ κ) : Prop := ∀ e u, InnerStep t e u → e = .fail ∨ ∃ client, e = .accept client

/-- The steps that are left after `stop`. -/
def Task.work : Task σ → ℕ
  | .startAccept _ => 2
  | .close => 1

def Accepting.work (l : Accepting σ) : ℕ := if l.inAccept then 3 else 1

def Server.work (s : Server σ κ) : ℕ :=
  (s.acceptWorker.map Task.work).sum + (s.loops.map Accepting.work).sum + s.ioWorker.length

/-- The fibers in `accept`. -/
def Server.waiting (s : Server σ κ) : ℕ := (s.loops.filter Accepting.inAccept).length

/-- After `stop`: the sockets are closed, or the task that does it is there. -/
structure Ending (socks : List σ) (s : Server σ κ) : Prop where
  stopped : s.m_isStop = true
  socksKept : SocksKept s
  closing : .close ∈ s.acceptWorker ∨ s.m_socks = []
  socks : ∀ sock ∈ socks, sock ∈ s.m_socks ∨ sock ∈ s.closed

theorem ending_step (h : Ending socks s) (hstep : InnerStep s e t) : Ending socks t := by
  obtain ⟨hstep, hstart, hstop⟩ := hstep
  have hkept := socksKept_step h.socksKept hstep
  cases hstep with
  | start => exact absurd rfl hstart
  | stop => exact absurd rfl hstop
  | @run before after task hworker =>
    cases task with
    | startAccept sock =>
      refine ⟨h.stopped, hkept, h.closing.imp_left fun hclose => ?_, h.socks⟩
      rw [hworker] at hclose
      rcases List.mem_append.mp hclose with hclose | hclose
      · exact List.mem_append_left _ hclose
      · rcases List.mem_cons.mp hclose with hclose | hclose
        · cases hclose
        · exact List.mem_append_right _ hclose
    | close =>
      refine ⟨h.stopped, hkept, Or.inr rfl, fun sock hsock => Or.inr (List.mem_append.mpr ?_)⟩
      exact (h.socks sock hsock).symm
  | test _ => exact ⟨h.stopped, hkept, h.closing, h.socks⟩
  | accept _ _ => exact ⟨h.stopped, hkept, h.closing, h.socks⟩
  | fail _ _ => exact ⟨h.stopped, hkept, h.closing, h.socks⟩
  | failClosed _ _ => exact ⟨h.stopped, hkept, h.closing, h.socks⟩
  | handle _ => exact ⟨h.stopped, hkept, h.closing, h.socks⟩

/-- Every step makes the work less, and a client costs a fiber its place in `accept`. -/
theorem work_step (h : s.m_isStop = true) (hstep : InnerStep s e t) :
    t.work < s.work ∧ (clients [e]).length + t.waiting ≤ s.waiting := by
  obtain ⟨hstep, hstart, hstop⟩ := hstep
  cases hstep with
  | start => exact absurd rfl hstart
  | stop => exact absurd rfl hstop
  | @run before after task hworker =>
    cases task with
    | startAccept sock =>
      simp [Server.work, Server.waiting, Server.run, hworker, Task.work, Accepting.work, clients]
      omega
    | close =>
      simp [Server.work, Server.waiting, Server.run, hworker, Task.work, clients]
  | @test before after sock hloops =>
    simp [Server.work, Server.waiting, Server.test, hloops, h, Accepting.work, clients]
  | @accept before after sock client hloops _ =>
    simp [Server.work, Server.waiting, Server.accept, hloops, Accepting.work, clients]
    omega
  | @fail before after sock hloops _ =>
    simp [Server.work, Server.waiting, Server.fail, hloops, Accepting.work, clients]
  | @failClosed before after sock hloops _ =>
    simp [Server.work, Server.waiting, Server.fail, hloops, Accepting.work, clients]
  | @handle before after client timeout hio =>
    simp [Server.work, Server.waiting, Server.handle, hio, clients]

theorem waiting_run (h : Run InnerStep s es t) (hs : Ending socks s) :
    Ending socks t ∧ (clients es).length + t.waiting ≤ s.waiting := by
  refine h.keeps_history (P := fun es t => Ending socks t ∧ (clients es).length + t.waiting ≤ s.waiting) ?_
    ⟨hs, Nat.le_of_eq (Nat.zero_add _)⟩
  rintro es t e u ⟨ht, hle⟩ hstep
  have hstep' := (work_step ht.stopped hstep).2
  refine ⟨ending_step ht hstep, ?_⟩
  rw [clients_append, List.length_append]
  omega

/-- What is left when nothing is to be done. -/
theorem Ending.idle (h : Ending socks t) (hidle : t.Idle) : t.acceptWorker = [] ∧ t.loops = [] ∧ t.ioWorker = [] ∧
    t.m_socks = [] ∧ ∀ sock ∈ socks, sock ∈ t.closed := by
  have hnot : ∀ {e u}, Step t e u → e ≠ .start → e ≠ .stop → e ≠ .fail → (∀ client, e ≠ .accept client) → False := by
    intro e u hstep hstart hstop hfail haccept
    rcases hidle e u ⟨hstep, hstart, hstop⟩ with he | ⟨client, he⟩
    · exact hfail he
    · exact haccept client he
  have hworker : t.acceptWorker = [] := by
    cases hcases : t.acceptWorker with
    | nil => rfl
    | cons task tasks => exact (hnot (@Step.run _ _ t [] _ _ hcases) (by simp) (by simp) (by simp) (by simp)).elim
  have hio : t.ioWorker = [] := by
    cases hcases : t.ioWorker with
    | nil => rfl
    | cons c cs => exact (hnot (@Step.handle _ _ t [] _ _ c.2 hcases) (by simp) (by simp) (by simp) (by simp)).elim
  have hsocks : t.m_socks = [] := by
    refine h.closing.resolve_left fun hclose => ?_
    rw [hworker] at hclose
    cases hclose
  have hloops : t.loops = [] := by
    cases hcases : t.loops with
    | nil => rfl
    | cons l loops =>
      obtain ⟨sock, inAccept⟩ := l
      cases inAccept with
      | false => exact (hnot (@Step.test _ _ t [] _ _ hcases) (by simp) (by simp) (by simp) (by simp)).elim
      | true =>
        have hserves : t.Serves sock := Or.inr ⟨true, by rw [hcases]; exact List.mem_cons_self⟩
        have hclosed : sock ∈ t.closed := by
          refine (h.socksKept sock hserves).resolve_left fun hsock => ?_
          rw [hsocks] at hsock
          cases hsock
        exact (hnot (@Step.failClosed _ _ t [] _ _ hcases hclosed) (by simp) (by simp) (by simp) (by simp)).elim
  refine ⟨hworker, hloops, hio, hsocks, fun sock hsock => (h.socks sock hsock).resolve_left fun hmem => ?_⟩
  rw [hsocks] at hmem
  cases hmem

/-- The socket of a task. -/
def Task.sock : Task σ → Option σ
  | .startAccept sock => some sock
  | .close => none

/-- The sockets that are served, as often as they are, and `none` for each task that closes them. -/
def Server.served (s : Server σ κ) : List (Option σ) :=
  s.acceptWorker.map Task.sock ++ s.loops.map fun l => some l.sock

/-- What holds as long as `stop` is not called. -/
structure Serving (socks : List σ) (s : Server σ κ) : Prop where
  served : s.served.Perm (if s.m_isStop then [] else socks.map some)
  socks : s.m_socks = socks

theorem serving_step (h : Serving socks s) (hstep : Step s e t) (hstop : e ≠ .stop) : Serving socks t := by
  have hserved := h.served
  cases hstep with
  | start =>
    cases hisStop : s.m_isStop with
    | false =>
      rw [Server.start, hisStop]
      exact h
    | true =>
      have hstart : s.start =
          { s with m_isStop := false, acceptWorker := s.acceptWorker ++ s.m_socks.map .startAccept } := by
        rw [Server.start, hisStop]
        rfl
      have hnil : s.served = [] := by
        rw [hisStop] at hserved
        exact List.perm_nil.mp hserved
      obtain ⟨hworker, hloops⟩ := List.append_eq_nil_iff.mp hnil
      have hmap : (socks.map Task.startAccept).map Task.sock = socks.map some := by
        rw [List.map_map]
        rfl
      rw [hstart]
      refine ⟨?_, h.socks⟩
      rw [Server.served, List.map_append, hworker, hloops, h.socks, hmap, List.nil_append, List.append_nil]
      exact List.Perm.refl _
  | stop => exact absurd rfl hstop
  | @run before after task hworker =>
    cases task with
    | startAccept sock =>
      refine ⟨List.Perm.trans ?_ hserved, h.socks⟩
      simp only [Server.served, Server.run, hworker, List.map_append, List.map_cons, List.append_assoc, Task.sock]
      refine List.Perm.append_left _ ?_
      rw [List.map_nil, ← List.append_assoc]
      exact List.perm_append_singleton _ _
    | close =>
      have hnone : none ∈ s.served := by
        rw [Server.served, hworker, List.map_append, List.map_cons]
        exact List.mem_append_left _ (List.mem_append_right _ List.mem_cons_self)
      have hmem := hserved.mem_iff.mp hnone
      split at hmem
      · cases hmem
      · obtain ⟨sock, -, heq⟩ := List.mem_map.mp hmem
        cases heq
  | @test before after sock hloops =>
    refine ⟨?_, h.socks⟩
    cases hisStop : s.m_isStop with
    | true =>
      rw [hisStop] at hserved
      have hnil := List.perm_nil.mp hserved
      simp [Server.served, hloops] at hnil
    | false =>
      rw [hisStop] at hserved
      simpa [Server.served, Server.test, hloops, hisStop] using hserved
  | @accept before after sock client hloops _ =>
    have hsame : (s.accept before after sock client).served = s.served := by simp [Server.served, Server.accept, hloops]
    exact ⟨hsame ▸ hserved, h.socks⟩
  | @fail before after sock hloops _ =>
    have hsame : (s.fail before after sock).served = s.served := by simp [Server.served, Server.fail, hloops]
    exact ⟨hsame ▸ hserved, h.socks⟩
  | @failClosed before after sock hloops _ =>
    have hsame : (s.fail before after sock).served = s.served := by simp [Server.served, Server.fail, hloops]
    exact ⟨hsame ▸ hserved, h.socks⟩
  | handle _ => exact ⟨hserved, h.socks⟩

/-- Until `stop` is called each socket is served once, however often `start` is, and the clients that were let in are the
ones that were handled, each once, and those that wait for it with the timeout of the server. -/
theorem start_serves (h : Run Step (Server.bound socks recvTimeout) es s) (hstop : .stop ∉ es) :
    s.served.Perm (if s.m_isStop then [] else socks.map some) ∧ s.m_socks = socks ∧ s.accepted = clients es ∧
      (s.handled ++ s.ioWorker.map Prod.fst).Perm s.accepted ∧ ∀ c ∈ s.ioWorker, c.2 = s.m_recvTimeout := by
  have hserving : .stop ∉ es → Serving socks s := by
    refine h.keeps_history (P := fun es s => .stop ∉ es → Serving socks s) ?_ fun _ => ⟨List.Perm.refl _, rfl⟩
    intro es s e t ih hstep hnot
    rw [List.mem_append, not_or] at hnot
    exact serving_step (ih hnot.1) hstep fun he => hnot.2 (List.mem_singleton.mpr he.symm)
  obtain ⟨hserved, hsocks⟩ := hserving hstop
  obtain ⟨haccepted, hhandled, htimeouts⟩ := kept_run h
  exact ⟨hserved, hsocks, haccepted, hhandled, htimeouts⟩

end

/-- One socket, and a client that comes in. -/
def sampleServer : Server ℕ ℕ :=
  (((Server.bound [0] 5).start.run (.startAccept 0) []).test [] [] 0).accept [] [] 0 7

theorem sampleRun : Run Step (Server.bound [0] 5) [.start, .run (.startAccept 0), .test, .accept 7] sampleServer := by
  have hstart : Run Step (Server.bound [0] 5 : Server ℕ ℕ) [.start] _ := .single (.start _)
  have htask := hstart.snoc (@Step.run _ _ _ [] [] (.startAccept 0) rfl)
  have htest := htask.snoc (@Step.test _ _ _ [] [] 0 rfl)
  exact htest.snoc (@Step.accept _ _ _ [] [] 0 7 rfl (by decide))

theorem start_serves_sample : sampleServer.served.Perm (if sampleServer.m_isStop then [] else [0].map some) ∧
    sampleServer.m_socks = [0] ∧
    sampleServer.accepted = clients (σ := ℕ) [.start, .run (.startAccept 0), .test, .accept 7] ∧
    (sampleServer.handled ++ sampleServer.ioWorker.map Prod.fst).Perm sampleServer.accepted ∧
    ∀ c ∈ sampleServer.ioWorker, c.2 = sampleServer.m_recvTimeout :=
  start_serves sampleRun (by simp)

end Flz.TcpServer
