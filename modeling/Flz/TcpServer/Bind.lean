import Mathlib.Data.Int.Notation
import Mathlib.Data.List.Basic
import Mathlib.Tactic.Cases

/-! # Binding a server

`TcpServer::bind` of `src/tcp_server.cc` with what it calls of `src/socket.cc`. An address comes with what the
system makes of the calls for it.
-/
namespace Flz
namespace TcpServer

/-- What is asked of an address. -/
structure AddressKind (α : Type) where
  getFamily : α → ℤ
  isUnix : α → Bool

/-- The answers of `socket`, of `connect` to a unix address, of `bind` and of `listen`. -/
structure Outcome where
  socket : Option ℕ
  connect : Bool
  bind : Bool
  listen : Bool
  deriving DecidableEq, Repr

/-- `m_sock` is `none` for -1; `listening` is what `listen` leaves. -/
structure Socket (α : Type) where
  m_sock : Option ℕ
  m_family : ℤ
  m_localAddress : Option α
  ssl : Bool
  listening : Bool
  deriving DecidableEq, Repr

namespace Socket
variable {α : Type} (k : AddressKind α)

/-- `Socket::CreateTCP` and `SSLSocket::CreateTCP`. -/
def CreateTCP (ssl : Bool) (addr : α) : Socket α where
  m_sock := none
  m_family := k.getFamily addr
  m_localAddress := none
  ssl := ssl
  listening := false

def isValid (s : Socket α) : Bool := s.m_sock.isSome

def newSock (s : Socket α) (o : Outcome) : Socket α := { s with m_sock := o.socket }

def bind (s : Socket α) (addr : α) (o : Outcome) : Bool × Socket α :=
  let s := if s.isValid then s else s.newSock o
  if !s.isValid then (false, s)
  else if k.getFamily addr ≠ s.m_family then (false, s)
  else if k.isUnix addr && o.connect then (false, s)
  else if !o.bind then (false, s)
  else (true, { s with m_localAddress := some addr })

def listen (s : Socket α) (o : Outcome) : Bool × Socket α :=
  if !s.isValid then (false, s) else if !o.listen then (false, s) else (true, { s with listening := true })

end Socket
end TcpServer

structure TcpServer (α : Type) where
  m_socks : List (TcpServer.Socket α)
  m_ssl : Bool
  deriving DecidableEq, Repr

namespace TcpServer
variable {α : Type} (k : AddressKind α)

/-- The body of the loop, for one address. -/
def bindOne (ssl : Bool) (p : TcpServer α × List α) (a : α × Outcome) : TcpServer α × List α :=
  let (bound, sock) := (Socket.CreateTCP k ssl a.1).bind k a.1 a.2
  if !bound then (p.1, p.2 ++ [a.1])
  else
    let (listens, sock) := sock.listen a.2
    if !listens then (p.1, p.2 ++ [a.1]) else ({ p.1 with m_socks := p.1.m_socks ++ [sock] }, p.2)

/-- `bind(addrs, fails, ssl)`, with what is in `fails` behind it. -/
def bind (s : TcpServer α) (addrs : List (α × Outcome)) (fails : List α) (ssl : Bool) :
    Bool × TcpServer α × List α :=
  let (s, fails) := addrs.foldl (bindOne k ssl) ({ s with m_ssl := ssl }, fails)
  if !fails.isEmpty then (false, { s with m_socks := [] }, fails) else (true, s, fails)

/-- `bind(addr, ssl)`. -/
def bindAddress (s : TcpServer α) (addr : α × Outcome) (ssl : Bool) : Bool × TcpServer α :=
  let (ok, s, _) := s.bind k [addr] [] ssl
  (ok, s)

/-- An address can be bound and its socket listens. -/
def Serves (a : α × Outcome) : Prop :=
  a.2.socket.isSome = true ∧ ¬ (k.isUnix a.1 = true ∧ a.2.connect = true) ∧ a.2.bind = true ∧
    a.2.listen = true

instance (a : α × Outcome) : Decidable (Serves k a) := by
  unfold Serves
  infer_instance

/-- The socket of an address that is served. -/
def served (ssl : Bool) (a : α × Outcome) : Socket α where
  m_sock := a.2.socket
  m_family := k.getFamily a.1
  m_localAddress := some a.1
  ssl := ssl
  listening := true

/-- The call succeeds exactly when all of its addresses are served, with a socket for each of them, and leaves
the sockets as they were when it does not; the addresses that fail come behind those of the caller. -/
structure Atomic (s : TcpServer α) (addrs : List (α × Outcome)) (fails : List α) (ssl : Bool) : Prop where
  answer : (s.bind k addrs fails ssl).1 = true ↔ ∀ a ∈ addrs, Serves k a
  gained : (∀ a ∈ addrs, Serves k a) →
    (s.bind k addrs fails ssl).2.1.m_socks = s.m_socks ++ addrs.map (served k ssl)
  kept : ¬ (∀ a ∈ addrs, Serves k a) → (s.bind k addrs fails ssl).2.1.m_socks = s.m_socks
  fails : (s.bind k addrs fails ssl).2.2 = fails ++ (addrs.filter fun a => ¬ Serves k a).map Prod.fst

variable {k} {s : TcpServer α} {addrs : List (α × Outcome)} {fails : List α} {ssl : Bool} {a : α × Outcome}

/-! ## One address -/

theorem bind_CreateTCP (ssl : Bool) (addr : α) (o : Outcome) :
    (Socket.CreateTCP k ssl addr).bind k addr o =
      if o.socket.isSome = true ∧ ¬ (k.isUnix addr = true ∧ o.connect = true) ∧ o.bind = true then
        (true, ⟨o.socket, k.getFamily addr, some addr, ssl, false⟩)
      else (false, ⟨o.socket, k.getFamily addr, none, ssl, false⟩) := by
  have hnew : (Socket.CreateTCP k ssl addr).isValid = false := rfl
  have hsocket : ((Socket.CreateTCP k ssl addr).newSock o).isValid = o.socket.isSome := rfl
  simp only [Socket.bind, hnew, Bool.false_eq_true, if_false, hsocket]
  cases o.socket.isSome with
  | false => simp [Socket.newSock, Socket.CreateTCP]
  | true =>
    by_cases hunix : k.isUnix addr = true ∧ o.connect = true
    · simp [Socket.newSock, Socket.CreateTCP, hunix.1, hunix.2]
    · have hfree : (k.isUnix addr && o.connect) = false := by simpa using hunix
      cases hbind : o.bind <;> simp [Socket.newSock, Socket.CreateTCP, hfree, hunix]

theorem bindOne_eq (ssl : Bool) (p : TcpServer α × List α) (a : α × Outcome) :
    bindOne k ssl p a = if Serves k a then ({ p.1 with m_socks := p.1.m_socks ++ [served k ssl a] }, p.2)
      else (p.1, p.2 ++ [a.1]) := by
  rw [bindOne, bind_CreateTCP]
  by_cases hbound : a.2.socket.isSome = true ∧ ¬ (k.isUnix a.1 = true ∧ a.2.connect = true) ∧ a.2.bind = true
  · rw [if_pos hbound]
    obtain ⟨hsocket, hconnect, hbind⟩ := hbound
    cases hlisten : a.2.listen with
    | false => simp [Socket.listen, Socket.isValid, hsocket, hlisten, Serves]
    | true =>
      rw [if_pos ⟨hsocket, hconnect, hbind, hlisten⟩]
      simp [Socket.listen, Socket.isValid, hsocket, hlisten, served]
  · rw [if_neg hbound, if_neg fun h => hbound ⟨h.1, h.2.1, h.2.2.1⟩]
    rfl

/-! ## All addresses -/

theorem foldl_bindOne (ssl : Bool) (addrs : List (α × Outcome)) (p : TcpServer α × List α) :
    addrs.foldl (bindOne k ssl) p =
      ({ p.1 with m_socks := p.1.m_socks ++ (addrs.filter fun a => Serves k a).map (served k ssl) },
        p.2 ++ (addrs.filter fun a => ¬ Serves k a).map Prod.fst) := by
  induction addrs generalizing p with
  | nil => simp
  | cons a addrs ih =>
    rw [List.foldl_cons, ih]
    by_cases ha : Serves k a
    · simp [bindOne_eq, ha]
    · simp [bindOne_eq, ha]

theorem fails_nil_iff : (addrs.filter fun a => ¬ Serves k a) = [] ↔ ∀ a ∈ addrs, Serves k a := by
  simp [List.filter_eq_nil_iff]

theorem bind_fails (s : TcpServer α) (addrs : List (α × Outcome)) (fails : List α) (ssl : Bool) :
    (s.bind k addrs fails ssl).2.2 = fails ++ (addrs.filter fun a => ¬ Serves k a).map Prod.fst := by
  rw [bind, foldl_bindOne]
  dsimp only
  split <;> rfl

theorem bind_served (h : ∀ a ∈ addrs, Serves k a) (s : TcpServer α) (ssl : Bool) :
    s.bind k addrs [] ssl = (true, ⟨s.m_socks ++ addrs.map (served k ssl), ssl⟩, []) := by
  have hall : (addrs.filter fun a => Serves k a) = addrs :=
    List.filter_eq_self.mpr fun a ha => decide_eq_true (h a ha)
  rw [bind, foldl_bindOne, fails_nil_iff.mpr h, hall]
  rfl

theorem bind_failed (s : TcpServer α) {addrs : List (α × Outcome)} {fails : List α} (ssl : Bool)
    (h : fails ≠ [] ∨ ¬ ∀ a ∈ addrs, Serves k a) :
    (s.bind k addrs fails ssl).1 = false ∧ (s.bind k addrs fails ssl).2.1 = ⟨[], ssl⟩ := by
  have hne : fails ++ (addrs.filter fun a => ¬ Serves k a).map Prod.fst ≠ [] := by
    intro hnil
    obtain ⟨hfails, hmap⟩ := List.append_eq_nil_iff.mp hnil
    rcases h with h | h
    · exact h hfails
    · exact h (fails_nil_iff.mp (List.map_eq_nil_iff.mp hmap))
  have hcond : (!(fails ++ (addrs.filter fun a => ¬ Serves k a).map Prod.fst).isEmpty) = true := by
    rw [Bool.not_eq_true', List.isEmpty_eq_false_iff]
    exact hne
  rw [bind, foldl_bindOne]
  dsimp only
  rw [if_pos hcond]
  exact ⟨rfl, rfl⟩

/-- A server without sockets is bound to an address, or stays as it is. -/
theorem bindAddress_new (k : AddressKind α) (a : α × Outcome) (ssl : Bool) :
    TcpServer.bindAddress k ⟨[], false⟩ a ssl = if Serves k a then (true, ⟨[served k ssl a], ssl⟩)
      else (false, ⟨[], ssl⟩) := by
  rw [bindAddress]
  by_cases h : Serves k a
  · have hall : ∀ b ∈ [a], Serves k b := by simpa using h
    rw [bind_served hall, if_pos h]
    rfl
  · have hall : ¬ ∀ b ∈ [a], Serves k b := by simpa using h
    have hfailed : (bind k ⟨[], false⟩ [a] [] ssl).1 = false ∧ (bind k ⟨[], false⟩ [a] [] ssl).2.1 = ⟨[], ssl⟩ :=
      bind_failed _ ssl (Or.inr hall)
    rw [if_neg h]
    exact Prod.ext hfailed.1 hfailed.2

/-- A call is atomic exactly when it succeeds for a caller without failures, or fails on a server without
sockets. -/
theorem bind_atomic_iff (k : AddressKind α) (s : TcpServer α) (addrs : List (α × Outcome)) (fails : List α)
    (ssl : Bool) : Atomic k s addrs fails ssl ↔
      if ∀ a ∈ addrs, Serves k a then fails = [] else s.m_socks = [] := by
  by_cases hall : ∀ a ∈ addrs, Serves k a
  · rw [if_pos hall]
    constructor
    · intro h
      by_contra hfails
      have htrue := h.answer.mpr hall
      rw [(bind_failed s ssl (Or.inl hfails)).1] at htrue
      cases htrue
    · rintro rfl
      have hbind := bind_served hall s ssl
      refine ⟨iff_of_true (by rw [hbind]) hall, fun _ => by rw [hbind], fun h => absurd hall h, ?_⟩
      exact bind_fails s addrs [] ssl
  · rw [if_neg hall]
    have hfailed : (s.bind k addrs fails ssl).1 = false ∧ (s.bind k addrs fails ssl).2.1 = ⟨[], ssl⟩ :=
      bind_failed s ssl (Or.inr hall)
    obtain ⟨hfalse, hcleared⟩ := hfailed
    constructor
    · intro h
      have hkept := h.kept hall
      rw [hcleared] at hkept
      exact hkept.symm
    · intro hsocks
      refine ⟨iff_of_false ?_ hall, fun h => absurd h hall, fun _ => ?_, ?_⟩
      · rw [hfalse]
        exact Bool.false_ne_true
      · rw [hcleared, hsocks]
      · exact bind_fails s addrs fails ssl

/-- A socket of an earlier call is lost with an address that is in use. -/
theorem earlier_socket_lost : ¬ ∀ (α : Type) (k : AddressKind α) (s : TcpServer α)
    (addrs : List (α × Outcome)) (fails : List α) (ssl : Bool), Atomic k s addrs fails ssl := by
  intro hall
  have hatomic := hall ℕ ⟨fun _ => 2, fun _ => false⟩ ⟨[⟨some 5, 2, some 80, false, true⟩], false⟩
    [(81, ⟨some 6, false, false, true⟩)] [] false
  exact absurd (hatomic.kept (by decide)) (by decide)

end TcpServer
end Flz
