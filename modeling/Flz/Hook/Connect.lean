import Flz.Hook.FdCtx

/-! # Connecting

`connect_with_timeout` of `src/hook.cc` and `Socket::connect` of `src/socket.cc`, for what the
system calls come to.
-/
namespace Flz

def EBADF : ℤ := 9

def ETIMEDOUT : ℤ := 110

def EINPROGRESS : ℤ := 115

/-- What a connect comes to: `n` and `errno` are those of `connect_f`, `rt` is that of `addEvent`,
`expired` is whether the timer has run out before `tinfo->cancelled` is tested, and `soError` is the
value of `SO_ERROR`, or `errno` where `getsockopt` fails. -/
structure ConnectOutcome where
  n : ℤ
  errno : ℤ
  rt : ℤ
  expired : Bool
  soError : Except ℤ ℤ

/-- What a call returns; `errno` counts when `ret` is -1. -/
structure Returned where
  ret : ℤ
  errno : ℤ
  waited : Bool
  deriving DecidableEq, Repr

namespace ConnectOutcome

/-- The value of `tinfo->cancelled`. -/
def cancelled (o : ConnectOutcome) (timeout_ms : UInt64) : ℤ :=
  if timeout_ms ≠ -1 ∧ o.expired then ETIMEDOUT else 0

/-- The end of the call, from `getsockopt` on. -/
def testError (o : ConnectOutcome) (waited : Bool) : Returned :=
  match o.soError with
  | .error e => ⟨-1, e, waited⟩
  | .ok error => if error = 0 then ⟨0, o.errno, waited⟩ else ⟨-1, error, waited⟩

def connectWithTimeout (hook_enable : Bool) (ctx : Option FdCtx) (timeout_ms : UInt64)
    (o : ConnectOutcome) : Returned :=
  if !hook_enable then ⟨o.n, o.errno, false⟩
  else match ctx with
  | none => ⟨-1, EBADF, false⟩
  | some c =>
    if c.isClosed then ⟨-1, EBADF, false⟩
    else if !c.isSocket then ⟨o.n, o.errno, false⟩
    else if c.userNonblock then ⟨o.n, o.errno, false⟩
    else if o.n = 0 then ⟨0, o.errno, false⟩
    else if o.n ≠ -1 ∧ o.errno ≠ EINPROGRESS then ⟨o.n, o.errno, false⟩
    else if o.rt = 0 then
      if o.cancelled timeout_ms ≠ 0 then ⟨-1, o.cancelled timeout_ms, true⟩
      else o.testError true
    else o.testError false

/-- The socket is open: at once, or by the end of a wait. -/
def Opens (o : ConnectOutcome) (timeout_ms : UInt64) : Prop :=
  o.n = 0 ∨ o.n = -1 ∧ o.errno = EINPROGRESS ∧ o.rt = 0 ∧ o.cancelled timeout_ms = 0 ∧ o.soError = .ok 0

/-- The outcomes that do not reach the test of `SO_ERROR` with nothing to tell. -/
def Told (o : ConnectOutcome) : Prop :=
  o.n = 0 ∨ o.errno = EINPROGRESS ∧ (o.rt = 0 ∨ o.soError ≠ .ok 0) ∨
    o.errno ≠ EINPROGRESS ∧ o.rt ≠ 0 ∧
      (o.soError = .error o.errno ∨ o.soError = .ok o.errno ∧ o.errno ≠ 0)

end ConnectOutcome

/-- A call tells what the connect has come to. -/
structure Truthful (timeout_ms : UInt64) (o : ConnectOutcome) (r : Returned) : Prop where
  opened : r.ret = 0 → o.Opens timeout_ms
  failed : ¬ o.Opens timeout_ms → r.ret = -1
  refused : o.n = -1 → o.errno ≠ EINPROGRESS → r = ⟨-1, o.errno, false⟩

/-- The sockets that are connected for a blocking caller. -/
structure FdCtx.Blocking (c : FdCtx) : Prop where
  isClosed : c.isClosed = false
  isSocket : c.isSocket = true
  userNonblock : c.userNonblock = false

namespace ConnectOutcome
variable {c : FdCtx} {o : ConnectOutcome} {timeout_ms : UInt64} {waited : Bool}

theorem connect_zero (hc : c.Blocking) (hn : o.n = 0) :
    connectWithTimeout true (some c) timeout_ms o = ⟨0, o.errno, false⟩ := by
  simp [connectWithTimeout, hc.isClosed, hc.isSocket, hc.userNonblock, hn]

/-- Whatever `errno` is, a call of `connect_f` that fails is waited for. -/
theorem connect_failed (hc : c.Blocking) (hn : o.n = -1) :
    connectWithTimeout true (some c) timeout_ms o =
      if o.rt = 0 then
        if o.cancelled timeout_ms ≠ 0 then ⟨-1, o.cancelled timeout_ms, true⟩ else o.testError true
      else o.testError false := by
  simp [connectWithTimeout, hc.isClosed, hc.isSocket, hc.userNonblock, hn]

theorem testError_ret (o : ConnectOutcome) (waited : Bool) :
    (o.testError waited).ret = 0 ∧ o.soError = .ok 0 ∨
      (o.testError waited).ret = -1 ∧ o.soError ≠ .ok 0 := by
  rw [testError]
  rcases o.soError with e | error
  · exact .inr ⟨rfl, nofun⟩
  · by_cases h : error = 0 <;> simp [h]

theorem testError_eq_iff {e : ℤ} : o.testError waited = ⟨-1, e, false⟩ ↔
    waited = false ∧ (o.soError = .error e ∨ o.soError = .ok e ∧ e ≠ 0) := by
  rw [testError]
  rcases o.soError with e' | error
  · simp [and_comm]
  · by_cases h : error = 0
    · subst h
      simp [eq_comm]
    · simp only [h, if_false, Returned.mk.injEq, true_and, reduceCtorEq, false_or, Except.ok.injEq]
      constructor
      · rintro ⟨rfl, hwaited⟩
        exact ⟨hwaited, rfl, h⟩
      · rintro ⟨hwaited, rfl, -⟩
        exact ⟨rfl, hwaited⟩

/-- A connect that is in progress is told wrongly only when its wait cannot be registered. -/
theorem truthful_progress (hc : c.Blocking) (hn : o.n = -1) (herrno : o.errno = EINPROGRESS) :
    Truthful timeout_ms o (connectWithTimeout true (some c) timeout_ms o) ↔
      o.rt = 0 ∨ o.soError ≠ .ok 0 := by
  have hopens : o.Opens timeout_ms ↔ o.rt = 0 ∧ o.cancelled timeout_ms = 0 ∧ o.soError = .ok 0 := by
    simp [Opens, hn, herrno]
  have hfails : ∀ {r : Returned}, r.ret = -1 → Truthful timeout_ms o r := fun hret =>
    ⟨fun h => by rw [hret] at h; contradiction, fun _ => hret, fun _ h => absurd herrno h⟩
  rw [connect_failed hc hn]
  by_cases hrt : o.rt = 0
  · rw [if_pos hrt]
    refine iff_of_true ?_ (.inl hrt)
    split
    · exact hfails rfl
    · rename_i hcancelled
      obtain ⟨-, hso⟩ | ⟨hret, -⟩ := o.testError_ret true
      · have hopen := hopens.mpr ⟨hrt, Decidable.not_not.mp hcancelled, hso⟩
        exact ⟨fun _ => hopen, fun h => absurd hopen h, fun _ h => absurd herrno h⟩
      · exact hfails hret
  · rw [if_neg hrt]
    obtain ⟨hret, hso⟩ | ⟨hret, hne⟩ := o.testError_ret false
    · exact iff_of_false (fun h => hrt (hopens.mp (h.opened hret)).1) (by simp [hrt, hso])
    · exact iff_of_true (hfails hret) (.inr hne)

/-- A connect that has failed is told as such only when there is no wait and its `errno` comes
back from `getsockopt`. -/
theorem truthful_refused (hc : c.Blocking) (hn : o.n = -1) (herrno : o.errno ≠ EINPROGRESS) :
    Truthful timeout_ms o (connectWithTimeout true (some c) timeout_ms o) ↔
      o.rt ≠ 0 ∧ (o.soError = .error o.errno ∨ o.soError = .ok o.errno ∧ o.errno ≠ 0) := by
  have hopens : ¬ o.Opens timeout_ms := by
    simp [Opens, hn, herrno]
  have hrefused : ∀ r : Returned, Truthful timeout_ms o r ↔ r = ⟨-1, o.errno, false⟩ := by
    intro r
    refine ⟨fun h => h.refused hn herrno, ?_⟩
    rintro rfl
    exact ⟨nofun, fun _ => rfl, fun _ _ => rfl⟩
  rw [hrefused, connect_failed hc hn]
  by_cases hrt : o.rt = 0
  · rw [if_pos hrt]
    refine iff_of_false ?_ fun h => h.1 hrt
    split
    · simp
    · rw [testError_eq_iff]
      exact nofun
  · rw [if_neg hrt, testError_eq_iff]
    simp [hrt]

/-- A connect for a blocking caller is told truthfully exactly for the outcomes that the test of
`SO_ERROR` can tell. -/
theorem truthful_iff (hc : c.Blocking) (timeout_ms : UInt64) (hn : o.n = 0 ∨ o.n = -1) :
    Truthful timeout_ms o (connectWithTimeout true (some c) timeout_ms o) ↔ o.Told := by
  obtain hn | hn := hn
  · rw [connect_zero hc hn]
    refine iff_of_true ⟨fun _ => .inl hn, fun h => absurd (.inl hn) h, fun h => ?_⟩ (.inl hn)
    rw [hn] at h
    contradiction
  · by_cases herrno : o.errno = EINPROGRESS
    · rw [truthful_progress hc hn herrno]
      simp [Told, hn, herrno]
    · rw [truthful_refused hc hn herrno]
      simp [Told, hn, herrno]

/-- A connect that is in progress, and opens while the fiber waits. -/
theorem truthful_opened : Truthful 1000 ⟨-1, EINPROGRESS, 0, false, .ok 0⟩
    (connectWithTimeout true (some (.new 5 (some true))) 1000 ⟨-1, EINPROGRESS, 0, false, .ok 0⟩) :=
  (truthful_iff ⟨rfl, rfl, rfl⟩ 1000 (.inr rfl)).mpr (.inr (.inl ⟨rfl, .inl rfl⟩))

/-- A connect that is refused at once, with `ECONNREFUSED`, and then counts as open. -/
theorem refused_opened : ¬ Truthful (-1) ⟨-1, 111, 0, false, .ok 0⟩
    (connectWithTimeout true (some (.new 5 (some true))) (-1) ⟨-1, 111, 0, false, .ok 0⟩) := by
  intro h
  exact absurd (h.refused rfl (by decide)) (by decide)

end ConnectOutcome

structure Socket where
  sock : Option ℕ
  isConnected : Bool
  deriving DecidableEq, Repr

namespace Socket

/-- `Socket::connect`; `opened` is what `newSock` gets, and `family` whether the address is of the
family of the socket. -/
def connect (s : Socket) (opened : Option ℕ) (family : Bool) (r : Returned) : Bool × Socket :=
  let s := if s.sock.isSome then s else { s with sock := opened }
  if s.sock.isNone then (false, s)
  else if !family then (false, s)
  else if r.ret ≠ 0 then (false, ⟨none, false⟩)
  else (true, { s with isConnected := true })

/-- What is believed to be open is open, if the call tells the truth. -/
theorem connect_opens {s s' : Socket} {opened : Option ℕ} {family : Bool} {r : Returned}
    {timeout_ms : UInt64} {o : ConnectOutcome} (hr : Truthful timeout_ms o r)
    (h : s.connect opened family r = (true, s')) :
    o.Opens timeout_ms ∧ s'.isConnected = true ∧ s'.sock.isSome := by
  simp only [connect] at h
  generalize (if s.sock.isSome then s else { s with sock := opened }) = t at h
  split at h
  · cases h
  · rename_i hsock
    split at h
    · cases h
    · split at h
      · cases h
      · rename_i hret
        cases h
        exact ⟨hr.opened (Decidable.not_not.mp hret), rfl, by simpa [Option.isSome_iff_ne_none] using hsock⟩

end Socket
end Flz
