import Mathlib.Data.Nat.Notation
import Mathlib.Data.Int.Notation

/-! # Contexts of descriptors

`FdCtx` of `src/fd_manager.cc`, with the status flags that the kernel has for the descriptor.
-/
namespace Flz

def SO_RCVTIMEO : ℤ := 20

def SO_SNDTIMEO : ℤ := 21

def O_NONBLOCK : BitVec 32 := 0x800

structure FdCtx where
  isInit : Bool
  isSocket : Bool
  sysNonblock : Bool
  userNonblock : Bool
  isClosed : Bool
  fd : ℕ
  recvTimeout : UInt64
  sendTimeout : UInt64
  deriving DecidableEq, Repr

/-- `fcntl_f(fd, F_SETFL, arg)`; `settable` are the flags that the kernel takes from it. -/
def setFlags (settable arg flags : BitVec 32) : BitVec 32 := flags &&& ~~~settable ||| arg &&& settable

namespace FdCtx

/-- `FdCtx(fd)`; `stat` is whether it is a socket, when `fstat` succeeds. -/
def new (fd : ℕ) (stat : Option Bool) : FdCtx where
  isInit := stat.isSome
  isSocket := stat.getD false
  sysNonblock := stat.getD false
  userNonblock := false
  isClosed := false
  fd := fd
  recvTimeout := -1
  sendTimeout := -1

/-- What the constructor makes of the flags. -/
def initFlags (settable : BitVec 32) (stat : Option Bool) (flags : BitVec 32) : BitVec 32 :=
  if stat.getD false && (flags &&& O_NONBLOCK == 0) then setFlags settable (flags ||| O_NONBLOCK) flags
  else flags

def setTimeout (c : FdCtx) (type : ℤ) (v : UInt64) : FdCtx :=
  if type = SO_RCVTIMEO then { c with recvTimeout := v } else { c with sendTimeout := v }

def getTimeout (c : FdCtx) (type : ℤ) : UInt64 :=
  if type = SO_RCVTIMEO then c.recvTimeout else c.sendTimeout

theorem getTimeout_setTimeout (c : FdCtx) (type : ℤ) (v : UInt64) :
    (c.setTimeout type v).getTimeout type = v := by
  by_cases h : type = SO_RCVTIMEO <;> simp [setTimeout, getTimeout, h]

end FdCtx
end Flz
