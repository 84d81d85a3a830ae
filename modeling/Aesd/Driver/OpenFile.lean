import Aesd.Base.Atomic
import Aesd.Driver.Device

namespace Aesd.Driver
open Base

/-- What a call has told its caller. -/
structure Answer where
  retval : Int
  delivered : List UInt8
  deriving DecidableEq

/-- A file that a task has opened on the device: its position, and what the calls on
it have answered so far. -/
structure OpenFile where
  fPos : Int
  answers : List Answer
  deriving DecidableEq

/-- As `open` leaves it. -/
def OpenFile.fresh : OpenFile := ⟨0, []⟩

def OpenFile.answered (file : OpenFile) (fPos : Int) (a : Answer) : OpenFile :=
  ⟨fPos, file.answers ++ [a]⟩

/-- A system call on an open file. The position is that of the file. -/
inductive FileCall where
  | read (buf : UserDest)
  | write (buf : UserSource)
  | seekto (past : Nat → Nat) (writeCmd writeCmdOffset : Nat)

/-- The kernel hands the driver a copy of the position, and takes it over from a read
or a write that succeeded. The seek moves the file itself. -/
def FileCall.code : FileCall → Code (Kernel × OpenFile) Fault Unit
  | .read buf => do
    let file ← Code.getOwn
    let res ← (aesdRead buf file.fPos).onShared
    let fPos := if 0 ≤ res.retval then res.fPos else file.fPos
    Code.setOwn (fun file => file.answered fPos ⟨res.retval, res.delivered⟩)
  | .write buf => do
    let file ← Code.getOwn
    let (retval, pos) ← (aesdWrite buf file.fPos).onShared
    let fPos := if 0 ≤ retval then pos else file.fPos
    Code.setOwn (fun file => file.answered fPos ⟨retval, []⟩)
  | .seekto past writeCmd writeCmdOffset => do
    let file ← Code.getOwn
    let res ← (aesdIoctl past AESDCHAR_IOCSEEKTO (some (writeCmd, writeCmdOffset))
      file.fPos).onShared
    Code.setOwn (fun file => file.answered res.fPos ⟨res.retval, []⟩)

end Aesd.Driver
