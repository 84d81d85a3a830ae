import Aesd.Server.Session
import Mathlib.Logic.Function.Basic

namespace Aesd.Server
open Base

/-- A system call of a client thread, as an observer sees it. Of a write it shows
whether it returned -1. -/
inductive Call where
  | openDevice
  | closeDevice
  | recv (socketFd : Nat)
  | send (socketFd : Nat) (bytes : List UInt8)
  | read
  | write (bytes : List UInt8) (failed : Bool)
  | ioctl (writeCmd writeCmdOffset : Nat)
  | complete (socketFd : Nat)
  deriving DecidableEq

/-- What the threads share: the system behind the calls, `thread_complete` of
each node of the list, and the calls made so far. -/
structure Shared (σ : Type) where
  inner : σ
  threadComplete : Nat → Nat
  calls : List Call

variable {σ α : Type}

/-- A call that is added to the trace. -/
def traced (f : σ → Except Fault α × σ) (call : Except Fault α → Call) (s : Shared σ) :
    Except Fault α × Shared σ :=
  ((f s.inner).1,
    { s with inner := (f s.inner).2, calls := s.calls ++ [call (f s.inner).1] })

/-- A write that returned -1. -/
def refusedWrite : Except Fault (Result Nat) → Bool
  | .ok .eintr => true
  | .ok .failed => true
  | _ => false

/-- The calls of `sys` with their trace. The end of a session sets the flag of its
node. -/
def Sys.shared (sys : Sys σ) : Sys (Shared σ) :=
  { openDevice := traced sys.openDevice (fun _ => .openDevice)
    closeDevice := fun fd => traced (sys.closeDevice fd) (fun _ => .closeDevice)
    recv := fun socketFd => traced (sys.recv socketFd) (fun _ => .recv socketFd)
    send := fun socketFd bytes => traced (sys.send socketFd bytes) (fun _ => .send socketFd bytes)
    read := fun fd n => traced (sys.read fd n) (fun _ => .read)
    write := fun fd bytes => traced (sys.write fd bytes) (fun r => .write bytes (refusedWrite r))
    ioctl := fun fd c o => traced (sys.ioctl fd c o) (fun _ => .ioctl c o)
    complete := fun socketFd s =>
      traced (sys.complete socketFd) (fun _ => .complete socketFd)
        { s with threadComplete := Function.update s.threadComplete socketFd 1 } }

end Aesd.Server
