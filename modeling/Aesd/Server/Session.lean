import Aesd.Base.Code
import Aesd.Driver.Device

namespace Aesd.Server
open Base Driver CString

/-- What a system call returns: its value, or -1 with EINTR or with another
`errno`. -/
inductive Result (α : Type) where
  | done (a : α)
  | eintr
  | failed
  deriving DecidableEq

/-- A file descriptor for the device, `none` for the -1 of a failed `open`. -/
abbrev Fd := Option Nat

/-- The system calls of a client thread, each of them one step. A connection is
named by its socket. -/
structure Sys (σ : Type) where
  openDevice : σ → Except Fault Fd × σ
  closeDevice : Fd → σ → Except Fault Unit × σ
  /-- The bytes received, none if the peer has closed. -/
  recv : Nat → σ → Except Fault (Result (List UInt8)) × σ
  send : Nat → List UInt8 → σ → Except Fault (Result Nat) × σ
  /-- The return value, and all the bytes that were stored in the buffer. -/
  read : Fd → Nat → σ → Except Fault (Result (Nat × List UInt8)) × σ
  write : Fd → List UInt8 → σ → Except Fault (Result Nat) × σ
  /-- AESDCHAR_IOCSEEKTO with `write_cmd` and `write_cmd_offset`. -/
  ioctl : Fd → Nat → Nat → σ → Except Fault Int × σ
  /-- Sets `thread_complete` of the connection. -/
  complete : Nat → σ → Except Fault Unit × σ

def READ_WRITE_SIZE : Nat := 1024

/-- A local buffer initialised with the empty string. -/
def blankBuffer : List UInt8 := List.replicate READ_WRITE_SIZE 0

/-- Storing at the start of a local buffer leaves the bytes behind as they were. -/
def fill (buffer bytes : List UInt8) : Except Fault (List UInt8) :=
  if bytes.length ≤ buffer.length then .ok (bytes ++ buffer.drop bytes.length)
  else .error .outOfBounds

/-- The first `n` bytes of a local buffer. -/
def front (buffer : List UInt8) (n : Nat) : Except Fault (List UInt8) :=
  if n ≤ buffer.length then .ok (buffer.take n) else .error .outOfBounds

theorem eq_of_fill {buf buf' bytes : List UInt8} (hfill : fill buf bytes = .ok buf') :
    buf' = bytes ++ buf.drop bytes.length := by
  unfold fill at hfill
  split at hfill
  · exact (Except.ok.inj hfill).symm
  · cases hfill

theorem eq_of_front {buf bytes : List UInt8} {n : Nat} (hfront : front buf n = .ok bytes) :
    bytes = buf.take n := by
  unfold front at hfront
  split at hfront
  · exact (Except.ok.inj hfront).symm
  · cases hfront

variable {σ : Type}

section Reply

/-- The inner loop of `read_file_and_send`, for at most `fuel` rounds. `false`
if the socket failed. A short write counts as done. -/
def sendLoop (sys : Sys σ) (socketFd : Nat) (bytes : List UInt8) : Nat → Code σ Fault Bool
  | 0 => .fault .stuck
  | fuel + 1 => do
    match ← Code.call (sys.send socketFd bytes) with
    | .done _ => return true
    | .eintr => sendLoop sys socketFd bytes fuel
    | .failed => return false

/-- The outer loop. Each inner loop gets `limit` rounds. -/
def readLoop (sys : Sys σ) (socketFd : Nat) (readerFd : Fd) (limit : Nat) :
    Nat → List UInt8 → Code σ Fault Unit
  | 0, _ => .fault .stuck
  | fuel + 1, writeBuffer => do
    match ← Code.call (sys.read readerFd READ_WRITE_SIZE) with
    | .eintr => readLoop sys socketFd readerFd limit fuel writeBuffer
    | .failed => return ()
    | .done (bytesRead, stored) =>
      let writeBuffer ← Code.ofExcept (fill writeBuffer stored)
      if bytesRead = 0 then return ()
      let bytes ← Code.ofExcept (front writeBuffer bytesRead)
      if ← sendLoop sys socketFd bytes limit then
        readLoop sys socketFd readerFd limit fuel writeBuffer

def readFileAndSend (sys : Sys σ) (limit socketFd : Nat) (readerFd : Fd) : Code σ Fault Unit :=
  readLoop sys socketFd readerFd limit limit blankBuffer

end Reply

section Receive

/-- AESDCHAR_IOCSEEKTO: in bytes -/
def specialString : List UInt8 :=
  [65, 69, 83, 68, 67, 72, 65, 82, 95, 73, 79, 67, 83, 69, 69, 75, 84, 79, 58]

/-- `strncmp` of the buffer with the special string. -/
def isSeek (readBuffer : List UInt8) : Bool := decide (readBuffer.take 19 = specialString)

/-- `atoi` of a token, as the `unsigned int` it is stored in. -/
def seekNumber : Option (List UInt8) → Except Fault Nat
  | none => .error .nullDeref
  | some t => .ok (atoi t % 2 ^ 32).toNat

/-- `temp_string` with the end of a seek command. It is allocated for what follows the
special string, but always five bytes are copied to it. -/
def tempString (readBuffer : List UInt8) : Except Fault Bytes := do
  let length := (← text (readBuffer.map some)).length
  let tempString : Bytes := List.replicate (length - 19) none
  let source ← textUpTo 5 ((readBuffer.drop 19).map some)
  if tempString.length < 5 then throw .outOfBounds
  return overwrite tempString 0 (padded 5 source)

/-- What the log is to show as the end of the read buffer: all of `temp_string` up to its
terminator, before the numbers are looked for. -/
def loggedTempString (readBuffer : List UInt8) : Except Fault (List UInt8) := do
  text (← tempString readBuffer)

/-- The numbers of a seek command. Nothing that is logged on the way has a part in them. -/
def parseSeekto (readBuffer : List UInt8) : Except Fault (Nat × Nat) := do
  let tempString ← tempString readBuffer
  let (first, rest) ← strtok 44 tempString
  let writeCmd ← seekNumber first
  let (second, _) ← strtok 44 rest
  let writeCmdOffset ← seekNumber second
  return (writeCmd, writeCmdOffset)

/-- The inner loop of `receive_and_write_to_file`, which handles one chunk of
`bytesRead` bytes. The result is the return value if the function returns from
here. Waiting for the lock starts over whenever it fails; a write that fails
with EINTR also starts over, and one that fails otherwise ends the loop, in both
cases with the lock still held. The log lines are left out, so a session goes on
where one of them reads too far. -/
def putChunk (sys : Sys σ) (socketFd : Nat) (writerFd : Fd) (limit : Nat)
    (readBuffer : List UInt8) (bytesRead : Nat) : Nat → Code σ Fault (Option Int)
  | 0 => .fault .stuck
  | fuel + 1 => do
    if ← Code.lockInterruptible then
      putChunk sys socketFd writerFd limit readBuffer bytesRead fuel
    else if isSeek readBuffer then do
      let (writeCmd, writeCmdOffset) ← Code.ofExcept (parseSeekto readBuffer)
      let _ ← Code.call (sys.ioctl writerFd writeCmd writeCmdOffset)
      Code.release
      readFileAndSend sys limit socketFd writerFd
      return some 1
    else do
      match ← Code.call (sys.write writerFd (readBuffer.take bytesRead)) with
      | .eintr => putChunk sys socketFd writerFd limit readBuffer bytesRead fuel
      | .failed => return none
      | .done _ =>
        Code.release
        return none

/-- The outer loop. The buffer keeps the bytes of earlier chunks behind a
shorter one, and the search for a newline looks at them too. -/
def receiveLoop (sys : Sys σ) (socketFd : Nat) (writerFd : Fd) (limit : Nat) :
    Nat → List UInt8 → Code σ Fault Int
  | 0, _ => .fault .stuck
  | fuel + 1, readBuffer => do
    match ← Code.call (sys.recv socketFd) with
    | .eintr => receiveLoop sys socketFd writerFd limit fuel readBuffer
    | .failed => return 0
    | .done [] => receiveLoop sys socketFd writerFd limit fuel readBuffer
    | .done chunk =>
      let readBuffer ← Code.ofExcept (fill readBuffer chunk)
      let endOfPacket ← Code.ofExcept (contains newline (readBuffer.map some))
      match ← putChunk sys socketFd writerFd limit readBuffer chunk.length limit with
      | some ret => return ret
      | none =>
        if endOfPacket then return 0
        else receiveLoop sys socketFd writerFd limit fuel readBuffer

def receiveAndWriteToFile (sys : Sys σ) (limit socketFd : Nat) (writerFd : Fd) :
    Code σ Fault Int :=
  receiveLoop sys socketFd writerFd limit limit blankBuffer

end Receive

/-- A client thread. Only a session without a seek command marks itself as
complete. -/
def dataProcessor (sys : Sys σ) (limit connectedSktFd : Nat) : Code σ Fault Unit := do
  let writerFd ← Code.call sys.openDevice
  if (← receiveAndWriteToFile sys limit connectedSktFd writerFd) = 0 then
    Code.call (sys.closeDevice writerFd)
    let writerFd ← Code.call sys.openDevice
    readFileAndSend sys limit connectedSktFd writerFd
    Code.call (sys.complete connectedSktFd)
    Code.call (sys.closeDevice writerFd)
  else
    Code.call (sys.closeDevice writerFd)

end Aesd.Server
