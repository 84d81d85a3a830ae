import Aesd.Server.Session
import Mathlib.Logic.Function.Basic

namespace Aesd.Server
open Base Driver

/-- The system around the threads: the driver, the open files on the device with
their positions, and the connections. `past` is what memory holds behind the
ring. `incoming` lists how the next calls of `recv` on a connection end, and
`outgoing` those of `write` on it. `history` lists the writes to the device with the
file they came through. -/
structure World where
  kernel : Kernel
  past : Nat → Nat
  position : Nat → Option Int
  nextFd : Nat
  incoming : Nat → List (Result (List UInt8))
  outgoing : Nat → List (Result Nat)
  sent : Nat → List UInt8
  threadComplete : Nat → Bool
  history : List (Nat × List UInt8)

namespace World

/-- Negative return values of the driver become -1 with `errno`. -/
def result (ret : Int) (a : α) : Result α :=
  if 0 ≤ ret then .done a else if ret = -ERESTARTSYS then .eintr else .failed

/-- An open file, by descriptor. -/
def file (w : World) (fd : Fd) : Option (Nat × Int) :=
  fd.bind (fun n => (w.position n).map (fun p => (n, p)))

def moveTo (w : World) (n : Nat) (p : Int) : World :=
  { w with position := Function.update w.position n (some p) }

def openDevice (w : World) : Except Fault Fd × World :=
  (.ok (some w.nextFd), { w.moveTo w.nextFd 0 with nextFd := w.nextFd + 1 })

def closeDevice (fd : Fd) (w : World) : Except Fault Unit × World :=
  match fd with
  | none => (.ok (), w)
  | some n => (.ok (), { w with position := Function.update w.position n none })

/-- How a `recv` ends, and what is left for the next one. Segments arrive in order;
one that is too long for the buffer is taken in parts. When there are no more the
peer has closed. -/
def arrive : List (Result (List UInt8)) → Result (List UInt8) × List (Result (List UInt8))
  | [] => (.done [], [])
  | .done segment :: rest =>
    (.done (segment.take READ_WRITE_SIZE), if segment.length ≤ READ_WRITE_SIZE then rest
      else .done (segment.drop READ_WRITE_SIZE) :: rest)
  | .eintr :: rest => (.eintr, rest)
  | .failed :: rest => (.failed, rest)

/-- The bytes that a `recv` got. -/
def gained : Result (List UInt8) → List UInt8
  | .done bytes => bytes
  | .eintr => []
  | .failed => []

/-- The bytes that are still to come on a connection. -/
def carried (results : List (Result (List UInt8))) : List UInt8 := (results.map gained).flatten

/-- No byte is lost between two calls. -/
theorem gained_arrive (results : List (Result (List UInt8))) :
    gained (arrive results).1 ++ carried (arrive results).2 = carried results := by
  cases results with
  | nil => rfl
  | cons r rest =>
    cases r with
    | done segment =>
      by_cases hfits : segment.length ≤ READ_WRITE_SIZE
      · simp [arrive, carried, gained, hfits, List.take_of_length_le hfits]
      · simp [arrive, carried, gained, hfits, ← List.append_assoc]
    | eintr | failed => rfl

/-- How a `write` of `bytes` to a connection ends, the bytes that go out, and what is
left for the next one. It may be short, and is complete if nothing is said. -/
def depart (bytes : List UInt8) :
    List (Result Nat) → Result Nat × List UInt8 × List (Result Nat)
  | [] => (.done bytes.length, bytes, [])
  | .done n :: rest => (.done (min n bytes.length), bytes.take n, rest)
  | .eintr :: rest => (.eintr, [], rest)
  | .failed :: rest => (.failed, [], rest)

theorem depart_suffix (bytes : List UInt8) (results : List (Result Nat)) :
    (depart bytes results).2.2 <:+ results := by
  cases results with
  | nil => exact List.suffix_rfl
  | cons r rest => cases r <;> exact List.suffix_cons _ _

/-- If no call is to be short, all the bytes go out or none. -/
theorem depart_whole (bytes : List UInt8) {results : List (Result Nat)}
    (hwhole : ∀ n, .done n ∉ results) :
    ((depart bytes results).1 = .done bytes.length ∧ (depart bytes results).2.1 = bytes) ∨
    (((depart bytes results).1 = .eintr ∨ (depart bytes results).1 = .failed) ∧
      (depart bytes results).2.1 = []) := by
  cases results with
  | nil => exact Or.inl ⟨rfl, rfl⟩
  | cons r rest =>
    cases r with
    | done n => exact absurd List.mem_cons_self (hwhole n)
    | eintr => exact Or.inr ⟨Or.inl rfl, rfl⟩
    | failed => exact Or.inr ⟨Or.inr rfl, rfl⟩

/-- A socket that `main` has closed is one on which the calls fail from then on. -/
def recv (socketFd : Nat) (w : World) : Except Fault (Result (List UInt8)) × World :=
  (.ok (arrive (w.incoming socketFd)).1,
    { w with incoming :=
        Function.update w.incoming socketFd (arrive (w.incoming socketFd)).2 })

def send (socketFd : Nat) (bytes : List UInt8) (w : World) : Except Fault (Result Nat) × World :=
  let (r, gone, rest) := depart bytes (w.outgoing socketFd)
  (.ok r,
    { w with
      outgoing := Function.update w.outgoing socketFd rest
      sent := Function.update w.sent socketFd (w.sent socketFd ++ gone) })

theorem recv_done {w : World} {socketFd : Nat} {segment : List UInt8}
    {rest : List (Result (List UInt8))} (hin : w.incoming socketFd = .done segment :: rest)
    (hfits : segment.length ≤ READ_WRITE_SIZE) :
    w.recv socketFd = (.ok (.done segment),
      { w with incoming := Function.update w.incoming socketFd rest }) := by
  simp [recv, arrive, hin, hfits, List.take_of_length_le hfits]

theorem recv_closed {w : World} {socketFd : Nat} (hin : w.incoming socketFd = []) :
    w.recv socketFd = (.ok (.done []), w) := by
  have hsame : Function.update w.incoming socketFd [] = w.incoming := by
    rw [← hin, Function.update_eq_self]
  simp [recv, arrive, hin, hsame]

theorem send_all {w : World} {socketFd : Nat} (bytes : List UInt8)
    (hout : w.outgoing socketFd = []) :
    w.send socketFd bytes = (.ok (.done bytes.length),
      { w with sent := Function.update w.sent socketFd (w.sent socketFd ++ bytes) }) := by
  have hsame : Function.update w.outgoing socketFd [] = w.outgoing := by
    rw [← hout, Function.update_eq_self]
  simp [send, depart, hout, hsame]

/-- The position of the file is only taken over from a call that succeeded. -/
def read (fd : Fd) (count : Nat) (w : World) :
    Except Fault (Result (Nat × List UInt8)) × World :=
  match w.file fd with
  | none => (.ok .failed, w)
  | some (n, p) =>
    match (aesdRead ⟨count, none⟩ p).run false w.kernel with
    | (.error e, k) => (.error e, { w with kernel := k })
    | (.ok res, k) =>
      (.ok (result res.retval (res.retval.toNat, res.delivered)),
        { w.moveTo n (if 0 ≤ res.retval then res.fPos else p) with kernel := k })

def write (fd : Fd) (bytes : List UInt8) (w : World) : Except Fault (Result Nat) × World :=
  match w.file fd with
  | none => (.ok .failed, w)
  | some (n, p) =>
    match (aesdWrite ⟨bytes, false⟩ p).run false w.kernel with
    | (.error e, k) => (.error e, { w with kernel := k, history := w.history ++ [(n, bytes)] })
    | (.ok (ret, p'), k) =>
      (.ok (result ret ret.toNat),
        { w.moveTo n (if 0 ≤ ret then p' else p) with
          kernel := k, history := w.history ++ [(n, bytes)] })

/-- The driver sets the position of the file itself. -/
def ioctl (fd : Fd) (writeCmd writeCmdOffset : Nat) (w : World) : Except Fault Int × World :=
  match w.file fd with
  | none => (.ok (-1), w)
  | some (n, p) =>
    match (aesdIoctl w.past AESDCHAR_IOCSEEKTO (some (writeCmd, writeCmdOffset)) p).run false
        w.kernel with
    | (.error e, k) => (.error e, { w with kernel := k })
    | (.ok res, k) => (.ok res.retval, { w.moveTo n res.fPos with kernel := k })

def complete (socketFd : Nat) (w : World) : Except Fault Unit × World :=
  (.ok (), { w with threadComplete := Function.update w.threadComplete socketFd true })

/-- The server on top of the driver. -/
def sys : Sys World :=
  { openDevice := openDevice, closeDevice := closeDevice, recv := recv, send := send, read := read,
    write := write, ioctl := ioctl, complete := complete }

/-- Before any client has connected. -/
def start (k : Kernel) (past : Nat → Nat) (incoming : Nat → List (Result (List UInt8)))
    (outgoing : Nat → List (Result Nat)) : World :=
  { kernel := k, past := past, position := fun _ => none, nextFd := 0, incoming := incoming,
    outgoing := outgoing, sent := fun _ => [], threadComplete := fun _ => false, history := [] }

/-- With connections that carry the given segments and do not fail. -/
def online (k : Kernel) (past : Nat → Nat) (segments : Nat → List (List UInt8)) : World :=
  start k past (fun i => (segments i).map .done) (fun _ => [])

/-- With the first `n` clients connected, each of whose threads has opened the
device under the number of its connection. -/
def listening (k : Kernel) (past : Nat → Nat) (n : Nat)
    (incoming : Nat → List (Result (List UInt8))) (outgoing : Nat → List (Result Nat)) : World :=
  { start k past incoming outgoing with
    position := fun i => if i < n then some 0 else none, nextFd := n }

end World

end Aesd.Server
