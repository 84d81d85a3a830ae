import Aesd.Server.Trace
import Aesd.Server.World

namespace Aesd.Server
open Base Driver

/-- The system calls of a client thread. -/
inductive SysCall where
  | openDevice
  | closeDevice (fd : Fd)
  | recv (socketFd : Nat)
  | send (socketFd : Nat) (bytes : List UInt8)
  | read (fd : Fd) (count : Nat)
  | write (fd : Fd) (bytes : List UInt8)
  | ioctl (fd : Fd) (writeCmd writeCmdOffset : Nat)
  | complete (socketFd : Nat)

namespace SysCall
variable {σ : Type}

abbrev Returns : SysCall → Type
  | openDevice => Fd
  | closeDevice _ => Unit
  | recv _ => Result (List UInt8)
  | send _ _ => Result Nat
  | read _ _ => Result (Nat × List UInt8)
  | write _ _ => Result Nat
  | ioctl _ _ _ => Int
  | complete _ => Unit

/-- The call as one step. -/
def run (sys : Sys σ) : (c : SysCall) → σ → Except Fault c.Returns × σ
  | openDevice => sys.openDevice
  | closeDevice fd => sys.closeDevice fd
  | recv socketFd => sys.recv socketFd
  | send socketFd bytes => sys.send socketFd bytes
  | read fd count => sys.read fd count
  | write fd bytes => sys.write fd bytes
  | ioctl fd writeCmd writeCmdOffset => sys.ioctl fd writeCmd writeCmdOffset
  | complete socketFd => sys.complete socketFd

/-- The descriptor that a thread has open on the device after a call, if it had `fd`
before. -/
def after (fd : Fd) : (c : SysCall) → c.Returns → Fd
  | openDevice, fd' => fd'
  | closeDevice _, _ => none
  | recv _, _ => fd
  | send _ _, _ => fd
  | read _ _, _ => fd
  | write _ _, _ => fd
  | ioctl _ _ _, _ => fd
  | complete _, _ => fd

/-- A thread that has `fd` open makes its calls on that, and opens no second file. -/
def Uses (fd : Fd) : SysCall → Prop
  | openDevice => fd = none
  | closeDevice fd' => fd' = fd
  | recv _ => True
  | send _ _ => True
  | read fd' _ => fd' = fd
  | write fd' _ => fd' = fd
  | ioctl fd' _ _ => fd' = fd
  | complete _ => True

/-- The code of the driver that a call on an open file runs. The kernel hands it a copy
of the position of the file, and takes it over from a read or a write that succeeded. -/
def enters (w : World) : (c : SysCall) → Option (Nat × KernelM (Int × c.Returns))
  | read fd count => (w.file fd).map (fun (n, p) => (n, do
      let res ← aesdRead ⟨count, none⟩ p
      return (if 0 ≤ res.retval then res.fPos else p,
        World.result res.retval (res.retval.toNat, res.delivered))))
  | write fd bytes => (w.file fd).map (fun (n, p) => (n, do
      let (ret, p') ← aesdWrite ⟨bytes, false⟩ p
      return (if 0 ≤ ret then p' else p, World.result ret ret.toNat)))
  | ioctl fd writeCmd writeCmdOffset => (w.file fd).map (fun (n, p) => (n, do
      let res ← aesdIoctl w.past AESDCHAR_IOCSEEKTO (some (writeCmd, writeCmdOffset)) p
      return (res.fPos, res.retval)))
  | openDevice => none
  | closeDevice _ => none
  | recv _ => none
  | send _ _ => none
  | complete _ => none

/-- The range check of the driver does not refuse the call. -/
def inRange : SysCall → Bool
  | ioctl _ writeCmd _ => writeCmd < 10
  | _ => true

end SysCall

/-- Code of a thread by the system calls it makes. At its start the thread has the
descriptor `fd` open, at its end the one that `post` names. -/
inductive Thread {σ α : Type} (sys : Sys σ) (post : α → Fd) : Fd → Code σ Fault α → Type
  | ret {a : α} : Thread sys post (post a) (.ret a)
  | fault {fd : Fd} {e : Fault} : Thread sys post fd (.fault e)
  | lock {fd : Fd} {p q : Code σ Fault α} (acquired : Thread sys post fd p)
      (interrupted : Thread sys post fd q) : Thread sys post fd (.lock p q)
  | unlock {fd : Fd} {p : Code σ Fault α} (next : Thread sys post fd p) :
      Thread sys post fd (.unlock p)
  | call {fd : Fd} {u : σ → σ} {k : σ → Code σ Fault α} (c : SysCall)
      (cont : c.Returns → Code σ Fault α) (huses : c.Uses fd)
      (hcall : ∀ s, u s = (c.run sys s).2 ∧ k s = (Code.ofExcept (c.run sys s).1).bind cont)
      (next : ∀ r, Thread sys post (c.after fd r) (cont r)) : Thread sys post fd (.act u k)

namespace Thread
variable {σ α β : Type} {sys : Sys σ} {fd : Fd} {post : α → Fd} {post' : β → Fd}

theorem bind_of_call {r : Except Fault α} {cont : α → Code σ Fault β} {γ : Type}
    {f : β → Code σ Fault γ} :
    ((Code.ofExcept r).bind cont).bind f = (Code.ofExcept r).bind (fun a => (cont a).bind f) := by
  cases r <;> rfl

theorem steps_of_call {f : σ → Except Fault α × σ} {u : σ → σ} {k : σ → Code σ Fault α}
    (h : Code.call f = .act u k) (s : σ) :
    u s = (f s).2 ∧ k s = (Code.ofExcept (f s).1).bind Code.ret := by
  cases h
  refine ⟨rfl, ?_⟩
  dsimp only
  cases (f s).1 <;> rfl

def bind {f : α → Code σ Fault β} : {fd : Fd} → {p : Code σ Fault α} →
    Thread sys post fd p → (∀ a, Thread sys post' (post a) (f a)) →
    Thread sys post' fd (p.bind f)
  | _, _, .ret, g => g _
  | _, _, .fault, _ => .fault
  | _, _, .lock p q, g => .lock (p.bind g) (q.bind g)
  | _, _, .unlock p, g => .unlock (p.bind g)
  | _, _, .call c cont huses hcall next, g =>
    .call c (fun r => (cont r).bind f) huses
      (fun s => ⟨(hcall s).1, (congrArg (Code.bind · f) (hcall s).2).trans bind_of_call⟩)
      (fun r => (next r).bind g)

def ofCall (c : SysCall) (huses : c.Uses fd) :
    Thread sys (c.after fd) fd (Code.call (c.run sys)) :=
  .call c Code.ret huses (steps_of_call rfl) (fun _ => .ret)

def ofExcept {f : α → Code σ Fault β} (r : Except Fault α) (g : ∀ a, Thread sys post' fd (f a)) :
    Thread sys post' fd ((Code.ofExcept r).bind f) :=
  match r with
  | .ok a => g a
  | .error _ => .fault

def ite {c : Prop} [h : Decidable c] {p q : Code σ Fault α} (yes : Thread sys post fd p)
    (no : Thread sys post fd q) : Thread sys post fd (if c then p else q) :=
  match h with
  | .isTrue _ => yes
  | .isFalse _ => no

section Session
variable (sys) (socketFd limit : Nat) (fd : Fd)

def sendLoop (bytes : List UInt8) :
    (fuel : Nat) → Thread sys (fun _ => fd) fd (Server.sendLoop sys socketFd bytes fuel)
  | 0 => .fault
  | fuel + 1 =>
    (ofCall (.send socketFd bytes) trivial).bind (fun r =>
      match r with
      | .done _ => .ret
      | .eintr => sendLoop bytes fuel
      | .failed => .ret)

def readLoop : (fuel : Nat) → (buf : List UInt8) →
    Thread sys (fun _ => fd) fd (Server.readLoop sys socketFd fd limit fuel buf)
  | 0, _ => .fault
  | fuel + 1, buf =>
    (ofCall (.read fd READ_WRITE_SIZE) rfl).bind (fun r =>
      match r with
      | .eintr => readLoop fuel buf
      | .failed => .ret
      | .done (_, stored) => ofExcept (fill buf stored) (fun buf => ite .ret
          (ofExcept (front buf _) (fun bytes =>
            (sendLoop sys socketFd fd bytes limit).bind (fun _ => ite (readLoop fuel buf) .ret)))))

def putChunk (buf : List UInt8) (n : Nat) : (fuel : Nat) →
    Thread sys (fun _ => fd) fd (Server.putChunk sys socketFd fd limit buf n fuel)
  | 0 => .fault
  | fuel + 1 =>
    .lock
      (ite
        (ofExcept (parseSeekto buf) (fun args =>
          (ofCall (.ioctl fd args.1 args.2) rfl).bind (fun _ => .unlock
            ((readLoop sys socketFd limit fd limit blankBuffer).bind (fun _ => .ret)))))
        ((ofCall (.write fd (buf.take n)) rfl).bind (fun r =>
          match r with
          | .eintr => putChunk buf n fuel
          | .failed => .ret
          | .done _ => .unlock .ret)))
      (putChunk buf n fuel)

def receiveLoop : (fuel : Nat) → (buf : List UInt8) →
    Thread sys (fun _ => fd) fd (Server.receiveLoop sys socketFd fd limit fuel buf)
  | 0, _ => .fault
  | fuel + 1, buf =>
    (ofCall (.recv socketFd) trivial).bind (fun r =>
      match r with
      | .eintr => receiveLoop fuel buf
      | .failed => .ret
      | .done [] => receiveLoop fuel buf
      | .done (b :: bs) => ofExcept (fill buf (b :: bs)) (fun buf =>
          ofExcept (CString.contains newline (buf.map some)) (fun _ =>
            (putChunk sys socketFd limit fd buf (b :: bs).length limit).bind (fun ret =>
              match ret with
              | some _ => .ret
              | none => ite .ret (receiveLoop fuel buf)))))

def dataProcessor :
    Thread sys (fun _ => none) none (Server.dataProcessor sys limit socketFd) :=
  (ofCall .openDevice rfl).bind (fun fd =>
    (receiveLoop sys socketFd limit fd limit blankBuffer).bind (fun _ => ite
      ((ofCall (.closeDevice fd) rfl).bind (fun _ => (ofCall .openDevice rfl).bind (fun fd' =>
        (readLoop sys socketFd limit fd' limit blankBuffer).bind (fun _ =>
          (ofCall (.complete socketFd) trivial).bind (fun _ => ofCall (.closeDevice fd') rfl)))))
      (ofCall (.closeDevice fd) rfl)))

end Session

end Thread

/-- What a client thread has left to do. It ends with no file open. -/
structure Session where
  fd : Fd
  rest : Code (Shared World) Fault Unit
  thread : Thread World.sys.shared (fun _ => none) fd rest

/-- What is left of a system call inside the driver: it is made on an open file, and
ends with the new position of that, and with what the thread does next. -/
structure InDriver where
  file : Nat
  rest : KernelM (Int × Session)

/-- The client threads on top of the driver, whose code is executed step by step.
`owner` has taken the lock of the server, `device` that of the driver. `started` says
which connections have got their thread. -/
structure Machine where
  mem : Shared World
  owner : Option Nat
  device : Option Nat
  started : Nat → Bool
  threads : Nat → Option Session
  calls : Nat → Option InDriver

namespace Machine

def start (mem : Shared World) : Machine :=
  { mem := mem, owner := none, device := none, started := fun _ => false,
    threads := fun _ => none, calls := fun _ => none }

def goto (m : Machine) (i : Nat) (t : Option Session) : Machine :=
  { m with threads := Function.update m.threads i t }

def drive (m : Machine) (i : Nat) (c : Option InDriver) : Machine :=
  { m with calls := Function.update m.calls i c }

/-- A step of thread `i` outside the driver. A call on an open file takes it inside. -/
def userStep (m : Machine) (i : Nat) : Session → Option Machine
  | ⟨_, _, .ret⟩ => some (m.goto i none)
  | ⟨_, _, .fault⟩ => none
  | ⟨_, _, .lock next _⟩ =>
    if m.owner = none then some { m.goto i (some ⟨_, _, next⟩) with owner := some i } else none
  | ⟨_, _, .unlock next⟩ => some { m.goto i (some ⟨_, _, next⟩) with owner := none }
  | ⟨fd, _, .call c _ _ _ next⟩ =>
    match c.enters m.mem.inner with
    | some (n, code) =>
      some (m.drive i (some ⟨n, code >>= fun (pos, r) => pure (pos, ⟨_, _, next r⟩)⟩))
    | none =>
      match c.run World.sys.shared m.mem with
      | (.ok r, mem) => some { m.goto i (some ⟨_, _, next r⟩) with mem := mem }
      | (.error e, mem) => some { m.goto i (some ⟨fd, .fault e, .fault⟩) with mem := mem }

/-- A step of thread `i` inside the driver. -/
def driverStep (m : Machine) (i : Nat) (c : InDriver) : Option Machine :=
  match c.rest with
  | .ret (pos, s) => some { (m.goto i (some s)).drive i none with
      mem := { m.mem with inner := m.mem.inner.moveTo c.file pos } }
  | .fault _ => none
  | .lock p _ =>
    if m.device = none then some { m.drive i (some ⟨c.file, p⟩) with device := some i } else none
  | .unlock p => some { m.drive i (some ⟨c.file, p⟩) with device := none }
  | .act u k => some { m.drive i (some ⟨c.file, k m.mem.inner.kernel⟩) with
      mem := { m.mem with inner :=
        { m.mem.inner with kernel := u m.mem.inner.kernel } } }

/-- What a scheduler can ask for: the thread of a connection, or the next step of one. -/
inductive Choice where
  | create (i : Nat)
  | go (i : Nat)

def next (limit : Nat) (m : Machine) : Choice → Option Machine
  | .create i =>
    match m.started i, m.threads i with
    | false, none =>
      some { m.goto i (some ⟨_, _, Thread.dataProcessor World.sys.shared i limit⟩) with
        started := Function.update m.started i true }
    | _, _ => none
  | .go i =>
    match m.threads i with
    | none => none
    | some s =>
      match m.calls i with
      | none => m.userStep i s
      | some c => m.driverStep i c

/-- Thread `i` is not about to make a call that the range check of the driver refuses. -/
def inRange (m : Machine) (i : Nat) : Bool :=
  match m.threads i with
  | some ⟨_, _, .call c _ _ _ _⟩ => c.inRange
  | _ => true

def allows (m : Machine) : Choice → Bool
  | .create _ => true
  | .go i => m.inRange i

/-- States that a schedule leads to in which the range check refuses nothing. -/
inductive Runs (limit : Nat) (m₀ : Machine) : Machine → Prop
  | refl : Runs limit m₀ m₀
  | step {m m' : Machine} {choice : Choice} (hm : Runs limit m₀ m)
      (hrange : m.allows choice = true) (h : m.next limit choice = some m') : Runs limit m₀ m'

/-- The schedule, if the range check refuses nothing. -/
def exec (limit : Nat) (m : Machine) : List Choice → Option Machine
  | [] => some m
  | choice :: schedule =>
    if m.allows choice then (m.next limit choice).bind (fun m' => exec limit m' schedule) else none

theorem Runs.exec {limit : Nat} {m₀ m m' : Machine} (hm : Runs limit m₀ m) {schedule : List Choice}
    (h : m.exec limit schedule = some m') : Runs limit m₀ m' := by
  induction schedule generalizing m with
  | nil =>
    cases h
    exact hm
  | cons choice schedule ih =>
    simp only [Machine.exec] at h
    split at h
    · obtain ⟨m₁, hnext, h⟩ := Option.bind_eq_some_iff.mp h
      exact ih (hm.step ‹_› hnext) h
    · cases h

end Machine

end Aesd.Server
