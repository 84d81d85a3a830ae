import Aesd.Base.Lock
import Aesd.Base.SList
import Aesd.Server.Trace

namespace Aesd.Server
open Base

/-- Where `main` stands in its loop. A node of the list is named by its
connection, and connections are numbered as they are accepted. Each access to
`thread_complete` is a step of its own. -/
inductive Pc where
  | top
  | accept
  /-- `add_slist_entry` with its allocation, `pthread_create`, the test for an
  empty list, and the loop that looks for the last node. -/
  | add (i : Nat)
  | create (i : Nat)
  | insert (i : Nat)
  | walk (i : Nat) (current : Option Nat)
  /-- The sweep after each accept. -/
  | sweep (current : Option Nat)
  | join (i : Nat)
  | close (i : Nat)
  | clear (i : Nat)
  /-- The pass of the shutdown, and the loop that is to free the list. -/
  | last (current : Option Nat)
  | lastJoin (i : Nat)
  | lastClose (i : Nat)
  | free
  | exited (ret : Int)
  /-- A NULL pointer was followed: that of a node without memory, or the head. -/
  | nullEntry (i : Nat)
  | nullHead
  deriving DecidableEq

/-- The process is still there. -/
def Pc.running : Pc → Bool
  | .exited _ => false
  | .nullEntry _ => false
  | .nullHead => false
  | _ => true

/-- The server with its threads. `sockets` says which connection a descriptor
stands for; a number can be used again once it is closed. `started` says for which
nodes `pthread_create` has succeeded. The three lists are the calls of
`pthread_join`, the connections that were closed, and the nodes that were freed,
so far. -/
structure Process (σ : Type) where
  pool : System Nat Nat (Shared σ) Fault
  main : Pc
  list : SList Nat
  accepted : Nat
  connectedSktFd : Nat → Nat
  sockets : Nat → Option Nat
  started : Nat → Bool
  joins : List Nat
  closed : List Nat
  freed : List Nat
  caughtSignal : Bool

namespace Process
variable {σ : Type}

def start (mem : Shared σ) : Process σ :=
  { pool := .start mem, main := .top, list := ⟨none, fun _ => none⟩, accepted := 0,
    connectedSktFd := fun _ => 0, sockets := fun _ => none, started := fun _ => false, joins := [],
    closed := [], freed := [], caughtSignal := false }

def threadComplete (s : Process σ) (i : Nat) : Nat := s.pool.mem.threadComplete i

def setComplete (s : Process σ) (i n : Nat) : Process σ :=
  { s with pool := { s.pool with mem := { s.pool.mem with
      threadComplete := Function.update s.pool.mem.threadComplete i n } } }

/-- A connection with descriptor `fd`. -/
def accept (s : Process σ) (fd : Nat) : Process σ :=
  { s with
    accepted := s.accepted + 1
    connectedSktFd := Function.update s.connectedSktFd s.accepted fd
    sockets := Function.update s.sockets fd (some s.accepted) }

/-- `pthread_create` for node `i`. -/
def launch (code : Nat → Code (Shared σ) Fault Unit) (s : Process σ) (i : Nat) : Process σ :=
  { s with
    pool := s.pool.goto i (some ⟨i, code i⟩)
    started := Function.update s.started i true }

/-- Closing the descriptor of node `i`, which may be that of another connection by
now, or of none. -/
def closeSocket (s : Process σ) (i : Nat) : Process σ :=
  match s.sockets (s.connectedSktFd i) with
  | none => s
  | some j => { s with
      sockets := Function.update s.sockets (s.connectedSktFd i) none
      closed := s.closed ++ [j] }

theorem closeSocket_eq (s : Process σ) (i : Nat) : ∃ sockets closed,
    s.closeSocket i = { s with sockets := sockets, closed := closed } := by
  unfold closeSocket
  split <;> exact ⟨_, _, rfl⟩

def goto (s : Process σ) (pc : Pc) : Process σ := { s with main := pc }

@[simp] theorem main_goto (s : Process σ) (pc : Pc) : (s.goto pc).main = pc := rfl

/-- One step of `main`. -/
inductive MainStep (code : Nat → Code (Shared σ) Fault Unit) : Process σ → Process σ → Prop
  | stop {s : Process σ} (hpc : s.main = .top) (hsignal : s.caughtSignal = true) :
      MainStep code s (s.goto (.last s.list.head))
  | listen {s : Process σ} (hpc : s.main = .top) (hsignal : s.caughtSignal = false) :
      MainStep code s (s.goto .accept)
  | again {s : Process σ} (hpc : s.main = .accept) : MainStep code s (s.goto .top)
  | refuse {s : Process σ} (hpc : s.main = .accept) : MainStep code s (s.goto (.exited (-1)))
  | accept {s : Process σ} (fd : Nat) (hpc : s.main = .accept) (hfree : s.sockets fd = none) :
      MainStep code s ((s.accept fd).goto (.add s.accepted))
  | add {s : Process σ} {i : Nat} (hpc : s.main = .add i) :
      MainStep code s ((s.setComplete i 0).goto (.create i))
  | noMemory {s : Process σ} {i : Nat} (hpc : s.main = .add i) :
      MainStep code s (s.goto (.nullEntry i))
  | create {s : Process σ} {i : Nat} (hpc : s.main = .create i) :
      MainStep code s ((s.launch code i).goto (.insert i))
  | noThread {s : Process σ} {i : Nat} (hpc : s.main = .create i) :
      MainStep code s (s.goto (.insert i))
  | first {s : Process σ} {i : Nat} (hpc : s.main = .insert i) (hempty : s.list.isEmpty = true) :
      MainStep code s { s with
        list := s.list.insertHead i, main := .sweep (s.list.insertHead i).head }
  | search {s : Process σ} {i : Nat} (hpc : s.main = .insert i) (hempty : s.list.isEmpty = false) :
      MainStep code s (s.goto (.walk i s.list.head))
  | link {s : Process σ} {i x : Nat} (hpc : s.main = .walk i (some x))
      (hlast : s.list.next x = none) :
      MainStep code s { s with
        list := s.list.insertAfter x i, main := .sweep (s.list.insertAfter x i).head }
  | further {s : Process σ} {i x : Nat} (hpc : s.main = .walk i (some x))
      (hmore : s.list.next x ≠ none) : MainStep code s (s.goto (.walk i (s.list.next x)))
  | astray {s : Process σ} {i : Nat} (hpc : s.main = .walk i none) :
      MainStep code s (s.goto (.sweep s.list.head))
  | swept {s : Process σ} (hpc : s.main = .sweep none) : MainStep code s (s.goto .top)
  | ready {s : Process σ} {i : Nat} (hpc : s.main = .sweep (some i))
      (hflag : s.threadComplete i = 1) :
      MainStep code s { s with joins := s.joins ++ [i], main := .join i }
  | busy {s : Process σ} {i : Nat} (hpc : s.main = .sweep (some i))
      (hflag : s.threadComplete i ≠ 1) : MainStep code s (s.goto (.clear i))
  | joined {s : Process σ} {i : Nat} (hpc : s.main = .join i) (hdone : s.pool.tasks i = none) :
      MainStep code s (s.goto (.close i))
  | close {s : Process σ} {i : Nat} (hpc : s.main = .close i) :
      MainStep code s ((s.closeSocket i).goto (.clear i))
  | clear {s : Process σ} {i : Nat} (hpc : s.main = .clear i) :
      MainStep code s ((s.setComplete i 0).goto (.sweep (s.list.next i)))
  | passed {s : Process σ} (hpc : s.main = .last none) : MainStep code s (s.goto .free)
  | lastReady {s : Process σ} {i : Nat} (hpc : s.main = .last (some i))
      (hflag : s.threadComplete i = 1) :
      MainStep code s { s with joins := s.joins ++ [i], main := .lastJoin i }
  | lastBusy {s : Process σ} {i : Nat} (hpc : s.main = .last (some i))
      (hflag : s.threadComplete i ≠ 1) : MainStep code s (s.goto (.lastClose i))
  | lastJoined {s : Process σ} {i : Nat} (hpc : s.main = .lastJoin i)
      (hdone : s.pool.tasks i = none) : MainStep code s (s.goto (.lastClose i))
  | lastClose {s : Process σ} {i : Nat} (hpc : s.main = .lastClose i) :
      MainStep code s ((s.closeSocket i).goto (.last (s.list.next i)))
  | keep {s : Process σ} (hpc : s.main = .free) (hempty : s.list.isEmpty = false) :
      MainStep code s (s.goto (.exited 0))
  | follow {s : Process σ} (hpc : s.main = .free) (hempty : s.list.isEmpty = true)
      (hnull : s.list.removeHead = none) : MainStep code s (s.goto .nullHead)
  | drop {s : Process σ} {list : SList Nat} (hpc : s.main = .free) (hempty : s.list.isEmpty = true)
      (hlist : s.list.removeHead = some list) :
      MainStep code s { s with list := list, freed := s.freed ++ s.list.head.toList }

/-- One step of the server: a signal arrives, a client thread takes a step, or
`main` does. -/
inductive Step (code : Nat → Code (Shared σ) Fault Unit) : Process σ → Process σ → Prop
  | signal {s : Process σ} (hrun : s.main.running = true) :
      Step code s { s with caughtSignal := true }
  | worker {s : Process σ} {e : Event Nat Nat} {pool : System Nat Nat (Shared σ) Fault}
      (hrun : s.main.running = true) (hkind : e.kind ≠ .invoke)
      (h : System.Step code s.pool e pool) : Step code s { s with pool := pool }
  | main {s s' : Process σ} (h : MainStep code s s') : Step code s s'

/-- States that steps which satisfy `Ok` lead to. -/
inductive Runs (code : Nat → Code (Shared σ) Fault Unit) (Ok : Process σ → Process σ → Prop)
    (s₀ : Process σ) : Process σ → Prop
  | refl : Runs code Ok s₀ s₀
  | step {s s' : Process σ} (hs : Runs code Ok s₀ s) (hok : Ok s s') (h : Step code s s') :
      Runs code Ok s₀ s'

section Scheduling

/-- What `accept` returns. -/
inductive Accepted where
  | connection (fd : Nat)
  | again
  | failed

/-- What the system answers to the next call of `main`: to `accept`, to `malloc`
and to `pthread_create`. -/
structure Answer where
  accepted : Accepted
  memory : Bool
  created : Bool

inductive Choice where
  | signal
  | main (answer : Answer)
  | worker (i : Nat)

/-- The step that `main` takes next, if it is not blocked. -/
def mainNext (code : Nat → Code (Shared σ) Fault Unit) (s : Process σ) (answer : Answer) :
    Option (Process σ) :=
  match s.main with
  | .top => some (s.goto (if s.caughtSignal then .last s.list.head else .accept))
  | .accept =>
    match answer.accepted with
    | .again => some (s.goto .top)
    | .failed => some (s.goto (.exited (-1)))
    | .connection fd =>
      if s.sockets fd = none then some ((s.accept fd).goto (.add s.accepted)) else none
  | .add i =>
    some (if answer.memory then (s.setComplete i 0).goto (.create i) else s.goto (.nullEntry i))
  | .create i =>
    some (if answer.created then (s.launch code i).goto (.insert i) else s.goto (.insert i))
  | .insert i =>
    some (if s.list.isEmpty then
      { s with list := s.list.insertHead i, main := .sweep (s.list.insertHead i).head }
    else s.goto (.walk i s.list.head))
  | .walk _ none => some (s.goto (.sweep s.list.head))
  | .walk i (some x) =>
    some (if s.list.next x = none then
      { s with list := s.list.insertAfter x i, main := .sweep (s.list.insertAfter x i).head }
    else s.goto (.walk i (s.list.next x)))
  | .sweep none => some (s.goto .top)
  | .sweep (some i) =>
    some (if s.threadComplete i = 1 then { s with joins := s.joins ++ [i], main := .join i }
    else s.goto (.clear i))
  | .join i => if (s.pool.tasks i).isNone then some (s.goto (.close i)) else none
  | .close i => some ((s.closeSocket i).goto (.clear i))
  | .clear i => some ((s.setComplete i 0).goto (.sweep (s.list.next i)))
  | .last none => some (s.goto .free)
  | .last (some i) =>
    some (if s.threadComplete i = 1 then { s with joins := s.joins ++ [i], main := .lastJoin i }
    else s.goto (.lastClose i))
  | .lastJoin i => if (s.pool.tasks i).isNone then some (s.goto (.lastClose i)) else none
  | .lastClose i => some ((s.closeSocket i).goto (.last (s.list.next i)))
  | .free =>
    if s.list.isEmpty then
      match s.list.removeHead with
      | none => some (s.goto .nullHead)
      | some list => some { s with list := list, freed := s.freed ++ s.list.head.toList }
    else some (s.goto (.exited 0))
  | .exited _ => none
  | .nullEntry _ => none
  | .nullHead => none

/-- The step that a scheduler's choice leads to, if it can be taken. -/
def next (code : Nat → Code (Shared σ) Fault Unit) (s : Process σ) : Choice → Option (Process σ)
  | .signal => if s.main.running then some { s with caughtSignal := true } else none
  | .main answer => mainNext code s answer
  | .worker i =>
    if s.main.running then
      (System.next code s.pool i .go).map (fun (_, pool) => { s with pool := pool })
    else none

variable {code : Nat → Code (Shared σ) Fault Unit} {s s' : Process σ}

theorem step_of_mainNext {answer : Answer} (h : mainNext code s answer = some s') :
    MainStep code s s' := by
  unfold mainNext at h
  split at h
  all_goals rename_i hpc
  · cases hsignal : s.caughtSignal with
    | true =>
      rw [hsignal] at h
      cases h
      exact .stop hpc hsignal
    | false =>
      rw [hsignal] at h
      cases h
      exact .listen hpc hsignal
  · split at h
    · cases h
      exact .again hpc
    · cases h
      exact .refuse hpc
    · split at h
      · cases h
        exact .accept _ hpc ‹_›
      · cases h
  · split at h <;> cases h
    · exact .add hpc
    · exact .noMemory hpc
  · split at h <;> cases h
    · exact .create hpc
    · exact .noThread hpc
  · split at h <;> cases h
    · exact .first hpc ‹_›
    · exact .search hpc (Bool.eq_false_iff.mpr ‹_›)
  · cases h
    exact .astray hpc
  · split at h <;> cases h
    · exact .link hpc ‹_›
    · exact .further hpc ‹_›
  · cases h
    exact .swept hpc
  · split at h <;> cases h
    · exact .ready hpc ‹_›
    · exact .busy hpc ‹_›
  · split at h <;> cases h
    exact .joined hpc (Option.isNone_iff_eq_none.mp ‹_›)
  · cases h
    exact .close hpc
  · cases h
    exact .clear hpc
  · cases h
    exact .passed hpc
  · split at h <;> cases h
    · exact .lastReady hpc ‹_›
    · exact .lastBusy hpc ‹_›
  · split at h <;> cases h
    exact .lastJoined hpc (Option.isNone_iff_eq_none.mp ‹_›)
  · cases h
    exact .lastClose hpc
  · split at h
    · split at h <;> cases h
      · exact .follow hpc ‹_› ‹_›
      · exact .drop hpc ‹_› ‹_›
    · cases h
      exact .keep hpc (Bool.eq_false_iff.mpr ‹_›)
  all_goals cases h

theorem step_of_next {choice : Choice} (h : next code s choice = some s') : Step code s s' := by
  cases choice with
  | signal =>
    simp only [next] at h
    split at h <;> cases h
    exact .signal ‹_›
  | main answer => exact .main (step_of_mainNext h)
  | worker i =>
    simp only [next] at h
    split at h
    · obtain ⟨⟨e, pool⟩, hnext, rfl⟩ := Option.map_eq_some_iff.mp h
      exact .worker ‹_› (System.not_invoke_of_next hnext) (System.step_of_next hnext)
    · cases h

/-- The state that a schedule leads to, if each of its steps passes the check. -/
def exec (code : Nat → Code (Shared σ) Fault Unit) (check : Process σ → Process σ → Bool)
    (s : Process σ) : List Choice → Option (Process σ)
  | [] => some s
  | choice :: schedule =>
    (next code s choice).bind (fun s' =>
      if check s s' then exec code check s' schedule else none)

theorem Runs.exec {Ok : Process σ → Process σ → Prop} {check : Process σ → Process σ → Bool}
    {s₀ : Process σ} (hs : Runs code Ok s₀ s) (hok : ∀ s s', check s s' = true → Ok s s')
    {schedule : List Choice} (h : Process.exec code check s schedule = some s') :
    Runs code Ok s₀ s' := by
  induction schedule generalizing s with
  | nil =>
    cases h
    exact hs
  | cons choice schedule ih =>
    obtain ⟨s₁, hnext, hrest⟩ := Option.bind_eq_some_iff.mp h
    split at hrest
    · exact ih (hs.step (hok _ _ ‹_›) (step_of_next hnext)) hrest
    · cases hrest

end Scheduling

end Process

end Aesd.Server
