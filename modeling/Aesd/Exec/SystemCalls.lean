import Aesd.Base.CString
import Mathlib.Logic.Function.Basic

namespace Aesd.Exec
open Base CString

def slash : UInt8 := 47

def EXIT_FAILURE : Nat := 1

def STDOUT_FILENO : Nat := 1

/-- A string that is passed in: its bytes, none of them the terminator. -/
abbrev CStr := { s : List UInt8 // 0 ∉ s }

/-- How a process ended, as `wait` reports it. -/
inductive Status where
  | exited (code : Nat)
  | signaled (signal : Nat)
  deriving DecidableEq

/-- A program that was started: its path, its arguments, and the file that its standard
output goes to. -/
structure Launch where
  path : List UInt8
  argv : List (List UInt8)
  stdout : Option (List UInt8)
  deriving DecidableEq

/-- The process that makes the calls. `files` says which file a descriptor stands for, and
`children` how the processes end that it has not waited for. -/
structure Caller where
  files : Nat → Option (List UInt8)
  children : List Status
  launched : List Launch

/-- What the system answers to one call. `outcome` is how the program ends, none if it
cannot be executed, and `reaped` which of the children ends first. -/
structure Answer where
  created : Bool
  forked : Bool
  duplicated : Bool
  outcome : Option Status
  interrupted : Bool
  reaped : Nat

/-- How the child ends. It exits by itself if `execv` returns. -/
def Answer.status (a : Answer) : Status := a.outcome.getD (.exited EXIT_FAILURE)

/-- A child that cannot redirect its output exits before it calls `execv`. -/
def Answer.afterDup2 (a : Answer) : Answer :=
  if a.duplicated then a else { a with outcome := none }

namespace Caller

/-- The lowest descriptor that is free, if there is one below the limit. -/
def freeFd (limit : Nat) (s : Caller) : Option Nat :=
  (List.range limit).find? (fun fd => (s.files fd).isNone)

def creat (limit : Nat) (a : Answer) (outputfile : List UInt8) (s : Caller) :
    Option (Nat × Caller) :=
  if a.created then
    (s.freeFd limit).map (fun fd =>
      (fd, { s with files := Function.update s.files fd (some outputfile) }))
  else none

/-- A new child, and the program that it executes. -/
def spawn (s : Caller) (a : Answer) (launch : Launch) : Caller :=
  { s with
    children := s.children ++ [a.status]
    launched := if a.outcome.isSome then s.launched ++ [launch] else s.launched }

/-- `wait` takes whichever child has ended, `none` for -1. -/
def wait (a : Answer) (s : Caller) : Option Status × Caller :=
  if a.interrupted then (none, s)
  else
    (s.children[a.reaped % s.children.length]?,
      { s with children := s.children.eraseIdx (a.reaped % s.children.length) })

end Caller

/-- The loop that looks for the last part of the path, for at most `fuel` rounds. `name` is
what `arguments[0]` points to. -/
def nameLoop : Nat → Bytes → Option (List UInt8) → Nat → Option (List UInt8) →
    Except Fault (Option (List UInt8))
  | 0, _, _, _, _ => .error .stuck
  | _ + 1, _, none, _, name => .ok name
  | fuel + 1, inputStr, some part, off, _ => do
    let (next, off, inputStr) ← strtokAt slash inputStr off
    nameLoop fuel inputStr next off (some part)

/-- `arguments[0]`, which is logged whether it was set or not. -/
def programName (path : List UInt8) : Except Fault (List UInt8) := do
  let inputStr ← strcpy (List.replicate 100 none) 0 path
  let (part, off, inputStr) ← strtokAt slash inputStr 0
  match ← nameLoop (path.length + 1) inputStr part off none with
  | some name => return name
  | none => throw .uninitialised

/-- The path and the arguments that are passed to `execv`. -/
def arguments : List CStr → Except Fault (List UInt8 × List (List UInt8))
  | [] => .error .nullDeref
  | path :: rest => do return (path.val, (← programName path) :: rest.map Subtype.val)

/-- What the parent makes of the status. -/
def succeeded : Option Status → Bool
  | none => false
  | some (.exited code) => code ≠ EXIT_FAILURE
  | some (.signaled _) => true

/-- From the `fork` of `do_exec` and `do_exec_redirect` to their end. -/
def forkAndWait (a : Answer) (launch : Launch) (s : Caller) : Bool × Caller :=
  if a.forked then
    let (status, s) := (s.spawn a launch).wait a
    (succeeded status, s)
  else (false, s)

/-- `system` waits for its own child, and the status of that is not looked at. -/
def doSystem (a : Answer) (s : Caller) : Bool × Caller := (a.forked, s)

def doExec (a : Answer) (command : List CStr) (s : Caller) :
    Except Fault (Bool × Caller) := do
  let (path, argv) ← arguments command
  return forkAndWait a ⟨path, argv, s.files STDOUT_FILENO⟩ s

/-- The standard output of the child after `dup2` and `close`. -/
def redirected (files : Nat → Option (List UInt8)) (outfileFd : Nat) : Option (List UInt8) :=
  Function.update (Function.update files STDOUT_FILENO (files outfileFd)) outfileFd none
    STDOUT_FILENO

/-- The parent does not close the file. -/
def doExecRedirect (limit : Nat) (a : Answer) (outputfile : List UInt8)
    (command : List CStr) (s : Caller) : Except Fault (Bool × Caller) :=
  match s.creat limit a outputfile with
  | none => .ok (false, s)
  | some (outfileFd, s) => do
    let (path, argv) ← arguments command
    return forkAndWait a.afterDup2 ⟨path, argv, redirected s.files outfileFd⟩ s

/-- A call of one of the three functions. -/
inductive Invocation where
  | system
  | exec (command : List CStr)
  | redirect (outputfile : List UInt8) (command : List CStr)

def Invocation.run (limit : Nat) (a : Answer) (s : Caller) :
    Invocation → Except Fault (Bool × Caller)
  | .system => .ok (doSystem a s)
  | .exec command => doExec a command s
  | .redirect outputfile command => doExecRedirect limit a outputfile command s

/-- Calls one after the other, with what each of them returns. -/
def runAll (limit : Nat) : List (Invocation × Answer) → Caller →
    Except Fault (List Bool × Caller)
  | [], s => .ok ([], s)
  | (call, a) :: calls, s => do
    let (ret, s) ← call.run limit a s
    let (rets, s) ← runAll limit calls s
    return (ret :: rets, s)

end Aesd.Exec
