import Aesd.Base.CString

namespace Aesd.Server
open Base CString

def INET_ADDRSTRLEN : Nat := 16

/-- The `.` of an address. -/
def dot : UInt8 := 46

/-- The loop of `flip_ip_addr`, for at most `fuel` rounds. The rows of `temp_values` lie
behind each other in memory, three bytes each, and nothing keeps a token to its row. -/
def splitLoop : Nat → Bytes → Option (List UInt8) → Nat → Bytes → Nat →
    Except Fault (Bytes × Bytes)
  | 0, _, _, _, _, _ => .error .stuck
  | _ + 1, ipAddr, none, _, tempValues, _ => .ok (ipAddr, tempValues)
  | fuel + 1, ipAddr, some token, off, tempValues, count => do
    let tempValues ← strcpy tempValues (3 * (count - 1)) token
    let (token, off, ipAddr) ← strtokAt dot ipAddr off
    splitLoop fuel ipAddr token off tempValues (count + 1)

/-- What `sprintf` puts together. -/
def reversed (tempValues : Bytes) : Except Fault (List UInt8) := do
  let fourth ← text (tempValues.drop 9)
  let third ← text (tempValues.drop 6)
  let second ← text (tempValues.drop 3)
  let first ← text tempValues
  return [dot].intercalate [fourth, third, second, first]

/-- `sprintf` prints into `modified_ip_addr`, which is then copied to the argument. -/
def printBack (ipAddr : Bytes) (s : List UInt8) : Except Fault Bytes := do
  let modifiedIpAddr ← strcpy (List.replicate INET_ADDRSTRLEN none) 0 s
  strcpy ipAddr 0 (← text modifiedIpAddr)

/-- The result is the argument's memory. -/
def flipIpAddr (ipAddr : Bytes) : Except Fault Bytes := do
  let (token, off, split) ← strtokAt dot ipAddr 0
  let (split, tempValues) ← splitLoop (ipAddr.length + 1) split token off (List.replicate 12 none) 1
  printBack split (← reversed tempValues)

end Aesd.Server
