import Aesd.Base.Code
import Aesd.Driver.CircularBuffer

namespace Aesd.Driver
open Base

def EINVAL : Int := 22
def ENOMEM : Int := 12
def EFAULT : Int := 14
def ENOTTY : Int := 25
def ERESTARTSYS : Int := 512

def newline : UInt8 := 10

def sizeofCharPtr : Nat := 8
def sizeofBufferEntry : Nat := 16
def sizeofCircularBuffer : Nat := 168

/-- The device with its three allocated parts. A part is kept here as the record
it is, next to the pointer to its block; nothing but the address of the read
entry is ever used. -/
structure AesdDev where
  bufferPtr : Ptr
  buffer : CircularBuffer
  bufferEntryPtr : Ptr
  bufferEntry : BufferEntry
  readEntry : Ptr
  endOfPacket : Nat
  firstPacket : Nat
  /-- `cdev_add` has succeeded, so that the file operations can be called. -/
  cdev : Bool

structure Kernel where
  heap : Heap
  dev : AesdDev

abbrev KernelM (α : Type) := Code Kernel Fault α

/-- The caller's buffer of a write, and whether its memory cannot be read. -/
structure UserSource where
  data : List UInt8
  faults : Bool

def UserSource.count (buf : UserSource) : Nat := buf.data.length

/-- The caller's buffer of a read: the count passed with it, and after how many
bytes copying to it fails, if it does. -/
structure UserDest where
  count : Nat
  faultAt : Option Nat

/-- Values of `loff_t`. -/
def loff (x : Int) : Int := x.bmod (2 ^ 64)

/-- The conversion to `size_t`. -/
def sizeT (x : Int) : Nat := (x % 2 ^ 64).toNat

def mutexLockInterruptible : KernelM Bool := Code.lockInterruptible

def mutexUnlock : KernelM Unit := Code.release

section HeapCalls

def onHeap (f : Heap → Except Fault (α × Heap)) : KernelM α :=
  Code.exec (fun k => match f k.heap with
    | .ok (a, h) => .ok (a, { k with heap := h })
    | .error e => .error e)

/-- A heap operation that only changes the heap. -/
def changeHeap (f : Heap → Except Fault Heap) : KernelM Unit :=
  onHeap (fun h => (f h).map (fun h => ((), h)))

/-- A heap operation that only looks at the heap. -/
def askHeap (f : Heap → Except Fault α) : KernelM α :=
  onHeap (fun h => (f h).map (fun a => (a, h)))

def kmalloc (n : Nat) : KernelM Ptr := onHeap (fun h => .ok (h.kmalloc n))

def krealloc (p : Ptr) (n : Nat) : KernelM Ptr := onHeap (fun h => h.krealloc p n)

def kfree (p : Ptr) : KernelM Unit := changeHeap (fun h => h.kfree p)

def memset (p : Ptr) (c : UInt8) (n : Nat) : KernelM Unit := changeHeap (fun h => h.memset p c n)

def strlen (p : Ptr) : KernelM Nat := askHeap (fun h => h.strlen p)

def strchr (p : Ptr) (c : UInt8) : KernelM Bool := askHeap (fun h => h.strchr p c)

def strcat (dest src : Ptr) : KernelM Unit := changeHeap (fun h => h.strcat dest src)

def strncpy (dest src : Ptr) (n : Nat) : KernelM Unit := changeHeap (fun h => h.strncpy dest src n)

/-- `true` if some bytes could not be copied. -/
def copyFromUser (dest : Ptr) (buf : UserSource) : KernelM Bool := do
  if buf.faults && decide (buf.count ≠ 0) then return true
  changeHeap (fun h => h.store dest buf.data)
  return false

/-- What arrives in the caller's memory, and `true` if some bytes could not be
copied. -/
def copyToUser (buf : UserDest) (src : Ptr) (n : Nat) : KernelM (List UInt8 × Bool) := do
  let bytes ← askHeap (fun h => do CString.raw n (← h.load src))
  match buf.faultAt with
  | none => return (bytes, false)
  | some m => return (bytes.take m, decide (m < n))

end HeapCalls

def getDev : KernelM AesdDev := do return (← Code.get).dev

def setDev (f : AesdDev → AesdDev) : KernelM Unit :=
  Code.modify (fun k => { k with dev := f k.dev })

/-- The search of a read, which leaves its result in `dev->read_entry`: the
address of the slot found, or NULL. -/
def findEntry (charOffset : Nat) : KernelM (Option (Nat × Nat)) :=
  Code.exec (fun k =>
    match aesdCircularBufferFindEntryOffsetForFpos k.dev.buffer charOffset with
    | .error e => .error e
    | .ok (found, buffer) =>
      let readEntry := match found with
        | none => .null
        | some (slot, _) => Heap.Ptr.advance k.dev.bufferPtr (slot * sizeofBufferEntry)
      .ok (found, { k with dev := { k.dev with buffer := buffer, readEntry := readEntry } }))

def addEntry : KernelM Ptr :=
  Code.exec (fun k =>
    match aesdCircularBufferAddEntry k.heap k.dev.buffer k.dev.bufferEntry with
    | .error e => .error e
    | .ok (p, h, buffer) => .ok (p, { k with heap := h, dev := { k.dev with buffer := buffer } }))

structure ReadResult where
  retval : Int
  fPos : Int
  delivered : List UInt8
  deriving DecidableEq

/-- From the allocation of the local buffer to the label `free`. The return
value has been set before and survives a failed allocation. -/
def aesdReadCopy (buf : UserDest) (readBuffer src : Ptr) (n : Nat) :
    KernelM (Int × List UInt8) := do
  if readBuffer = .null then return (n, [])
  memset readBuffer 0 (n * sizeofCharPtr)
  strncpy readBuffer src n
  let (delivered, failed) ← copyToUser buf readBuffer (n + 1)
  if failed then return (-EFAULT, delivered)
  return (n, delivered)

/-- From the entry found to the end of `free`. The position is moved first. -/
def aesdReadEntry (buf : UserDest) (fPos : Int) (entry : BufferEntry) (rtnByte : Nat) :
    KernelM ReadResult := do
  let n := entry.size - rtnByte
  let readBuffer ← kmalloc (n * sizeofCharPtr)
  let (retval, delivered) ← aesdReadCopy buf readBuffer (Heap.Ptr.advance entry.buffptr rtnByte) n
  kfree readBuffer
  return ⟨retval, loff (fPos + entry.size - rtnByte), delivered⟩

/-- The part of `aesd_read` between locking and the label `exit`. -/
def aesdReadLocked (buf : UserDest) (fPos : Int) : KernelM ReadResult := do
  match ← findEntry (sizeT fPos) with
  | none => return ⟨0, fPos, []⟩
  | some (slot, rtnByte) =>
    aesdReadEntry buf fPos (((← getDev).buffer.entry[slot]?).getD .blank) rtnByte

def aesdRead (buf : UserDest) (fPos : Int) : KernelM ReadResult := do
  if ← mutexLockInterruptible then return ⟨-ERESTARTSYS, fPos, []⟩
  let result ← aesdReadLocked buf fPos
  mutexUnlock
  return result

/-- The two ways to get memory for the packet: a fresh block for its first part,
a grown one for a continuation. The result is `new_length`. -/
def allocPacket (writeBuffer : Ptr) : KernelM Nat := do
  let dev ← getDev
  let newLength := (← strlen writeBuffer) + 1
  if dev.firstPacket = 0 then
    let p ← kmalloc newLength
    setDev (fun dev => { dev with bufferEntry := { dev.bufferEntry with buffptr := p } })
    memset p 0 newLength
    return newLength
  else
    let newLength := dev.bufferEntry.size + newLength
    let p ← krealloc dev.bufferEntry.buffptr newLength
    setDev (fun dev => { dev with bufferEntry := { dev.bufferEntry with buffptr := p } })
    return newLength

/-- The packet gets its memory and the new part is appended. `false` if there
was none, which the code finds out from `buffptr`. -/
def growPacket (writeBuffer : Ptr) : KernelM Bool := do
  let newLength ← allocPacket writeBuffer
  let buffptr := (← getDev).bufferEntry.buffptr
  if buffptr = .null then return false
  strcat buffptr writeBuffer
  setDev (fun dev =>
    { dev with bufferEntry := { dev.bufferEntry with size := newLength }, firstPacket := 1 })
  return true

/-- What a write with a newline does at its end. -/
def closePacket (fPos : Int) : KernelM Int := do
  let bufferToFree ← addEntry
  let fPos := loff (fPos + (← getDev).bufferEntry.size)
  if bufferToFree ≠ .null then
    kfree bufferToFree
  setDev (fun dev => { dev with firstPacket := 0, endOfPacket := 0 })
  return fPos

/-- The part of `aesd_write` after the caller's bytes have been copied. The flag
for the end of the packet is only ever set here; it is cleared when the packet
is closed. -/
def appendPart (count : Nat) (writeBuffer : Ptr) (fPos : Int) : KernelM (Int × Int) := do
  if ← strchr writeBuffer newline then
    setDev (fun dev => { dev with endOfPacket := 1 })
  if !(← growPacket writeBuffer) then return (-ENOMEM, fPos)
  if (← getDev).endOfPacket = 1 then
    return (count, ← closePacket fPos)
  return (count, fPos)

/-- The part of `aesd_write` between the first allocation and the label `exit`. -/
def aesdWriteLocked (buf : UserSource) (writeBuffer : Ptr) (fPos : Int) : KernelM (Int × Int) := do
  if writeBuffer = .null then return (-ENOMEM, fPos)
  memset writeBuffer 0 (buf.count * sizeofCharPtr)
  if ← copyFromUser writeBuffer buf then return (-EFAULT, fPos)
  appendPart buf.count writeBuffer fPos

/-- The result is the return value and `*f_pos`. -/
def aesdWrite (buf : UserSource) (fPos : Int) : KernelM (Int × Int) := do
  if ← mutexLockInterruptible then return (-ERESTARTSYS, fPos)
  let writeBuffer ← kmalloc (buf.count * sizeofCharPtr)
  let result ← aesdWriteLocked buf writeBuffer fPos
  kfree writeBuffer
  mutexUnlock
  return result

/-- The loop that adds up the commands before `writeCmd`, for `rounds` more
rounds from `i` on. `sizeAt` reads the size field of an entry by index. The
second result lists the indices read. -/
def seekLoop (sizeAt : Nat → Nat) (outOffs writeCmd writeCmdOffset : Nat) :
    Nat → Nat → Nat → Nat × List Nat
  | 0, _, totalSize => (totalSize, [])
  | rounds + 1, i, totalSize =>
    if i ≠ writeCmd then
      let (total, reads) := seekLoop sizeAt outOffs writeCmd writeCmdOffset rounds (i + 1)
        ((sizeAt (outOffs + i) + totalSize) % 2 ^ 64)
      (total, (outOffs + i) :: reads)
    else ((totalSize + writeCmdOffset) % 2 ^ 64, [])

structure SeekResult where
  retval : Int
  fPos : Int
  /-- The indices at which `entry[]` was read. -/
  reads : List Nat
  deriving DecidableEq

/-- The size field at an index, also at one outside the array: `past` is what
the memory behind the ring holds there. -/
def sizeAt (past : Nat → Nat) (buffer : CircularBuffer) (i : Nat) : Nat :=
  match buffer.entry[i]? with
  | some e => e.size
  | none => past i

/-- The part of `aesd_adjust_file_offset` that runs with the lock held. -/
def seekLocked (past : Nat → Nat) (buffer : CircularBuffer) (writeCmd writeCmdOffset : Nat)
    (fPos : Int) : SeekResult :=
  let seeked := (buffer.outOffs + writeCmd) % 10
  let entry := (buffer.entry[seeked]?).getD .blank
  if entry.buffptr = .null then ⟨-EINVAL, fPos, [seeked]⟩
  else if entry.size < writeCmdOffset then ⟨-EINVAL, fPos, [seeked]⟩
  else
    let (total, reads) := seekLoop (sizeAt past buffer) buffer.outOffs writeCmd writeCmdOffset 11 0 0
    ⟨0, loff total, seeked :: reads⟩

/-- The part of `aesd_adjust_file_offset` before the label `fail`. -/
def seekEntry (past : Nat → Nat) (writeCmd writeCmdOffset : Nat) (fPos : Int) :
    KernelM SeekResult := do
  if writeCmd ≥ 10 then return ⟨-EINVAL, fPos, []⟩
  if ← mutexLockInterruptible then return ⟨-ERESTARTSYS, fPos, []⟩
  return seekLocked past (← getDev).buffer writeCmd writeCmdOffset fPos

/-- All paths come to the label that unlocks, also those on which the lock was
not taken. -/
def aesdAdjustFileOffset (past : Nat → Nat) (writeCmd writeCmdOffset : Nat) (fPos : Int) :
    KernelM SeekResult := do
  let result ← seekEntry past writeCmd writeCmdOffset fPos
  mutexUnlock
  return result

/-- _IOWR(0x16, 1, struct aesd_seekto) -/
def AESDCHAR_IOCSEEKTO : Nat := 0xC0081601

/-- `arg` is the structure passed, unless copying it fails. -/
def aesdIoctl (past : Nat → Nat) (cmd : Nat) (arg : Option (Nat × Nat)) (fPos : Int) :
    KernelM SeekResult :=
  if cmd = AESDCHAR_IOCSEEKTO then
    match arg with
    | none => return ⟨EFAULT, fPos, []⟩
    | some (writeCmd, writeCmdOffset) => aesdAdjustFileOffset past writeCmd writeCmdOffset fPos
  else return ⟨-ENOTTY, fPos, []⟩

def SEEK_SET : Int := 0
def SEEK_CUR : Int := 1
def SEEK_END : Int := 2

/-- What the kernel's `fixed_size_llseek` returns: the target if it lies in the file,
an error if not. With an error it has not touched the position of the file. -/
def fixedSizeLlseek (fPos offset whence size : Int) : Int :=
  let within (target : Int) : Int := if 0 ≤ target ∧ target ≤ size then target else -EINVAL
  if whence = SEEK_SET then within offset
  else if whence = SEEK_CUR then if offset = 0 then fPos else within (fPos + offset)
  else if whence = SEEK_END then within (size + offset)
  else -EINVAL

/-- The result is the return value and `filp->f_pos`, which is set to whatever was
returned. The lock is not taken. -/
def aesdSeek (fPos offset whence : Int) : KernelM (Int × Int) := do
  let bufferSize := getAesdBufferLength (← getDev).buffer
  let requestedLocation := fixedSizeLlseek fPos offset whence bufferSize
  return (requestedLocation, requestedLocation)

/-- A call of one of the file operations that use the lock. -/
inductive FileOp where
  | read (buf : UserDest) (fPos : Int)
  | write (buf : UserSource) (fPos : Int)
  | ioctl (past : Nat → Nat) (cmd : Nat) (arg : Option (Nat × Nat)) (fPos : Int)

/-- The table of file operations, with the return value of each. -/
def aesdFops : FileOp → KernelM Int
  | .read buf fPos => do return (← aesdRead buf fPos).retval
  | .write buf fPos => do return (← aesdWrite buf fPos).1
  | .ioctl past cmd arg fPos => do return (← aesdIoctl past cmd arg fPos).retval

def aesdCleanupModule : KernelM Unit := do
  setDev (fun dev => { dev with cdev := false })
  kfree (← getDev).readEntry
  kfree (← getDev).bufferEntryPtr
  kfree (← getDev).bufferPtr

/-- A device of all zero bytes. -/
def AesdDev.zero : AesdDev := ⟨.null, aesdCircularBufferInit, .null, .blank, .null, 0, 0, false⟩

/-- One of the allocations of `aesd_init_module`, `false` if it was refused. -/
def allocPart (n : Nat) (set : Ptr → AesdDev → AesdDev) : KernelM Bool := do
  let p ← kmalloc n
  setDev (set p)
  return decide (p ≠ .null)

/-- All of them, up to the first one refused. -/
def initAllocs : KernelM Bool := do
  if !(← allocPart sizeofCircularBuffer (fun p dev => { dev with bufferPtr := p })) then
    return false
  if !(← allocPart sizeofBufferEntry (fun p dev => { dev with bufferEntryPtr := p })) then
    return false
  allocPart sizeofBufferEntry (fun p dev => { dev with readEntry := p })

/-- `region` is the result of `alloc_chrdev_region` and `cdevAdd` that of
`cdev_add`. A failed allocation cleans up and returns the result of the former. -/
def aesdInitModule (region cdevAdd : Int) : KernelM Int := do
  if region < 0 then return region
  setDev (fun _ => .zero)
  if ← initAllocs then
    memset (← getDev).bufferPtr 0 sizeofCircularBuffer
    memset (← getDev).bufferEntryPtr 0 sizeofBufferEntry
    memset (← getDev).readEntry 0 sizeofBufferEntry
    setDev (fun dev => { dev with cdev := decide (cdevAdd = 0) })
    return cdevAdd
  else
    aesdCleanupModule
    return region

end Aesd.Driver
