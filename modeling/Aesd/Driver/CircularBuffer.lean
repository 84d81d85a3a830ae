import Aesd.Base.Heap
import Aesd.Base.Queue

namespace Aesd.Driver
open Base

structure BufferEntry where
  buffptr : Ptr
  size : Nat
  deriving DecidableEq, Repr

/-- The array has AESDCHAR_MAX_WRITE_OPERATIONS_SUPPORTED slots, which the code
also spells BUFFER_SIZE and 10. -/
structure CircularBuffer where
  entry : Vector BufferEntry 10
  inOffs : Nat
  outOffs : Nat
  deriving DecidableEq

/-- An entry of all zero bytes. -/
def BufferEntry.blank : BufferEntry := ⟨.null, 0⟩

def aesdCircularBufferInit : CircularBuffer := ⟨Vector.replicate 10 .blank, 0, 0⟩

/-- The rounds of the search loop. `buffer.outOffs` is its cursor; the running
totals wrap as `size_t` does. The last branch, in which the position lies before
the current entry, goes round again without moving the cursor. -/
def findLoop (charOffset restoreOutOffs : Nat) :
    Nat → CircularBuffer → Nat → Nat → Except Fault (Option (Nat × Nat) × CircularBuffer)
  | 0, _, _, _ => .error .stuck
  | fuel + 1, buffer, totalBeginning, loopCount =>
    match buffer.entry[buffer.outOffs]? with
    | none => .error .outOfBounds
    | some e =>
      let totalEnd := (e.size + totalBeginning) % 2 ^ 64
      if charOffset ≥ totalEnd then
        if loopCount + 1 ≥ 10 then
          .ok (none, { buffer with outOffs := restoreOutOffs })
        else
          findLoop charOffset restoreOutOffs fuel
            { buffer with outOffs := Queue.next 10 buffer.outOffs } totalEnd (loopCount + 1)
      else if charOffset ≥ totalBeginning then
        .ok (some (buffer.outOffs, charOffset - totalBeginning),
          { buffer with outOffs := restoreOutOffs })
      else findLoop charOffset restoreOutOffs fuel buffer totalEnd (loopCount + 1)

/-- The slot that holds position `charOffset` of all entries put together, with
the offset in it, and the buffer as the search leaves it. -/
def aesdCircularBufferFindEntryOffsetForFpos (buffer : CircularBuffer) (charOffset : Nat) :
    Except Fault (Option (Nat × Nat) × CircularBuffer) :=
  findLoop charOffset buffer.outOffs 10 buffer 0 0

/-- The result is the pointer to give back to the allocator, NULL if there is
none. The block asked for at the start is only a test whether memory is left:
its address is overwritten in both branches. -/
def aesdCircularBufferAddEntry (h : Heap) (buffer : CircularBuffer) (addEntry : BufferEntry) :
    Except Fault (Ptr × Heap × CircularBuffer) := do
  let (returnBuffer, h) := h.kmalloc (← h.strlen addEntry.buffptr)
  if returnBuffer = .null then return (.null, h, buffer)
  match buffer.entry[buffer.inOffs]? with
  | none => throw .outOfBounds
  | some slot =>
    let full := slot.buffptr ≠ .null
    let size ← h.strlen addEntry.buffptr
    return (if full then slot.buffptr else .null, h,
      { entry := buffer.entry.setIfInBounds buffer.inOffs ⟨addEntry.buffptr, size⟩
        inOffs := Queue.next 10 buffer.inOffs
        outOffs := if full then Queue.next 10 buffer.outOffs else buffer.outOffs })

/-- The sum of all ten sizes, in array order, as `long long`. -/
def getAesdBufferLength (buffer : CircularBuffer) : Int :=
  buffer.entry.toList.foldl (fun size e => Int.bmod (e.size + size) (2 ^ 64)) 0

end Aesd.Driver
