import Aesd.Driver.Device

namespace Aesd.Proofs
open Base Driver

variable {signal : Bool} {k : Kernel} {α : Type}

theorem run_kmalloc (n : Nat) : (kmalloc n).run signal k =
    (.ok (k.heap.kmalloc n).1, { k with heap := (k.heap.kmalloc n).2 }) := rfl

theorem run_onHeap_ok {f : Heap → Except Fault (α × Heap)} {a : α} {h : Heap}
    (hf : f k.heap = .ok (a, h)) :
    (onHeap f).run signal k = (.ok a, { k with heap := h }) :=
  Code.run_exec_ok (by rw [hf])

theorem run_krealloc_ok {p p' : Ptr} {n : Nat} {h : Heap}
    (hf : k.heap.krealloc p n = .ok (p', h)) :
    (krealloc p n).run signal k = (.ok p', { k with heap := h }) := run_onHeap_ok hf

theorem run_changeHeap_ok {f : Heap → Except Fault Heap} {h : Heap} (hf : f k.heap = .ok h) :
    (changeHeap f).run signal k = (.ok (), { k with heap := h }) :=
  run_onHeap_ok (by rw [hf]; rfl)

theorem run_changeHeap_error {f : Heap → Except Fault Heap} {e : Fault}
    (hf : f k.heap = .error e) : (changeHeap f).run signal k = (.error e, k) :=
  Code.run_exec_error (by simp only [hf, Except.map])

theorem run_askHeap_ok {f : Heap → Except Fault α} {a : α} (hf : f k.heap = .ok a) :
    (askHeap f).run signal k = (.ok a, k) :=
  run_onHeap_ok (by rw [hf]; rfl)

theorem run_askHeap_error {f : Heap → Except Fault α} {e : Fault} (hf : f k.heap = .error e) :
    (askHeap f).run signal k = (.error e, k) :=
  Code.run_exec_error (by simp only [hf, Except.map])

theorem run_kfree (p : Ptr) : (kfree p).run signal k = match k.heap.kfree p with
    | .ok h => (.ok (), { k with heap := h })
    | .error e => (.error e, k) := by
  cases hf : k.heap.kfree p with
  | ok h => exact run_changeHeap_ok hf
  | error e => exact run_changeHeap_error hf

theorem run_kfree_cell {w : Nat} {wb : Bytes} (hv : k.heap.view w = some wb) :
    (kfree (.cell w 0)).run signal k = (.ok (), { k with heap := k.heap.retire w }) :=
  run_changeHeap_ok (Heap.kfree_cell hv)

theorem run_memset_cell {w n : Nat} {wb : Bytes} (hv : k.heap.view w = some wb) (c : UInt8)
    (hn : wb.length = n) : (memset (.cell w 0) c n).run signal k =
      (.ok (), { k with heap := k.heap.put w (List.replicate n (some c)) }) :=
  run_changeHeap_ok (Heap.memset_cell hv c hn)

theorem run_getDev : getDev.run signal k = (.ok k.dev, k) := rfl

theorem run_setDev (f : AesdDev → AesdDev) :
    (setDev f).run signal k = (.ok (), { k with dev := f k.dev }) := rfl

theorem run_mutexLock : mutexLockInterruptible.run signal k = (.ok signal, k) :=
  Code.run_lockInterruptible

theorem run_mutexUnlock : mutexUnlock.run signal k = (.ok (), k) := rfl

theorem loff_of_lt {n : Nat} (hn : n < 2 ^ 63) : loff n = n := by
  unfold loff
  rw [Int.bmod_eq_of_le] <;> omega

theorem sizeT_natCast {n : Nat} (hn : n < 2 ^ 64) : sizeT n = n := by
  unfold sizeT
  omega

/-- A position that a search may find something at is not negative. -/
theorem natCast_sizeT {x : Int} (hx : loff x = x) (hlt : sizeT x < 2 ^ 63) : (sizeT x : Int) = x := by
  rw [loff, Int.bmod_def] at hx
  unfold sizeT at hlt ⊢
  split at hx <;> omega

end Aesd.Proofs
