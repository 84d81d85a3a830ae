import Aesd.Driver.Device

namespace Aesd.Proofs
open Base Driver Code

/-- How often memory has been denied so far. -/
def denied (k : Kernel) : Nat := k.heap.denied

theorem denied_add_entry_le {h h' : Heap} {b b' : CircularBuffer} {e : BufferEntry} {p : Ptr}
    (hadd : aesdCircularBufferAddEntry h b e = .ok (p, h', b')) : h.denied ≤ h'.denied := by
  cases hs : h.strlen e.buffptr with
  | error err => simp [aesdCircularBufferAddEntry, hs, Bind.bind, Except.bind] at hadd
  | ok n =>
    simp only [aesdCircularBufferAddEntry, hs, Bind.bind, Except.bind, pure, Except.pure, throw,
      throwThe, MonadExceptOf.throw] at hadd
    have hheap : h' = (h.kmalloc n).2 := by grind
    rw [hheap]
    exact Heap.denied_kmalloc_le n

-- What runs with the lock held does not touch it, and requests that were denied
-- stay so.
section Inner
variable (p q : Ptr) (n : Nat)

theorem inner_onHeap {f : Heap → Except Fault (α × Heap)}
    (hf : ∀ h a h', f h = .ok (a, h') → h.denied ≤ h'.denied) : Inner denied (onHeap f) := by
  refine inner_exec (fun k a k' hk => ?_)
  split at hk
  · rename_i hr
    rw [← (Prod.mk.inj (Except.ok.inj hk)).2]
    exact hf _ _ _ hr
  · cases hk

theorem inner_changeHeap {f : Heap → Except Fault Heap}
    (hf : ∀ h h', f h = .ok h' → h'.denied = h.denied) : Inner denied (changeHeap f) := by
  refine inner_onHeap (fun h a h' hr => ?_)
  cases hfh : f h with
  | error e => simp [hfh, Except.map] at hr
  | ok h₁ =>
    obtain rfl : h₁ = h' := by simpa [hfh, Except.map] using hr
    exact Nat.le_of_eq (hf h h₁ hfh).symm

theorem inner_askHeap (f : Heap → Except Fault α) : Inner denied (askHeap f) := by
  refine inner_onHeap (fun h a h' hr => ?_)
  cases hfh : f h with
  | error e => simp [hfh, Except.map] at hr
  | ok b =>
    obtain ⟨_, rfl⟩ : b = a ∧ h = h' := by simpa [hfh, Except.map] using hr
    exact Nat.le_refl _

theorem inner_kmalloc : Inner denied (kmalloc n) := by
  refine inner_onHeap (fun h a h' hr => ?_)
  rw [← (Prod.mk.inj (Except.ok.inj hr)).2]
  exact Heap.denied_kmalloc_le n

theorem inner_krealloc : Inner denied (krealloc p n) :=
  inner_onHeap (fun _ _ _ => Heap.denied_krealloc_le)

theorem inner_kfree : Inner denied (kfree p) := inner_changeHeap (fun _ _ => Heap.denied_kfree)

theorem inner_memset (c : UInt8) : Inner denied (memset p c n) :=
  inner_changeHeap (fun _ _ => Heap.denied_store)

theorem inner_strcat : Inner denied (strcat p q) := inner_changeHeap (fun _ _ => Heap.denied_strcat)

theorem inner_strncpy : Inner denied (strncpy p q n) :=
  inner_changeHeap (fun _ _ => Heap.denied_strncpy)

theorem inner_strlen : Inner denied (strlen p) := inner_askHeap _

theorem inner_strchr (c : UInt8) : Inner denied (strchr p c) := inner_askHeap _

theorem inner_findEntry : Inner denied (findEntry n) := by
  refine inner_exec (fun k a k' hk => ?_)
  split at hk
  · cases hk
  · rw [← (Prod.mk.inj (Except.ok.inj hk)).2]
    exact Nat.le_refl _

theorem inner_addEntry : Inner denied addEntry := by
  refine inner_exec (fun k a k' hk => ?_)
  split at hk
  · cases hk
  · rename_i hadd
    rw [← (Prod.mk.inj (Except.ok.inj hk)).2]
    exact denied_add_entry_le hadd

theorem inner_getDev : Inner denied getDev := inner_get.bind (fun _ => inner_pure _)

theorem inner_setDev (f : AesdDev → AesdDev) : Inner denied (setDev f) :=
  inner_modify (fun _ => Nat.le_refl _)

theorem inner_copyFromUser (buf : UserSource) : Inner denied (copyFromUser p buf) := by
  unfold copyFromUser
  split
  · exact inner_pure _
  · exact (inner_changeHeap (fun _ _ => Heap.denied_store)).bind (fun _ => inner_pure _)

theorem inner_copyToUser (buf : UserDest) : Inner denied (copyToUser buf p n) := by
  refine (inner_askHeap _).bind (fun bytes => ?_)
  split <;> exact inner_pure _

theorem inner_aesdReadCopy (buf : UserDest) : Inner denied (aesdReadCopy buf p q n) := by
  unfold aesdReadCopy
  split
  · exact inner_pure _
  · refine (inner_memset _ _ _).bind (fun _ => (inner_strncpy _ _ _).bind (fun _ =>
      (inner_copyToUser _ _ _).bind (fun (_, failed) => ?_)))
    dsimp only
    split <;> exact inner_pure _

theorem inner_aesdReadEntry (buf : UserDest) (fPos : Int) (entry : BufferEntry) :
    Inner denied (aesdReadEntry buf fPos entry n) :=
  (inner_kmalloc _).bind (fun _ => (inner_aesdReadCopy _ _ _ _).bind (fun (_, _) =>
    (inner_kfree _).bind (fun _ => inner_pure _)))

theorem inner_aesdReadLocked (buf : UserDest) (fPos : Int) :
    Inner denied (aesdReadLocked buf fPos) := by
  refine (inner_findEntry _).bind (fun found => ?_)
  split
  · exact inner_pure _
  · exact inner_getDev.bind (fun _ => inner_aesdReadEntry _ _ _ _)

theorem inner_allocPacket : Inner denied (allocPacket p) := by
  refine inner_getDev.bind (fun dev => (inner_strlen _).bind (fun n => ?_))
  dsimp only
  split
  · exact (inner_kmalloc _).bind (fun _ => (inner_setDev _).bind (fun _ =>
      (inner_memset _ _ _).bind (fun _ => inner_pure _)))
  · exact (inner_krealloc _ _).bind (fun _ => (inner_setDev _).bind (fun _ =>
      inner_pure _))

theorem inner_growPacket : Inner denied (growPacket p) := by
  refine (inner_allocPacket _).bind (fun n => inner_getDev.bind (fun dev => ?_))
  dsimp only
  split
  · exact inner_pure _
  · exact (inner_strcat _ _).bind (fun _ => (inner_setDev _).bind (fun _ => inner_pure _))

theorem inner_closePacket (fPos : Int) : Inner denied (closePacket fPos) := by
  refine inner_addEntry.bind (fun back => inner_getDev.bind (fun dev => ?_))
  dsimp only
  split
  · exact (inner_kfree _).bind (fun _ => (inner_setDev _).bind (fun _ => inner_pure _))
  · exact (inner_setDev _).bind (fun _ => inner_pure _)

theorem inner_appendPart (fPos : Int) : Inner denied (appendPart n p fPos) := by
  have htail : Inner denied (do
      if !(← growPacket p) then return (-ENOMEM, fPos)
      if (← getDev).endOfPacket = 1 then
        return ((n : Int), ← closePacket fPos)
      return ((n : Int), fPos) : KernelM (Int × Int)) := by
    refine (inner_growPacket _).bind (fun grown => ?_)
    split
    · exact inner_pure _
    · refine inner_getDev.bind (fun dev => ?_)
      split
      · exact (inner_closePacket _).bind (fun _ => inner_pure _)
      · exact inner_pure _
  refine (inner_strchr _ _).bind (fun found => ?_)
  split
  · exact (inner_setDev _).bind (fun _ => htail)
  · exact htail

theorem inner_aesdWriteLocked (buf : UserSource) (fPos : Int) :
    Inner denied (aesdWriteLocked buf p fPos) := by
  unfold aesdWriteLocked
  split
  · exact inner_pure _
  · refine (inner_memset _ _ _).bind (fun _ => (inner_copyFromUser _ _).bind
      (fun failed => ?_))
    split
    · exact inner_pure _
    · exact inner_appendPart _ _ _

end Inner

section Calls

theorem grows_aesdRead (buf : UserDest) (fPos : Int) : Grows denied (aesdRead buf fPos) := by
  refine grows_lockInterruptible.bind (fun interrupted => ?_)
  split
  · trivial
  · exact (inner_aesdReadLocked buf fPos).grows.bind (fun _ => grows_release.bind (fun _ => trivial))

theorem grows_aesdWrite (buf : UserSource) (fPos : Int) : Grows denied (aesdWrite buf fPos) := by
  refine grows_lockInterruptible.bind (fun interrupted => ?_)
  split
  · trivial
  · exact (inner_kmalloc _).grows.bind (fun _ => (inner_aesdWriteLocked _ _ _).grows.bind
      (fun _ => (inner_kfree _).grows.bind (fun _ => grows_release.bind (fun _ => trivial))))

/-- A seek moves the file and changes nothing in the kernel. -/
theorem aesd_ioctl_keeps (signal : Bool) (k : Kernel) (past : Nat → Nat) (cmd : Nat)
    (arg : Option (Nat × Nat)) (fPos : Int) :
    ∃ res, (aesdIoctl past cmd arg fPos).run signal k = (.ok res, k) := by
  unfold aesdIoctl
  split
  · split
    · exact ⟨_, rfl⟩
    · unfold aesdAdjustFileOffset seekEntry
      split
      · exact ⟨_, rfl⟩
      · cases signal <;> exact ⟨_, rfl⟩
  · exact ⟨_, rfl⟩

end Calls

end Aesd.Proofs
