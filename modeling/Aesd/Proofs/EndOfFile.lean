import Aesd.Proofs.Read

namespace Aesd.Proofs
open Base Driver Segments

section Seek
variable {signal : Bool} {k : Kernel}

theorem run_aesdSeek (fPos offset whence : Int) :
    (aesdSeek fPos offset whence).run signal k =
      (.ok (fixedSizeLlseek fPos offset whence (getAesdBufferLength k.dev.buffer),
        fixedSizeLlseek fPos offset whence (getAesdBufferLength k.dev.buffer)), k) := rfl

theorem fixedSizeLlseek_end {size : Int} (fPos : Int) (hsize : 0 ≤ size) :
    fixedSizeLlseek fPos 0 SEEK_END size = size := by
  simp [fixedSizeLlseek, SEEK_SET, SEEK_CUR, SEEK_END, hsize]

end Seek

section Read
variable {signal : Bool} {k k' : Kernel} {buf : UserDest} {fPos : Int}

/-- Once there is something to read, the return value is its length or an error. -/
theorem read_copy_retval {readBuffer src : Ptr} {n : Nat} {ret : Int × List UInt8}
    (hrun : (aesdReadCopy buf readBuffer src n).run signal k = (.ok ret, k')) :
    ret.1 = n ∨ ret.1 = -EFAULT := by
  unfold aesdReadCopy at hrun
  split at hrun
  · obtain ⟨rfl, _⟩ : ((n : Int), ([] : List UInt8)) = ret ∧ k = k' := by simpa using hrun
    exact Or.inl rfl
  · obtain ⟨_, k₁, _, hrun⟩ := Code.run_bind_eq_ok hrun
    obtain ⟨_, k₂, _, hrun⟩ := Code.run_bind_eq_ok hrun
    obtain ⟨⟨delivered, failed⟩, k₃, _, hrun⟩ := Code.run_bind_eq_ok hrun
    cases failed with
    | true =>
      obtain ⟨rfl, _⟩ : (-EFAULT, delivered) = ret ∧ k₃ = k' := by simpa using hrun
      exact Or.inr rfl
    | false =>
      obtain ⟨rfl, _⟩ : ((n : Int), delivered) = ret ∧ k₃ = k' := by simpa using hrun
      exact Or.inl rfl

theorem read_entry_retval {entry : BufferEntry} {j : Nat} {res : ReadResult}
    (hrun : (aesdReadEntry buf fPos entry j).run signal k = (.ok res, k')) :
    res.retval = (entry.size - j : Nat) ∨ res.retval = -EFAULT := by
  obtain ⟨readBuffer, k₁, _, hrun⟩ := Code.run_bind_eq_ok hrun
  obtain ⟨⟨ret, delivered⟩, k₂, hcopy, hrun⟩ := Code.run_bind_eq_ok hrun
  obtain ⟨_, k₃, _, hrun⟩ := Code.run_bind_eq_ok hrun
  obtain ⟨rfl, _⟩ : (⟨ret, loff (fPos + entry.size - j), delivered⟩ : ReadResult) = res ∧
    k₃ = k' := by simpa using hrun
  exact read_copy_retval hcopy

/-- With the lock acquired. -/
theorem run_aesdRead : (aesdRead buf fPos).run false k = (aesdReadLocked buf fPos).run false k := by
  simp only [aesdRead, Code.run_bind, run_mutexLock, Bool.false_eq_true, ↓reduceIte]
  rcases (aesdReadLocked buf fPos).run false k with ⟨r, t⟩
  cases r <;> rfl

/-- A read reports the end of file exactly if the search finds nothing, whatever is
in the packets. -/
theorem read_reports_end_iff {found : Option (Nat × Nat)}
    (hfind : aesdCircularBufferFindEntryOffsetForFpos k.dev.buffer (sizeT fPos) =
      .ok (found, k.dev.buffer))
    (hleft : ∀ slot j, found = some (slot, j) →
      j < ((k.dev.buffer.entry[slot]?).getD .blank).size) :
    (∃ k', (aesdRead buf fPos).run false k = (.ok ⟨0, fPos, []⟩, k')) ↔ found = none := by
  obtain ⟨k₁, hsearch, hbuf⟩ : ∃ k₁, (findEntry (sizeT fPos)).run false k = (.ok found, k₁) ∧
      k₁.dev.buffer = k.dev.buffer := by
    rw [findEntry, Code.run_exec, hfind]
    exact ⟨_, rfl, rfl⟩
  rw [run_aesdRead, aesdReadLocked, Code.run_bind, hsearch]
  cases found with
  | none => exact iff_of_true ⟨k₁, rfl⟩ rfl
  | some place =>
    obtain ⟨slot, j⟩ := place
    refine iff_of_false ?_ (by simp)
    rintro ⟨k', hrun⟩
    obtain ⟨dev, k₂, hdev, hrun⟩ := Code.run_bind_eq_ok hrun
    obtain rfl : k₁.dev = dev := by simpa [run_getDev] using congrArg Prod.fst hdev
    have hlt := hleft slot j rfl
    rw [← hbuf] at hlt
    rcases read_entry_retval hrun with hret | hret
    · simp only at hret
      omega
    · cases hret

end Read

section AddEntries
variable {h h' : Heap} {b : CircularBuffer} {es : List BufferEntry} {log : List Added}

/-- Every sequence of calls leaves the cursor in the array. -/
theorem add_entries_offset (hes : ∀ e ∈ es, ∃ s, h.string e.buffptr = .ok s)
    (hadd : addEntries h aesdCircularBufferInit es = .ok (log, h', b)) : b.outOffs < 10 := by
  obtain ⟨log', h'', b', hadd', _, _, _, hring, _⟩ :=
    add_entries_log es h aesdCircularBufferInit [] (by simpa using init_ring) rfl hes
  cases hadd'.symm.trans hadd
  exact hring.holds.out_lt

end AddEntries

section Search
variable {b : CircularBuffer} {p : Nat}

theorem search_finds_iff (hsum : (slotSizes b).sum < 2 ^ 63) :
    (locate (slotSizes b) p).map (fun (i, j) => ((b.outOffs + i) % 10, j)) = none ↔
      getAesdBufferLength b ≤ p := by
  rw [Option.map_eq_none_iff, locate_none_iff, getAesdBufferLength_eq hsum]
  omega

/-- What is found lies inside its slot. -/
theorem search_inside {slot j : Nat}
    (hfound : (locate (slotSizes b) p).map (fun (i, j) => ((b.outOffs + i) % 10, j)) =
      some (slot, j)) : j < ((b.entry[slot]?).getD .blank).size := by
  obtain ⟨⟨i, j'⟩, hl, he⟩ := Option.map_eq_some_iff.mp hfound
  obtain ⟨rfl, rfl⟩ := Prod.mk.inj he
  obtain ⟨e, hslot, hsize⟩ := slot_read b (by simpa using locate_lt hl)
  have hj := ((locate_some_iff _ _ _ _).mp hl).1
  rw [List.getD_eq_getElem?_getD, hsize] at hj
  rw [hslot]
  exact hj

end Search

/-- The search finds something below the length of the contents and nothing from
there on, and a seek to the end leads to the first position at which a read reports
the end of file. -/
theorem end_of_file_agrees {h h' : Heap} {b : CircularBuffer} {es : List BufferEntry}
    {log : List Added} (hes : ∀ e ∈ es, ∃ s, h.string e.buffptr = .ok s)
    (hadd : addEntries h aesdCircularBufferInit es = .ok (log, h', b))
    (hsum : (slotSizes b).sum < 2 ^ 63) :
    (∀ p : Nat, ∃ found, aesdCircularBufferFindEntryOffsetForFpos b p = .ok (found, b) ∧
      (found ≠ none ↔ (p : Int) < getAesdBufferLength b)) ∧
    ∀ (k : Kernel) (fPos : Int), k.dev.buffer = b →
      ∃ last, (aesdSeek fPos 0 SEEK_END).run false k = (.ok (last, last), k) ∧
        ∀ (buf : UserDest) (p : Nat), p < 2 ^ 63 →
          ((∃ k', (aesdRead buf p).run false k = (.ok ⟨0, p, []⟩, k')) ↔ last ≤ p) := by
  have hout := add_entries_offset hes hadd
  have hlen := getAesdBufferLength_eq hsum
  have hfind : ∀ p, _ := fun p => find_entry_eq b p hout (by omega)
  refine ⟨fun p => ⟨_, hfind p, ?_⟩, ?_⟩
  · rw [ne_eq, search_finds_iff hsum, not_le]
  · intro k fPos hk
    refine ⟨getAesdBufferLength b, ?_, fun buf p hp => ?_⟩
    · rw [run_aesdSeek, hk, fixedSizeLlseek_end fPos (by omega)]
    · rw [← search_finds_iff hsum]
      apply read_reports_end_iff
      · rw [sizeT_natCast (by omega), hk, hfind p]
      · intro slot j hfound
        rw [hk]
        exact search_inside hfound

/-- The same string twelve times, which turns the ring by two slots. -/
theorem end_of_file_after_two_evictions :
    ∃ log h' b, addEntries ⟨[⟨[some 104, some 0], true⟩], fun _ => true, fun _ _ => 0, 0, 0⟩
        aesdCircularBufferInit (List.replicate 12 ⟨.cell 0 0, 0⟩) = .ok (log, h', b) ∧
      b.outOffs = 2 ∧ ∀ p : Nat, ∃ found,
        aesdCircularBufferFindEntryOffsetForFpos b p = .ok (found, b) ∧
        (found ≠ none ↔ (p : Int) < getAesdBufferLength b) := by
  have hes : ∀ e ∈ List.replicate 12 (⟨.cell 0 0, 0⟩ : BufferEntry), ∃ s,
      Heap.string ⟨[⟨[some 104, some 0], true⟩], fun _ => true, fun _ _ => 0, 0, 0⟩ e.buffptr =
        .ok s := by
    intro e he
    rw [List.eq_of_mem_replicate he]
    exact ⟨[104], rfl⟩
  have hring : (addEntries ⟨[⟨[some 104, some 0], true⟩], fun _ => true, fun _ _ => 0, 0, 0⟩
      aesdCircularBufferInit (List.replicate 12 ⟨.cell 0 0, 0⟩)).map
        (fun r => (r.2.2.outOffs, (slotSizes r.2.2).sum)) = .ok (2, 10) := by decide +kernel
  obtain ⟨log, h', b, hadd, _⟩ :=
    add_entries_log _ _ aesdCircularBufferInit [] (by simpa using init_ring) rfl hes
  rw [hadd] at hring
  obtain ⟨hout, hsum⟩ : b.outOffs = 2 ∧ (slotSizes b).sum = 10 := by simpa [Except.map] using hring
  exact ⟨log, h', b, hadd, hout, (end_of_file_agrees hes hadd (by omega)).1⟩

end Aesd.Proofs
