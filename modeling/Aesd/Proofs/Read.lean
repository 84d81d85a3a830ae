import Aesd.Proofs.Find

namespace Aesd.Proofs
open Base Driver CString Segments

variable {signal : Bool} {k : Kernel} {q : List Packet} {o : Pending} {buf : UserDest} {fPos : Int}

/-- What a read may do with the packets `texts` in the ring: its results, and
how many requests for memory were denied. Whatever comes of the copy, the
position has moved to the end of the packet by then. -/
inductive Gives (buf : UserDest) (fPos : Int) (texts : List (List UInt8)) :
    ReadResult → Nat → Prop
  | atEnd (h : locate (lengths texts) (sizeT fPos) = none) : Gives buf fPos texts ⟨0, fPos, []⟩ 0
  | noBuffer {i j n : Nat} (h : locate (lengths texts) (sizeT fPos) = some (i, j))
      (hn : n = (texts.getD i []).length - j) :
      Gives buf fPos texts ⟨n, loff (fPos + n), []⟩ 1
  | copied {i j n : Nat} (h : locate (lengths texts) (sizeT fPos) = some (i, j))
      (hn : n = (texts.getD i []).length - j) (hf : ∀ m ∈ buf.faultAt, n < m) :
      Gives buf fPos texts ⟨n, loff (fPos + n), (texts.getD i []).drop j ++ [0]⟩ 0
  | copyFault {i j n m : Nat} (h : locate (lengths texts) (sizeT fPos) = some (i, j))
      (hn : n = (texts.getD i []).length - j) (hf : buf.faultAt = some m) (hm : m ≤ n) :
      Gives buf fPos texts
        ⟨-EFAULT, loff (fPos + n), ((texts.getD i []).drop j ++ [0]).take m⟩ 0

section Gives
variable {texts : List (List UInt8)} {res : ReadResult} {d : Nat}

theorem Gives.of_none (hg : Gives buf fPos texts res d)
    (hl : locate (lengths texts) (sizeT fPos) = none) : res = ⟨0, fPos, []⟩ ∧ d = 0 := by
  cases hg with
  | atEnd => exact ⟨rfl, rfl⟩
  | noBuffer hl' | copied hl' | copyFault hl' => simp [hl] at hl'

/-- The outcomes of a read that finds an entry with `n` bytes left in it. -/
theorem Gives.of_some {i j n : Nat} (hg : Gives buf fPos texts res d)
    (hl : locate (lengths texts) (sizeT fPos) = some (i, j))
    (hn : n = (texts.getD i []).length - j) :
    (d = 1 ∧ res = ⟨n, loff (fPos + n), []⟩) ∨
    (d = 0 ∧ (∀ m ∈ buf.faultAt, n < m) ∧
      res = ⟨n, loff (fPos + n), (texts.getD i []).drop j ++ [0]⟩) ∨
    (d = 0 ∧ ∃ m, buf.faultAt = some m ∧ m ≤ n ∧
      res = ⟨-EFAULT, loff (fPos + n), ((texts.getD i []).drop j ++ [0]).take m⟩) := by
  subst hn
  cases hg with
  | atEnd hl' => simp [hl] at hl'
  | noBuffer hl' hn' =>
    obtain ⟨rfl, rfl⟩ : i = _ ∧ j = _ := by simpa [hl] using hl'
    exact Or.inl ⟨rfl, by rw [hn']⟩
  | copied hl' hn' hf =>
    obtain ⟨rfl, rfl⟩ : i = _ ∧ j = _ := by simpa [hl] using hl'
    exact Or.inr (Or.inl ⟨rfl, hn' ▸ hf, by rw [hn']⟩)
  | copyFault hl' hn' hf hm =>
    obtain ⟨rfl, rfl⟩ : i = _ ∧ j = _ := by simpa [hl] using hl'
    exact Or.inr (Or.inr ⟨rfl, _, hf, hn' ▸ hm, by rw [hn']⟩)

end Gives

/-- What a read leaves behind: `read_entry` is NULL or points into the ring, and
no memory has been given back. -/
structure Leaves (k k' : Kernel) : Prop where
  dev : ∃ r, k'.dev = { k.dev with readEntry := r } ∧
    (r = .null ∨ ∃ n, r = Heap.Ptr.advance k.dev.bufferPtr n)
  live : k.heap.live ≤ k'.heap.live
  denied : k.heap.denied ≤ k'.heap.denied

theorem Leaves.buffer {k' : Kernel} (h : Leaves k k') : k'.dev.buffer = k.dev.buffer := by
  obtain ⟨r, hdev, _⟩ := h.dev
  rw [hdev]

theorem Leaves.healthy {k' : Kernel} (h : Leaves k k') (hk : Healthy k q o) (hk' : Sound k' q o) :
    Healthy k' q o := by
  obtain ⟨r, hdev, _⟩ := h.dev
  refine ⟨hk', ?_, hk.excused.imp_right (fun hd => Nat.lt_of_lt_of_le hd h.denied)⟩
  rw [hdev]
  exact hk.flag

/-- The result of copying `n + 1` bytes to the caller. -/
def copyResult (buf : UserDest) (n : Nat) (bytes : List UInt8) : Int × List UInt8 :=
  match buf.faultAt with
  | none => (n, bytes)
  | some m => if m ≤ n then (-EFAULT, bytes.take m) else (n, bytes.take m)

/-- The copy takes the rest of the packet and one byte more, which is the zero
that the local buffer was cleared to. -/
theorem read_copy (signal : Bool) (buf : UserDest) {r j n : Nat} {p : Packet}
    (hr : k.heap.view r = some (List.replicate (n * sizeofCharPtr) none))
    (hp : k.heap.Str p.id p.text) (hne : p.id ≠ r) (hj : j < p.text.length)
    (hn : n = p.text.length - j) :
    ∃ h bs, (aesdReadCopy buf (.cell r 0) (.cell p.id j) n).run signal k =
        (.ok (copyResult buf n (p.text.drop j ++ [0])), { k with heap := h }) ∧
      h.view = Function.update k.heap.view r (some bs) ∧ h.denied = k.heap.denied ∧
      h.live = k.heap.live := by
  obtain ⟨pb, hpv, hpt⟩ := hp
  obtain ⟨hp0, rest, rfl⟩ := (text_ok_iff _ _).mp hpt
  have hlt := Heap.lt_of_view hr
  have hlen : (p.text.drop j).length = n := by simp [hn]
  let h₁ := k.heap.put r (List.replicate (n * sizeofCharPtr) (some 0))
  have hr₁ : h₁.view r = some (List.replicate (n * sizeofCharPtr) (some 0)) := by simp [h₁, hlt]
  have hp₁ : h₁.view p.id = some (p.text.map some ++ some 0 :: rest) := by
    simp [h₁, hlt, hne, hpv]
  have hcopy : h₁.strncpy (.cell r 0) (.cell p.id j) n = .ok (h₁.put r
      (overwrite (List.replicate (n * sizeofCharPtr) (some 0)) 0 (p.text.drop j))) :=
    Heap.strncpy_cell hr₁ hp₁ hp0 (Nat.le_of_lt hj) hn (by simp [sizeofCharPtr]; omega)
  have hfill : overwrite (List.replicate (n * sizeofCharPtr) (some 0)) 0 (p.text.drop j) =
      (p.text.drop j ++ [0]).map some ++ List.replicate (n * 7 - 1) (some 0) := by
    have hsplit : n * sizeofCharPtr - n = (n * 7 - 1) + 1 := by
      simp only [sizeofCharPtr]
      omega
    simp only [overwrite, List.take_zero, List.nil_append, Nat.zero_add, hlen, List.drop_replicate,
      hsplit, List.replicate_succ]
    simp
  rw [hfill] at hcopy
  let h₂ := h₁.put r ((p.text.drop j ++ [0]).map some ++ List.replicate (n * 7 - 1) (some 0))
  have hraw : (do CString.raw (n + 1) (← h₂.load (.cell r 0))) = .ok (p.text.drop j ++ [0]) := by
    have hload : h₂.load (.cell r 0) = .ok ((p.text.drop j ++ [0]).map some ++
        List.replicate (n * 7 - 1) (some 0)) := Heap.load_cell (by simp [h₂, h₁, hlt]) 0
    have hraw := raw_append (p.text.drop j ++ [0]) (List.replicate (n * 7 - 1) (some 0))
    rw [List.length_append, hlen] at hraw
    simp only [hload, bind, Except.bind]
    exact hraw
  refine ⟨h₂, _, ?_, by simp [h₂, h₁, hlt]; rfl, rfl, by rw [Heap.live_put hr₁, Heap.live_put hr]⟩
  have hset : (memset (.cell r 0) 0 (n * sizeofCharPtr)).run signal k =
      (.ok (), { k with heap := h₁ }) := run_memset_cell hr 0 (by simp)
  have hcpy : (strncpy (.cell r 0) (.cell p.id j) n).run signal { k with heap := h₁ } =
      (.ok (), { k with heap := h₂ }) := run_changeHeap_ok hcopy
  simp only [aesdReadCopy, reduceCtorEq, ↓reduceIte, Code.run_bind, hset, hcpy, copyToUser]
  rw [run_askHeap_ok hraw]
  unfold copyResult
  cases hf : buf.faultAt with
  | none => rfl
  | some m =>
    by_cases hm : m ≤ n
    · have hm' : m < n + 1 := by omega
      simp [hm, hm']
    · have hm' : ¬ m < n + 1 := by omega
      simp [hm, hm']

theorem run_findEntry (signal : Bool) (hk : Sound k q o) (p : Nat) :
    ∃ k', (findEntry p).run signal k = (.ok ((locate (lengths (q.map Packet.text)) p).map
        (fun (i, j) => ((k.dev.buffer.outOffs + i) % 10, j))), k') ∧
      Sound k' q o ∧ Leaves k k' ∧ k'.heap = k.heap := by
  rw [findEntry, Code.run_exec, hk.find]
  refine ⟨_, rfl, hk.frame rfl rfl rfl (fun _ _ => rfl),
    ⟨⟨_, rfl, ?_⟩, Nat.le_refl _, Nat.le_refl _⟩, rfl⟩
  cases locate (lengths (q.map Packet.text)) p with
  | none => exact Or.inl rfl
  | some found => exact Or.inr ⟨_, rfl⟩

theorem gives_copyResult {texts : List (List UInt8)} {i j n : Nat}
    (h : locate (lengths texts) (sizeT fPos) = some (i, j))
    (hn : n = (texts.getD i []).length - j) :
    Gives buf fPos texts ⟨(copyResult buf n ((texts.getD i []).drop j ++ [0])).1, loff (fPos + n),
      (copyResult buf n ((texts.getD i []).drop j ++ [0])).2⟩ 0 := by
  unfold copyResult
  cases hf : buf.faultAt with
  | none => exact .copied h hn (by simp [hf])
  | some m =>
    by_cases hm : m ≤ n
    · simp only [hm, ↓reduceIte]
      exact .copyFault h hn hf hm
    · have hall : ((texts.getD i []).drop j ++ [0]).take m = (texts.getD i []).drop j ++ [0] :=
        List.take_of_length_le (by rw [List.length_append, List.length_drop, ← hn]; simp; omega)
      simp only [hm, ↓reduceIte, hall]
      exact .copied h hn (by simp [hf]; omega)

/-- Reading on from offset `j` of a packet in the ring. -/
theorem read_entry (buf : UserDest) (fPos : Int) {p : Packet} {j n : Nat} (hk : Sound k q o)
    (hp : p ∈ q) (hj : j < p.text.length) (hn : n = p.text.length - j) :
    ∃ res k' d, (aesdReadEntry buf fPos p.entry j).run false k = (.ok res, k') ∧
      ((d = 1 ∧ k.heap.granted (n * sizeofCharPtr) = false ∧ res = ⟨n, loff (fPos + n), []⟩) ∨
        (d = 0 ∧ k.heap.granted (n * sizeofCharPtr) = true ∧
          res = ⟨(copyResult buf n (p.text.drop j ++ [0])).1, loff (fPos + n),
            (copyResult buf n (p.text.drop j ++ [0])).2⟩)) ∧
      Sound k' q o ∧ k'.dev = k.dev ∧ k'.heap.denied = k.heap.denied + d ∧
      k.heap.live ≤ k'.heap.live := by
  have hpos : loff (fPos + p.text.length - j) = loff (fPos + n) := by
    congr 1
    omega
  have hn0 : n * sizeofCharPtr ≠ 0 := by
    simp only [sizeofCharPtr]
    omega
  cases hg : k.heap.granted (n * sizeofCharPtr) with
  | false =>
    refine ⟨_, { k with heap := k.heap.deny }, 1, ?_, Or.inl ⟨rfl, rfl, rfl⟩,
      hk.frame rfl rfl rfl (fun _ _ => rfl), rfl, rfl, Nat.le_refl _⟩
    simp only [aesdReadEntry, Packet.entry, ← hn, Code.run_bind, run_kmalloc,
      Heap.kmalloc_denied hn0 hg, aesdReadCopy, ↓reduceIte, Code.run_pure, hpos]
    rfl
  | true =>
    let k₁ : Kernel := { k with heap := k.heap.push (List.replicate (n * sizeofCharPtr) none) }
    have hfresh : k.heap.blocks.length ∉ owned q o := hk.fresh (Heap.view_fresh (Nat.le_refl _))
    have hold : ∀ id ∈ owned q o, id ≠ k.heap.blocks.length := fun id hid he => hfresh (he ▸ hid)
    have hne := hold p.id (mem_owned_of_mem hp o)
    have hr : k₁.heap.view k.heap.blocks.length =
        some (List.replicate (n * sizeofCharPtr) none) := by simp [k₁]
    have hstr : k₁.heap.Str p.id p.text := by
      obtain ⟨bs, hv, ht⟩ := hk.strings p hp
      exact ⟨bs, by simpa [k₁, hne] using hv, ht⟩
    obtain ⟨h, bs, hcopy, hview, hden, hlive⟩ := read_copy false buf hr hstr hne hj hn
    have hretire : (h.retire k.heap.blocks.length).live + 1 = h.live :=
      Heap.live_retire (by simp [hview]; rfl)
    rw [hlive, Heap.live_push] at hretire
    have hfree : (kfree (.cell k.heap.blocks.length 0)).run false ⟨h, k₁.dev⟩ =
        (.ok (), ⟨h.retire k.heap.blocks.length, k₁.dev⟩) := run_kfree_cell (by simp [hview]; rfl)
    refine ⟨_, ⟨h.retire k.heap.blocks.length, k₁.dev⟩, 0, ?_, Or.inr ⟨rfl, rfl, rfl⟩,
      hk.frame rfl rfl rfl ?_, rfl, hden, by simp only; omega⟩
    · simp only [aesdReadEntry, Packet.entry, ← hn, Code.run_bind, run_kmalloc,
        Heap.kmalloc_granted hn0 hg, Heap.Ptr.advance, Nat.zero_add, hpos]
      rw [hcopy]
      simp only [hfree, Code.run_pure]
    · intro id hid
      simp [hview, k₁, hold id hid]

/-- The specification of `aesd_read` with the lock acquired. If there is
something to read, the one request for memory is denied or not. -/
theorem aesd_read_answers (buf : UserDest) (fPos : Int) (hk : Sound k q o) :
    ∃ res k' d, (aesdRead buf fPos).run false k = (.ok res, k') ∧
      Gives buf fPos (q.map Packet.text) res d ∧ Sound k' q o ∧
      Leaves k k' ∧ k'.heap.denied = k.heap.denied + d ∧
      ∀ i j, locate (lengths (q.map Packet.text)) (sizeT fPos) = some (i, j) →
        (d = 0 ↔ k.heap.granted
          ((((q.map Packet.text).getD i []).length - j) * sizeofCharPtr) = true) := by
  obtain ⟨k₁, hfind, hk₁, hleaves, hheap⟩ := run_findEntry false hk (sizeT fPos)
  cases hl : locate (lengths (q.map Packet.text)) (sizeT fPos) with
  | none =>
    rw [hl] at hfind
    refine ⟨⟨0, fPos, []⟩, k₁, 0, ?_, .atEnd hl, hk₁, hleaves, by rw [hheap]; rfl, by simp⟩
    simp only [aesdRead, Code.run_bind, run_mutexLock, Bool.false_eq_true, ↓reduceIte,
      aesdReadLocked, hfind, Option.map_none, Code.run_pure, run_mutexUnlock]
  | some found =>
    obtain ⟨i, j⟩ := found
    rw [hl] at hfind
    obtain ⟨p, hp⟩ : ∃ p, q[i]? = some p :=
      ⟨_, List.getElem?_eq_getElem (by simpa [lengths] using locate_lt hl)⟩
    have hget : (q.map Packet.text).getD i [] = p.text := by simp [List.getD, hp]
    have hj := ((locate_some_iff _ _ _ _).mp hl).1
    rw [getD_lengths, hget] at hj
    have hslot : k₁.dev.buffer.entry[(k.dev.buffer.outOffs + i) % 10]? = some p.entry := by
      rw [← hleaves.buffer, hk₁.slot hp]
    obtain ⟨res, k', d, hrun, hres, hk', hdev, hden, hlive⟩ :=
      read_entry buf fPos hk₁ (List.mem_of_getElem? hp) hj rfl
    rw [hheap] at hden hlive hres
    have hread : (aesdRead buf fPos).run false k = (.ok res, k') := by
      simp only [aesdRead, Code.run_bind, run_mutexLock, Bool.false_eq_true, ↓reduceIte,
        aesdReadLocked, hfind, Option.map_some, run_getDev, hslot, Option.getD_some, hrun,
        run_mutexUnlock, Code.run_pure]
    refine ⟨res, k', d, hread, ?_, hk', ⟨by rw [hdev]; exact hleaves.dev, hlive, by omega⟩,
      hden, ?_⟩
    · rw [← hget] at hres
      rcases hres with ⟨rfl, _, rfl⟩ | ⟨rfl, _, rfl⟩
      · exact .noBuffer hl rfl
      · exact gives_copyResult hl rfl
    · rintro i' j' ⟨rfl, rfl⟩
      rw [hget]
      rcases hres with ⟨rfl, hg, _⟩ | ⟨rfl, hg, _⟩ <;> simp [hg]

theorem aesd_read_gives (buf : UserDest) (fPos : Int) (hk : Sound k q o) :
    ∃ res k' d, (aesdRead buf fPos).run false k = (.ok res, k') ∧
      Gives buf fPos (q.map Packet.text) res d ∧ Sound k' q o ∧
      Leaves k k' ∧ k'.heap.denied = k.heap.denied + d := by
  obtain ⟨res, k', d, hrun, hgives, hk', hleaves, hden, _⟩ := aesd_read_answers buf fPos hk
  exact ⟨res, k', d, hrun, hgives, hk', hleaves, hden⟩

theorem read_interrupted (buf : UserDest) (fPos : Int) :
    (aesdRead buf fPos).run true k = (.ok ⟨-ERESTARTSYS, fPos, []⟩, k) := rfl

end Aesd.Proofs
