import Aesd.Proofs.Grow

namespace Aesd.Proofs
open Base Driver CString

variable {signal : Bool} {k : Kernel} {q : List Packet} {o : Pending} {w : Nat} {wb : Bytes}
  {s : List UInt8} {fPos : Int} {buf : UserSource}

section Close
variable {p : Packet} {n : Nat}

theorem map_push (q : List Packet) (p : Packet) :
    (Queue.push 10 q p).map Packet.entry = Queue.push 10 (q.map Packet.entry) p.entry := by
  simp [Queue.push, Queue.map_rtake]

theorem mem_push {x : Packet} (hx : x ∈ Queue.push 10 q p) : x ∈ q ∨ x = p := by
  have := List.mem_of_mem_drop hx
  simpa using this

/-- Storing a packet hands its block over from the assembly to the ring. -/
theorem owned_push_sublist : (owned (Queue.push 10 q p) .closed).Sublist (owned q (.opened p n)) := by
  have h := (List.drop_sublist ((q ++ [p]).length - 10) (q ++ [p])).map Packet.id
  simpa [owned, Pending.ids, Queue.push, List.rtake] using h

/-- The state after a packet has been stored: its own string and those of the
packets that stay are where they were. -/
theorem Sound.stored {k' : Kernel} (hk : Sound k q (.opened p n))
    (hring : Ring k'.dev.buffer (Queue.push 10 (q.map Packet.entry) p.entry))
    (hview : ∀ x ∈ Queue.push 10 q p, k'.heap.view x.id = k.heap.view x.id)
    (hfirst : k'.dev.firstPacket = 0) : Sound k' (Queue.push 10 q p) .closed := by
  obtain ⟨_, _, hn, hp0, rest, hp, hlen⟩ := hk.pending
  refine ⟨by rwa [map_push], ?_, ?_, owned_push_sublist.nodup hk.distinct, hfirst⟩
  · intro x hx
    have hv := hview x hx
    rcases mem_push hx with hq | rfl
    · obtain ⟨bs, hbs, ht⟩ := hk.strings x hq
      exact ⟨bs, hv.trans hbs, ht⟩
    · exact ⟨_, hv.trans hp, text_append _ rest hp0⟩
  · intro x hx
    rcases mem_push hx with hq | rfl
    · exact hk.bounded x hq
    · omega

theorem close_of_add (signal : Bool) (fPos : Int) {back : Ptr} {h h' : Heap} {b : CircularBuffer}
    (hadd : aesdCircularBufferAddEntry k.heap k.dev.buffer k.dev.bufferEntry = .ok (back, h, b))
    (hfree : h.kfree back = .ok h') :
    (closePacket fPos).run signal k = (.ok (loff (fPos + k.dev.bufferEntry.size)),
      ⟨h', { k.dev with buffer := b, firstPacket := 0, endOfPacket := 0 }⟩) := by
  have hrun : addEntry.run signal k =
      (.ok back, ⟨h, { k.dev with buffer := b }⟩) := Code.run_exec_ok (by rw [hadd])
  by_cases hnull : back = .null
  · obtain rfl : h = h' := by simpa [hnull, Heap.kfree] using hfree
    simp only [closePacket, Code.run_bind, hrun, run_getDev, hnull, ne_eq, not_true_eq_false,
      ↓reduceIte, Code.run_pure, run_setDev]
  · simp only [closePacket, Code.run_bind, hrun, run_getDev, hnull, ne_eq, not_false_eq_true,
      ↓reduceIte, kfree]
    rw [run_changeHeap_ok hfree]
    rfl

/-- A full ring gives back the block of its oldest packet, which is live, and
keeps no other pointer to it. -/
theorem free_evicted {h : Heap} (hk : Sound k q (.opened p n))
    (hsame : ∀ x ∈ q, h.view x.id = k.heap.view x.id) :
    ∃ h', h.kfree (evicted (q.map Packet.entry)) = .ok h' ∧ h'.denied = h.denied ∧
      h.live ≤ h'.live + 1 ∧ (∀ x ∈ Queue.push 10 q p, h'.view x.id = h.view x.id) ∧
      (∀ id, id ∉ owned q (.opened p n) → h'.view id = h.view id) := by
  by_cases hfull : q.length = 10
  · obtain ⟨r, rest, rfl⟩ : ∃ r rest, q = r :: rest := List.exists_cons_of_length_eq_add_one hfull
    obtain ⟨bs, hv, _⟩ := hk.strings r List.mem_cons_self
    have hev : evicted ((r :: rest).map Packet.entry) = .cell r.id 0 := by
      simp only [evicted, List.length_map, hfull, ↓reduceIte]
      rfl
    have hdist := hk.distinct
    simp only [owned, List.map_cons, List.cons_append, List.nodup_cons] at hdist
    have hlive := (hsame r List.mem_cons_self).trans hv
    rw [hev, Heap.kfree_cell hlive]
    refine ⟨_, rfl, rfl, Nat.le_of_eq (Heap.live_retire hlive).symm, ?_, ?_⟩
    · intro x hx
      rw [Queue.push_full (by decide) hfull] at hx
      have hne : x.id ≠ r.id := by
        intro he
        apply hdist.1
        rw [← he]
        simpa [Pending.ids] using List.mem_map_of_mem hx
      simp [hne]
    · intro id hid
      have hne : id ≠ r.id := fun he => hid (by simp [owned, he])
      simp [hne]
  · have hev : evicted (q.map Packet.entry) = .null := by simp [evicted, hfull]
    rw [hev]
    exact ⟨h, rfl, rfl, Nat.le_succ _, fun _ _ => rfl, fun _ _ => rfl⟩

/-- Closing stores the packet, unless the ring's own request for memory is
denied. Either way the assembly starts afresh, and the position moves by the
recorded size. What the ring asks for is never freed and makes up for the block
of the oldest packet, but for a packet without any bytes it asks for nothing. -/
theorem close_packet (signal : Bool) (fPos : Int) (hk : Sound k q (.opened p n)) :
    ∃ k' q', (closePacket fPos).run signal k = (.ok (loff (fPos + n)), k') ∧
      Healthy k' q' .closed ∧
      ((q' = Queue.push 10 q p ∧ k'.heap.denied = k.heap.denied ∧
          (p.text = [] ∨ k.heap.granted p.text.length = true)) ∨
        (q' = q ∧ k'.heap.denied = k.heap.denied + 1 ∧
          ¬ (p.text = [] ∨ k.heap.granted p.text.length = true))) ∧
      (parts k'.dev = parts k.dev ∧
        k.heap.live ≤ k'.heap.live + if p.text = [] then 1 else 0) ∧
      ∀ id, id ∉ owned q (.opened p n) → id < k.heap.blocks.length →
        k'.heap.view id = k.heap.view id := by
  obtain ⟨_, hentry, hn, hp0, rest, hp, hlen⟩ := hk.pending
  have hs : k.heap.string k.dev.bufferEntry.buffptr = .ok p.text := by
    rw [hentry]
    exact Heap.string_cell hp (text_append _ rest hp0)
  have hkeep : ∀ id ∈ owned q (.opened p n),
      (k.heap.kmalloc p.text.length).2.view id = k.heap.view id :=
    fun id hid => Heap.view_kmalloc (hk.lt id hid) _
  have hnull_iff : (k.heap.kmalloc p.text.length).1 = .null ↔
      ¬ (p.text = [] ∨ k.heap.granted p.text.length = true) := by
    by_cases hempty : p.text = []
    · simp [hempty, Heap.kmalloc]
    · rw [Heap.kmalloc_null_iff (by simpa using hempty)]
      simp [hempty]
  by_cases hnull : (k.heap.kmalloc p.text.length).1 = .null
  · have hrun := close_of_add signal fPos
      (add_entry_refused (b := k.dev.buffer) hs hnull) rfl
    rw [hentry] at hrun
    refine ⟨_, q, hrun, ⟨?_, rfl, Or.inl trivial⟩,
      Or.inr ⟨rfl, by simp only [Heap.denied_kmalloc, if_pos hnull], hnull_iff.mp hnull⟩,
      ⟨rfl, Nat.le_add_right_of_le (Heap.live_kmalloc_le _)⟩,
      fun id _ hid => Heap.view_kmalloc hid _⟩
    exact hk.reopen rfl (fun x hx => hkeep x.id (mem_owned_of_mem hx _))
      (by simpa [owned, Pending.ids] using (List.nodup_append.mp hk.distinct).1) rfl
  · obtain ⟨b', hadd, hring, _⟩ := add_entry_stored hk.ring hs (Heap.ne_null_of_string hs) hnull
    obtain ⟨h', hfree, hden, hlive, hstay, hother⟩ :=
      free_evicted (h := (k.heap.kmalloc p.text.length).2) hk
        (fun x hx => hkeep x.id (mem_owned_of_mem hx _))
    have hrun := close_of_add signal fPos hadd hfree
    rw [hentry] at hrun hring
    refine ⟨_, Queue.push 10 q p, hrun, ⟨hk.stored hring ?_ rfl, rfl, Or.inl trivial⟩,
      Or.inl ⟨rfl, ?_, not_not.mp (fun h => hnull (hnull_iff.mpr h))⟩, ⟨rfl, ?_⟩, ?_⟩
    · intro x hx
      have hm : x.id ∈ owned q (.opened p n) := by
        rcases mem_push hx with hq | rfl
        · exact mem_owned_of_mem hq _
        · simp [owned, Pending.ids]
      exact (hstay x hx).trans (hkeep x.id hm)
    · simp only [hden, Heap.denied_kmalloc, if_neg hnull]
    · split
      next hempty => simpa [hempty, Heap.kmalloc] using hlive
      next hne =>
        rw [Heap.live_kmalloc (by simpa using hne) hnull] at hlive
        exact Nat.le_of_succ_le_succ hlive
    · intro id hid hlt
      exact (hother id hid).trans (Heap.view_kmalloc hlt _)

end Close

/-- What the string functions see of the caller's data: nothing from the first
NUL on. -/
def visible (buf : UserSource) : List UInt8 := buf.data.takeWhile (· != 0)

theorem visible_prefix_data (buf : UserSource) : visible buf <+: buf.data := List.takeWhile_prefix _

/-- Whether the packet is complete with these bytes. -/
def completes (o : Pending) (buf : UserSource) : Bool := o.ended || decide (newline ∈ visible buf)

theorem Pending.Held.completes_iff (ho : o.Held) :
    completes o buf = true ↔ newline ∈ visible buf := by
  simp [completes, ho.ended]

theorem Pending.Held.not_completes_iff (ho : o.Held) :
    completes o buf = false ↔ newline ∉ visible buf := by
  simp [completes, ho.ended]

/-- What a write may do, with `left` in the memory that it gets for the packet: the
results, the packets before and after it, and how many requests for memory were denied. -/
inductive Takes (buf : UserSource) (fPos : Int) (left : List UInt8) (q : List Packet)
    (o : Pending) : Int × Int → List Packet → Pending → Nat → Prop
  | noBuffer : Takes buf fPos left q o (-ENOMEM, fPos) q o 1
  | copyFault (hf : buf.faults = true) : Takes buf fPos left q o (-EFAULT, fPos) q o 0
  | notGrown (ho : o ≠ .closed) :
      Takes buf fPos left q o (-ENOMEM, fPos) q (.lost o.size (completes o buf)) 1
  | appended {id : Nat} {t : List UInt8} (ht : o.start left = some t) (hs : completes o buf = false) :
      Takes buf fPos left q o (buf.count, fPos) q
        (.opened ⟨id, t ++ visible buf⟩ (o.size + ((visible buf).length + 1))) 0
  | stored {id : Nat} {t : List UInt8} (ht : o.start left = some t) (hs : completes o buf = true) :
      Takes buf fPos left q o
        (buf.count, loff (fPos + (o.size + ((visible buf).length + 1) : Nat)))
        (Queue.push 10 q ⟨id, t ++ visible buf⟩) .closed 0
  | dropped (hs : completes o buf = true) :
      Takes buf fPos left q o
        (buf.count, loff (fPos + (o.size + ((visible buf).length + 1) : Nat))) q .closed 1

/-- The flag for the end of the packet, as the search for a newline leaves it. -/
def flagged (s : List UInt8) (k : Kernel) : Kernel :=
  if newline ∈ s then { k with dev := { k.dev with endOfPacket := 1 } } else k

@[simp] theorem heap_flagged (s : List UInt8) (k : Kernel) : (flagged s k).heap = k.heap := by
  unfold flagged
  split <;> rfl

theorem bufferEntry_flagged (s : List UInt8) (k : Kernel) :
    (flagged s k).dev.bufferEntry = k.dev.bufferEntry := by
  unfold flagged
  split <;> rfl

theorem Sound.flagged (hk : Sound k q o) (s : List UInt8) : Sound (flagged s k) q o := by
  apply hk.frame
  all_goals unfold Proofs.flagged; split <;> intros <;> rfl

theorem Healthy.endOfPacket_flagged (hk : Healthy k q o) :
    (Proofs.flagged (visible buf) k).dev.endOfPacket = (completes o buf).toNat := by
  unfold Proofs.flagged completes
  by_cases hn : newline ∈ visible buf
  · simp [hn]
  · simp [hn, hk.flag]

theorem adds_flagged (s : List UInt8) (k : Kernel) : Adds 0 k (flagged s k) := by
  refine ⟨?_, by simp⟩
  unfold flagged
  split <;> rfl

theorem append_flagged (count : Nat) (hw : k.heap.view w = some wb) (ht : text wb = .ok s)
    {grown : Except Fault Bool} {k' : Kernel}
    (hgrow : (growPacket (.cell w 0)).run signal (flagged s k) = (grown, k')) :
    (appendPart count (.cell w 0) fPos).run signal k = match grown with
      | .error e => (.error e, k')
      | .ok false => (.ok (-ENOMEM, fPos), k')
      | .ok true => if k'.dev.endOfPacket = 1 then
          (do return ((count : Int), ← closePacket fPos)).run signal k'
        else (.ok (count, fPos), k') := by
  have hchr : (strchr (.cell w 0) newline).run signal k = (.ok (decide (newline ∈ s)), k) :=
    run_askHeap_ok (Heap.strchr_cell hw ht (by decide))
  -- what follows the flag is the same with and without it
  have htail : ∀ k₁, (growPacket (.cell w 0)).run signal k₁ = (grown, k') →
      (do if !(← growPacket (.cell w 0)) then return (-ENOMEM, fPos)
          if (← getDev).endOfPacket = 1 then
            return ((count : Int), ← closePacket fPos)
          return ((count : Int), fPos) : KernelM (Int × Int)).run signal k₁ = match grown with
        | .error e => (.error e, k')
        | .ok false => (.ok (-ENOMEM, fPos), k')
        | .ok true => if k'.dev.endOfPacket = 1 then
            (do return ((count : Int), ← closePacket fPos)).run signal k'
          else (.ok (count, fPos), k') := by
    intro k₁ hg
    simp only [Code.run_bind, hg]
    rcases grown with e | _ | _
    · rfl
    · rfl
    · simp only [Bool.not_true, Bool.false_eq_true, ↓reduceIte, Code.run_bind, run_getDev]
      split <;> simp only [Code.run_bind, Code.run_pure]
  unfold flagged at hgrow
  by_cases hn : newline ∈ s
  · simp only [hn, ↓reduceIte] at hgrow
    rw [← htail _ hgrow]
    simp only [appendPart, Code.run_bind, hchr, hn, decide_true, ↓reduceIte, run_setDev]
  · simp only [hn, ↓reduceIte] at hgrow
    rw [← htail _ hgrow]
    simp only [appendPart, Code.run_bind, hchr, hn, decide_false, Bool.false_eq_true, ↓reduceIte]

/-- How many blocks a write with return value `ret` adds at least: one if it has
opened a packet. -/
def gain : Pending → Int × Int → Nat
  | .closed, ret => if 0 ≤ ret.1 then 1 else 0
  | _, _ => 0

theorem gain_le (o : Pending) (ret : Int × Int) : gain o ret ≤ 1 - o.ids.length := by
  cases o with
  | closed =>
    simp only [gain]
    split <;> simp
  | opened => simp [gain]
  | lost => simp [gain]

theorem gain_of_neg {ret : Int × Int} (h : ret.1 < 0) : gain o ret = 0 := by
  cases o with
  | closed => exact if_neg (Int.not_le.mpr h)
  | opened => rfl
  | lost => rfl

/-- The call returned with one of the outcomes of a write. The block `w` is the
caller's. -/
def Lands (buf : UserSource) (fPos : Int) (left : List UInt8) (q : List Packet) (o : Pending)
    (w : Nat) (k : Kernel) (r : Except Fault (Int × Int) × Kernel) : Prop :=
  ∃ ret k' q' o' d, r = (.ok ret, k') ∧ Takes buf fPos left q o ret q' o' d ∧
    Healthy k' q' o' ∧ w ∉ owned q' o' ∧ k'.heap.view w = k.heap.view w ∧
    k'.heap.denied = k.heap.denied + d ∧
    Adds (gain o ret) k k' ∧ (o = .closed → 0 ≤ ret.1)

/-- The part was appended to `t`. If that has closed the packet, the answer to the ring's
own request decides what becomes of it. -/
def Appends (buf : UserSource) (fPos : Int) (left : List UInt8) (q : List Packet) (o : Pending)
    (t : List UInt8) (w : Nat) (k : Kernel) (r : Except Fault (Int × Int) × Kernel) : Prop :=
  ∃ pos k' q' o' d, r = (.ok (buf.count, pos), k') ∧
    Takes buf fPos left q o (buf.count, pos) q' o' d ∧ Healthy k' q' o' ∧ w ∉ owned q' o' ∧
    k'.heap.view w = k.heap.view w ∧
    k'.heap.denied = k.heap.denied + d ∧ Adds (gain o (buf.count, pos)) k k' ∧
    (completes o buf = true → (d = 0 ↔
      t ++ visible buf = [] ∨ k.heap.willGrant 1 (t ++ visible buf).length = true))

/-- The call ended in a fault, which takes a lost packet or a denied request: a NULL
pointer, or a string that left its block. The ring has not changed by then. -/
def Crashes (left : List UInt8) (q : List Packet) (o : Pending) (k : Kernel)
    (r : Except Fault (Int × Int) × Kernel) : Prop :=
  ∃ e k', r = (.error e, k') ∧ (e = .nullDeref ∨ e = .outOfBounds) ∧
    k.heap.denied ≤ k'.heap.denied ∧ (o.start left = none ∨ k.heap.denied < k'.heap.denied) ∧
    (o.Held → Sound k' q o)

/-- What a write will find in the memory that it gets for the packet. -/
def residue (buf : UserSource) (o : Pending) (k : Kernel) : List UInt8 :=
  k.heap.willLeave 1 (o.size + ((visible buf).length + 1))

/-- Closing a packet may free a block and ask for none only if the packet was lost before,
and then growing it has brought a block. -/
theorem adds_closed {k' k₂ : Kernel} {t : List UInt8} {ret : Int × Int}
    (hs : completes o buf = true) (hadds : Adds (1 - o.ids.length) k k')
    (hclose : parts k₂.dev = parts k'.dev ∧
      k'.heap.live ≤ k₂.heap.live + if t ++ visible buf = [] then 1 else 0) :
    Adds (gain o ret) k k₂ := by
  refine ⟨hclose.1.trans hadds.parts, ?_⟩
  have hlive := hadds.live
  have hmore := hclose.2
  have hgain := gain_le o ret
  split at hmore
  next hempty =>
    cases o with
    | lost n e =>
      simp only [gain, Pending.ids_lost, List.length_nil] at hlive ⊢
      omega
    | closed =>
      have hn := (Pending.held_closed.completes_iff).mp hs
      simp [(List.append_eq_nil_iff.mp hempty).2] at hn
    | opened p n =>
      have hn := (Pending.held_opened.completes_iff).mp hs
      simp [(List.append_eq_nil_iff.mp hempty).2] at hn
  next => omega

/-- Once the packet has grown it is closed or left open. -/
theorem append_grown {k' : Kernel} {left t : List UInt8} (hk : Healthy k q o)
    (hb : o.start left = some t)
    (hw : k.heap.view w = some wb) (ht : text wb = .ok (visible buf))
    (hwo : w ∉ owned q o) {id : Nat} (hid : id ≠ w)
    (hgrow : (growPacket (.cell w 0)).run signal (flagged (visible buf) k) = (.ok true, k'))
    (hk' : Sound k' q (.opened ⟨id, t ++ visible buf⟩ (o.size + ((visible buf).length + 1))))
    (hflag : k'.dev.endOfPacket = (flagged (visible buf) k).dev.endOfPacket)
    (hview : k'.heap.view w = some wb) (hden : k'.heap.denied = k.heap.denied)
    (hadds : Adds (1 - o.ids.length) k k') (hlater : Heap.Later 1 k.heap k'.heap) :
    Appends buf fPos left q o t w k ((appendPart buf.count (.cell w 0) fPos).run signal k) := by
  have hw' : w ∉ owned q
      (.opened ⟨id, t ++ visible buf⟩ (o.size + ((visible buf).length + 1))) := by
    simp only [owned, Pending.ids, List.mem_append, List.mem_singleton, not_or] at hwo ⊢
    exact ⟨hwo.1, fun he => hid he.symm⟩
  rw [hk.endOfPacket_flagged] at hflag
  rw [append_flagged buf.count hw ht hgrow]
  cases hs : completes o buf with
  | true =>
    rw [hs] at hflag
    obtain ⟨k₂, q', hclose, hhealthy, hq, hmore, hkeep⟩ := close_packet signal fPos hk'
    have hall (ret : Int × Int) : Adds (gain o ret) k k₂ := adds_closed hs hadds hmore
    have hrun : (do return ((buf.count : Int), ← closePacket fPos) :
        KernelM (Int × Int)).run signal k' =
        (.ok (buf.count, loff (fPos + (o.size + ((visible buf).length + 1) : Nat))), k₂) := by
      simp only [Code.run_bind, hclose, Code.run_pure]
    simp only [hflag, Bool.toNat_true, ↓reduceIte, hrun]
    have hv := (hkeep w hw' (Heap.lt_of_view hview)).trans (hview.trans hw.symm)
    rw [hlater.granted] at hq
    rcases hq with ⟨rfl, hd, hgranted⟩ | ⟨rfl, hd, hgranted⟩
    · exact ⟨_, _, _, _, 0, rfl, .stored hb hs, hhealthy,
        fun hm => hw' (owned_push_sublist.subset hm), hv, hd.trans hden, hall _,
        fun _ => iff_of_true rfl hgranted⟩
    · refine ⟨_, _, _, _, 1, rfl, .dropped hs, hhealthy, fun hm => hw' ?_, hv, by rw [hd, hden],
        hall _, fun _ => iff_of_false Nat.one_ne_zero hgranted⟩
      simp only [owned, Pending.ids, List.append_nil] at hm
      exact List.mem_append_left _ hm
  | false =>
    rw [hs] at hflag
    simp only [hflag, Bool.toNat_false, Nat.zero_ne_one, ↓reduceIte]
    refine ⟨_, _, _, _, 0, rfl, .appended hb hs, ⟨hk', hflag, Or.inl trivial⟩, hw',
      hview.trans hw.symm, hden,
      ⟨hadds.parts, ?_⟩, fun h => absurd (hs.symm.trans h) (by simp)⟩
    exact Nat.le_trans (Nat.add_le_add_left (gain_le o _) _) hadds.live

/-- With memory for it, and something to append it to, the part is appended, whatever else
may fail. -/
theorem append_taken (signal : Bool) (fPos : Int) {t : List UInt8} (hk : Healthy k q o)
    (hstart : o.start (k.heap.leftover (o.size + ((visible buf).length + 1))) = some t)
    (hw : k.heap.view w = some wb) (ht : text wb = .ok (visible buf)) (hwo : w ∉ owned q o)
    (hg : k.heap.granted (o.size + ((visible buf).length + 1)) = true) :
    Appends buf fPos (k.heap.leftover (o.size + ((visible buf).length + 1))) q o t w k
      ((appendPart buf.count (.cell w 0) fPos).run signal k) := by
  have hk₁ := hk.toSound.flagged (visible buf)
  have hw₁ : (flagged (visible buf) k).heap.view w = some wb := by rw [heap_flagged, hw]
  obtain ⟨k', hgrow, hk', hflag, hview, hden, hadds, hlater⟩ :=
    grow_packet signal hk₁ (by rwa [heap_flagged]) hw₁ ht hwo (by rwa [heap_flagged])
  have hne : (flagged (visible buf) k).heap.blocks.length ≠ w := Nat.ne_of_gt (Heap.lt_of_view hw₁)
  have hall := (adds_flagged (visible buf) k).trans hadds
  rw [heap_flagged] at hden hlater
  rw [Nat.zero_add] at hall
  exact append_grown hk hstart hw ht hwo hne hgrow hk' hflag hview hden hall hlater

/-- Without memory a packet that was open is lost. -/
theorem append_denied (signal : Bool) (fPos : Int) (hk : Healthy k q o) (ho : o ≠ .closed)
    (hw : k.heap.view w = some wb) (ht : text wb = .ok (visible buf)) (hwo : w ∉ owned q o)
    (hg : k.heap.granted (o.size + ((visible buf).length + 1)) = false) :
    ∃ k', (appendPart buf.count (.cell w 0) fPos).run signal k = (.ok (-ENOMEM, fPos), k') ∧
      Healthy k' q (.lost o.size (completes o buf)) ∧ w ∉ owned q (.lost o.size (completes o buf)) ∧
      k'.heap.view w = k.heap.view w ∧ k'.heap.denied = k.heap.denied + 1 ∧ Adds 0 k k' ∧
      Forgets (flagged (visible buf) k) k' := by
  have hw₁ : (flagged (visible buf) k).heap.view w = some wb := by rw [heap_flagged, hw]
  obtain ⟨k', hgrow, hk', hview, hden, hadds, hforgets⟩ :=
    grow_denied signal (hk.toSound.flagged (visible buf)) ho (completes o buf) hw₁ ht
      (by rwa [heap_flagged])
  rw [heap_flagged] at hview hden
  refine ⟨k', append_flagged buf.count hw ht hgrow, ⟨hk', ?_, Or.inr (by omega)⟩,
    fun hm => hwo ?_, by rw [hview], hden, (adds_flagged (visible buf) k).trans hadds, hforgets⟩
  · rw [hforgets]
    exact hk.endOfPacket_flagged
  · simp only [owned, Pending.ids, List.append_nil] at hm
    exact List.mem_append_left _ hm

/-- There is nothing to append to only where the packet was lost. -/
theorem Pending.lost_of_start {d : List UInt8} (h : o.start d = none) :
    ∃ n e, o = .lost n e ∧ salvage d n = none := by
  cases o with
  | closed => cases h
  | opened => cases h
  | lost n e => exact ⟨n, e, rfl, h⟩

theorem append_part (signal : Bool) (fPos : Int) (hk : Healthy k q o) (hw : k.heap.view w = some wb)
    (ht : text wb = .ok (visible buf)) (hwo : w ∉ owned q o) :
    Crashes (k.heap.leftover (o.size + ((visible buf).length + 1))) q o k
      ((appendPart buf.count (.cell w 0) fPos).run signal k) ∨
    Lands buf fPos (k.heap.leftover (o.size + ((visible buf).length + 1))) q o w k
      ((appendPart buf.count (.cell w 0) fPos).run signal k) := by
  have hk₁ := hk.toSound.flagged (visible buf)
  have hw₁ : (flagged (visible buf) k).heap.view w = some wb := by rw [heap_flagged, hw]
  cases hg : k.heap.granted (o.size + ((visible buf).length + 1)) with
  | true =>
    cases hstart : o.start (k.heap.leftover (o.size + ((visible buf).length + 1))) with
    | some t =>
      obtain ⟨pos, k', q', o', d, hrun, htakes, hk', hw', hview, hden, hadds, _⟩ :=
        append_taken signal fPos hk hstart hw ht hwo hg
      exact Or.inr ⟨_, k', q', o', d, hrun, htakes, hk', hw', hview, hden, hadds, fun _ => by simp⟩
    | none =>
      obtain ⟨n, e, rfl, hnone⟩ := Pending.lost_of_start hstart
      obtain ⟨k', hgrow, hden⟩ :=
        grow_overruns signal hk₁ hw₁ ht (by rwa [heap_flagged]) (by rwa [heap_flagged])
      rw [heap_flagged] at hden
      left
      rw [append_flagged buf.count hw ht hgrow]
      exact ⟨_, k', rfl, Or.inr rfl, Nat.le_of_eq hden.symm, Or.inl hstart, fun ho => ho.elim⟩
  | false =>
    by_cases hc : o = .closed
    · subst hc
      obtain ⟨k', hgrow, hden, hring⟩ := grow_first_denied signal hk₁ hw₁ ht
        (by simpa [Pending.size] using hg)
      rw [heap_flagged] at hden
      left
      rw [append_flagged buf.count hw ht hgrow]
      exact ⟨_, k', rfl, Or.inl rfl, by omega, Or.inr (by omega), fun _ => hring⟩
    · obtain ⟨k', hrun, hk', hw', hview, hden, hadds, _⟩ :=
        append_denied signal fPos hk hc hw ht hwo hg
      refine Or.inr ⟨_, k', q, _, 1, hrun, .notGrown hc, hk', hw', hview, hden, ⟨hadds.parts, ?_⟩,
        fun h => absurd h hc⟩
      have hlive := hadds.live
      cases o with
      | closed => exact absurd rfl hc
      | opened => exact hlive
      | lost => exact hlive

/-- The local buffer is eight times as large as the data and cleared, so that
the data is followed by a terminator. -/
theorem write_prepared (signal : Bool) (fPos : Int) (hne : buf.data ≠ []) (hf : buf.faults = false)
    (hv : k.heap.view w = some (List.replicate (buf.count * sizeofCharPtr) none)) :
    ∃ h wb, (aesdWriteLocked buf (.cell w 0) fPos).run signal k =
        (appendPart buf.count (.cell w 0) fPos).run signal ⟨h, k.dev⟩ ∧
      h.view = Function.update k.heap.view w (some wb) ∧ text wb = .ok (visible buf) ∧
      h.denied = k.heap.denied ∧ h.live = k.heap.live ∧ Heap.Later 0 k.heap h := by
  have hpos : 0 < buf.data.length := List.length_pos_iff.mpr hne
  have hlt := Heap.lt_of_view hv
  let h₁ := k.heap.put w (List.replicate (buf.count * sizeofCharPtr) (some 0))
  have hv₁ : h₁.view w = some (List.replicate (buf.count * sizeofCharPtr) (some 0)) := by
    simp [h₁, hlt]
  have hfill : overwrite (List.replicate (buf.count * sizeofCharPtr) (some 0)) 0 buf.data =
      buf.data.map some ++ some 0 :: List.replicate (buf.count * 7 - 1) (some 0) := by
    have hsplit : buf.count * sizeofCharPtr - buf.data.length = (buf.count * 7 - 1) + 1 := by
      simp only [UserSource.count, sizeofCharPtr]
      omega
    simp [overwrite, hsplit, List.replicate_succ]
  have hstore : h₁.store (.cell w 0) buf.data = .ok (h₁.put w
      (buf.data.map some ++ some 0 :: List.replicate (buf.count * 7 - 1) (some 0))) := by
    rw [Heap.store_cell hv₁, hfill]
    simp only [List.length_replicate, UserSource.count, sizeofCharPtr]
    omega
  refine ⟨h₁.put w (buf.data.map some ++ some 0 :: List.replicate (buf.count * 7 - 1) (some 0)), _,
    ?_, ?_, text_padded buf.data (List.replicate (buf.count * 7 - 1) (some 0)), rfl, ?_,
    ⟨rfl, rfl, rfl⟩⟩
  · simp only [aesdWriteLocked, reduceCtorEq, ↓reduceIte, Code.run_bind,
      run_memset_cell hv 0 (List.length_replicate), copyFromUser, hf, Bool.false_and,
      Bool.false_eq_true]
    rw [run_changeHeap_ok hstore]
    rfl
  · simp [h₁, hlt]
  · rw [Heap.live_put hv₁, Heap.live_put hv]

theorem count_mul_ne_zero (hne : buf.data ≠ []) : buf.count * sizeofCharPtr ≠ 0 := by
  have := List.length_pos_iff.mpr hne
  simp only [UserSource.count, sizeofCharPtr]
  omega

/-- Without memory for the local buffer nothing happens. -/
theorem write_denied (fPos : Int) (hne : buf.data ≠ [])
    (hg : k.heap.granted (buf.count * sizeofCharPtr) = false) :
    (aesdWrite buf fPos).run false k = (.ok (-ENOMEM, fPos), { k with heap := k.heap.deny }) := by
  simp only [aesdWrite, Code.run_bind, run_mutexLock, Bool.false_eq_true, ↓reduceIte, run_kmalloc,
    Heap.kmalloc_denied (count_mul_ne_zero hne) hg, aesdWriteLocked, Code.run_pure]
  rfl

/-- Up to the allocation of the local buffer. -/
theorem write_started (fPos : Int) (hne : buf.data ≠ [])
    (hg : k.heap.granted (buf.count * sizeofCharPtr) = true) :
    ∃ k₁, (aesdWrite buf fPos).run false k =
        (do let result ← aesdWriteLocked buf (.cell k.heap.blocks.length 0) fPos
            kfree (.cell k.heap.blocks.length 0)
            mutexUnlock
            return result : KernelM (Int × Int)).run false k₁ ∧
      k₁.dev = k.dev ∧ k₁.heap.denied = k.heap.denied ∧ k₁.heap.live = k.heap.live + 1 ∧
      k₁.heap.view = Function.update k.heap.view k.heap.blocks.length
        (some (List.replicate (buf.count * sizeofCharPtr) none)) ∧
      Heap.Later 1 k.heap k₁.heap := by
  refine ⟨{ k with heap := k.heap.push (List.replicate (buf.count * sizeofCharPtr) none) },
    ?_, rfl, rfl, by simp, by simp, ⟨rfl, rfl, rfl⟩⟩
  simp only [aesdWrite, Code.run_bind, run_mutexLock, Bool.false_eq_true, ↓reduceIte,
    run_kmalloc, Heap.kmalloc_granted (count_mul_ne_zero hne) hg]

/-- The local buffer is freed on every path. -/
theorem write_finished {p : KernelM (Int × Int)} {ret : Int × Int} {k₁ k₂ : Kernel}
    (hrun : p.run false k₁ = (.ok ret, k₂)) (hv : k₂.heap.view w = some wb) :
    (do let result ← p
        kfree (.cell w 0)
        mutexUnlock
        return result : KernelM (Int × Int)).run false k₁ =
      (.ok ret, { k₂ with heap := k₂.heap.retire w }) := by
  simp only [Code.run_bind, hrun, run_kfree_cell hv, run_mutexUnlock, Code.run_pure]

/-- Neither does a caller's buffer that cannot be read have any effect. -/
theorem write_faulted (fPos : Int) (hne : buf.data ≠ [])
    (hg : k.heap.granted (buf.count * sizeofCharPtr) = true) (hf : buf.faults = true) :
    ∃ h, (aesdWrite buf fPos).run false k = (.ok (-EFAULT, fPos), { k with heap := h }) ∧
      h.view = k.heap.view ∧ h.denied = k.heap.denied ∧ h.live = k.heap.live := by
  obtain ⟨k₁, hstart, hdev, hden, hlive, hview, _⟩ := write_started fPos hne hg
  have hw : k₁.heap.view k.heap.blocks.length =
      some (List.replicate (buf.count * sizeofCharPtr) none) := by simp [hview]
  have hlt := Heap.lt_of_view hw
  let h₂ := k₁.heap.put k.heap.blocks.length
    (List.replicate (buf.count * sizeofCharPtr) (some 0))
  have hw₂ : h₂.view k.heap.blocks.length =
      some (List.replicate (buf.count * sizeofCharPtr) (some 0)) := by simp [h₂, hlt]
  have hcount : buf.count ≠ 0 := fun he => hne (List.eq_nil_of_length_eq_zero he)
  have hlocked : (aesdWriteLocked buf (.cell k.heap.blocks.length 0) fPos).run false k₁ =
      (.ok (-EFAULT, fPos), { k₁ with heap := h₂ }) := by
    simp only [aesdWriteLocked, reduceCtorEq, ↓reduceIte, Code.run_bind,
      run_memset_cell hw 0 (List.length_replicate), copyFromUser, hf, hcount, ne_eq,
      not_false_eq_true, decide_true, Bool.and_self, Code.run_pure, h₂]
  refine ⟨h₂.retire k.heap.blocks.length, ?_, ?_, hden, ?_⟩
  · rw [hstart, write_finished hlocked hw₂, hdev]
  · have hfresh : k.heap.view k.heap.blocks.length = none := Heap.view_fresh (Nat.le_refl _)
    simp [h₂, hlt, hview, ← hfresh]
  · have hput : h₂.live = k₁.heap.live := Heap.live_put hw
    have hretire := Heap.live_retire hw₂
    omega

/-- Up to the copy of the caller's data. -/
theorem write_copied (fPos : Int) (hk : Healthy k q o) (hne : buf.data ≠ [])
    (hg : k.heap.granted (buf.count * sizeofCharPtr) = true) (hf : buf.faults = false) :
    ∃ k₁ wb, (aesdWrite buf fPos).run false k =
        (do let result ← appendPart buf.count (.cell k.heap.blocks.length 0) fPos
            kfree (.cell k.heap.blocks.length 0)
            mutexUnlock
            return result : KernelM (Int × Int)).run false k₁ ∧
      Healthy k₁ q o ∧ k₁.dev = k.dev ∧ k₁.heap.view k.heap.blocks.length = some wb ∧
      text wb = .ok (visible buf) ∧ k.heap.blocks.length ∉ owned q o ∧
      k₁.heap.denied = k.heap.denied ∧ k₁.heap.live = k.heap.live + 1 ∧
      Heap.Later 1 k.heap k₁.heap := by
  obtain ⟨k₁, hstart, hdev, hden₁, hlive₁, hview₁, hlater₁⟩ := write_started fPos hne hg
  have hw : k₁.heap.view k.heap.blocks.length =
      some (List.replicate (buf.count * sizeofCharPtr) none) := by simp [hview₁]
  have hfresh : k.heap.blocks.length ∉ owned q o := hk.fresh (Heap.view_fresh (Nat.le_refl _))
  have hold : ∀ id ∈ owned q o, id ≠ k.heap.blocks.length := fun id hid he => hfresh (he ▸ hid)
  obtain ⟨h, wb, hrun, hview, htext, hden, hlive, hlater⟩ := write_prepared false fPos hne hf hw
  refine ⟨⟨h, k₁.dev⟩, wb, ?_, ?_, hdev, by simp [hview], htext, hfresh, hden.trans hden₁,
    hlive.trans hlive₁, hlater₁.trans hlater⟩
  · rw [hstart, Code.run_bind, hrun, ← Code.run_bind]
  · exact hk.frame hdev (fun id hid => by simp [hview, hview₁, hold id hid])
      (Nat.le_of_eq (hden.trans hden₁).symm)

/-- The end of a call that got that far. -/
theorem write_released {k₁ k' : Kernel} {ret : Int × Int} {q' : List Packet} {o' : Pending}
    (hl : (appendPart buf.count (.cell w 0) fPos).run false k₁ = (.ok ret, k'))
    (hk' : Healthy k' q' o') (hw' : w ∉ owned q' o') (hv : k'.heap.view w = some wb) :
    ∃ k₂, (do let result ← appendPart buf.count (.cell w 0) fPos
              kfree (.cell w 0)
              mutexUnlock
              return result : KernelM (Int × Int)).run false k₁ = (.ok ret, k₂) ∧
      Healthy k₂ q' o' ∧ k₂.dev = k'.dev ∧ k₂.heap.denied = k'.heap.denied ∧
      k₂.heap.live + 1 = k'.heap.live := by
  refine ⟨_, write_finished hl hv, hk'.frame rfl ?_ (Nat.le_refl _), rfl, rfl, Heap.live_retire hv⟩
  intro id hid
  have hne : id ≠ w := fun he => hw' (he ▸ hid)
  simp [hne]

/-- Once the data is in the local buffer. A packet that is not open yet can only
be opened or crash the system. -/
theorem write_appends (fPos : Int) (hk : Healthy k q o) (hne : buf.data ≠ [])
    (hg : k.heap.granted (buf.count * sizeofCharPtr) = true) (hf : buf.faults = false) :
    Crashes (residue buf o k) q o k ((aesdWrite buf fPos).run false k) ∨
    ∃ ret k' q' o' d, (aesdWrite buf fPos).run false k = (.ok ret, k') ∧
      Takes buf fPos (residue buf o k) q o ret q' o' d ∧ Healthy k' q' o' ∧
      k'.heap.denied = k.heap.denied + d ∧
      Adds (gain o ret) k k' ∧ (o = .closed → 0 ≤ ret.1) := by
  obtain ⟨k₁, wb, hrun, hk₁, hdev, hw, htext, hfresh, hden, hlive, hlater⟩ :=
    write_copied fPos hk hne hg hf
  have hcases := append_part false fPos hk₁ hw htext hfresh
  rw [hlater.leftover] at hcases
  rw [hrun]
  rcases hcases with hcrash | hland
  · left
    obtain ⟨e, k', hc, hbad, hle, hwhy, hring⟩ := hcrash
    rw [hden] at hle hwhy
    exact ⟨e, k', Code.run_bind_error hc, hbad, hle, hwhy, hring⟩
  · right
    obtain ⟨ret, k', q', o', d, hl, htakes, hk', hw', hview', hden', hadds, hopen⟩ := hland
    obtain ⟨k₂, hend, hk₂, hdev₂, hden₂, hlive₂⟩ := write_released hl hk' hw' (hview'.trans hw)
    refine ⟨ret, k₂, q', o', d, hend, htakes, hk₂, by rw [hden₂, hden', hden], ⟨?_, ?_⟩, hopen⟩
    · rw [hdev₂, ← hdev]
      exact hadds.parts
    · -- the local buffer was counted among the new blocks until it is freed
      have := hadds.live
      omega

/-- With memory for the local buffer and for the packet, and with something to append to,
the call succeeds. -/
theorem write_taken (fPos : Int) {t : List UInt8} (hk : Healthy k q o) (hne : buf.data ≠ [])
    (hg : k.heap.granted (buf.count * sizeofCharPtr) = true) (hf : buf.faults = false)
    (hroom : k.heap.willGrant 1 (o.size + ((visible buf).length + 1)) = true)
    (hstart : o.start (residue buf o k) = some t) :
    ∃ pos k' q' o' d, (aesdWrite buf fPos).run false k = (.ok (buf.count, pos), k') ∧
      Takes buf fPos (residue buf o k) q o (buf.count, pos) q' o' d ∧ Healthy k' q' o' ∧
      (completes o buf = true → (d = 0 ↔
        t ++ visible buf = [] ∨ k.heap.willGrant 2 (t ++ visible buf).length = true)) := by
  obtain ⟨k₁, wb, hrun, hk₁, _, hw, htext, hfresh, _, _, hlater⟩ := write_copied fPos hk hne hg hf
  obtain ⟨pos, k', q', o', d, hl, htakes, hk', hw', hview', _, _, hstores⟩ :=
    append_taken false fPos hk₁ (by rw [hlater.leftover]; exact hstart) hw htext hfresh
      (by rw [hlater.granted, hroom])
  obtain ⟨k₂, hend, hk₂, _⟩ := write_released hl hk' hw' (hview'.trans hw)
  rw [hlater.leftover] at htakes
  rw [hlater.willGrant] at hstores
  exact ⟨pos, k₂, q', o', d, hrun.trans hend, htakes, hk₂, hstores⟩

/-- Without memory for the packet the call fails, and the device has forgotten
where the packet was. -/
theorem write_starved (fPos : Int) (hk : Healthy k q o) (ho : o ≠ .closed) (hne : buf.data ≠ [])
    (hg : k.heap.granted (buf.count * sizeofCharPtr) = true) (hf : buf.faults = false)
    (hroom : k.heap.willGrant 1 (o.size + ((visible buf).length + 1)) = false) :
    ∃ k', (aesdWrite buf fPos).run false k = (.ok (-ENOMEM, fPos), k') ∧
      Healthy k' q (.lost o.size (completes o buf)) ∧ Forgets (flagged (visible buf) k) k' := by
  obtain ⟨k₁, wb, hrun, hk₁, hdev, hw, htext, hfresh, _, _, hlater⟩ :=
    write_copied fPos hk hne hg hf
  obtain ⟨k', hl, hk', hw', hview', _, _, hforgets⟩ :=
    append_denied false fPos hk₁ ho hw htext hfresh (by rw [hlater.granted, hroom])
  obtain ⟨k₂, hend, hk₂, hdev₂, _⟩ := write_released hl hk' hw' (hview'.trans hw)
  refine ⟨k₂, hrun.trans hend, hk₂, ?_⟩
  rw [Forgets, hdev₂, hforgets]
  unfold flagged
  split <;> simp [hdev]

/-- Without memory for the first part of a packet the call does not return. -/
theorem write_unopened (fPos : Int) (hk : Healthy k q .closed) (hne : buf.data ≠ [])
    (hg : k.heap.granted (buf.count * sizeofCharPtr) = true) (hf : buf.faults = false)
    (hroom : k.heap.willGrant 1 ((visible buf).length + 1) = false) :
    ∃ k', (aesdWrite buf fPos).run false k = (.error .nullDeref, k') := by
  obtain ⟨k₁, wb, hrun, hk₁, _, hw, htext, _, _, _, hlater⟩ := write_copied fPos hk hne hg hf
  obtain ⟨k', hgrow, _⟩ := grow_first_denied false (hk₁.toSound.flagged (visible buf))
    (by rw [heap_flagged, hw]) htext (by rw [heap_flagged, hlater.granted, hroom])
  exact ⟨k', hrun.trans (Code.run_bind_error (append_flagged buf.count hw htext hgrow))⟩

/-- Nor does it once the packet is lost, where what it finds in memory leaves no room. -/
theorem write_overruns (fPos : Int) {n : Nat} {e : Bool} (hk : Healthy k q (.lost n e))
    (hne : buf.data ≠ []) (hg : k.heap.granted (buf.count * sizeofCharPtr) = true)
    (hf : buf.faults = false) (hroom : k.heap.willGrant 1 (n + ((visible buf).length + 1)) = true)
    (hnone : salvage (residue buf (.lost n e) k) n = none) :
    ∃ k', (aesdWrite buf fPos).run false k = (.error .outOfBounds, k') := by
  obtain ⟨k₁, wb, hrun, hk₁, hdev, hw, htext, _, _, _, hlater⟩ := write_copied fPos hk hne hg hf
  obtain ⟨k', hgrow, _⟩ := grow_overruns false (hk₁.toSound.flagged (visible buf))
    (by rw [heap_flagged, hw]) htext (by rw [heap_flagged, hlater.granted, hroom])
    (by rw [heap_flagged, hlater.leftover]; exact hnone)
  exact ⟨k', hrun.trans (Code.run_bind_error (append_flagged buf.count hw htext hgrow))⟩

/-- The specification of `aesd_write` with the lock acquired. -/
theorem aesd_write_lands (fPos : Int) (hk : Healthy k q o) (hne : buf.data ≠ []) :
    Crashes (residue buf o k) q o k ((aesdWrite buf fPos).run false k) ∨
    ∃ ret k' q' o' d, (aesdWrite buf fPos).run false k = (.ok ret, k') ∧
      Takes buf fPos (residue buf o k) q o ret q' o' d ∧ Healthy k' q' o' ∧
      k'.heap.denied = k.heap.denied + d ∧ Adds (gain o ret) k k' := by
  cases hg : k.heap.granted (buf.count * sizeofCharPtr) with
  | false =>
    exact Or.inr ⟨_, _, q, o, 1, write_denied fPos hne hg, .noBuffer,
      hk.frame rfl (fun _ _ => rfl) (Nat.le_succ _), rfl, rfl,
      by rw [gain_of_neg (by simp [ENOMEM])]; rfl⟩
  | true =>
    cases hf : buf.faults with
    | true =>
      obtain ⟨h, hrun, hview, hden, hlive⟩ := write_faulted fPos hne hg hf
      exact Or.inr ⟨_, _, q, o, 0, hrun, .copyFault hf,
        hk.frame rfl (fun id _ => by rw [hview]) (Nat.le_of_eq hden.symm), hden, rfl,
        by rw [gain_of_neg (by simp [EFAULT]), hlive]; rfl⟩
    | false =>
      exact (write_appends fPos hk hne hg hf).imp_right
        (fun ⟨ret, k', q', o', d, hrun, htakes, hk', hden, hadds, _⟩ =>
          ⟨ret, k', q', o', d, hrun, htakes, hk', hden, hadds⟩)

/-- A write of no bytes runs off the end of its local buffer. -/
theorem aesd_write_empty (fPos : Int) (hnil : buf.data = []) :
    (aesdWrite buf fPos).run false k = (.error .outOfBounds, k) := by
  have hcount : buf.count = 0 := by simp [UserSource.count, hnil]
  have hset : (memset .zeroSize 0 0).run false k = (.ok (), k) := run_changeHeap_ok rfl
  have hcopy : (changeHeap fun h => h.store .zeroSize buf.data).run false k = (.ok (), k) :=
    run_changeHeap_ok (by rw [hnil]; rfl)
  have hchr : (strchr .zeroSize newline).run false k = (.error .outOfBounds, k) :=
    run_askHeap_error rfl
  simp [aesdWrite, aesdWriteLocked, copyFromUser, appendPart, Code.run_bind, run_mutexLock, hcount,
    run_kmalloc, Heap.kmalloc, hset, hcopy, hchr]

theorem write_interrupted (buf : UserSource) (fPos : Int) :
    (aesdWrite buf fPos).run true k = (.ok (-ERESTARTSYS, fPos), k) := rfl

/-- A write that has returned. -/
theorem Healthy.write_returned {ret : Int × Int} {k' : Kernel} (hk : Healthy k q o)
    (hrun : (aesdWrite buf fPos).run false k = (.ok ret, k')) :
    ∃ q' o' d, Takes buf fPos (residue buf o k) q o ret q' o' d ∧ Healthy k' q' o' ∧
      k'.heap.denied = k.heap.denied + d := by
  by_cases hne : buf.data = []
  · cases (aesd_write_empty fPos hne).symm.trans hrun
  · rcases aesd_write_lands fPos hk hne with
      ⟨e, _, hcrash, _⟩ | ⟨_, _, q', o', d, hrun', htakes, hk', hd, _⟩
    · cases hcrash.symm.trans hrun
    · cases hrun'.symm.trans hrun
      exact ⟨q', o', d, htakes, hk', hd⟩

/-- A write that does not return has met a NULL pointer or left its block, and has no bytes
or comes after a denied request. -/
theorem Healthy.write_fault {e : Fault} {k' : Kernel} (hk : Healthy k q o)
    (hrun : (aesdWrite buf fPos).run false k = (.error e, k')) :
    (e = .nullDeref ∨ e = .outOfBounds) ∧ (buf.data = [] ∨ 0 < k'.heap.denied) := by
  by_cases hne : buf.data = []
  · cases (aesd_write_empty fPos hne).symm.trans hrun
    exact ⟨Or.inr rfl, Or.inl hne⟩
  · rcases aesd_write_lands fPos hk hne with
      ⟨e', _, hcrash, hwhich, hle, hwhy, _⟩ | ⟨_, _, _, _, _, hrun', _⟩
    · cases hcrash.symm.trans hrun
      refine ⟨hwhich, Or.inr ?_⟩
      rcases hwhy with hlost | hmore
      · exact Nat.lt_of_lt_of_le (hk.excused.resolve_left (fun ho => ho.start_ne_none hlost)) hle
      · exact Nat.zero_lt_of_lt hmore
    · cases hrun'.symm.trans hrun

end Aesd.Proofs
