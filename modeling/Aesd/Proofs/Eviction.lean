import Aesd.Proofs.WriteFailures

namespace Aesd.Proofs
open Base Driver CString

variable {k k' : Kernel} {q : List Packet} {o : Pending} {buf : UserSource} {fPos : Int}

/-- The pointers to packets that the device holds: those in the slots, and that
of the open packet if there is one. -/
def heldPointers (k : Kernel) : List Ptr :=
  (k.dev.buffer.entry.toList.map BufferEntry.buffptr).filter (fun p => decide (p ≠ .null)) ++
    if k.dev.firstPacket = 1 then [k.dev.bufferEntry.buffptr] else []

/-- The call is a write of some bytes, and is granted what it asks for itself. The
answer to the request of `aesd_circular_buffer_add_entry` is not looked at. -/
def served (c : OpCall) (k : Kernel) : Bool :=
  match c.op with
  | .write buf _ =>
    !buf.data.isEmpty && (c.signal || k.heap.granted (buf.count * sizeofCharPtr) &&
      (buf.faults || k.heap.willGrant 1
        ((if k.dev.firstPacket = 0 then 0 else k.dev.bufferEntry.size) +
          ((visible buf).length + 1))))
  | _ => false

/-- Each call of the run is served, in the state it is made in. -/
def allServed : List OpCall → Kernel → Bool
  | [], _ => true
  | c :: calls, k => served c k && allServed calls ((aesdFops c.op).run c.signal k).2

theorem Sound.heldPointers (hk : Sound k q o) (ho : o.Held) :
    (heldPointers k).Perm ((owned q o).map (Ptr.cell · 0)) := by
  have hslots : ((k.dev.buffer.entry.toList.map BufferEntry.buffptr).filter
      (fun p => decide (p ≠ .null))).Perm (q.map (fun p => .cell p.id 0)) := by
    have hwalk := (Queue.walk_perm k.dev.buffer.entry k.dev.buffer.outOffs .blank).symm
    refine ((hwalk.map _).filter _).trans (.of_eq ?_)
    have hring := congrArg (List.map BufferEntry.buffptr) hk.ringSlots
    simpa [Proofs.ringSlots, List.filter_map, Function.comp_def, Packet.entry] using hring
  have hopen : (if k.dev.firstPacket = 1 then [k.dev.bufferEntry.buffptr] else []) =
      o.ids.map (Ptr.cell · 0) := by
    have hp := hk.pending
    cases o with
    | closed =>
      have hfirst : k.dev.firstPacket = 0 := hp
      simp [hfirst]
    | opened p n => simp [hp.1, hp.2.1]
    | lost => exact ho.elim
  rw [Proofs.heldPointers, hopen, owned, List.map_append, List.map_map]
  exact hslots.append_right _

/-- Different blocks are at different addresses. -/
theorem Sound.heldPointers_nodup (hk : Sound k q o) (ho : o.Held) :
    (Proofs.heldPointers k).Nodup := by
  rw [(hk.heldPointers ho).nodup_iff]
  apply hk.distinct.map
  intro i j hij
  exact (Ptr.cell.inj hij).1

theorem Sound.live_of_held {p : Ptr} (hk : Sound k q o) (ho : o.Held)
    (hp : p ∈ Proofs.heldPointers k) : ∃ id, p = .cell id 0 ∧ k.heap.view id ≠ none := by
  rw [(hk.heldPointers ho).mem_iff] at hp
  obtain ⟨id, hid, rfl⟩ := List.mem_map.mp hp
  exact ⟨id, rfl, hk.live id hid⟩

section Runs

/-- What one call preserves. Only a failed `krealloc` could lose the open packet. -/
theorem Healthy.served {c : OpCall} (hk : Healthy k q o) (ho : o.Held)
    (hs : served c k = true) :
    ∃ ret k' q' o', (aesdFops c.op).run c.signal k = (.ok ret, k') ∧ Healthy k' q' o' ∧
      o'.Held := by
  obtain ⟨op, signal⟩ := c
  cases op with
  | ioctl past cmd arg fPos => cases hs
  | read buf fPos => cases hs
  | write buf fPos =>
    simp only [Proofs.served, Bool.and_eq_true, Bool.or_eq_true, Bool.not_eq_true',
      List.isEmpty_eq_false_iff, hk.size_eq] at hs
    obtain ⟨hne, hs⟩ := hs
    cases signal with
    | true => exact ⟨_, k, q, o, run_write_interrupted buf fPos, hk, ho⟩
    | false =>
      obtain ⟨hg, hs⟩ := hs.resolve_left Bool.false_ne_true
      cases hf : buf.faults with
      | true =>
        obtain ⟨h, hrun, hview, hden, _⟩ := write_faulted fPos hne hg hf
        exact ⟨_, _, q, o, Code.run_bind_ok hrun,
          hk.frame rfl (fun id _ => by rw [hview]) (Nat.le_of_eq hden.symm), ho⟩
      | false =>
        have hroom := hs.resolve_left (by simp [hf])
        obtain ⟨pos, k', _, _, _, hrun, _⟩ := write_taken fPos hk hne hg hf hroom ho.start
        obtain ⟨q', o', hk', ho'⟩ := hk.write_success hrun
        exact ⟨_, k', q', o', Code.run_bind_ok hrun, hk', ho'⟩

/-- The run of a sequence of calls that are all served. -/
theorem Healthy.allServed {calls : List OpCall} (hk : Healthy k q o) (ho : o.Held)
    (hs : allServed calls k = true) :
    ∃ rets k' q' o', Proofs.runOps calls k = (.ok rets, k') ∧ Healthy k' q' o' ∧ o'.Held := by
  induction calls generalizing k q o with
  | nil => exact ⟨[], k, q, o, rfl, hk, ho⟩
  | cons c calls ih =>
    obtain ⟨hc, htail⟩ := (Bool.and_eq_true_iff).mp hs
    obtain ⟨ret, k₁, q₁, o₁, hrun, hk₁, ho₁⟩ := hk.served ho hc
    rw [hrun] at htail
    obtain ⟨rets, k₂, q₂, o₂, hrest, hk₂, ho₂⟩ := ih hk₁ ho₁ htail
    exact ⟨ret :: rets, k₂, q₂, o₂, by rw [runOps_cons hrun, hrest], hk₂, ho₂⟩

/-- Whatever the ring answers, the packets that the device holds are in blocks of
their own that have not been freed, and no call after that touches one that has. -/
theorem eviction_spares_held_packets {grant : Nat → Bool} {k₀ : Kernel} (hb : Booted grant k₀)
    (calls : List OpCall) (hs : allServed calls k₀ = true) :
    ∃ rets k, runOps calls k₀ = (.ok rets, k) ∧ (heldPointers k).Nodup ∧
      (∀ p ∈ heldPointers k, ∃ id, p = .cell id 0 ∧ k.heap.view id ≠ none) ∧
      (∀ id off, k.heap.view id = none → .cell id off ∉ heldPointers k) ∧
      ∀ later e k', runOps later k = (.error e, k') → e ≠ .useAfterFree ∧ e ≠ .badFree := by
  obtain ⟨rets, k, q, o, hrun, hk, ho⟩ := hb.healthy.allServed trivial hs
  refine ⟨rets, k, hrun, hk.heldPointers_nodup ho, fun p hp => hk.live_of_held ho hp, ?_,
    fun later e k' hlater => hk.runOps_fault hlater⟩
  intro id off hdead hheld
  obtain ⟨id', hcell, hlive⟩ := hk.live_of_held ho hheld
  rw [(Ptr.cell.inj hcell).1] at hdead
  exact hlive hdead

/-- Eleven packets, the last of which evicts the first, and half of a twelfth. -/
def elevenAndAHalf : List OpCall :=
  List.replicate 11 ⟨.write ⟨[120, 10], false⟩ 0, false⟩ ++ [⟨.write ⟨[121], false⟩ 0, false⟩]

theorem eleven_and_a_half_distinct :
    ∃ rets k, runOps elevenAndAHalf (booted plenty) = (.ok rets, k) ∧ (heldPointers k).Nodup := by
  obtain ⟨rets, k, hrun, hnodup, _⟩ :=
    eviction_spares_held_packets booted_plenty elevenAndAHalf (by decide +kernel)
  exact ⟨rets, k, hrun, hnodup⟩

end Runs

section Room

/-- The open packet is terminated inside its block, which is as large as the device
believes it to be. -/
def PacketFits (k : Kernel) : Prop :=
  ∃ id bytes s, k.dev.bufferEntry.buffptr = .cell id 0 ∧ k.heap.view id = some bytes ∧
    bytes.length = k.dev.bufferEntry.size ∧ text bytes = .ok s ∧
    s.length + 1 ≤ k.dev.bufferEntry.size

theorem Sound.packetFits (hk : Sound k q o) (ho : o.Held) (hfirst : k.dev.firstPacket = 1) :
    PacketFits k := by
  have hp := hk.pending
  cases o with
  | closed =>
    have hclosed : k.dev.firstPacket = 0 := hp
    omega
  | lost => exact ho.elim
  | opened p n =>
    obtain ⟨_, hentry, _, h0, rest, hv, hlen⟩ := hp
    have hsize : k.dev.bufferEntry.size = n := by rw [hentry]
    refine ⟨p.id, _, p.text, by rw [hentry], hv, ?_, text_append _ rest h0, ?_⟩
    · rw [hsize, List.length_append, List.length_map, List.length_cons]
      omega
    · omega

/-- Appending never leaves the block of the packet: a run of writes returns, and what
there is of a packet after it is terminated in a block of the size on record. -/
theorem open_packet_fits {grant : Nat → Bool} {k₀ : Kernel} (hb : Booted grant k₀)
    (calls : List OpCall) (hs : allServed calls k₀ = true) :
    ∃ rets k, runOps calls k₀ = (.ok rets, k) ∧ (k.dev.firstPacket = 1 → PacketFits k) := by
  obtain ⟨rets, k, q, o, hrun, hk, ho⟩ := hb.healthy.allServed trivial hs
  exact ⟨rets, k, hrun, hk.packetFits ho⟩

/-- A packet in three parts, the second of which holds a NUL, and the first part of
another. -/
def partsOfTwo : List OpCall :=
  [[97], [98, 0, 10], [10], [99, 100]].map (fun bytes => ⟨.write ⟨bytes, false⟩ 0, false⟩)

theorem parts_of_two_fit :
    ∃ rets k, runOps partsOfTwo (booted plenty) = (.ok rets, k) ∧ PacketFits k := by
  obtain ⟨rets, k, hrun, hfits⟩ := open_packet_fits booted_plenty partsOfTwo (by decide +kernel)
  have hopen : (runOps partsOfTwo (booted plenty)).2.dev.firstPacket = 1 := by decide +kernel
  rw [hrun] at hopen
  exact ⟨rets, k, hrun, hfits hopen⟩

end Room

end Aesd.Proofs
