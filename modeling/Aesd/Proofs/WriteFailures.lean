import Aesd.Proofs.Reachable
import Aesd.Proofs.Stream

namespace Aesd.Proofs
open Base Driver CString

variable {k k' : Kernel} {q : List Packet} {o : Pending} {buf : UserSource} {fPos : Int}
  {signal : Bool}

section Failed

/-- The same packets in the ring, the same open packet and the same flags. -/
structure Alike (k k' : Kernel) : Prop where
  packets : ringTexts k' = ringTexts k
  openPacket : openText k' = openText k
  size : k.dev.firstPacket = 1 → k'.dev.bufferEntry.size = k.dev.bufferEntry.size
  firstPacket : k'.dev.firstPacket = k.dev.firstPacket
  endOfPacket : k'.dev.endOfPacket = k.dev.endOfPacket

/-- The packets are in the same slots as well. -/
structure Unchanged (k k' : Kernel) : Prop extends Alike k k' where
  buffer : k'.dev.buffer = k.dev.buffer

/-- The same state, with other answers to the requests for memory to come, and the bytes
`left` in that memory. -/
def answering (k : Kernel) (grant : Nat → Bool) (left : Nat → UInt8) : Kernel :=
  { k with heap := { k.heap with grant := grant, stale := fun _ => left } }

/-- If a single write from `k` succeeds, the same write from `k'` comes to the
same. Neither of them is denied memory. -/
def Retries (buf : UserSource) (fPos : Int) (k k' : Kernel) : Prop :=
  ∀ grant grant' left ret k₁,
    (aesdWrite ⟨buf.data, false⟩ fPos).run false (answering k grant left) = (.ok ret, k₁) →
    0 ≤ ret.1 → k₁.heap.denied = k.heap.denied →
    ((aesdWrite ⟨buf.data, false⟩ fPos).run false (answering k' grant' left)).2.heap.denied =
      k'.heap.denied →
    ∃ k₂, (aesdWrite ⟨buf.data, false⟩ fPos).run false (answering k' grant' left) = (.ok ret, k₂) ∧
      Alike k₁ k₂

/-- The write is going to fail for want of memory for the open packet, and there
is a packet to be lost or a flag to be set. -/
def Loses (signal : Bool) (buf : UserSource) (k : Kernel) : Prop :=
  signal = false ∧ k.dev.firstPacket = 1 ∧
    k.heap.granted (buf.count * sizeofCharPtr) = true ∧ buf.faults = false ∧
    k.heap.willGrant 1 (k.dev.bufferEntry.size + ((visible buf).length + 1)) = false ∧
    (k.dev.bufferEntry.buffptr ≠ .null ∨ (newline ∈ visible buf ∧ k.dev.endOfPacket ≠ 1))

@[simp] theorem denied_answering (k : Kernel) (grant : Nat → Bool) (left : Nat → UInt8) :
    (answering k grant left).heap.denied = k.heap.denied := rfl

theorem Healthy.answering (hk : Healthy k q o) (grant : Nat → Bool) (left : Nat → UInt8) :
    Healthy (answering k grant left) q o :=
  hk.frame rfl (fun _ _ => rfl) (Nat.le_refl _)

/-- Where the same bytes are left, a write finds the same. -/
theorem residue_answering (k k' : Kernel) (grant grant' : Nat → Bool) (left : Nat → UInt8) :
    residue buf o (answering k grant left) = residue buf o (answering k' grant' left) := rfl

theorem Healthy.unchanged (hk : Healthy k q o) (hk' : Healthy k' q o) (hdev : k'.dev = k.dev) :
    Unchanged k k' := by
  refine ⟨⟨by rw [hk'.ringTexts, hk.ringTexts], ?_, by simp [hdev], by rw [hdev], by rw [hdev]⟩,
    by rw [hdev]⟩
  cases o with
  | closed => rw [hk'.openText trivial, hk.openText trivial]
  | opened p n => rw [hk'.openText trivial, hk.openText trivial]
  | lost n e =>
    obtain ⟨hfirst, hnull, _⟩ := hk.pending
    simp only [openText, hdev, hfirst, hnull, ↓reduceIte]
    rfl

/-- States in the same order are alike if their packets have the same bytes,
wherever these are. -/
theorem Healthy.alike_opened {q' : List Packet} {id id' n : Nat} {t : List UInt8}
    (hk : Healthy k q (.opened ⟨id, t⟩ n)) (hk' : Healthy k' q' (.opened ⟨id', t⟩ n))
    (hq : q'.map Packet.text = q.map Packet.text) : Alike k k' := by
  obtain ⟨hfirst, hentry, _⟩ := hk.pending
  obtain ⟨hfirst', hentry', _⟩ := hk'.pending
  refine ⟨by rw [hk'.ringTexts, hk.ringTexts, hq], ?_, fun _ => by rw [hentry, hentry'],
    by rw [hfirst, hfirst'], by rw [hk.quiet (by simp), hk'.quiet (by simp)]⟩
  rw [hk'.openText (by simp), hk.openText (by simp)]
  rfl

theorem Healthy.alike_closed {q' : List Packet} (hk : Healthy k q .closed)
    (hk' : Healthy k' q' .closed) (hq : q'.map Packet.text = q.map Packet.text) : Alike k k' := by
  have hfirst : k.dev.firstPacket = 0 := hk.pending
  have hfirst' : k'.dev.firstPacket = 0 := hk'.pending
  refine ⟨by rw [hk'.ringTexts, hk.ringTexts, hq], ?_, fun h => by simp [hfirst] at h,
    by rw [hfirst, hfirst'], by rw [hk.quiet (by simp), hk'.quiet (by simp)]⟩
  rw [hk'.openText (by simp), hk.openText (by simp)]

/-- What a write does depends on the packets only. -/
theorem Healthy.retries (hk : Healthy k q o) (hk' : Healthy k' q o) (hne : buf.data ≠ []) :
    Retries buf fPos k k' := by
  intro grant grant' left ret k₁ hrun hpos hden hden'
  have hdata : UserSource.data ⟨buf.data, false⟩ ≠ [] := hne
  obtain ⟨q₁, o₁, d, htakes, hk₁, hd⟩ := (hk.answering grant left).write_returned hrun
  rw [denied_answering] at hd
  obtain rfl : d = 0 := by omega
  rw [residue_answering k k' grant grant' left] at htakes
  have hstart : ∃ t, o.start (residue ⟨buf.data, false⟩ o (Proofs.answering k' grant' left)) =
      some t := by
    cases htakes with
    | copyFault hf => cases hf
    | appended ht _ => exact ⟨_, ht⟩
    | stored ht _ => exact ⟨_, ht⟩
  obtain ⟨t, ht⟩ := hstart
  rcases aesd_write_lands fPos (hk'.answering grant' left) hdata with
    ⟨e, k₂, hcrash, _, _, hwhy, _⟩ | ⟨ret₂, k₂, q₂, o₂, d₂, hrun₂, htakes₂, hk₂, hd₂, _⟩
  · rw [hcrash] at hden'
    have hlt := hwhy.resolve_left (by simp [ht])
    rw [denied_answering] at hlt
    exact absurd hden' (Nat.ne_of_gt hlt)
  rw [hrun₂] at hden'
  rw [denied_answering] at hd₂
  obtain rfl : d₂ = 0 := by
    simp only at hden'
    omega
  rw [hrun₂]
  -- with no request denied, the end of the packet decides between the two outcomes left
  cases htakes with
  | copyFault hf => cases hf
  | appended ht hs =>
    cases htakes₂ with
    | copyFault hf => cases hf
    | appended ht' _ =>
      obtain rfl := Option.some.inj (ht.symm.trans ht')
      exact ⟨k₂, rfl, hk₁.alike_opened hk₂ rfl⟩
    | stored _ hs' => cases hs.symm.trans hs'
  | stored ht hs =>
    cases htakes₂ with
    | copyFault hf => cases hf
    | appended _ hs' => cases hs.symm.trans hs'
    | stored ht' _ =>
      obtain rfl := Option.some.inj (ht.symm.trans ht')
      refine ⟨k₂, rfl, hk₁.alike_closed hk₂ ?_⟩
      simp [Queue.push, Queue.map_rtake]

/-- A write that got as far as the packet fails only for want of room in it. -/
theorem write_grows_of_room {ret : Int × Int} (hk : Healthy k q o) (hne : buf.data ≠ [])
    (hg : k.heap.granted (buf.count * sizeofCharPtr) = true) (hf : buf.faults = false)
    (hroom : k.heap.willGrant 1 (o.size + ((visible buf).length + 1)) = true)
    (hrun : (aesdWrite buf fPos).run false k = (.ok ret, k')) : 0 ≤ ret.1 := by
  cases hstart : o.start (residue buf o k) with
  | some t =>
    obtain ⟨pos, _, _, _, _, hrun', _⟩ := write_taken fPos hk hne hg hf hroom hstart
    cases hrun'.symm.trans hrun
    exact Int.natCast_nonneg _
  | none =>
    obtain ⟨n, e, rfl, hnone⟩ := Pending.lost_of_start hstart
    obtain ⟨_, hrun'⟩ := write_overruns fPos hk hne hg hf hroom hnone
    cases hrun'.symm.trans hrun

/-- If the packet was lost before then, nothing more is. -/
theorem write_spares_copied {ret : Int × Int} (hk : Healthy k q o) (hne : buf.data ≠ [])
    (hg : k.heap.granted (buf.count * sizeofCharPtr) = true) (hf : buf.faults = false)
    (hnot : ¬ Loses false buf k) (hrun : (aesdWrite buf fPos).run false k = (.ok ret, k'))
    (hneg : ret.1 < 0) : ret.2 = fPos ∧ k'.dev = k.dev ∧ Healthy k' q o := by
  have hroom : k.heap.willGrant 1 (o.size + ((visible buf).length + 1)) = false := by
    by_contra hroom
    have := write_grows_of_room hk hne hg hf (by simpa using hroom) hrun
    omega
  cases o with
  | closed =>
    obtain ⟨_, hrun'⟩ := write_unopened fPos hk hne hg hf (by simpa using hroom)
    cases hrun'.symm.trans hrun
  | opened p n =>
    obtain ⟨hfirst, hentry, _⟩ := hk.pending
    exact absurd ⟨rfl, hfirst, hg, hf, by rw [hentry]; exact hroom, Or.inl (by simp [hentry])⟩ hnot
  | lost n e =>
    obtain ⟨hfirst, hentry, _⟩ := hk.pending
    obtain ⟨_, hrun', hk', hforgets⟩ := write_starved fPos hk (by simp) hne hg hf hroom
    cases hrun'.symm.trans hrun
    have hquiet : newline ∈ visible buf → k.dev.endOfPacket = 1 := by
      intro hn
      by_contra hflag
      exact hnot ⟨rfl, hfirst, hg, hf, by rw [hentry]; exact hroom, Or.inr ⟨hn, hflag⟩⟩
    have hends : completes (.lost n e) buf = e := by
      by_cases hn : newline ∈ visible buf
      · have hflag := hk.flag
        rw [hquiet hn] at hflag
        cases e with
        | true => rfl
        | false => cases hflag
      · simp [completes, hn, Pending.ended]
    rw [hends] at hk'
    refine ⟨rfl, ?_, hk'⟩
    rw [hforgets, bufferEntry_flagged]
    unfold flagged
    split
    · rw [← hquiet ‹_›, hentry]
      simp [← hentry]
    · rw [hentry]
      simp [← hentry]

/-- Any failure but that leaves the device as it was. -/
theorem write_spares {ret : Int × Int} (hk : Healthy k q o) (hne : buf.data ≠ [])
    (hnot : ¬ Loses signal buf k) (hrun : (aesdWrite buf fPos).run signal k = (.ok ret, k'))
    (hneg : ret.1 < 0) : ret.2 = fPos ∧ k'.dev = k.dev ∧ Healthy k' q o := by
  cases signal with
  | true =>
    cases (write_interrupted buf fPos).symm.trans hrun
    exact ⟨rfl, rfl, hk⟩
  | false =>
    cases hg : k.heap.granted (buf.count * sizeofCharPtr) with
    | false =>
      obtain ⟨heq, rfl⟩ := Prod.mk.inj ((write_denied fPos hne hg).symm.trans hrun)
      cases heq
      exact ⟨rfl, rfl, hk.frame rfl (fun _ _ => rfl) (Nat.le_succ _)⟩
    | true =>
      cases hf : buf.faults with
      | true =>
        obtain ⟨h, hrun', hview, hden, _⟩ := write_faulted fPos hne hg hf
        obtain ⟨heq, rfl⟩ := Prod.mk.inj (hrun'.symm.trans hrun)
        cases heq
        exact ⟨rfl, rfl, hk.frame rfl (fun id _ => by rw [hview]) (Nat.le_of_eq hden.symm)⟩
      | false => exact write_spares_copied hk hne hg hf hnot hrun hneg

/-- What is left of a state that has lost its packet. -/
theorem write_loses (fPos : Int) (hk : Healthy k q o) (hne : buf.data ≠ [])
    (hloses : Loses signal buf k) :
    ∃ k', (aesdWrite buf fPos).run signal k = (.ok (-ENOMEM, fPos), k') ∧ ¬ Unchanged k k' := by
  obtain ⟨rfl, hfirst, hg, hf, hroom, hwhat⟩ := hloses
  have ho : o ≠ .closed := by
    rintro rfl
    have hzero : k.dev.firstPacket = 0 := hk.pending
    omega
  rw [(hk.recorded ho).1] at hroom
  obtain ⟨k', hrun, hk', hforgets⟩ := write_starved fPos hk ho hne hg hf hroom
  refine ⟨k', hrun, fun hsame => ?_⟩
  rcases hwhat with hptr | ⟨hn, hflag⟩
  · cases o with
    | closed => exact ho rfl
    | lost =>
      rw [hk.pending.2.1] at hptr
      exact hptr rfl
    | opened p n =>
      have hopen := hsame.openPacket
      rw [hk.openText (by simp), openText, hk'.pending.1, hk'.pending.2.1] at hopen
      cases hopen
  · have hend := hsame.endOfPacket
    rw [hforgets] at hend
    simp only [flagged, hn, ↓reduceIte] at hend
    exact hflag hend.symm

/-- A failed write changes nothing, and can be retried, unless it loses the
packet. -/
theorem failed_write_changes_nothing_iff {k : Kernel} (hk : Reachable k) (buf : UserSource)
    (hne : buf.data ≠ []) (fPos : Int) (signal : Bool) :
    (∀ ret k', (aesdWrite buf fPos).run signal k = (.ok ret, k') → ret.1 < 0 →
      Unchanged k k' ∧ ret.2 = fPos ∧ Retries buf fPos k k') ↔ ¬ Loses signal buf k := by
  obtain ⟨q, o, hh⟩ := hk.healthy
  constructor
  · intro hall hloses
    obtain ⟨k', hrun, hchanged⟩ := write_loses fPos hh hne hloses
    exact hchanged (hall _ k' hrun (by simp [ENOMEM])).1
  · intro hnot ret k' hrun hneg
    obtain ⟨hpos, hdev, hh'⟩ := write_spares hh hne hnot hrun hneg
    exact ⟨hh.unchanged hh' hdev, hpos, hh.retries hh' hne⟩

/-- A device with an open packet of one byte. -/
def openPacket (grant : Nat → Bool) : Kernel :=
  (runOps [⟨.write ⟨[120], false⟩ 0, false⟩] (booted grant)).2

/-- Denied the local buffer, the call fails and the packet stays open. -/
theorem write_without_buffer_changes_nothing :
    ∃ k', (aesdWrite ⟨[121, 10], false⟩ 0).run false (openPacket (allBut 5)) =
        (.ok (-12, 0), k') ∧ Unchanged (openPacket (allBut 5)) k' := by
  have hk : Reachable (openPacket (allBut 5)) :=
    reachable_of_runOps [1] rfl rfl rfl (by decide +kernel)
  have hnot : ¬ Loses false ⟨[121, 10], false⟩ (openPacket (allBut 5)) := by
    rintro ⟨_, _, hg, _⟩
    exact absurd hg (by decide +kernel)
  have hfst : ((aesdWrite ⟨[121, 10], false⟩ 0).run false (openPacket (allBut 5))).1 =
      .ok (-12, 0) := by decide +kernel
  rcases hrun : (aesdWrite ⟨[121, 10], false⟩ 0).run false (openPacket (allBut 5)) with ⟨r, k'⟩
  rw [hrun] at hfst
  subst hfst
  have hall := (failed_write_changes_nothing_iff hk ⟨[121, 10], false⟩ (by simp) 0 false).mpr hnot
  exact ⟨k', rfl, (hall (-12, 0) k' hrun (by decide)).1⟩

/-- Denied the larger block for the open packet, the call fails as well. The
packet is gone then, the flag for its end is set, and trying again appends to bytes that
were never written: with a z in the new block, the packet is stored with that in place of
its x. -/
theorem write_without_block_loses_packet :
    ∃ k k', k = openPacket (allBut 6) ∧ Reachable k ∧
      k' = ((aesdWrite ⟨[121, 10], false⟩ 0).run false k).2 ∧
      ((aesdWrite ⟨[121, 10], false⟩ 0).run false k).1 = .ok (-12, 0) ∧
      openText k = .ok [120] ∧ openText k' = .error .nullDeref ∧
      k.dev.endOfPacket = 0 ∧ k'.dev.endOfPacket = 1 ∧
      ringTexts ((aesdWrite ⟨[121, 10], false⟩ 0).run false
        (answering k' plenty (fun j => if j = 0 then 122 else 0))).2 = .ok [[122, 121, 10]] := by
  refine ⟨_, _, rfl, reachable_of_runOps [1] rfl rfl rfl (by decide +kernel), rfl, ?_⟩
  decide +kernel

end Failed

section Stored

/-- A state that successful writes have led to. -/
def WrittenTo (k : Kernel) : Prop :=
  ∃ grant k₀ calls, Booted grant k₀ ∧
    (writeAll calls).run false k₀ = (.ok (calls.map (fun c => (c.buf.count : Int))), k)

theorem writtenTo_of_writeAll {grant : Nat → Bool} {calls : List WriteCall} (hb : Booted grant k)
    (hrun : ((writeAll calls).run false k).1 =
      .ok (calls.map (fun c => (c.buf.count : Int)))) :
    WrittenTo ((writeAll calls).run false k).2 :=
  ⟨grant, k, calls, hb, Prod.ext hrun rfl⟩

theorem Booted.writtenTo {grant : Nat → Bool} (hb : Booted grant k) : WrittenTo k :=
  ⟨grant, k, [], hb, rfl⟩

/-- The entry of the ring that was stored last. -/
def newest (k : Kernel) : Except Fault (Option (List UInt8)) := (ringTexts k).map List.getLast?

/-- The size that the write asks for the packet to have. -/
def newLength (buf : UserSource) (k : Kernel) : Nat :=
  (if k.dev.firstPacket = 0 then 0 else k.dev.bufferEntry.size) + (buf.count + 1)

/-- The write gets all the memory it needs, but the ring does not, and it is not
the case that the newest entry has the bytes of the packet already. -/
def Drops (signal : Bool) (buf : UserSource) (k : Kernel) (packet : List UInt8) : Prop :=
  signal = false ∧ k.heap.granted (buf.count * sizeofCharPtr) = true ∧ buf.faults = false ∧
    k.heap.willGrant 1 (newLength buf k) = true ∧
    k.heap.willGrant 2 packet.length = false ∧ newest k ≠ .ok (some packet)

theorem Healthy.write_success {pos : Int} (hk : Healthy k q o)
    (hrun : (aesdWrite buf fPos).run false k = (.ok (buf.count, pos), k')) :
    ∃ q' o', Healthy k' q' o' ∧ o'.Held := by
  obtain ⟨q', o', _, htakes, hk', _⟩ := hk.write_returned hrun
  refine ⟨q', o', hk', ?_⟩
  generalize hret : ((buf.count : Int), pos) = ret at htakes
  cases htakes with
  | noBuffer => cases hret
  | copyFault => cases hret
  | notGrown => cases hret
  | appended => trivial
  | stored => trivial
  | dropped => trivial

/-- The run of a sequence of successful writes. -/
theorem Healthy.write_all_success {calls : List WriteCall} (hk : Healthy k q o) (ho : o.Held)
    (hrun : (writeAll calls).run false k =
      (.ok (calls.map (fun c => (c.buf.count : Int))), k')) :
    ∃ q' o', Healthy k' q' o' ∧ o'.Held := by
  induction calls generalizing k q o with
  | nil =>
    obtain rfl : k = k' := by simpa [writeAll] using hrun
    exact ⟨q, o, hk, ho⟩
  | cons c calls ih =>
    obtain ⟨⟨retval, pos⟩, k₁, hw, htail⟩ := Code.run_bind_eq_ok hrun
    obtain ⟨rets', k₂, hrest, hend⟩ := Code.run_bind_eq_ok htail
    obtain ⟨⟨rfl, rfl⟩, rfl⟩ : (retval = (c.buf.count : Int) ∧
        rets' = calls.map (fun c => (c.buf.count : Int))) ∧ k₂ = k' := by simpa using hend
    obtain ⟨q₁, o₁, hk₁, ho₁⟩ := hk.write_success hw
    exact ih hk₁ ho₁ hrest

theorem WrittenTo.healthy (hk : WrittenTo k) : ∃ q o, Healthy k q o ∧ o.Held := by
  obtain ⟨grant, k₀, calls, hb, hrun⟩ := hk
  exact hb.healthy.write_all_success trivial hrun

theorem Healthy.newest (hk : Healthy k q o) :
    newest k = .ok (q.map Packet.text).getLast? := by
  rw [Proofs.newest, hk.ringTexts]
  rfl

theorem getLast?_push (q : List Packet) (p : Packet) :
    ((Queue.push 10 q p).map Packet.text).getLast? = some p.text := by
  obtain ⟨front, hfront⟩ : ∃ front, Queue.push 10 q p = front ++ [p] :=
    ⟨q.rtake 9, by simp [Queue.push]⟩
  simp [hfront]

/-- The recorded size of what there is of a packet. -/
theorem Healthy.size_eq (hk : Healthy k q o) :
    (if k.dev.firstPacket = 0 then 0 else k.dev.bufferEntry.size) = o.size := by
  by_cases hc : o = .closed
  · subst hc
    have hfirst : k.dev.firstPacket = 0 := hk.pending
    simp [hfirst]
  · have hfirst := hk.firstPacket hc
    rw [if_neg (by omega), (hk.recorded hc).1]

/-- The size the write asks for, in terms of the packet. -/
theorem Healthy.newLength (hk : Healthy k q o) (hnul : 0 ∉ buf.data) :
    newLength buf k = o.size + ((visible buf).length + 1) := by
  have hvisible : visible buf = buf.data := takeWhile_of_no_nul _ hnul
  rw [Proofs.newLength, hvisible, hk.size_eq]
  rfl

/-- A closing write that reports success has got its memory. -/
theorem Healthy.success_cases {pos : Int} (hk : Healthy k q o) (hne : buf.data ≠ [])
    (hnul : 0 ∉ buf.data)
    (hrun : (aesdWrite buf fPos).run signal k = (.ok (buf.count, pos), k')) :
    signal = false ∧ k.heap.granted (buf.count * sizeofCharPtr) = true ∧ buf.faults = false ∧
      k.heap.willGrant 1 (Proofs.newLength buf k) = true := by
  cases signal with
  | true =>
    cases (write_interrupted buf fPos).symm.trans hrun
  | false =>
    cases hg : k.heap.granted (buf.count * sizeofCharPtr) with
    | false => cases (write_denied fPos hne hg).symm.trans hrun
    | true =>
      cases hf : buf.faults with
      | true =>
        obtain ⟨h, hrun', _⟩ := write_faulted fPos hne hg hf
        cases hrun'.symm.trans hrun
      | false =>
        refine ⟨rfl, rfl, rfl, ?_⟩
        rw [hk.newLength hnul]
        by_contra hroom
        rw [Bool.not_eq_true] at hroom
        by_cases hc : o = .closed
        · subst hc
          obtain ⟨_, hrun'⟩ :=
            write_unopened fPos hk hne hg hf (by simpa [Pending.size] using hroom)
          cases hrun'.symm.trans hrun
        · obtain ⟨_, hrun', _⟩ := write_starved fPos hk hc hne hg hf hroom
          cases hrun'.symm.trans hrun

/-- With all of that memory the packet is the newest entry, or the ring has not
changed, as the third request decides. -/
theorem Healthy.write_closing (fPos : Int) (hk : Healthy k q o) (ho : o.Held)
    (hnul : 0 ∉ buf.data) (hn : newline ∈ buf.data)
    (hg : k.heap.granted (buf.count * sizeofCharPtr) = true)
    (hf : buf.faults = false) (hroom : k.heap.willGrant 1 (Proofs.newLength buf k) = true) :
    ∃ pos k', (aesdWrite buf fPos).run false k = (.ok (buf.count, pos), k') ∧
      Proofs.newest k' = if k.heap.willGrant 2 (o.text ++ buf.data).length = true then
        .ok (some (o.text ++ buf.data)) else Proofs.newest k := by
  have hvisible : visible buf = buf.data := takeWhile_of_no_nul _ hnul
  rw [hk.newLength hnul] at hroom
  obtain ⟨pos, k', q', o', d, hrun, htakes, hk', hthird⟩ :=
    write_taken fPos hk (List.ne_nil_of_mem hn) hg hf hroom ho.start
  refine ⟨pos, k', hrun, ?_⟩
  have hend : completes o buf = true := ho.completes_iff.mpr (hvisible ▸ hn)
  have hstores := hthird hend
  rw [hvisible, or_iff_right (List.append_ne_nil_of_right_ne_nil _ (List.ne_nil_of_mem hn))]
    at hstores
  rw [hk'.newest, hk.newest]
  generalize hret : ((buf.count : Int), pos) = ret at htakes
  cases htakes with
  | noBuffer => cases hret
  | copyFault => cases hret
  | notGrown => cases hret
  | appended _ hs => cases hend.symm.trans hs
  | stored ht =>
    obtain rfl := ho.eq_text ht
    rw [if_pos (hstores.mp rfl), getLast?_push, hvisible]
  | dropped => rw [if_neg (fun h => Nat.one_ne_zero (hstores.mpr h))]

/-- A closing write that reports success has stored the packet, unless the ring's
own request for memory is denied. -/
theorem closing_write_stored_iff {k : Kernel} (hk : WrittenTo k) (buf : UserSource)
    (hnul : 0 ∉ buf.data) (hn : newline ∈ buf.data) (fPos : Int) (signal : Bool) :
    ∃ rest, openText k = .ok rest ∧
      ((∀ pos k', (aesdWrite buf fPos).run signal k = (.ok (buf.count, pos), k') →
        newest k' = .ok (some (rest ++ buf.data))) ↔ ¬ Drops signal buf k (rest ++ buf.data)) := by
  obtain ⟨q, o, hh, ho⟩ := hk.healthy
  refine ⟨o.text, hh.openText ho, ?_⟩
  constructor
  · rintro hall ⟨rfl, hg, hf, hroom, hdenied, hnew⟩
    obtain ⟨pos, k', hrun, hnewest⟩ := hh.write_closing fPos ho hnul hn hg hf hroom
    rw [hdenied, if_neg Bool.false_ne_true] at hnewest
    exact hnew (hnewest.symm.trans (hall pos k' hrun))
  · intro hnot pos k' hrun
    obtain ⟨rfl, hg, hf, hroom⟩ := hh.success_cases (List.ne_nil_of_mem hn) hnul hrun
    obtain ⟨pos', k₁, hrun', hnewest⟩ := hh.write_closing fPos ho hnul hn hg hf hroom
    obtain ⟨_, rfl⟩ := Prod.mk.inj (hrun'.symm.trans hrun)
    rw [hnewest]
    split
    · rfl
    · rename_i hdenied
      by_contra hnew
      exact hnot ⟨rfl, hg, hf, hroom, by simpa using hdenied, hnew⟩

/-- The last part of a packet, with memory without end. -/
theorem closing_write_stored :
    ∃ k, WrittenTo k ∧ ∀ pos k',
      (aesdWrite ⟨[121, 10], false⟩ 0).run false k = (.ok (2, pos), k') →
        newest k' = .ok (some [120, 121, 10]) := by
  have hk : WrittenTo ((writeAll [⟨⟨[120], false⟩, 0⟩]).run false (booted plenty)).2 :=
    writtenTo_of_writeAll booted_plenty (by decide +kernel)
  obtain ⟨rest, hopen, hiff⟩ :=
    closing_write_stored_iff hk ⟨[121, 10], false⟩ (by decide) (by decide) 0 false
  have hx : openText ((writeAll [⟨⟨[120], false⟩, 0⟩]).run false (booted plenty)).2 =
      .ok [120] := by decide +kernel
  obtain rfl : rest = [120] := by simpa using hopen.symm.trans hx
  refine ⟨_, hk, hiff.mpr ?_⟩
  rintro ⟨_, _, _, _, hdenied, _⟩
  exact absurd hdenied (by decide +kernel)

/-- Both bytes of the packet are accepted, and the ring stays empty. -/
theorem closing_write_dropped :
    WrittenTo (booted (allBut 5)) ∧ openText (booted (allBut 5)) = .ok [] ∧
      ∃ run, run = (aesdWrite ⟨[121, 10], false⟩ 0).run false (booted (allBut 5)) ∧
        run.1 = .ok (2, 3) ∧ newest run.2 = .ok none := by
  refine ⟨?_, by decide +kernel, _, rfl, by decide +kernel⟩
  exact (booted_of_granted rfl rfl rfl).writtenTo

end Stored

end Aesd.Proofs
