import Aesd.Proofs.Ledger

namespace Aesd.Proofs
open Base Driver Segments

variable {k k' : Kernel} {q : List Packet} {o : Pending}

/-- A state of the device that calls of the file operations have led to, whatever
came of them and however requests for memory were answered. -/
def Reachable (k : Kernel) : Prop :=
  ∃ grant k₀ calls rets, Booted grant k₀ ∧ runOps calls k₀ = (.ok rets, k)

/-- What one call of a file operation preserves, if it returns. If it does not, no
block that had been freed was touched. -/
theorem Healthy.step (hk : Healthy k q o) (c : OpCall) :
    (∃ e k', (aesdFops c.op).run c.signal k = (.error e, k') ∧
      (e ≠ .useAfterFree ∧ e ≠ .badFree)) ∨
    ∃ ret k', (aesdFops c.op).run c.signal k = (.ok ret, k') ∧ ∃ q' o', Healthy k' q' o' := by
  obtain ⟨op, signal⟩ := c
  cases op with
  | ioctl past cmd arg fPos =>
    obtain ⟨ret, hrun⟩ := run_ioctl signal k past cmd arg fPos
    exact Or.inr ⟨ret, k, hrun, q, o, hk⟩
  | read buf fPos =>
    cases signal with
    | true => exact Or.inr ⟨_, k, run_read_interrupted buf fPos, q, o, hk⟩
    | false =>
      obtain ⟨ret, k', hrun, hk', _⟩ := run_read buf fPos hk
      exact Or.inr ⟨ret, k', hrun, q, o, hk'⟩
  | write buf fPos =>
    cases signal with
    | true => exact Or.inr ⟨_, k, run_write_interrupted buf fPos, q, o, hk⟩
    | false =>
      rcases hw : (aesdWrite buf fPos).run false k with ⟨r, k'⟩
      cases r with
      | ok ret =>
        obtain ⟨q', o', _, _, hk', _⟩ := hk.write_returned hw
        exact Or.inr ⟨ret.1, k', Code.run_bind_ok hw, q', o', hk'⟩
      | error e =>
        refine Or.inl ⟨e, k', Code.run_bind_error hw, ?_⟩
        rcases (hk.write_fault hw).1 with rfl | rfl <;> simp

theorem Healthy.run (hk : Healthy k q o) (calls : List OpCall) :
    (∃ e k', runOps calls k = (.error e, k') ∧ (e ≠ .useAfterFree ∧ e ≠ .badFree)) ∨
    ∃ rets k', runOps calls k = (.ok rets, k') ∧ ∃ q' o', Healthy k' q' o' :=
  runOps_rule (fun _ ⟨_, _, hk⟩ c => hk.step c) calls ⟨q, o, hk⟩

/-- The run of any sequence of calls that return. -/
theorem Healthy.runOps {calls : List OpCall} {rets : List Int} (hk : Healthy k q o)
    (hrun : runOps calls k = (.ok rets, k')) : ∃ q' o', Healthy k' q' o' := by
  rcases hk.run calls with ⟨e, _, hrun', _⟩ | ⟨_, _, hrun', hk'⟩
  · cases hrun'.symm.trans hrun
  · cases hrun'.symm.trans hrun
    exact hk'

/-- And of one that does not. -/
theorem Healthy.runOps_fault {calls : List OpCall} {e : Fault} (hk : Healthy k q o)
    (hrun : Proofs.runOps calls k = (.error e, k')) : e ≠ .useAfterFree ∧ e ≠ .badFree := by
  rcases hk.run calls with ⟨_, _, hrun', hfault⟩ | ⟨_, _, hrun', _⟩
  · cases hrun'.symm.trans hrun
    exact hfault
  · cases hrun'.symm.trans hrun

theorem Reachable.healthy (hk : Reachable k) : ∃ q o, Healthy k q o := by
  obtain ⟨grant, k₀, calls, rets, hb, hrun⟩ := hk
  exact hb.healthy.runOps hrun

/-- With memory for loading the module, calls that all return reach a state. -/
theorem reachable_of_runOps {grant : Nat → Bool} {calls : List OpCall} (rets : List Int)
    (h0 : grant 0 = true) (h1 : grant 1 = true) (h2 : grant 2 = true)
    (hrun : (runOps calls (booted grant)).1 = .ok rets) :
    Reachable (runOps calls (booted grant)).2 :=
  ⟨grant, booted grant, calls, rets, booted_of_granted h0 h1 h2, Prod.ext hrun rfl⟩

/-- A search at the position finds an entry, with `n` bytes left in it. -/
def LeftAt (k : Kernel) (fPos : Int) (n : Nat) : Prop :=
  ∃ slot j b, aesdCircularBufferFindEntryOffsetForFpos k.dev.buffer (sizeT fPos) =
    .ok (some (slot, j), b) ∧ n = ((k.dev.buffer.entry[slot]?).getD .blank).size - j

theorem Sound.leftAt_iff (hk : Sound k q o) {fPos : Int} {n : Nat} :
    LeftAt k fPos n ↔ ∃ i j, locate (lengths (q.map Packet.text)) (sizeT fPos) = some (i, j) ∧
      n = ((q.map Packet.text).getD i []).length - j := by
  have hslot : ∀ i j, locate (lengths (q.map Packet.text)) (sizeT fPos) = some (i, j) →
      (k.dev.buffer.entry[(k.dev.buffer.outOffs + i) % 10]?).getD .blank =
        ⟨.cell (q.getD i ⟨0, []⟩).id 0, ((q.map Packet.text).getD i []).length⟩ := by
    intro i j hl
    obtain ⟨p, hp⟩ : ∃ p, q[i]? = some p :=
      ⟨_, List.getElem?_eq_getElem (by simpa [lengths] using locate_lt hl)⟩
    simp [hk.slot hp, List.getD, hp, Packet.entry]
  rw [LeftAt, hk.find]
  constructor
  · rintro ⟨slot, j, b, hfound, hn⟩
    obtain ⟨⟨i, j'⟩, hl, he⟩ := Option.map_eq_some_iff.mp (Prod.mk.inj (Except.ok.inj hfound)).1
    obtain ⟨rfl, rfl⟩ := Prod.mk.inj he
    rw [hslot i j' hl] at hn
    exact ⟨i, j', hl, hn⟩
  · rintro ⟨i, j, hl, hn⟩
    refine ⟨_, j, _, by rw [hl]; rfl, ?_⟩
    rw [hslot i j hl]
    exact hn

section Bounds

/-- The caller's buffer is respected: no more than `count` is reported, what is
reported is what has been written to it, and nothing lies at `count` or beyond. -/
def Respects (buf : UserDest) (res : ReadResult) : Prop :=
  res.retval ≤ buf.count ∧ (0 ≤ res.retval → (res.delivered.length : Int) = res.retval) ∧
    res.delivered.length ≤ buf.count

/-- What respecting the buffer takes if `n` bytes are left in the entry found:
the copy has to fail, before any byte at `count` or beyond. -/
def Fails (buf : UserDest) (n : Nat) (h : Heap) : Prop :=
  h.granted (n * sizeofCharPtr) = true ∧ ∃ m ∈ buf.faultAt, m ≤ n ∧ m ≤ buf.count

/-- A read that finds an entry reports the rest of it, and delivers either none
of that or one byte more. -/
theorem Gives.respects_iff {buf : UserDest} {fPos : Int} {texts : List (List UInt8)}
    {res : ReadResult} {d i j n : Nat} {h : Heap} (hg : Gives buf fPos texts res d)
    (hl : locate (lengths texts) (sizeT fPos) = some (i, j))
    (hn : n = (texts.getD i []).length - j)
    (hd : d = 0 ↔ h.granted (n * sizeofCharPtr) = true) :
    Respects buf res ↔ Fails buf n h := by
  have hj := ((locate_some_iff _ _ _ _).mp hl).1
  rw [getD_lengths] at hj
  rcases hg.of_some hl hn with ⟨rfl, rfl⟩ | ⟨rfl, hf, rfl⟩ | ⟨rfl, m, hf, hm, rfl⟩
  · constructor
    · rintro ⟨_, hexact, _⟩
      have hlen := hexact (Int.natCast_nonneg _)
      simp only [List.length_nil] at hlen
      omega
    · rintro ⟨hgranted, _⟩
      cases hd.mpr hgranted
  · constructor
    · rintro ⟨_, hexact, _⟩
      have hlen := hexact (Int.natCast_nonneg _)
      simp only [List.length_append, List.length_drop, List.length_singleton] at hlen
      omega
    · rintro ⟨_, m, hm, hle, _⟩
      have := hf m hm
      omega
  · constructor
    · rintro ⟨_, _, hlen⟩
      refine ⟨hd.mp rfl, m, hf, hm, ?_⟩
      simp only [List.length_take, List.length_append, List.length_drop,
        List.length_singleton] at hlen
      omega
    · rintro ⟨_, m', hm', _, hle⟩
      obtain rfl : m = m' := by simpa [hf] using hm'
      refine ⟨?_, by simp [EFAULT], Nat.le_trans (List.length_take_le _ _) hle⟩
      simp only [EFAULT]
      omega

/-- A read respects the caller's buffer only if it is interrupted, has nothing to
read or fails to copy. -/
theorem aesd_read_respects_buffer_iff {k : Kernel} (hk : Reachable k) (buf : UserDest)
    (fPos : Int) (signal : Bool) :
    ∃ res k', (aesdRead buf fPos).run signal k = (.ok res, k') ∧
      (Respects buf res ↔ signal = true ∨
        ∀ slot j b, aesdCircularBufferFindEntryOffsetForFpos k.dev.buffer (sizeT fPos) =
          .ok (some (slot, j), b) →
        Fails buf (((k.dev.buffer.entry[slot]?).getD .blank).size - j) k.heap) := by
  cases signal with
  | true => exact ⟨_, k, read_interrupted buf fPos, by simp [Respects, ERESTARTSYS]⟩
  | false =>
    obtain ⟨q, o, hh⟩ := hk.healthy
    obtain ⟨res, k', d, hrun, hgives, _, _, _, hd⟩ := aesd_read_answers buf fPos hh.toSound
    refine ⟨res, k', hrun, ?_⟩
    have hfails : Respects buf res ↔ ∀ n, LeftAt k fPos n → Fails buf n k.heap := by
      cases hl : locate (lengths (q.map Packet.text)) (sizeT fPos) with
      | none =>
        have hnone : ∀ n, ¬ LeftAt k fPos n := fun n h => by
          simpa [hl] using hh.leftAt_iff.mp h
        obtain ⟨rfl, _⟩ := hgives.of_none hl
        simp [Respects, hnone]
      | some found =>
        obtain ⟨i, j⟩ := found
        rw [hgives.respects_iff hl rfl (hd i j hl)]
        simp [hh.leftAt_iff, hl]
    rw [hfails]
    constructor
    · intro hall
      exact Or.inr (fun slot j b hfound => hall _ ⟨slot, j, b, hfound, rfl⟩)
    · rintro hall n ⟨slot, j, b, hfound, rfl⟩
      exact hall.resolve_left Bool.false_ne_true slot j b hfound

/-- A device that holds one packet of three bytes. -/
def onePacket : Kernel :=
  (runOps [⟨.write ⟨[104, 105, 10], false⟩ 0, false⟩] (booted plenty)).2

theorem onePacket_reachable : Reachable onePacket :=
  reachable_of_runOps [3] rfl rfl rfl (by decide +kernel)

/-- A copy of the last two bytes of the packet that fails after the first of them has not
overrun a buffer of one. -/
theorem failed_copy_respects_buffer :
    ∃ res k', (aesdRead ⟨1, some 1⟩ 1).run false onePacket = (.ok res, k') ∧
      res = ⟨-14, 3, [105]⟩ ∧ Respects ⟨1, some 1⟩ res := by
  obtain ⟨res, k', hrun, hiff⟩ :=
    aesd_read_respects_buffer_iff onePacket_reachable ⟨1, some 1⟩ 1 false
  have hres : ((aesdRead ⟨1, some 1⟩ 1).run false onePacket).1 = .ok ⟨-14, 3, [105]⟩ := by
    decide +kernel
  obtain ⟨hfound, hsize, hgranted⟩ :
      aesdCircularBufferFindEntryOffsetForFpos onePacket.dev.buffer (sizeT 1) =
        .ok (some (0, 1), onePacket.dev.buffer) ∧
      ((onePacket.dev.buffer.entry[0]?).getD BufferEntry.blank).size = 3 ∧
      onePacket.heap.granted ((3 - 1) * sizeofCharPtr) = true := by decide +kernel
  rw [hrun] at hres
  refine ⟨res, k', hrun, Except.ok.inj hres, hiff.mpr (Or.inr ?_)⟩
  intro slot j b hfound'
  obtain ⟨⟨rfl, rfl⟩, _⟩ : (0 = slot ∧ 1 = j) ∧ onePacket.dev.buffer = b := by
    simpa [hfound] using hfound'
  rw [hsize]
  exact ⟨hgranted, 1, rfl, by decide, Nat.le_refl _⟩

/-- Two bytes are asked for, three are reported and four are written. -/
theorem read_overruns_buffer :
    ((aesdRead ⟨2, none⟩ 0).run false onePacket).1 = .ok ⟨3, 3, [104, 105, 10, 0]⟩ ∧
      Reachable onePacket ∧ ¬ Respects ⟨2, none⟩ ⟨3, 3, [104, 105, 10, 0]⟩ := by
  refine ⟨by decide +kernel, onePacket_reachable, ?_⟩
  rintro ⟨hle, _⟩
  cases hle

end Bounds

section Failures
variable {buf : UserDest} {fPos : Int} {res : ReadResult}

/-- The local buffer for the `n` bytes left in an entry is denied, or copying them
to the caller, with the byte behind them, fails. -/
def Undelivered (buf : UserDest) (n : Nat) (h : Heap) : Prop :=
  h.granted (n * sizeofCharPtr) = false ∨ ∃ m ∈ buf.faultAt, m ≤ n

/-- A read that could not deliver reports an error and leaves the position alone.
One that reports bytes has delivered that many, those at the position, and moved
it by as many. -/
def Honest (k : Kernel) (buf : UserDest) (fPos : Int) (res : ReadResult) : Prop :=
  (∀ n, LeftAt k fPos n → Undelivered buf n k.heap → res.retval < 0 ∧ res.fPos = fPos) ∧
  (0 ≤ res.retval → res.fPos = fPos + res.retval ∧
    ∃ packets, ringTexts k = .ok packets ∧ res.retval.toNat ≤ res.delivered.length ∧
      res.delivered.take res.retval.toNat =
        (packets.flatten.drop (sizeT fPos)).take res.retval.toNat)

/-- The position has moved before anything can fail. -/
theorem Gives.honest_iff {d i j n : Nat} (hk : Sound k q o) (hpos : loff fPos = fPos)
    (hg : Gives buf fPos (q.map Packet.text) res d)
    (hl : locate (lengths (q.map Packet.text)) (sizeT fPos) = some (i, j))
    (hn : n = ((q.map Packet.text).getD i []).length - j)
    (hd : d = 0 ↔ k.heap.granted (n * sizeofCharPtr) = true) :
    Honest k buf fPos res ↔ ¬ Undelivered buf n k.heap := by
  have hj := ((locate_some_iff _ _ _ _).mp hl).1
  rw [getD_lengths] at hj
  have hend := locate_end_le hl
  have htotal := hk.total_lt
  have hcast : (sizeT fPos : Int) = fPos := natCast_sizeT hpos (by omega)
  have hmoved : loff (fPos + n) = fPos + n := by
    rw [← hcast, ← Int.natCast_add]
    exact loff_of_lt (by omega)
  have hleft : LeftAt k fPos n := hk.leftAt_iff.mpr ⟨i, j, hl, hn⟩
  rcases hg.of_some hl hn with ⟨rfl, rfl⟩ | ⟨rfl, hf, rfl⟩ | ⟨rfl, m, hf, hm, rfl⟩
  · have hdenied : Undelivered buf n k.heap := Or.inl (by simpa using hd)
    refine iff_of_false (fun hh => ?_) (not_not_intro hdenied)
    have hneg := (hh.1 n hleft hdenied).1
    simp only at hneg
    omega
  · have hdelivers : ¬ Undelivered buf n k.heap := by
      rintro (hdenied | ⟨m, hm, hle⟩)
      · simp [hdenied] at hd
      · have := hf m hm
        omega
    have hlen : (((q.map Packet.text).getD i []).drop j).length = n := by rw [List.length_drop, hn]
    refine iff_of_true ⟨fun m hm hu => ?_, fun _ => ⟨hmoved, _, hk.ringTexts, ?_, ?_⟩⟩ hdelivers
    · obtain ⟨i', j', hl', hm⟩ := hk.leftAt_iff.mp hm
      obtain ⟨rfl, rfl⟩ : i = i' ∧ j = j' := by simpa [hl] using hl'
      rw [hm, ← hn] at hu
      exact absurd hu hdelivers
    · simp [hn]
    · rw [drop_flatten hl, Int.toNat_natCast, List.take_append_of_le_length (Nat.le_of_eq hlen.symm),
        List.take_append_of_le_length (Nat.le_of_eq hlen.symm)]
  · have hfault : Undelivered buf n k.heap := Or.inr ⟨m, hf, hm⟩
    refine iff_of_false (fun hh => ?_) (not_not_intro hfault)
    have hsame := (hh.1 n hleft hfault).2
    simp only [hmoved] at hsame
    omega

/-- A read keeps its word exactly if it is interrupted, has nothing to read or
delivers what it finds. -/
theorem failed_read_keeps_position_iff {k : Kernel} (hk : Reachable k) (buf : UserDest)
    {fPos : Int} (hpos : loff fPos = fPos) (signal : Bool) :
    ∃ res k', (aesdRead buf fPos).run signal k = (.ok res, k') ∧
      (Honest k buf fPos res ↔
        signal = true ∨ ∀ n, LeftAt k fPos n → ¬ Undelivered buf n k.heap) := by
  cases signal with
  | true => exact ⟨_, k, read_interrupted buf fPos, by simp [Honest, ERESTARTSYS]⟩
  | false =>
    obtain ⟨q, o, hh⟩ := hk.healthy
    obtain ⟨res, k', d, hrun, hgives, _, _, _, hd⟩ := aesd_read_answers buf fPos hh.toSound
    refine ⟨res, k', hrun, ?_⟩
    rw [or_iff_right Bool.false_ne_true]
    cases hl : locate (lengths (q.map Packet.text)) (sizeT fPos) with
    | none =>
      have hnone : ∀ n, ¬ LeftAt k fPos n := fun n h => by simpa [hl] using hh.leftAt_iff.mp h
      obtain ⟨rfl, _⟩ := hgives.of_none hl
      simp [Honest, hnone, hh.ringTexts]
    | some found =>
      obtain ⟨i, j⟩ := found
      rw [hgives.honest_iff hh.toSound hpos hl rfl (hd i j hl)]
      simp [hh.leftAt_iff, hl]

/-- A packet read with memory for it. -/
theorem read_of_packet_honest :
    ∃ res k', (aesdRead ⟨9, none⟩ 0).run false onePacket = (.ok res, k') ∧
      Honest onePacket ⟨9, none⟩ 0 res := by
  obtain ⟨res, k', hrun, hiff⟩ := failed_read_keeps_position_iff onePacket_reachable ⟨9, none⟩
    (show loff 0 = 0 from rfl) false
  refine ⟨res, k', hrun, hiff.mpr (Or.inr ?_)⟩
  obtain ⟨hfound, hsize, hgranted⟩ :
      aesdCircularBufferFindEntryOffsetForFpos onePacket.dev.buffer (sizeT 0) =
        .ok (some (0, 0), onePacket.dev.buffer) ∧
      ((onePacket.dev.buffer.entry[0]?).getD BufferEntry.blank).size = 3 ∧
      onePacket.heap.granted (3 * sizeofCharPtr) = true := by decide +kernel
  rintro n ⟨slot, j, b, hfound', rfl⟩ hnot
  obtain ⟨⟨rfl, rfl⟩, _⟩ : (0 = slot ∧ 0 = j) ∧ onePacket.dev.buffer = b := by
    simpa [hfound] using hfound'
  rw [hsize] at hnot
  simp [Undelivered, hgranted] at hnot

/-- Without memory for the local buffer three bytes are reported, and none is
delivered. A copy that fails is reported, but the position has moved. -/
theorem failed_read_moves_position :
    ∃ k, k = (runOps [⟨.write ⟨[104, 105, 10], false⟩ 0, false⟩] (booted (allBut 6))).2 ∧
      Reachable k ∧ ((aesdRead ⟨9, none⟩ 0).run false k).1 = .ok ⟨3, 3, []⟩ ∧
      ((aesdRead ⟨9, some 0⟩ 0).run false onePacket).1 = .ok ⟨-14, 3, []⟩ := by
  refine ⟨_, rfl, reachable_of_runOps [3] rfl rfl rfl (by decide +kernel), ?_⟩
  decide +kernel

end Failures

end Aesd.Proofs
