import Aesd.Proofs.EndOfFile
import Aesd.Proofs.Seek
import Aesd.Proofs.WriteFailures

namespace Aesd.Proofs
open Base Driver Segments

variable {k k' : Kernel} {q : List Packet} {o : Pending} {fPos : Int}

section Targets

/-- The argument was copied and names a byte of a packet. -/
def Names (packets : List (List UInt8)) (arg : Option (Nat × Nat)) : Prop :=
  ∃ c off, arg = some (c, off) ∧ c < packets.length ∧ off < (packets.getD c []).length

/-- Only what names a byte is accepted, and what is not is refused with an error. -/
def AcceptsNamed (packets : List (List UInt8)) (arg : Option (Nat × Nat)) (fPos : Int)
    (res : SeekResult) : Prop :=
  (res.retval = 0 ↔ Names packets arg) ∧
    (¬ Names packets arg → res.retval < 0 ∧ res.fPos = fPos)

theorem names_some {packets : List (List UInt8)} {c off : Nat} :
    Names packets (some (c, off)) ↔ c < packets.length ∧ off < (packets.getD c []).length := by
  simp [Names]

/-- The test of the offset lets the one just behind the packet pass. -/
theorem Sound.seek_accepts_iff (hk : Sound k q o) (past : Nat → Nat) (c off : Nat) (fPos : Int) :
    AcceptsNamed (q.map Packet.text) (some (c, off)) fPos
        (if c ≥ 10 then ⟨-EINVAL, fPos, []⟩ else seekLocked past k.dev.buffer c off fPos) ↔
      ¬ (c < (q.map Packet.text).length ∧ off = ((q.map Packet.text).getD c []).length) := by
  have hfits := hk.ring.holds.fits
  rw [List.length_map] at hfits
  rw [AcceptsNamed, names_some, List.length_map]
  by_cases hc : c ≥ 10
  · rw [if_pos hc]
    have hout : ¬ c < q.length := by omega
    simp [hout, EINVAL]
  · rw [if_neg hc, hk.seek_eq (Nat.lt_of_not_le hc)]
    cases hq : q[c]? with
    | none =>
      have hout : ¬ c < q.length := Nat.not_lt.mpr (List.getElem?_eq_none_iff.mp hq)
      simp [hout, EINVAL]
    | some p =>
      have hin : c < q.length := (List.getElem?_eq_some_iff.mp hq).1
      have hget : (q.map Packet.text).getD c [] = p.text := by simp [List.getD, hq]
      rw [hget]
      dsimp only
      split
      · have hoff : ¬ off < p.text.length := by omega
        have hne : off ≠ p.text.length := by omega
        simp [hin, hoff, hne, EINVAL]
      · simp only [hin, true_and, true_iff]
        constructor
        · rintro ⟨hlt, _⟩
          omega
        · intro hne
          have hlt : off < p.text.length := by omega
          exact ⟨hlt, fun h => absurd hlt h⟩

/-- A SEEKTO accepts exactly the valid targets, unless its argument cannot be copied
or names the offset just behind a packet. -/
theorem seekto_accepts_valid_iff {k : Kernel} (hk : Reachable k) (past : Nat → Nat)
    (arg : Option (Nat × Nat)) (fPos : Int) :
    ∃ res packets, (aesdIoctl past AESDCHAR_IOCSEEKTO arg fPos).run false k = (.ok res, k) ∧
      ringTexts k = .ok packets ∧
      (AcceptsNamed packets arg fPos res ↔ ∃ c off, arg = some (c, off) ∧
        ¬ (c < packets.length ∧ off = (packets.getD c []).length)) := by
  obtain ⟨q, o, hh⟩ := hk.healthy
  cases arg with
  | none => exact ⟨⟨EFAULT, fPos, []⟩, _, rfl, hh.ringTexts, by simp [AcceptsNamed, Names, EFAULT]⟩
  | some target =>
    obtain ⟨c, off⟩ := target
    refine ⟨_, _, run_aesdAdjustFileOffset, hh.ringTexts, ?_⟩
    rw [hh.seek_accepts_iff past c off fPos]
    simp

/-- The last byte of a packet. -/
theorem seekto_accepts_last_byte :
    ∃ res packets, (aesdIoctl (fun _ => 0) AESDCHAR_IOCSEEKTO (some (0, 2)) 0).run false onePacket =
        (.ok res, onePacket) ∧ ringTexts onePacket = .ok packets ∧
      AcceptsNamed packets (some (0, 2)) 0 res := by
  obtain ⟨res, packets, hrun, hring, hiff⟩ :=
    seekto_accepts_valid_iff onePacket_reachable (fun _ => 0) (some (0, 2)) 0
  have htexts : ringTexts onePacket = .ok [[104, 105, 10]] := by decide +kernel
  obtain rfl : [[104, 105, 10]] = packets := by simpa using htexts.symm.trans hring
  exact ⟨res, _, hrun, hring, hiff.mpr ⟨0, 2, rfl, by simp⟩⟩

/-- The offset behind the last byte is accepted, and an argument that cannot be copied
is answered with a positive number. -/
theorem seekto_accepts_end_of_packet :
    ringTexts onePacket = .ok [[104, 105, 10]] ∧ Reachable onePacket ∧
      ((aesdIoctl (fun _ => 0) AESDCHAR_IOCSEEKTO (some (0, 3)) 0).run false onePacket).1 =
        .ok ⟨0, 3, [0]⟩ ∧
      ((aesdIoctl (fun _ => 0) AESDCHAR_IOCSEEKTO none 0).run false onePacket).1 =
        .ok ⟨14, 0, []⟩ := by
  refine ⟨by decide +kernel, onePacket_reachable, ?_⟩
  decide +kernel

end Targets

section Handles

/-- The device and the positions of its handles. A handle that nothing was done with
yet is at 0. -/
structure OpenFiles where
  kernel : Kernel
  pos : Nat → Int

/-- A call on a handle. `past` is what the memory behind the ring holds. -/
inductive HandleCall where
  | write (buf : UserSource)
  | read (buf : UserDest)
  | seek (offset whence : Int)
  | seekto (past : Nat → Nat) (arg : Option (Nat × Nat))

/-- The code of a call, with its return value and the new position. -/
def HandleCall.code (fPos : Int) : HandleCall → KernelM (Int × Int)
  | .write buf => aesdWrite buf fPos
  | .read buf => do
    let res ← aesdRead buf fPos
    return (res.retval, res.fPos)
  | .seek offset whence => aesdSeek fPos offset whence
  | .seekto past arg => do
    let res ← aesdIoctl past AESDCHAR_IOCSEEKTO arg fPos
    return (res.retval, res.fPos)

/-- The offset leads from the start, the position or the end of a file of the given size
to a place in it, or asks for the position only. -/
def StaysInside (fPos offset whence size : Int) : Prop :=
  (whence = SEEK_SET ∧ 0 ≤ offset ∧ offset ≤ size) ∨
  (whence = SEEK_CUR ∧ (offset = 0 ∨ (-fPos ≤ offset ∧ offset ≤ size - fPos))) ∨
  (whence = SEEK_END ∧ -size ≤ offset ∧ offset ≤ 0)

/-- What a call must not do for the position to stay legal: write past the last
position there is, seek to where there is nothing, or make SEEKTO add up sizes from
behind the array. -/
def Tame (s : OpenFiles) (handle : Nat) : HandleCall → Prop
  | .write buf => s.pos handle + newLength buf s.kernel < 2 ^ 63
  | .read _ => True
  | .seek offset whence => StaysInside (s.pos handle) offset whence
      (getAesdBufferLength s.kernel.dev.buffer)
  | .seekto _ none => True
  | .seekto _ (some (c, _)) => s.kernel.dev.buffer.outOffs + c ≤ 10

instance (s : OpenFiles) (handle : Nat) (call : HandleCall) : Decidable (Tame s handle call) :=
  match call with
  | .write _ => inferInstanceAs (Decidable (_ < _))
  | .read _ => inferInstanceAs (Decidable True)
  | .seek _ _ => inferInstanceAs (Decidable (_ ∨ _))
  | .seekto _ none => inferInstanceAs (Decidable True)
  | .seekto _ (some (_, _)) => inferInstanceAs (Decidable (_ ≤ _))

/-- The states that calls like that lead to, on any handles and in any order. -/
inductive Tamed : OpenFiles → Prop
  | opened {grant : Nat → Bool} {k : Kernel} (hb : Booted grant k) : Tamed ⟨k, fun _ => 0⟩
  | call {s : OpenFiles} {handle : Nat} {call : HandleCall} {signal : Bool} {ret pos : Int}
      {k : Kernel} (hs : Tamed s) (ht : Tame s handle call)
      (hrun : (call.code (s.pos handle)).run signal s.kernel = (.ok (ret, pos), k)) :
      Tamed ⟨k, Function.update s.pos handle pos⟩

/-- The state after a call that left the handle at `pos`. -/
def OpenFiles.after (s : OpenFiles) (handle : Nat) (call : HandleCall) (pos : Int) : OpenFiles :=
  ⟨((call.code (s.pos handle)).run false s.kernel).2, Function.update s.pos handle pos⟩

theorem Tamed.after {s : OpenFiles} {handle : Nat} {call : HandleCall} {pos : Int} (hs : Tamed s)
    (ret : Int) (ht : Tame s handle call)
    (hok : ((call.code (s.pos handle)).run false s.kernel).1 = .ok (ret, pos)) :
    Tamed (s.after handle call pos) :=
  hs.call ht (Prod.ext hok rfl)

/-- A position that `loff_t` can hold and that is not negative. -/
def LegalPos (x : Int) : Prop := 0 ≤ x ∧ x < 2 ^ 63

theorem legalPos_natCast {n : Nat} (hn : n < 2 ^ 63) : LegalPos n := ⟨by omega, by omega⟩

/-- The size that a write records is at most what it asks for. -/
theorem Healthy.size_le_newLength (hk : Healthy k q o) (buf : UserSource) :
    o.size + ((visible buf).length + 1) ≤ Proofs.newLength buf k := by
  have hle : (visible buf).length ≤ buf.count := (visible_prefix_data buf).length_le
  rw [Proofs.newLength, hk.size_eq]
  omega

/-- A write leaves the position or moves it by the size of the packet. -/
theorem Takes.legalPos {buf : UserSource} {left : List UInt8} {ret : Int × Int} {q' : List Packet}
    {o' : Pending} {d : Nat} (htakes : Takes buf fPos left q o ret q' o' d) (hk : Healthy k q o)
    (hpos : LegalPos fPos) (ht : fPos + newLength buf k < 2 ^ 63) : LegalPos ret.2 := by
  obtain ⟨hnonneg, hlt⟩ := hpos
  have hmoved : LegalPos (loff (fPos + (o.size + ((visible buf).length + 1) : Nat))) := by
    have hle := hk.size_le_newLength buf
    obtain ⟨n, rfl⟩ := Int.eq_ofNat_of_zero_le hnonneg
    have hloff := loff_of_lt (n := n + (o.size + ((visible buf).length + 1))) (by omega)
    rw [Int.natCast_add] at hloff
    rw [hloff, ← Int.natCast_add]
    exact legalPos_natCast (by omega)
  cases htakes with
  | noBuffer => exact ⟨hnonneg, hlt⟩
  | copyFault => exact ⟨hnonneg, hlt⟩
  | notGrown => exact ⟨hnonneg, hlt⟩
  | appended => exact ⟨hnonneg, hlt⟩
  | stored => exact hmoved
  | dropped => exact hmoved

/-- So does a read, and no further than the end of the contents. -/
theorem Gives.legalPos {buf : UserDest} {res : ReadResult} {d : Nat} (hk : Sound k q o)
    (hg : Gives buf fPos (q.map Packet.text) res d) (hpos : LegalPos fPos) : LegalPos res.fPos := by
  obtain ⟨n, rfl⟩ := Int.eq_ofNat_of_zero_le hpos.1
  have hn : n < 2 ^ 63 := by
    have := hpos.2
    omega
  cases hl : locate (lengths (q.map Packet.text)) (sizeT n) with
  | none =>
    obtain ⟨rfl, _⟩ := hg.of_none hl
    exact hpos
  | some found =>
    obtain ⟨i, j⟩ := found
    have hend := locate_end_le hl
    have htotal := hk.total_lt
    rw [sizeT_natCast (by omega)] at hend
    have hmoved : res.fPos = loff (n + (((q.map Packet.text).getD i []).length - j : Nat)) := by
      rcases hg.of_some hl rfl with ⟨_, hres⟩ | ⟨_, _, hres⟩ | ⟨_, _, _, _, hres⟩ <;> rw [hres]
    rw [hmoved, ← Int.natCast_add, loff_of_lt (by omega)]
    exact legalPos_natCast (by omega)

/-- SEEKTO without leaving the array. -/
theorem Sound.seek_legalPos (hk : Sound k q o) (past : Nat → Nat) {c off : Nat} (hc : c < 10)
    (hin : k.dev.buffer.outOffs + c ≤ 10) (hpos : LegalPos fPos) :
    LegalPos (seekLocked past k.dev.buffer c off fPos).fPos := by
  rw [hk.seek_eq hc]
  split
  · exact hpos
  · rename_i p hq
    split
    · exact hpos
    · have hlt := (List.getElem?_eq_some_iff.mp hq).1
      have hbound := hk.bounded p (List.mem_of_getElem? hq)
      have htotal := hk.total_lt
      have hle := sum_take_le (lengths (q.map Packet.text)) c
      have hmax : kmallocMaxSize = 2 ^ 22 := rfl
      dsimp only
      rw [hk.seek_total hlt hin (by omega), loff_of_lt (by omega)]
      exact legalPos_natCast (by omega)

theorem Sound.ioctl_legalPos (hk : Sound k q o) (signal : Bool) (past : Nat → Nat)
    {arg : Option (Nat × Nat)} (hin : ∀ c off, arg = some (c, off) → k.dev.buffer.outOffs + c ≤ 10)
    (hpos : LegalPos fPos) :
    ∃ res, (aesdIoctl past AESDCHAR_IOCSEEKTO arg fPos).run signal k = (.ok res, k) ∧
      LegalPos res.fPos := by
  cases arg with
  | none => exact ⟨⟨EFAULT, fPos, []⟩, rfl, hpos⟩
  | some target =>
    obtain ⟨c, off⟩ := target
    change ∃ res, (aesdAdjustFileOffset past c off fPos).run signal k = (.ok res, k) ∧ _
    by_cases hc : c ≥ 10
    · refine ⟨⟨-EINVAL, fPos, []⟩, ?_, hpos⟩
      simp [aesdAdjustFileOffset, seekEntry, hc, Code.run_bind, run_mutexUnlock]
    · cases signal with
      | true =>
        refine ⟨⟨-ERESTARTSYS, fPos, []⟩, ?_, hpos⟩
        simp [aesdAdjustFileOffset, seekEntry, hc, Code.run_bind, run_mutexLock, run_mutexUnlock]
      | false =>
        rw [run_aesdAdjustFileOffset, if_neg hc]
        exact ⟨_, rfl, hk.seek_legalPos past (Nat.lt_of_not_le hc) (hin c off rfl) hpos⟩

/-- What the positions of the handles and the device are like in such states. -/
structure Placed (s : OpenFiles) : Prop where
  healthy : ∃ q o, Healthy s.kernel q o
  legal : ∀ handle, LegalPos (s.pos handle)

/-- A seek that leads nowhere is answered with an error. -/
theorem fixedSizeLlseek_nonneg_iff {fPos : Int} (hpos : 0 ≤ fPos) (offset whence size : Int) :
    0 ≤ fixedSizeLlseek fPos offset whence size ↔ StaysInside fPos offset whence size := by
  unfold fixedSizeLlseek StaysInside EINVAL SEEK_SET SEEK_CUR SEEK_END
  dsimp only
  split_ifs <;> omega

/-- Only asking for the current position may lead behind the end of the file. -/
theorem fixedSizeLlseek_le (fPos offset whence : Int) {size : Int} (hsize : 0 ≤ size) :
    (whence = SEEK_CUR ∧ fixedSizeLlseek fPos offset whence size = fPos) ∨
      fixedSizeLlseek fPos offset whence size ≤ size := by
  unfold fixedSizeLlseek EINVAL
  dsimp only
  split_ifs <;> simp_all <;> omega

/-- What one call preserves. -/
theorem Placed.call {s : OpenFiles} {handle : Nat} {call : HandleCall} {signal : Bool}
    {ret pos : Int} (hs : Placed s) (ht : Tame s handle call)
    (hrun : (call.code (s.pos handle)).run signal s.kernel = (.ok (ret, pos), k)) :
    Placed ⟨k, Function.update s.pos handle pos⟩ := by
  obtain ⟨q, o, hk⟩ := hs.healthy
  have hpos := hs.legal handle
  suffices hnew : (∃ q o, Healthy k q o) ∧ LegalPos pos by
    refine ⟨hnew.1, fun other => ?_⟩
    by_cases he : other = handle
    · simpa [he] using hnew.2
    · simpa [he] using hs.legal other
  cases call with
  | write buf =>
    cases signal with
    | true =>
      cases (write_interrupted buf (s.pos handle)).symm.trans hrun
      exact ⟨⟨q, o, hk⟩, hpos⟩
    | false =>
      obtain ⟨q', o', _, htakes, hk', _⟩ := hk.write_returned hrun
      exact ⟨⟨q', o', hk'⟩, htakes.legalPos hk hpos ht⟩
  | read buf =>
    cases signal with
    | true =>
      cases (Code.run_bind_ok (read_interrupted buf (s.pos handle))).symm.trans hrun
      exact ⟨⟨q, o, hk⟩, hpos⟩
    | false =>
      obtain ⟨res, k₁, d, hread, hgives, hk₁, hleaves, _⟩ :=
        aesd_read_gives buf (s.pos handle) hk.toSound
      cases (Code.run_bind_ok hread).symm.trans hrun
      exact ⟨⟨q, o, hleaves.healthy hk hk₁⟩, hgives.legalPos hk.toSound hpos⟩
  | seek offset whence =>
    have hlen := hk.length_eq
    have htotal := hk.total_lt
    cases (run_aesdSeek (s.pos handle) offset whence).symm.trans hrun
    refine ⟨⟨q, o, hk⟩, (fixedSizeLlseek_nonneg_iff hpos.1 _ _ _).mpr ht, ?_⟩
    rcases fixedSizeLlseek_le (s.pos handle) offset whence hk.length_nonneg with ⟨_, hsame⟩ | hle
    · rw [hsame]
      exact hpos.2
    · omega
  | seekto past arg =>
    have hin : ∀ c off, arg = some (c, off) → s.kernel.dev.buffer.outOffs + c ≤ 10 := by
      rintro c off rfl
      exact ht
    obtain ⟨res, hioctl, hlegal⟩ := hk.toSound.ioctl_legalPos signal past hin hpos
    cases (Code.run_bind_ok hioctl).symm.trans hrun
    exact ⟨⟨q, o, hk⟩, hlegal⟩

theorem Tamed.placed {s : OpenFiles} (hs : Tamed s) : Placed s := by
  induction hs with
  | opened hb => exact ⟨⟨_, _, hb.healthy⟩, fun _ => legalPos_natCast (n := 0) (by decide)⟩
  | call _ ht hrun ih => exact ih.call ht hrun

/-- What is expected of a seek that returned `ret` and set the position to `pos`. -/
structure SeekSound (k : Kernel) (fPos whence ret pos : Int) : Prop where
  legal : 0 ≤ pos
  failed : ret < 0 → pos = fPos
  moved : 0 ≤ ret → whence = SEEK_SET ∨ whence = SEEK_END →
    pos = ret ∧ pos ≤ getAesdBufferLength k.dev.buffer

/-- The positions are legal in all states that tame calls lead to, and a seek is
sound there exactly if it is tame. -/
theorem positions_stay_legal {s : OpenFiles} (hs : Tamed s) :
    (∀ handle, 0 ≤ s.pos handle) ∧
    ∀ handle offset whence, ∃ ret pos,
      (aesdSeek (s.pos handle) offset whence).run false s.kernel = (.ok (ret, pos), s.kernel) ∧
      (SeekSound s.kernel (s.pos handle) whence ret pos ↔ Tame s handle (.seek offset whence)) := by
  have hplaced := hs.placed
  refine ⟨fun handle => (hplaced.legal handle).1, fun handle offset whence => ?_⟩
  have hstays := fixedSizeLlseek_nonneg_iff (hplaced.legal handle).1 offset whence
    (getAesdBufferLength s.kernel.dev.buffer)
  refine ⟨_, _, run_aesdSeek (s.pos handle) offset whence, fun hsound => hstays.mp hsound.legal,
    fun ht => ?_⟩
  have hret := hstays.mpr ht
  refine ⟨hret, fun hneg => absurd hret (Int.not_le.mpr hneg), fun _ hwhence => ⟨rfl, ?_⟩⟩
  obtain ⟨q, o, hk⟩ := hplaced.healthy
  apply (fixedSizeLlseek_le (s.pos handle) offset whence hk.length_nonneg).resolve_left
  rintro ⟨rfl, _⟩
  exact absurd hwhence (by decide)

/-- A packet is written through one handle. Through another one it is read, and then its
second byte is sought, and the byte behind that. -/
def browsed : OpenFiles :=
  (((OpenFiles.after ⟨booted plenty, fun _ => 0⟩ 0 (.write ⟨[104, 105, 10], false⟩) 4).after
    1 (.read ⟨9, none⟩) 3).after 1 (.seekto (fun _ => 0) (some (0, 1))) 1).after 1
    (.seek 1 SEEK_CUR) 2

theorem browsed_tamed : Tamed browsed :=
  ((((Tamed.opened booted_plenty).after 3 (by decide +kernel) (by decide +kernel)).after 3
    (by decide +kernel) (by decide +kernel)).after 0 (by decide +kernel)
    (by decide +kernel)).after 2 (by decide +kernel) (by decide +kernel)

/-- One step back from there is a sound seek, and three steps back are not. -/
theorem browsed_seeks_back :
    (browsed.pos 0, browsed.pos 1) = (4, 2) ∧ 0 ≤ browsed.pos 1 ∧
      (∃ ret pos, (aesdSeek (browsed.pos 1) (-1) SEEK_CUR).run false browsed.kernel =
        (.ok (ret, pos), browsed.kernel) ∧
        SeekSound browsed.kernel (browsed.pos 1) SEEK_CUR ret pos) ∧
      ∃ ret pos, (aesdSeek (browsed.pos 1) (-3) SEEK_CUR).run false browsed.kernel =
        (.ok (ret, pos), browsed.kernel) ∧
        ¬ SeekSound browsed.kernel (browsed.pos 1) SEEK_CUR ret pos := by
  obtain ⟨hlegal, hseek⟩ := positions_stay_legal browsed_tamed
  obtain ⟨ret, pos, hrun, hiff⟩ := hseek 1 (-1) SEEK_CUR
  obtain ⟨ret', pos', hrun', hiff'⟩ := hseek 1 (-3) SEEK_CUR
  have hstays : Tame browsed 1 (.seek (-1) SEEK_CUR) := by decide +kernel
  have hleaves : ¬ Tame browsed 1 (.seek (-3) SEEK_CUR) := by decide +kernel
  exact ⟨rfl, hlegal 1, ⟨ret, pos, hrun, hiff.mpr hstays⟩, ret', pos', hrun',
    fun hsound => hleaves (hiff'.mp hsound)⟩

/-- The error of a seek becomes the position. -/
theorem seek_error_becomes_position :
    Tamed ⟨booted plenty, fun _ => 0⟩ ∧
      ((aesdSeek 0 (-1) SEEK_SET).run false (booted plenty)).1 = .ok (-22, -22) ∧
      ¬ SeekSound (booted plenty) 0 SEEK_SET (-22) (-22) := by
  refine ⟨.opened booted_plenty, by decide +kernel, fun hsound => ?_⟩
  exact absurd hsound.legal (by decide)

end Handles

section Writing
variable {buf : UserSource}

/-- Writes on one handle, with their return values and its position in the end. -/
def writeOn : List UserSource → Int → KernelM (List Int × Int)
  | [], fPos => return ([], fPos)
  | buf :: bufs, fPos => do
    let (ret, fPos) ← aesdWrite buf fPos
    let (rets, fPos) ← writeOn bufs fPos
    return (ret :: rets, fPos)

/-- The packet that a write has stored. -/
def storedBy (k k' : Kernel) : Option BufferEntry :=
  if ringSlots k'.dev.buffer = ringSlots k.dev.buffer then none
  else (ringSlots k'.dev.buffer).getLast?

/-- A write that reports success got its local buffer, so its data is not long. -/
theorem count_le_of_success {ret pos : Int} (hne : buf.data ≠ [])
    (hrun : (aesdWrite buf fPos).run false k = (.ok (ret, pos), k')) (hret : 0 ≤ ret) :
    (visible buf).length ≤ kmallocMaxSize := by
  have hle : (visible buf).length ≤ buf.count := (visible_prefix_data buf).length_le
  cases hg : k.heap.granted (buf.count * sizeofCharPtr) with
  | false =>
    cases (write_denied fPos hne hg).symm.trans hrun
    simp [ENOMEM] at hret
  | true =>
    simp only [Heap.granted, Bool.and_eq_true, decide_eq_true_eq] at hg
    have hptr : sizeofCharPtr = 8 := rfl
    rw [hptr] at hg
    omega

theorem Sound.size_le (hk : Sound k q o) : o.size ≤ kmallocMaxSize := by
  have hp := hk.pending
  cases o with
  | closed => exact Nat.zero_le _
  | lost n e => exact hp.2.2
  | opened p n => exact hp.2.2.1

/-- Every part of a packet brings a terminator of its own, which counts. -/
theorem Sound.text_le_size (hk : Sound k q o) : o.text.length ≤ o.size := by
  have hp := hk.pending
  cases o with
  | closed => exact Nat.le_refl _
  | lost => exact Nat.zero_le _
  | opened p n =>
    obtain ⟨_, _, _, _, rest, _, hlen⟩ := hp
    simp only [Pending.text_opened, Pending.size_opened]
    omega

/-- Nor is what a lost packet goes on with any longer than that. -/
theorem Sound.start_le_size {left t : List UInt8} (hk : Sound k q o) (ht : o.start left = some t) :
    t.length ≤ o.size := by
  have htext := hk.text_le_size
  have hb := Pending.begins_of_start ht
  cases o with
  | closed => rwa [show t = [] from hb]
  | opened p n => rwa [show t = p.text from hb]
  | lost => exact hb

theorem sum_lengths_push_le (q : List Packet) (p : Packet) :
    (lengths ((Queue.push 10 q p).map Packet.text)).sum ≤
      (lengths (q.map Packet.text)).sum + p.text.length := by
  have hsub : (Queue.push 10 q p).Sublist (q ++ [p]) := List.drop_sublist _ _
  have hle := ((hsub.map Packet.text).map List.length).sum_le_sum (fun _ _ => Nat.zero_le _)
  simpa [lengths] using hle

/-- One write that succeeds: position and recorded size together grow by one more than
what the ring and the open packet can have grown by. -/
theorem write_advances {p : Nat} {ret pos : Int} (hk : Healthy k q o) (ho : o.Held)
    (hrun : (aesdWrite buf p).run false k = (.ok (ret, pos), k')) (hret : 0 ≤ ret)
    (hp : newline ∈ visible buf → p + 2 ^ 24 < 2 ^ 63) :
    ∃ q' o' p', Healthy k' q' o' ∧ o'.Held ∧ pos = (p' : Nat) ∧
      p' + o'.size = p + o.size + ((visible buf).length + 1) ∧
      (lengths (q'.map Packet.text)).sum + o'.text.length ≤
        (lengths (q.map Packet.text)).sum + o.text.length + (visible buf).length ∧
      p' ≤ p + if newline ∈ visible buf then 2 ^ 24 else 0 := by
  by_cases hne : buf.data = []
  · cases (aesd_write_empty _ hne).symm.trans hrun
  have hcount := count_le_of_success hne hrun hret
  have hsize := hk.size_le
  have hmax : kmallocMaxSize = 2 ^ 22 := rfl
  have hmoved : newline ∈ visible buf →
      loff (p + (o.size + ((visible buf).length + 1) : Nat)) =
        ((p + (o.size + ((visible buf).length + 1)) : Nat) : Int) := by
    intro hn
    have := hp hn
    rw [← Int.natCast_add, loff_of_lt (by omega)]
  obtain ⟨q', o', _, htakes, hk', _⟩ := hk.write_returned hrun
  cases htakes with
  | noBuffer => simp [ENOMEM] at hret
  | copyFault => simp [EFAULT] at hret
  | notGrown => simp [ENOMEM] at hret
  | appended ht _ =>
    obtain rfl := ho.eq_text ht
    refine ⟨_, _, p, hk', trivial, rfl, ?_, ?_, by omega⟩
    · simp only [Pending.size_opened]
      omega
    · simp only [Pending.text_opened, List.length_append]
      omega
  | @stored id _ ht hs =>
    obtain rfl := ho.eq_text ht
    rw [ho.completes_iff] at hs
    have hpush := sum_lengths_push_le q ⟨id, o.text ++ visible buf⟩
    simp only [List.length_append] at hpush
    refine ⟨_, _, _, hk', trivial, hmoved hs, ?_, ?_, ?_⟩
    · simp only [Pending.size_closed]
      omega
    · simp only [Pending.text_closed, List.length_nil]
      omega
    · rw [if_pos hs]
      omega
  | dropped hs =>
    rw [ho.completes_iff] at hs
    refine ⟨_, _, _, hk', trivial, hmoved hs, ?_, ?_, ?_⟩
    · simp only [Pending.size_closed]
      omega
    · simp only [Pending.text_closed, List.length_nil]
      omega
    · rw [if_pos hs]
      omega

/-- What the string functions see of the data of all writes. -/
def bytesIn (bufs : List UserSource) : Nat := (bufs.map (fun buf => (visible buf).length)).sum

/-- The writes that close a packet. -/
def closing (bufs : List UserSource) : List UserSource :=
  bufs.filter (fun buf => decide (newline ∈ visible buf))

/-- The run of writes that succeed. -/
theorem write_on_advances {bufs : List UserSource} {p : Nat} {rets : List Int} {pos : Int}
    (hk : Healthy k q o) (ho : o.Held)
    (hrun : (writeOn bufs p).run false k = (.ok (rets, pos), k'))
    (hrets : ∀ r ∈ rets, 0 ≤ r) (hp : p + (closing bufs).length * 2 ^ 24 < 2 ^ 63) :
    ∃ q' o' p', Healthy k' q' o' ∧ pos = (p' : Nat) ∧
      p' + o'.size = p + o.size + (bytesIn bufs + bufs.length) ∧
      (lengths (q'.map Packet.text)).sum + o'.text.length ≤
        (lengths (q.map Packet.text)).sum + o.text.length + bytesIn bufs ∧
      p' ≤ p + (closing bufs).length * 2 ^ 24 := by
  induction bufs generalizing k q o p rets with
  | nil =>
    obtain ⟨⟨rfl, rfl⟩, rfl⟩ : ([] = rets ∧ (p : Int) = pos) ∧ k = k' := by
      simpa [writeOn] using hrun
    exact ⟨q, o, p, hk, rfl, by simp [bytesIn], by simp [bytesIn], Nat.le_add_right _ _⟩
  | cons buf bufs ih =>
    obtain ⟨⟨ret, pos₁⟩, k₁, hw, htail⟩ := Code.run_bind_eq_ok hrun
    obtain ⟨⟨rets', pos₂⟩, k₂, hrest, hend⟩ := Code.run_bind_eq_ok htail
    obtain ⟨⟨rfl, rfl⟩, rfl⟩ : (ret :: rets' = rets ∧ pos₂ = pos) ∧ k₂ = k' := by simpa using hend
    obtain ⟨q₁, o₁, p₁, hk₁, ho₁, rfl, hsize₁, htotal₁, hle₁⟩ :=
      write_advances hk ho hw (hrets ret List.mem_cons_self) (fun hn => by
        simp only [closing, List.filter_cons, hn, decide_true, ↓reduceIte, List.length_cons] at hp
        omega)
    have hclosing : p₁ + (closing bufs).length * 2 ^ 24 ≤
        p + (closing (buf :: bufs)).length * 2 ^ 24 := by
      by_cases hn : newline ∈ visible buf
      · simp only [hn, ↓reduceIte, closing, List.filter_cons, decide_true, List.length_cons] at hle₁ ⊢
        omega
      · simp only [hn, ↓reduceIte, closing, List.filter_cons, decide_false, Bool.false_eq_true]
          at hle₁ ⊢
        omega
    obtain ⟨q', o', p', hk', hpos, hsize, htotal, hle⟩ := ih hk₁ ho₁ hrest
      (fun r hr => hrets r (List.mem_cons_of_mem _ hr)) (by omega)
    refine ⟨q', o', p', hk', hpos, ?_, ?_, by omega⟩
    · simp only [bytesIn, List.map_cons, List.sum_cons, List.length_cons] at hsize ⊢
      omega
    · simp only [bytesIn, List.map_cons, List.sum_cons] at htotal ⊢
      omega

theorem loff_add_ne (x : Int) {a b : Nat} (hlt : a < b) (hb : b < 2 ^ 64) :
    loff (x + b) ≠ x + a := by
  intro he
  have hmod : loff (x + b) % (2 ^ 64 : Nat) = (x + b) % (2 ^ 64 : Nat) := Int.bmod_emod
  rw [he] at hmod
  omega

/-- The position moves by the recorded size of the packet, which is not its length. -/
theorem Healthy.stored_overshoots {ret pos : Int} {e : BufferEntry} (hk : Healthy k q o)
    (hrun : (aesdWrite buf fPos).run false k = (.ok (ret, pos), k')) (hret : 0 ≤ ret)
    (he : storedBy k k' = some e) : pos ≠ fPos + e.size := by
  by_cases hne : buf.data = []
  · cases (aesd_write_empty _ hne).symm.trans hrun
  have hcount := count_le_of_success hne hrun hret
  have hsize := hk.size_le
  have hmax : kmallocMaxSize = 2 ^ 22 := rfl
  obtain ⟨q', o', _, htakes, hk', _⟩ := hk.write_returned hrun
  rw [storedBy, hk.ringSlots, hk'.ringSlots] at he
  cases htakes with
  | noBuffer => simp at he
  | copyFault => simp at he
  | notGrown => simp at he
  | appended => simp at he
  | dropped => simp at he
  | @stored id t ht hs =>
    have htext := hk.start_le_size ht
    obtain ⟨front, hfront⟩ : ∃ front, Queue.push 10 q ⟨id, t ++ visible buf⟩ =
        front ++ [⟨id, t ++ visible buf⟩] := ⟨q.rtake 9, by simp [Queue.push]⟩
    split at he
    · cases he
    · obtain rfl : Packet.entry ⟨id, t ++ visible buf⟩ = e := by
        simpa [hfront] using he
      apply loff_add_ne
      · simp only [Packet.entry, List.length_append]
        omega
      · omega

/-- No write that stores a packet moves the position by the size of the entry, and the
position is never the length of the contents once a packet was written. -/
theorem closing_write_overshoots {grant : Nat → Bool} {k₀ : Kernel} (hb : Booted grant k₀) :
    (∀ calls rets k, runOps calls k₀ = (.ok rets, k) → ∀ buf fPos ret pos k' e,
      (aesdWrite buf fPos).run false k = (.ok (ret, pos), k') → 0 ≤ ret →
      storedBy k k' = some e → pos ≠ fPos + e.size) ∧
    ∀ bufs rets pos k, (writeOn bufs 0).run false k₀ = (.ok (rets, pos), k) →
      (∀ r ∈ rets, 0 ≤ r) → k.dev.firstPacket = 0 → (closing bufs).length ≤ 10 →
      (pos = getAesdBufferLength k.dev.buffer ↔ bufs = []) ∧
      ∀ buf, ∃ k', (aesdRead buf pos).run false k = (.ok ⟨0, pos, []⟩, k') := by
  constructor
  · intro calls rets k hops buf fPos ret pos k' e hrun hret he
    obtain ⟨q, o, hk⟩ := hb.healthy.runOps hops
    exact hk.stored_overshoots hrun hret he
  · intro bufs rets pos k hrun hrets hfirst hfew
    obtain ⟨q, o, p, hk, rfl, hsize, htotal, hle⟩ :=
      write_on_advances (p := 0) hb.healthy trivial hrun hrets (by omega)
    obtain rfl : o = .closed := by
      by_contra hopen
      have := hk.firstPacket hopen
      omega
    have hsum := hk.total_lt
    simp only [Pending.size_closed, Pending.text_closed, List.length_nil, List.map_nil, lengths,
      List.sum_nil] at hsize htotal hsum
    refine ⟨?_, fun buf => ?_⟩
    · rw [hk.length_eq, lengths, ← List.length_eq_zero_iff]
      have hempty : bufs.length = 0 → bytesIn bufs = 0 := by
        intro h0
        rw [List.length_eq_zero_iff.mp h0]
        rfl
      omega
    · obtain ⟨res, k', _, hread, hgives, _⟩ := aesd_read_gives buf p hk.toSound
      have hnone : locate (lengths (q.map Packet.text)) (sizeT p) = none := by
        rw [locate_none_iff, sizeT_natCast (by omega), lengths]
        omega
      rw [(hgives.of_none hnone).1] at hread
      exact ⟨k', hread⟩

/-- A packet of three bytes in one write moves the position by four. -/
theorem closing_write_overshoots_by_one :
    ∃ k' e, (aesdWrite ⟨[104, 105, 10], false⟩ 0).run false (booted plenty) = (.ok (3, 4), k') ∧
      storedBy (booted plenty) k' = some e ∧ (4 : Int) ≠ 0 + e.size := by
  have hrun : (aesdWrite ⟨[104, 105, 10], false⟩ 0).run false (booted plenty) = (.ok (3, 4),
      ((aesdWrite ⟨[104, 105, 10], false⟩ 0).run false (booted plenty)).2) :=
    Code.run_eq_of_fst (by decide +kernel)
  have hstored : storedBy (booted plenty)
      ((aesdWrite ⟨[104, 105, 10], false⟩ 0).run false (booted plenty)).2 =
        some ⟨.cell 4 0, 3⟩ := by decide +kernel
  generalize ((aesdWrite ⟨[104, 105, 10], false⟩ 0).run false (booted plenty)).2 = k' at hrun hstored
  exact ⟨k', _, hrun, hstored,
    (closing_write_overshoots booted_plenty).1 [] [] _ rfl _ _ _ _ _ _ hrun (by decide) hstored⟩

/-- In two writes it is moved by five. The contents have three bytes either way. -/
theorem position_of_two_writes :
    ∃ run₁ run₂, run₁ = (writeOn [⟨[104, 105, 10], false⟩] 0).run false (booted plenty) ∧
      run₂ = (writeOn [⟨[104], false⟩, ⟨[105, 10], false⟩] 0).run false (booted plenty) ∧
      run₁.1 = .ok ([3], 4) ∧ run₂.1 = .ok ([1, 2], 5) ∧
      getAesdBufferLength run₁.2.dev.buffer = 3 ∧ getAesdBufferLength run₂.2.dev.buffer = 3 := by
  refine ⟨_, _, rfl, rfl, ?_⟩
  decide +kernel

end Writing

end Aesd.Proofs
