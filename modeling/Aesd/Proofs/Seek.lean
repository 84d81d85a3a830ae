import Aesd.Proofs.Find
import Aesd.Proofs.Stream

namespace Aesd.Proofs
open Base Driver Segments

section Loop
variable {size : Nat → Nat} {outOffs c off : Nat}

/-- The loop reads the size fields of the commands before the one it looks for,
without wrapping around. -/
theorem seek_loop_reads (rounds i total : Nat) (hi : i ≤ c) (hc : c < i + rounds) :
    (seekLoop size outOffs c off rounds i total).2 = List.range' (outOffs + i) (c - i) := by
  induction rounds generalizing i total with
  | zero => omega
  | succ rounds ih =>
    unfold seekLoop
    by_cases he : i = c
    · simp [he]
    · have hlen : c - i = (c - (i + 1)) + 1 := by omega
      simp only [he, ne_eq, not_false_eq_true, ↓reduceIte, ih (i + 1) _ (by omega) (by omega), hlen,
        List.range'_succ]
      rfl

theorem seek_loop_total (rounds i : Nat) (hi : i ≤ c) (hc : c < i + rounds)
    (hmax : ((List.range c).map (fun j => size (outOffs + j))).sum + off < 2 ^ 64) :
    (seekLoop size outOffs c off rounds i
        ((List.range i).map (fun j => size (outOffs + j))).sum).1 =
      ((List.range c).map (fun j => size (outOffs + j))).sum + off := by
  induction rounds generalizing i with
  | zero => omega
  | succ rounds ih =>
    unfold seekLoop
    by_cases he : i = c
    · simp only [he, ne_eq, not_true_eq_false, ↓reduceIte]
      exact Nat.mod_eq_of_lt hmax
    · have hsum : (size (outOffs + i) + ((List.range i).map (fun j => size (outOffs + j))).sum) =
          ((List.range (i + 1)).map (fun j => size (outOffs + j))).sum := by
        rw [List.range_succ, List.map_append, List.sum_append]
        simp [Nat.add_comm]
      have hle : ((List.range (i + 1)).map (fun j => size (outOffs + j))).sum ≤
          ((List.range c).map (fun j => size (outOffs + j))).sum := by
        have h := sum_take_le ((List.range c).map (fun j => size (outOffs + j))) (i + 1)
        rwa [← List.map_take, List.take_range, Nat.min_eq_left (by omega)] at h
      simp only [he, ne_eq, not_false_eq_true, ↓reduceIte, hsum]
      rw [Nat.mod_eq_of_lt (by omega)]
      exact ih (i + 1) (by omega) (by omega)

end Loop

variable {k : Kernel} {q : List Packet} {o : Pending} {past : Nat → Nat} {c off : Nat} {fPos : Int}

/-- A seek is accepted if the command exists and is at least as long as the
offset. -/
theorem Sound.seek_eq (hk : Sound k q o) (hc : c < 10) :
    seekLocked past k.dev.buffer c off fPos = match q[c]? with
      | none => ⟨-EINVAL, fPos, [(k.dev.buffer.outOffs + c) % 10]⟩
      | some p =>
        if p.text.length < off then ⟨-EINVAL, fPos, [(k.dev.buffer.outOffs + c) % 10]⟩
        else ⟨0, loff (seekLoop (sizeAt past k.dev.buffer) k.dev.buffer.outOffs c off 11 0 0).1,
          (k.dev.buffer.outOffs + c) % 10 :: List.range' k.dev.buffer.outOffs c⟩ := by
  have hslot := hk.ring.holds.slot c hc
  have hreads : (seekLoop (sizeAt past k.dev.buffer) k.dev.buffer.outOffs c off 11 0 0).2 =
      List.range' k.dev.buffer.outOffs c := seek_loop_reads 11 0 0 (Nat.zero_le c) (by omega)
  simp only [seekLocked, hslot, Option.getD_some, hreads]
  cases hq : q[c]? with
  | none => simp [List.getD, hq, BufferEntry.blank]
  | some p => simp [List.getD, hq, Packet.entry]

/-- As long as the loop stays inside the array it adds up the right commands. -/
theorem Sound.seek_total (hk : Sound k q o) (hc : c < q.length)
    (hin : k.dev.buffer.outOffs + c ≤ 10) (hoff : off < 2 ^ 22) :
    (seekLoop (sizeAt past k.dev.buffer) k.dev.buffer.outOffs c off 11 0 0).1 =
      ((lengths (q.map Packet.text)).take c).sum + off := by
  have hsizes : (List.range c).map (fun j => sizeAt past k.dev.buffer (k.dev.buffer.outOffs + j)) =
      (lengths (q.map Packet.text)).take c := by
    apply List.ext_getElem
    · simp [lengths]
      omega
    · intro j hj _
      have hjc : j < c := by simpa using hj
      have hslot := hk.slot (List.getElem?_eq_getElem (Nat.lt_trans hjc hc))
      rw [Nat.mod_eq_of_lt (by omega)] at hslot
      simp [sizeAt, hslot, lengths, Packet.entry]
  have htotal := hk.total_lt
  have hle := sum_take_le (lengths (q.map Packet.text)) c
  have hfits := hk.ring.holds.fits
  rw [List.length_map] at hfits
  rw [← hsizes] at hle ⊢
  exact seek_loop_total 11 0 (Nat.zero_le c) (by omega) (by omega)

/-- With the lock acquired. -/
theorem run_aesdAdjustFileOffset : (aesdAdjustFileOffset past c off fPos).run false k =
    (.ok (if c ≥ 10 then ⟨-EINVAL, fPos, []⟩ else seekLocked past k.dev.buffer c off fPos), k) := by
  unfold aesdAdjustFileOffset seekEntry
  split <;> simp [Code.run_bind, run_mutexLock, run_mutexUnlock, run_getDev]

/-- A seek that is accepted lands on the byte it names, without leaving the
array, exactly if the commands before it do not wrap around the array's end. -/
theorem seekto_lands_iff {grant : Nat → Bool} {k₀ k k' : Kernel} {calls : List WriteCall}
    {rets : List Int} {past : Nat → Nat} {c off : Nat} {fPos : Int} {res : SeekResult}
    (hb : Booted grant k₀) (hrun : (writeAll calls).run false k₀ = (.ok rets, k))
    (hseek : (aesdAdjustFileOffset past c off fPos).run false k = (.ok res, k'))
    (h0 : res.retval = 0) :
    ((∀ i ∈ res.reads, i < 10) ∧ ∃ packets, ringTexts k = .ok packets ∧ c < packets.length ∧
      res.fPos = ((packets.take c).map List.length).sum + off ∧
      (off < (packets.getD c []).length →
        aesdCircularBufferFindEntryOffsetForFpos k.dev.buffer (sizeT res.fPos) =
          .ok (some ((k.dev.buffer.outOffs + c) % 10, off), k.dev.buffer))) ↔
    k.dev.buffer.outOffs + c ≤ 10 := by
  obtain ⟨q, o, hk⟩ := hb.healthy.write_all_ok hrun
  rw [run_aesdAdjustFileOffset] at hseek
  obtain ⟨rfl, rfl⟩ : (if c ≥ 10 then ⟨-EINVAL, fPos, []⟩
      else seekLocked past k.dev.buffer c off fPos) = res ∧ k = k' := by simpa using hseek
  by_cases hc : c ≥ 10
  · simp [hc, EINVAL] at h0
  simp only [hc, ↓reduceIte, hk.seek_eq (Nat.lt_of_not_le hc)] at h0 ⊢
  cases hq : q[c]? with
  | none => simp [hq, EINVAL] at h0
  | some p =>
    simp only [hq] at h0 ⊢
    by_cases hoff : p.text.length < off
    · simp [hoff, EINVAL] at h0
    have hlt : c < q.length := (List.getElem?_eq_some_iff.mp hq).1
    have hout := hk.ring.holds.out_lt
    simp only [hoff, ↓reduceIte]
    constructor
    · rintro ⟨hreads, _⟩
      by_contra hgt
      have := hreads (k.dev.buffer.outOffs + (c - 1)) (List.mem_cons_of_mem _
        (List.mem_range'_1.mpr (by omega)))
      omega
    · intro hin
      have hp := hk.bounded p (List.mem_of_getElem? hq)
      have hoff22 : off < 2 ^ 22 := by
        have : kmallocMaxSize = 2 ^ 22 := rfl
        omega
      have htotal := hk.total_lt
      have hle := sum_take_le (lengths (q.map Packet.text)) c
      have hpos : loff (seekLoop (sizeAt past k.dev.buffer) k.dev.buffer.outOffs c off 11 0 0).1 =
          (((lengths (q.map Packet.text)).take c).sum + off : Nat) := by
        rw [hk.seek_total hlt hin hoff22, loff_of_lt (by omega)]
      refine ⟨?_, q.map Packet.text, hk.ringTexts, by simpa using hlt, ?_, ?_⟩
      · intro i hi
        rcases List.mem_cons.mp hi with rfl | hi
        · exact Nat.mod_lt _ (by decide)
        · have := List.mem_range'_1.mp hi
          omega
      · rw [hpos]
        simp [lengths, List.map_take]
      · intro hbelow
        rw [hpos, sizeT_natCast (by omega), hk.find,
          (locate_some_iff _ _ c off).mpr ⟨by rwa [getD_lengths], rfl⟩]
        rfl

/-- Twelve packets of two bytes each, of which the ring keeps ten. -/
def twelvePackets : List WriteCall := List.replicate 12 ⟨⟨[120, 10], false⟩, 0⟩

abbrev afterTwelve : Except Fault (List Int) × Kernel :=
  (writeAll twelvePackets).run false (booted plenty)

theorem seekto_lands_after_eviction :
    ((aesdAdjustFileOffset (fun _ => 0) 1 1 0).run false afterTwelve.2).1 = .ok ⟨0, 3, [3, 2]⟩ ∧
      aesdCircularBufferFindEntryOffsetForFpos afterTwelve.2.dev.buffer (sizeT 3) =
        .ok (some ((afterTwelve.2.dev.buffer.outOffs + 1) % 10, 1), afterTwelve.2.dev.buffer) := by
  -- one evaluation of the twelve writes for all that is needed of them
  obtain ⟨hok, hres, hout, htexts⟩ : afterTwelve.1 = .ok (List.replicate 12 2) ∧
      ((aesdAdjustFileOffset (fun _ => 0) 1 1 0).run false afterTwelve.2).1 =
        .ok ⟨0, 3, [3, 2]⟩ ∧
      afterTwelve.2.dev.buffer.outOffs = 2 ∧
      ringTexts afterTwelve.2 = .ok (List.replicate 10 [120, 10]) := by
    decide +kernel
  obtain ⟨_, packets, hring, _, _, hfind⟩ := (seekto_lands_iff booted_plenty
    (Code.run_eq_of_fst hok) (Code.run_eq_of_fst hres) rfl).mpr (by rw [hout]; decide)
  obtain rfl : List.replicate 10 [120, 10] = packets := by
    simpa using htexts.symm.trans hring
  refine ⟨hres, ?_⟩
  rw [hfind (by decide)]

/-- A seek to the last of the ten reads behind the array and takes what it finds
there for a size. The command starts at 18. -/
theorem seekto_reads_past_array :
    afterTwelve.1 = .ok (List.replicate 12 2) ∧
      ringTexts afterTwelve.2 = .ok (List.replicate 10 [120, 10]) ∧
      ((aesdAdjustFileOffset (fun _ => 0) 9 1 0).run false afterTwelve.2).1 =
        .ok ⟨0, 17, [1, 2, 3, 4, 5, 6, 7, 8, 9, 10]⟩ := by
  decide +kernel

end Aesd.Proofs
