import Aesd.Proofs.Read
import Aesd.Proofs.Seek

namespace Aesd.Proofs
open Base Driver Segments
open Base.Code (Ensures ensures_pure)

variable {k : Kernel} {q : List Packet} {o : Pending}

/-- Reads on one handle until one of them returns 0 or there is no buffer left.
The results are those of all the calls and the position of the handle. -/
def readToEnd : List UserDest → Int → KernelM (List ReadResult × Int)
  | [], fPos => return ([], fPos)
  | buf :: bufs, fPos => do
    let res ← aesdRead buf fPos
    if res.retval = 0 then return ([res], res.fPos)
    let (results, fPos) ← readToEnd bufs res.fPos
    return (res :: results, fPos)

/-- What the caller takes a read to have delivered. -/
def taken (res : ReadResult) : List UInt8 := res.delivered.take res.retval.toNat

/-- Behind the last packet a read reports the end of file. -/
theorem read_at_end {p : Nat} (buf : UserDest) (hk : Healthy k q o) (hp : p < 2 ^ 63)
    (h : locate (lengths (q.map Packet.text)) p = none) :
    Ensures denied (aesdRead buf p) k (fun res k' =>
      res = ⟨0, p, []⟩ ∧ Healthy k' q o ∧ k'.dev.buffer = k.dev.buffer) := by
  obtain ⟨res, k', d, hrun, hgives, hk', hleaves, hden⟩ := aesd_read_gives buf p hk.toSound
  refine fun _ => ⟨res, k', hrun, ?_, hleaves.healthy hk hk', hleaves.buffer⟩
  rw [← sizeT_natCast (show p < 2 ^ 64 by omega)] at h
  exact (hgives.of_none h).1

/-- Before that it delivers the rest of a packet, with a zero byte behind it, and
moves on to the next one. -/
theorem read_rest {p i j : Nat} (buf : UserDest) (hf : buf.faultAt = none) (hk : Healthy k q o)
    (hp : p < 2 ^ 63) (h : locate (lengths (q.map Packet.text)) p = some (i, j)) :
    Ensures denied (aesdRead buf p) k (fun res k' =>
      res = ⟨(((q.map Packet.text).getD i []).length - j : Nat),
        (p + (((q.map Packet.text).getD i []).length - j) : Nat),
        ((q.map Packet.text).getD i []).drop j ++ [0]⟩ ∧
      Healthy k' q o ∧ k'.dev.buffer = k.dev.buffer) := by
  have hend := locate_end_le h
  have htotal := hk.total_lt
  have hloff : loff (p + ((((q.map Packet.text).getD i []).length - j : Nat) : Int)) =
      (p + (((q.map Packet.text).getD i []).length - j) : Nat) := by
    rw [← Int.natCast_add, loff_of_lt (by omega)]
  have hpt : sizeT p = p := sizeT_natCast (by omega)
  obtain ⟨res, k', d, hrun, hgives, hk', hleaves, hden⟩ := aesd_read_gives buf p hk.toSound
  intro hquiet
  rw [hrun] at hquiet
  simp only [denied] at hquiet
  refine ⟨res, k', hrun, ?_, hleaves.healthy hk hk', hleaves.buffer⟩
  rw [← hpt] at h
  rcases hgives.of_some h rfl with ⟨rfl, _⟩ | ⟨_, _, rfl⟩ | ⟨_, m, hf', _⟩
  · omega
  · rw [hloff]
  · simp [hf] at hf'

theorem grows_readToEnd (bufs : List UserDest) (fPos : Int) :
    Code.Grows denied (readToEnd bufs fPos) := by
  induction bufs generalizing fPos with
  | nil => trivial
  | cons buf bufs ih =>
    refine (grows_aesdRead buf fPos).bind (fun res => ?_)
    split
    · trivial
    · exact (ih res.fPos).bind (fun _ => trivial)

/-- Reading to the end follows the packets, one call each. -/
theorem read_to_end {p p' : Nat} {cs : List (List UInt8)}
    (hreads : Reads (q.map Packet.text) p cs p') (bufs : List UserDest)
    (hf : ∀ buf ∈ bufs, buf.faultAt = none) (hlen : cs.length < bufs.length) (hp : p < 2 ^ 63)
    (hk : Healthy k q o) :
    Ensures denied (readToEnd bufs p) k (fun r k' => ∃ results,
      r = (results ++ [⟨0, p', []⟩], (p' : Int)) ∧ results.map taken = cs ∧
      (∀ res ∈ results, 1 ≤ res.retval) ∧ k'.dev.buffer = k.dev.buffer) := by
  induction hreads generalizing bufs k with
  | @done p h =>
    obtain ⟨buf, bufs, rfl⟩ := List.exists_cons_of_length_pos (Nat.zero_lt_of_lt hlen)
    refine (read_at_end buf hk hp h).bind (grows_readToEnd (buf :: bufs) p)
      (fun res k' _ _ ⟨hres, _, hbuf⟩ => ?_)
    subst hres
    exact ensures_pure ⟨[], rfl, rfl, by simp, hbuf⟩
  | @more p p' i j cs h hrest ih =>
    obtain ⟨buf, bufs, rfl⟩ := List.exists_cons_of_length_pos (Nat.zero_lt_of_lt hlen)
    have hj := ((locate_some_iff _ _ _ _).mp h).1
    rw [getD_lengths] at hj
    have hp₁ : p + (((q.map Packet.text).getD i []).length - j) < 2 ^ 63 := by
      have hend := locate_end_le h
      have htotal := hk.total_lt
      omega
    refine (read_rest buf (hf buf List.mem_cons_self) hk hp h).bind
      (grows_readToEnd (buf :: bufs) p) (fun res k₁ hg _ ⟨hres, hk₁, hbuf₁⟩ => ?_)
    subst hres
    have hne : ¬ ((((q.map Packet.text).getD i []).length - j : Nat) : Int) = 0 := by omega
    simp only [hne, ↓reduceIte] at hg ⊢
    refine (ih bufs (fun b hb => hf b (List.mem_cons_of_mem _ hb)) (by simpa using hlen) hp₁
      hk₁).bind hg (fun r k₂ _ _ hr => ?_)
    obtain ⟨results, rfl, htaken, hone, hbuf₂⟩ := hr
    refine ensures_pure ⟨_ :: results, rfl, ?_, ?_, hbuf₂.trans hbuf₁⟩
    · rw [List.map_cons, htaken]
      simp [taken]
    · intro res hres
      rcases List.mem_cons.mp hres with rfl | hres
      · simp only
        omega
      · exact hone res hres

/-- Reading to the end of file returns what is stored from the position on. -/
theorem read_to_end_of_file {grant : Nat → Bool} {k₀ k₁ k₂ : Kernel} {calls : List WriteCall}
    {rets : List Int} {r : Except Fault (List ReadResult × Int)} (bufs : List UserDest) (fPos : Nat)
    (hb : Booted grant k₀) (hwrites : (writeAll calls).run false k₀ = (.ok rets, k₁))
    (hpos : fPos < 2 ^ 63) (hbufs : bufs.length = 11) (hf : ∀ buf ∈ bufs, buf.faultAt = none)
    (hrun : (readToEnd bufs fPos).run false k₁ = (r, k₂))
    (hden : k₂.heap.denied = k₁.heap.denied) :
    ∃ packets results last, ringTexts k₁ = .ok packets ∧
      r = .ok (results ++ [last], ((max fPos packets.flatten.length : Nat) : Int)) ∧
      last.retval = 0 ∧ results.length ≤ 10 ∧ (∀ res ∈ results, 1 ≤ res.retval) ∧
      (results.map (fun res => res.delivered.take res.retval.toNat)).flatten =
        packets.flatten.drop fPos ∧
      k₂.dev.buffer = k₁.dev.buffer := by
  obtain ⟨q, o, hk⟩ := hb.healthy.write_all_ok hwrites
  obtain ⟨cs, p', hreads, hlen⟩ := exists_reads (q.map Packet.text) fPos
  have hfits := hk.ring.holds.fits
  rw [List.length_map] at hlen hfits
  obtain ⟨_, k', hrun', results, rfl, htaken, hone, hbuf⟩ :=
    read_to_end hreads bufs hf (by omega) hpos hk (by rw [hrun]; exact hden)
  obtain ⟨rfl, rfl⟩ := Prod.mk.inj (hrun'.symm.trans hrun)
  have hcount : results.length = cs.length := by rw [← htaken, List.length_map]
  refine ⟨_, results, _, hk.ringTexts, by rw [← hreads.end_eq], rfl, by omega, hone, ?_, hbuf⟩
  rw [← hreads.flatten, ← htaken]
  rfl

/-- The device after writes of two packets. -/
abbrev twoPackets : Kernel :=
  ((writeAll [⟨⟨[97, 98, 10], false⟩, 0⟩, ⟨⟨[99, 10], false⟩, 0⟩]).run false (booted plenty)).2

/-- Two packets read from the second byte on, with buffers of one byte. -/
theorem read_two_packets_to_end :
    ∃ packets results last, ringTexts twoPackets = .ok packets ∧
      ((readToEnd (List.replicate 11 ⟨1, none⟩) (1 : Nat)).run false twoPackets).1 =
        .ok (results ++ [last], ((max 1 packets.flatten.length : Nat) : Int)) ∧
      (results.map (fun res => res.delivered.take res.retval.toNat)).flatten =
        packets.flatten.drop 1 := by
  have hwrites : (writeAll [⟨⟨[97, 98, 10], false⟩, 0⟩, ⟨⟨[99, 10], false⟩, 0⟩]).run false
      (booted plenty) = (.ok [3, 2], twoPackets) := Code.run_eq_of_fst (by decide +kernel)
  obtain ⟨packets, results, last, htexts, hr, _, _, _, hflat, _⟩ :=
    read_to_end_of_file (List.replicate 11 ⟨1, none⟩) 1 booted_plenty hwrites (by decide)
      (by simp) (by simp) Prod.mk.eta.symm (by decide +kernel)
  exact ⟨packets, results, last, htexts, hr, hflat⟩

end Aesd.Proofs
