import Aesd.Base.Groups
import Aesd.Base.Segments
import Aesd.Proofs.Boot
import Aesd.Proofs.Steps

namespace Aesd.Proofs
open Base Driver CString
open Base.Code (Ensures ensures_pure)

variable {grant : Nat → Bool} {k k' : Kernel} {g : Groups UInt8}

/-- A call of `aesd_write` on some handle: what is written, and the position of
the handle. -/
structure WriteCall where
  buf : UserSource
  fPos : Int

/-- Calls one after the other, up to a fault. The result lists the return values. -/
def writeAll : List WriteCall → KernelM (List Int)
  | [] => return []
  | c :: calls => do
    let (retval, _) ← aesdWrite c.buf c.fPos
    return retval :: (← writeAll calls)

/-- The call can only fail for want of memory. -/
def WriteCall.Plain (c : WriteCall) : Prop := c.buf.data ≠ [] ∧ c.buf.faults = false

/-- The device has taken in the parts grouped in `g`: the last ten messages are
in the ring, and the open one is being assembled. -/
def Keeps (k : Kernel) (g : Groups UInt8) : Prop :=
  ∃ q o, Healthy k q o ∧ o.Held ∧ q.map Packet.text = g.messages.rtake 10 ∧
    o.text = g.rest.flatten ∧ (o = .closed ↔ g.rest = [])

theorem Booted.keeps (hb : Booted grant k) : Keeps k .empty :=
  ⟨[], .closed, hb.healthy, by simp, rfl, rfl, by simp [Groups.empty]⟩

/-- One call adds what can be seen of its data to the groups. -/
theorem Keeps.write (hk : Keeps k g) (c : WriteCall) (hc : c.Plain) :
    Ensures denied (aesdWrite c.buf c.fPos) k (fun ret k' =>
      ret.1 = c.buf.count ∧ Keeps k' (g.add newline (visible c.buf))) := by
  intro hden
  obtain ⟨q, o, hh, ho, hq, ht, hclosed⟩ := hk
  rcases aesd_write_lands c.fPos hh hc.1 with
    ⟨e, k', hrun, _, _, hwhy, _⟩ | ⟨ret, k', q', o', d, hrun, htakes, hh', hd, _⟩
  · rw [hrun] at hden
    have hlt := hwhy.resolve_left ho.start_ne_none
    simp only [denied] at hden
    omega
  · rw [hrun] at hden
    simp only [denied] at hden
    obtain rfl : d = 0 := by omega
    refine ⟨ret, k', hrun, ?_⟩
    cases htakes with
    | copyFault hf => simp [hc.2] at hf
    | appended hb hs =>
      obtain rfl := ho.eq_text hb
      rw [ho.not_completes_iff] at hs
      refine ⟨rfl, q, _, hh', by simp, ?_, ?_, ?_⟩
      · simpa [Groups.add, hs, Groups.messages] using hq
      · simp [Groups.add, hs, ht]
      · simp [Groups.add, hs]
    | stored hb hs =>
      obtain rfl := ho.eq_text hb
      rw [ho.completes_iff] at hs
      refine ⟨rfl, _, _, hh', by simp, ?_, ?_, ?_⟩
      · have hmsg : (g.add newline (visible c.buf)).messages =
            g.messages ++ [o.text ++ visible c.buf] := by
          simp [Groups.add, hs, Groups.messages, ht]
        rw [hmsg, ← Queue.push_rtake, ← hq, Queue.push, Queue.push, Queue.map_rtake, List.map_append]
        rfl
      · simp [Groups.add, hs]
      · simp [Groups.add, hs]

/-- Any sequence of writes that returned, with or without errors, leaves the
device in order. -/
theorem Healthy.write_all_ok {calls : List WriteCall} {rets : List Int} {q : List Packet}
    {o : Pending} (hk : Healthy k q o) (hrun : (writeAll calls).run false k = (.ok rets, k')) :
    ∃ q' o', Healthy k' q' o' := by
  induction calls generalizing k q o rets with
  | nil =>
    obtain ⟨_, rfl⟩ : [] = rets ∧ k = k' := by simpa [writeAll] using hrun
    exact ⟨q, o, hk⟩
  | cons c calls ih =>
    obtain ⟨ret, k₁, hw, htail⟩ := Code.run_bind_eq_ok hrun
    obtain ⟨rets', k₂, hrest, hend⟩ := Code.run_bind_eq_ok htail
    obtain ⟨_, rfl⟩ : ret.1 :: rets' = rets ∧ k₂ = k' := by simpa using hend
    obtain ⟨q₁, o₁, _, _, hk₁, _⟩ := hk.write_returned hw
    exact ih hk₁ hrest

theorem grows_writeAll (calls : List WriteCall) : Code.Grows denied (writeAll calls) := by
  induction calls with
  | nil => trivial
  | cons c calls ih =>
    exact (grows_aesdWrite c.buf c.fPos).bind (fun _ => ih.bind (fun _ => trivial))

/-- The run of a sequence of calls. -/
theorem Keeps.write_all (calls : List WriteCall) (hc : ∀ c ∈ calls, c.Plain) (hk : Keeps k g) :
    Ensures denied (writeAll calls) k (fun rets k' =>
      rets = calls.map (fun c => (c.buf.count : Int)) ∧
        Keeps k' ((calls.map (fun c => visible c.buf)).foldl (Groups.add newline) g)) := by
  induction calls generalizing k g with
  | nil => exact ensures_pure ⟨rfl, hk⟩
  | cons c calls ih =>
    refine (hk.write c (hc c List.mem_cons_self)).bind (grows_writeAll (c :: calls))
      (fun ret k₁ hg _ ⟨hret, hk₁⟩ => ?_)
    refine (ih (fun x hx => hc x (List.mem_cons_of_mem _ hx)) hk₁).bind hg
      (fun rets k₂ _ _ ⟨hrets, hk₂⟩ => ensures_pure ⟨?_, hk₂⟩)
    rw [hrets, hret, List.map_cons]

theorem map_visible (calls : List WriteCall) (h : ∀ c ∈ calls, 0 ∉ c.buf.data) :
    calls.map (fun c => visible c.buf) = calls.map (fun c => c.buf.data) :=
  List.map_congr_left (fun c hc => takeWhile_of_no_nul _ (h c hc))

/-- What a run of writes leaves in the device, for data of any bytes. -/
theorem Booted.write_all {k₀ : Kernel} {calls : List WriteCall} {r : Except Fault (List Int)}
    (hb : Booted grant k₀) (hc : ∀ c ∈ calls, c.Plain)
    (hrun : (writeAll calls).run false k₀ = (r, k)) (hden : k.heap.denied = 0) :
    r = .ok (calls.map (fun c => (c.buf.count : Int))) ∧
      Keeps k (Groups.of newline (calls.map (fun c => visible c.buf))) := by
  obtain ⟨rets, k', hrun', hrets, hk'⟩ := hb.keeps.write_all calls hc
    (by rw [hrun]; exact hden.trans hb.allocated.2.1.symm)
  obtain ⟨rfl, rfl⟩ := Prod.mk.inj (hrun.symm.trans hrun')
  exact ⟨by rw [hrets], hk'⟩

theorem Keeps.ringTexts (hk : Keeps k g) : ringTexts k = .ok (g.messages.rtake 10) := by
  obtain ⟨q, o, hh, _, hq, _⟩ := hk
  rw [hh.ringTexts, hq]

theorem Keeps.openText (hk : Keeps k g) : openText k = .ok g.rest.flatten := by
  obtain ⟨q, o, hh, ho, _, ht, _⟩ := hk
  rw [hh.openText ho, ht]

theorem Keeps.ringSlots (hk : Keeps k g) :
    (ringSlots k.dev.buffer).map BufferEntry.size = (g.messages.rtake 10).map List.length := by
  obtain ⟨q, o, hh, _, hq, _⟩ := hk
  rw [hh.ringSlots, ← hq]
  simp [Packet.entry, Function.comp_def]

theorem Keeps.endOfPacket (hk : Keeps k g) : k.dev.endOfPacket = 0 := by
  obtain ⟨q, o, hh, ho, _⟩ := hk
  exact hh.quiet ho

theorem Keeps.firstPacket (hk : Keeps k g) :
    k.dev.firstPacket = if g.rest = [] then 0 else 1 := by
  obtain ⟨q, o, hh, ho, _, _, hclosed⟩ := hk
  have hp := hh.pending
  cases o with
  | lost => exact ho.elim
  | closed => rw [if_pos (hclosed.mp rfl)]; exact hp
  | opened p n =>
    rw [if_neg (fun hr => by simpa using hclosed.mpr hr)]
    exact hp.1

/-- The write path keeps the last ten packets. -/
theorem writes_keep_last_ten_packets {grant : Nat → Bool} {k₀ k : Kernel}
    {r : Except Fault (List Int)} (calls : List WriteCall) (hb : Booted grant k₀)
    (hc : ∀ c ∈ calls, c.buf.data ≠ [] ∧ 0 ∉ c.buf.data ∧ c.buf.faults = false)
    (hrun : (writeAll calls).run false k₀ = (r, k)) (hden : k.heap.denied = 0) :
    ∃ g : Groups UInt8, g = Groups.of newline (calls.map (fun c => c.buf.data)) ∧
      ringTexts k = .ok ((g.closed.map List.flatten).rtake 10) ∧
      (ringSlots k.dev.buffer).map BufferEntry.size =
        ((g.closed.map List.flatten).rtake 10).map List.length ∧
      (g.rest ≠ [] → k.dev.firstPacket = 1 ∧
        k.heap.string k.dev.bufferEntry.buffptr = .ok g.rest.flatten) ∧
      (g.rest = [] → k.dev.firstPacket = 0) ∧
      k.dev.endOfPacket = 0 ∧
      r = .ok (calls.map (fun c => (c.buf.count : Int))) := by
  obtain ⟨hr, hk⟩ := hb.write_all (fun c hm => ⟨(hc c hm).1, (hc c hm).2.2⟩) hrun hden
  rw [map_visible calls (fun c hm => (hc c hm).2.1)] at hk
  have hfirst := hk.firstPacket
  refine ⟨_, rfl, hk.ringTexts, hk.ringSlots, fun hopen => ?_, fun hnone => ?_, hk.endOfPacket, hr⟩
  · rw [if_neg hopen] at hfirst
    have hopen := hk.openText
    rw [openText, if_pos hfirst] at hopen
    exact ⟨hfirst, hopen⟩
  · rwa [if_pos hnone] at hfirst

/-- A packet in two parts, and one that stays open. -/
theorem writes_keep_packet_of_two_parts :
    ringTexts ((writeAll [⟨⟨[104, 105], false⟩, 0⟩, ⟨⟨[10], false⟩, 0⟩, ⟨⟨[120], false⟩, 7⟩]).run
      false (booted plenty)).2 = .ok [[104, 105, 10]] := by
  obtain ⟨g, hg, hring, _⟩ := writes_keep_last_ten_packets
    [⟨⟨[104, 105], false⟩, 0⟩, ⟨⟨[10], false⟩, 0⟩, ⟨⟨[120], false⟩, 7⟩] booted_plenty
    (by decide) Prod.mk.eta.symm (by decide +kernel)
  rw [hring, hg]
  rfl

section Bytes

def written (calls : List WriteCall) : List UInt8 := (calls.map (fun c => c.buf.data)).flatten

/-- Bytes get lost exactly when some call contains a NUL. -/
theorem flatten_visible_eq_iff (calls : List WriteCall) :
    (calls.map (fun c => visible c.buf)).flatten = written calls ↔
      ∀ c ∈ calls, 0 ∉ c.buf.data := by
  rw [written, Segments.flatten_eq_iff (fun c _ => visible_prefix_data c.buf)]
  constructor
  · intro hall c hc
    rw [← hall c hc]
    exact takeWhile_no_nul _
  · intro hnul c hc
    exact takeWhile_of_no_nul _ (hnul c hc)

theorem rtake_flatten_suffix {α : Type} (l : List (List α)) (n : Nat) :
    (l.rtake n).flatten <:+ l.flatten := by
  refine ⟨(l.take (l.length - n)).flatten, ?_⟩
  rw [← List.flatten_append, List.rtake, List.take_append_drop]

/-- What is kept is the end of what was written as long as no call contains a
NUL. While nothing has been evicted the two are equal in exactly that case. -/
theorem kept_is_suffix_of_written {grant : Nat → Bool} {k₀ k : Kernel}
    {r : Except Fault (List Int)} (calls : List WriteCall) (hb : Booted grant k₀)
    (hc : ∀ c ∈ calls, c.buf.data ≠ [] ∧ c.buf.faults = false)
    (hrun : (writeAll calls).run false k₀ = (r, k)) (hden : k.heap.denied = 0) :
    r = .ok (calls.map (fun c => (c.buf.count : Int))) ∧
    ∃ packets rest, ringTexts k = .ok packets ∧ openText k = .ok rest ∧
      ((∀ c ∈ calls, 0 ∉ c.buf.data) → packets.flatten ++ rest <:+ written calls) ∧
      ((calls.filter (fun c => decide (newline ∈ visible c.buf))).length ≤ 10 →
        (packets.flatten ++ rest = written calls ↔ ∀ c ∈ calls, 0 ∉ c.buf.data)) := by
  obtain ⟨hr, hk⟩ := hb.write_all hc hrun hden
  have hall := Groups.of_flatten newline (calls.map (fun c => visible c.buf))
  refine ⟨hr, _, _, hk.ringTexts, hk.openText, fun hnul => ?_, fun hfew => ?_⟩
  · rw [← (flatten_visible_eq_iff calls).mpr hnul, ← hall]
    obtain ⟨front, hfront⟩ := rtake_flatten_suffix
      (Groups.of newline (calls.map (fun c => visible c.buf))).messages 10
    exact ⟨front, by rw [← List.append_assoc, hfront]⟩
  · rw [← flatten_visible_eq_iff, ← hall, Queue.rtake_of_le]
    rw [Groups.messages, List.length_map, Groups.of_closed_length, List.filter_map, List.length_map]
    exact hfew

/-- A packet and the start of another. -/
theorem kept_of_two_writes :
    ∃ run, run = (writeAll [⟨⟨[104, 10], false⟩, 0⟩, ⟨⟨[120], false⟩, 0⟩]).run false
        (booted plenty) ∧ run.1 = .ok [2, 1] ∧
      ∃ packets rest, ringTexts run.2 = .ok packets ∧ openText run.2 = .ok rest ∧
        packets.flatten ++ rest = [104, 10, 120] := by
  obtain ⟨hok, packets, rest, hring, hopen, _, hall⟩ := kept_is_suffix_of_written
    [⟨⟨[104, 10], false⟩, 0⟩, ⟨⟨[120], false⟩, 0⟩] booted_plenty (by decide) Prod.mk.eta.symm
    (by decide +kernel)
  exact ⟨_, rfl, hok, packets, rest, hring, hopen, (hall (by decide)).mpr (by decide)⟩

/-- All three bytes of the call are accepted, and one of them is kept. -/
theorem nul_byte_cuts_write :
    ∃ run, run = (writeAll [⟨⟨[97, 0, 10], false⟩, 0⟩]).run false (booted plenty) ∧
      run.1 = .ok [3] ∧ run.2.heap.denied = 0 ∧ ringTexts run.2 = .ok [] ∧
      openText run.2 = .ok [97] ∧ ¬ ([] ++ [97] <:+ written [⟨⟨[97, 0, 10], false⟩, 0⟩]) := by
  refine ⟨_, rfl, ?_⟩
  decide +kernel

end Bytes

/-- Splitting a stream into writes in any way that keeps newlines at the end of
a write makes no difference. -/
theorem content_depends_on_stream {grant₁ grant₂ : Nat → Bool} {k₁ k₂ k₁' k₂' : Kernel}
    {r₁ r₂ : Except Fault (List Int)} (calls₁ calls₂ : List WriteCall)
    (hb₁ : Booted grant₁ k₁) (hb₂ : Booted grant₂ k₂)
    (hc : ∀ c ∈ calls₁ ++ calls₂, c.buf.data ≠ [] ∧ 0 ∉ c.buf.data ∧ c.buf.faults = false)
    (hlast : ∀ c ∈ calls₁ ++ calls₂, newline ∉ c.buf.data.dropLast)
    (hrun₁ : (writeAll calls₁).run false k₁ = (r₁, k₁')) (hden₁ : k₁'.heap.denied = 0)
    (hrun₂ : (writeAll calls₂).run false k₂ = (r₂, k₂')) (hden₂ : k₂'.heap.denied = 0)
    (hsame : written calls₁ = written calls₂) :
    ringTexts k₁' = ringTexts k₂' ∧ openText k₁' = openText k₂' ∧
      (∃ packets, ringTexts k₁' = .ok packets) ∧ ∃ rest, openText k₁' = .ok rest := by
  have hsplit : ∀ calls : List WriteCall, (∀ c ∈ calls, c ∈ calls₁ ++ calls₂) →
      ((Groups.of newline (calls.map (fun c => visible c.buf))).messages,
        (Groups.of newline (calls.map (fun c => visible c.buf))).rest.flatten) =
      Groups.split newline (written calls) := by
    intro calls hsub
    rw [map_visible calls (fun c hm => (hc c (hsub c hm)).2.1)]
    apply Groups.of_split
    intro part hpart
    obtain ⟨c, hm, rfl⟩ := List.mem_map.mp hpart
    exact hlast c (hsub c hm)
  have hplain : ∀ c ∈ calls₁ ++ calls₂, c.Plain := fun c hm => ⟨(hc c hm).1, (hc c hm).2.2⟩
  have hin₁ : ∀ c ∈ calls₁, c ∈ calls₁ ++ calls₂ := fun c hm => List.mem_append_left _ hm
  have hin₂ : ∀ c ∈ calls₂, c ∈ calls₁ ++ calls₂ := fun c hm => List.mem_append_right _ hm
  obtain ⟨_, hk₁⟩ := hb₁.write_all (fun c hm => hplain c (hin₁ c hm)) hrun₁ hden₁
  obtain ⟨_, hk₂⟩ := hb₂.write_all (fun c hm => hplain c (hin₂ c hm)) hrun₂ hden₂
  have heq := hsplit calls₁ hin₁
  rw [hsame, ← hsplit calls₂ hin₂] at heq
  obtain ⟨hmsg, hrest⟩ := Prod.mk.inj heq
  rw [hk₁.ringTexts, hk₂.ringTexts, hk₁.openText, hk₂.openText, hmsg, hrest]
  exact ⟨rfl, rfl, ⟨_, rfl⟩, ⟨_, rfl⟩⟩

/-- One packet in one write, and in two. -/
theorem content_of_split_packet :
    ringTexts ((writeAll [⟨⟨[97, 98, 10], false⟩, 0⟩]).run false (booted plenty)).2 =
      ringTexts ((writeAll [⟨⟨[97], false⟩, 0⟩, ⟨⟨[98, 10], false⟩, 0⟩]).run false
        (booted plenty)).2 :=
  (content_depends_on_stream [⟨⟨[97, 98, 10], false⟩, 0⟩]
    [⟨⟨[97], false⟩, 0⟩, ⟨⟨[98, 10], false⟩, 0⟩] booted_plenty booted_plenty (by decide)
    (by decide) Prod.mk.eta.symm (by decide +kernel) Prod.mk.eta.symm (by decide +kernel) rfl).1

/-- Two lines in one write become one entry, in two writes they become two. -/
theorem content_depends_on_writes :
    ∃ run₁ run₂, run₁ = (writeAll [⟨⟨[97, 10, 98, 10], false⟩, 0⟩]).run false (booted plenty) ∧
      run₂ = (writeAll [⟨⟨[97, 10], false⟩, 0⟩, ⟨⟨[98, 10], false⟩, 0⟩]).run false
        (booted plenty) ∧
      run₁.2.heap.denied = 0 ∧ run₂.2.heap.denied = 0 ∧ run₁.1 = .ok [4] ∧ run₂.1 = .ok [2, 2] ∧
      written [⟨⟨[97, 10, 98, 10], false⟩, 0⟩] =
        written [⟨⟨[97, 10], false⟩, 0⟩, ⟨⟨[98, 10], false⟩, 0⟩] ∧
      ringTexts run₁.2 = .ok [[97, 10, 98, 10]] ∧ ringTexts run₂.2 = .ok [[97, 10], [98, 10]] := by
  refine ⟨_, _, rfl, rfl, ?_⟩
  decide +kernel

end Aesd.Proofs
