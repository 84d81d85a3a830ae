import Aesd.Proofs.Echo
import Aesd.Proofs.Seek
import Aesd.Proofs.SeekText

namespace Aesd.Proofs
open Base Driver Server CString Segments
open Base.Code (Ensures ensures_pure ensures_call)

/-- What a client can ask for in one session: that a packet is stored, or to be sent what
has been stored from some byte of one of the packets on. -/
inductive Request where
  | store (packet : List UInt8)
  | seek (writeCmd writeCmdOffset : Nat)

/-- Where the byte that a seek command names stands, and the start if there is none. The
end of a packet can be named too. -/
def seekPos (kept : List (List UInt8)) (c off : Nat) : Nat :=
  if c < kept.length ∧ off ≤ (kept.getD c []).length then ((lengths kept).take c).sum + off else 0

namespace Request

/-- The packets that have been stored, with this request. -/
def stores (packets : List (List UInt8)) : Request → List (List UInt8)
  | .store packet => packets ++ [packet]
  | .seek _ _ => packets

def reply (packets : List (List UInt8)) : Request → List UInt8
  | .store packet => ((packets ++ [packet]).rtake 10).flatten
  | .seek c off => (packets.rtake 10).flatten.drop (seekPos (packets.rtake 10) c off)

/-- The driver can be relied on to find the byte, since it stays inside the array. -/
def Reliable (packets : List (List UInt8)) : Request → Prop
  | .store _ => True
  | .seek c _ => packets.length < 10 ∨ c ≤ 1

end Request

theorem seekPos_le (kept : List (List UInt8)) (c off : Nat) :
    seekPos kept c off ≤ (lengths kept).sum := by
  unfold seekPos
  split
  · rename_i h
    calc ((lengths kept).take c).sum + off
        ≤ ((lengths kept).take c).sum + (lengths kept).getD c 0 := by
          rw [getD_lengths]
          exact Nat.add_le_add_left h.2 _
      _ = ((lengths kept).take (c + 1)).sum := (sum_take_succ _ c).symm
      _ ≤ (lengths kept).sum := sum_take_le _ _
  · exact Nat.zero_le _

section Driver
variable {k : Kernel} {q : List Packet} {o : Pending} {c : Nat}

/-- A seek through a file that has been opened only now. -/
theorem Sound.seek_start (hk : Sound k q o) (hreach : q.length < 10 ∨ c ≤ 1) (past : Nat → Nat)
    (off : Nat) :
    ∃ res, (aesdIoctl past AESDCHAR_IOCSEEKTO (some (c, off)) 0).run false k = (.ok res, k) ∧
      res.fPos = (seekPos (q.map Packet.text) c off : Nat) := by
  have hrun : (aesdIoctl past AESDCHAR_IOCSEEKTO (some (c, off)) 0).run false k = _ :=
    run_aesdAdjustFileOffset
  refine ⟨_, hrun, ?_⟩
  have hfits := hk.ring.holds.fits
  rw [List.length_map] at hfits
  have hget : ∀ i, (q.map Packet.text).getD i [] = ((q[i]?).map Packet.text).getD [] := by simp
  unfold seekPos
  rw [List.length_map, hget]
  by_cases hc : c ≥ 10
  · rw [if_pos hc, if_neg (by omega)]
    rfl
  · rw [if_neg hc, hk.seek_eq (Nat.lt_of_not_le hc)]
    cases hqc : q[c]? with
    | none =>
      have hle := List.getElem?_eq_none_iff.mp hqc
      rw [if_neg (by omega)]
      rfl
    | some p =>
      have hlt : c < q.length := (List.getElem?_eq_some_iff.mp hqc).1
      have hp := hk.bounded p (List.mem_of_getElem? hqc)
      dsimp only [Option.map_some, Option.getD_some]
      by_cases hoff : p.text.length < off
      · rw [if_pos hoff, if_neg (by omega)]
        rfl
      · have hin : k.dev.buffer.outOffs + c ≤ 10 := by
          rcases hreach with hfew | hfirst
          · have hstart := hk.ring.holds.start (by rwa [List.length_map])
            omega
          · have hout := hk.ring.holds.out_lt
            omega
        have hoff22 : off < 2 ^ 22 := by
          have : kmallocMaxSize = 2 ^ 22 := rfl
          omega
        have htotal := hk.total_lt
        have hle := sum_take_le (lengths (q.map Packet.text)) c
        rw [if_neg hoff, if_pos ⟨hlt, by omega⟩]
        dsimp only
        rw [hk.seek_total hlt hin hoff22, loff_of_lt (by omega)]

end Driver

section Session
variable {w : World} {packets : List (List UInt8)} {n skt limit fuel c off : Nat}
  {text : List UInt8}

theorem Settled.world_ioctl (hs : Settled w.kernel packets) (hpos : w.position n = some 0)
    (hreach : packets.length < 10 ∨ c ≤ 1) (off : Nat) :
    Ensures refused (Code.call (World.sys.ioctl (some n) c off)) w (fun _ w' =>
      w' = w.moveTo n (seekPos (packets.rtake 10) c off : Nat)) := by
  obtain ⟨g, ⟨q, o, hh, _, hq, _⟩, rfl, _⟩ := hs.keeps
  have hlen : q.length = min 10 g.messages.length := by
    rw [← Queue.length_rtake, ← hq, List.length_map]
  obtain ⟨res, hrun, hres⟩ := hh.seek_start (hreach.imp_left (fun h => by omega)) w.past off
  have hfile : w.file (some n) = some (n, 0) := by simp [World.file, hpos]
  refine ensures_call (fun _ => ⟨res.retval, _, ?_, rfl⟩)
  rw [hq] at hres
  simp only [World.sys, World.ioctl, hfile, hrun, hres]
  rfl

theorem Settled.put_seek (hs : Settled w.kernel packets) (hpos : w.position n = some 0)
    (hseek : isSeek (inBuffer text) = true)
    (hparse : parseSeekto (inBuffer text) = .ok (c, off)) (hreach : packets.length < 10 ∨ c ≤ 1)
    (hout : w.outgoing skt = []) (hlimit : READ_WRITE_SIZE ≤ limit) (m : Nat) :
    Ensures refused (putChunk World.sys skt (some n) limit (inBuffer text) m (fuel + 1)) w
      (fun ret w' => ret = some 1 ∧ Settled w'.kernel packets ∧
        Answered skt ((Request.seek c off).reply packets) w w') := by
  have hg := sys_grows.putChunk skt (some n) limit (inBuffer text) m (fuel + 1)
  unfold putChunk at hg ⊢
  refine Ensures.lock ?_
  have hg₁ := hg.1
  simp only [Bool.false_eq_true, ↓reduceIte, hseek, hparse, Code.ofExcept_ok_bind] at hg₁ ⊢
  refine (hs.world_ioctl hpos hreach off).bind hg₁ (fun ret w₁ hg₂ _ hw₁ => ?_)
  subst hw₁
  have hs₁ : Settled (w.moveTo n (seekPos (packets.rtake 10) c off : Nat)).kernel packets := hs
  have hbound : seekPos (packets.rtake 10) c off < 2 ^ 63 := by
    obtain ⟨g, hk, rfl, _⟩ := hs.keeps
    have hle := seekPos_le (g.messages.rtake 10) c off
    have htotal := hk.total_lt
    omega
  refine Ensures.release ((hs₁.reply (Function.update_self _ _ _) hbound hout hlimit).bind hg₂ ?_)
  intro _ w' _ _ hdone
  obtain ⟨hs', hanswered⟩ := hdone
  exact ensures_pure ⟨rfl, hs', hanswered.incoming, hanswered.outgoing, hanswered.sent⟩

theorem Settled.receive_seek (hs : Settled w.kernel packets) (hpos : w.position n = some 0)
    {rest : List (Result (List UInt8))} (hin : w.incoming skt = .done text :: rest)
    (hout : w.outgoing skt = []) (hproper : Proper text) (hseek : isSeek (inBuffer text) = true)
    (hparse : parseSeekto (inBuffer text) = .ok (c, off)) (hreach : packets.length < 10 ∨ c ≤ 1)
    (hlimit : READ_WRITE_SIZE ≤ limit) :
    Ensures refused (receiveAndWriteToFile World.sys limit skt (some n)) w (fun ret w' =>
      ret = 1 ∧ Settled w'.kernel packets ∧ Others skt w w' ∧
        w'.sent skt = w.sent skt ++ (Request.seek c off).reply packets) := by
  obtain ⟨limit, rfl⟩ := Nat.exists_eq_succ_of_ne_zero
    (Nat.ne_zero_of_lt (Nat.lt_of_lt_of_le (by decide : 0 < READ_WRITE_SIZE) hlimit))
  have hg := sys_grows.receiveLoop skt (some n) (limit + 1) (limit + 1) (inBuffer [])
  rw [receiveAndWriteToFile, blankBuffer_eq]
  unfold receiveLoop at hg ⊢
  refine (world_recv hin hproper.short).bind hg ?_
  intro r w₁ hg₁ _ hdone
  obtain ⟨hr, hw₁⟩ := hdone
  obtain ⟨b, bs, rfl⟩ := List.exists_cons_of_ne_nil hproper.nonempty
  have hfill := fill_inBuffer (by decide : ([] : List UInt8).length < READ_WRITE_SIZE) hproper.short
  rw [lay_nil] at hfill
  have hcontains := contains_inBuffer hproper.nul hproper.short
  subst hr
  simp only [hfill, hcontains, Code.ofExcept_ok_bind] at hg₁ ⊢
  have hs₁ : Settled w₁.kernel packets := by
    rw [hw₁]
    exact hs
  have hpos₁ : w₁.position n = some 0 := by
    rw [hw₁]
    exact hpos
  have hout₁ : w₁.outgoing skt = [] := by
    rw [hw₁]
    exact hout
  refine (hs₁.put_seek hpos₁ hseek hparse hreach hout₁ hlimit _).bind hg₁ ?_
  intro ret w₂ _ _ hdone
  obtain ⟨hret, hs₂, hanswered⟩ := hdone
  subst hret hw₁
  have hreceived : Received skt rest w { w with
      incoming := Function.update w.incoming skt rest } := ⟨rfl, rfl, rfl⟩
  exact ensures_pure ⟨rfl, hs₂, hreceived.others.trans hanswered.others, hanswered.sent_self⟩

/-- A session with a seek command stores nothing. -/
theorem Settled.seek_session (hs : Settled w.kernel packets) {rest : List (Result (List UInt8))}
    (hin : w.incoming skt = .done text :: rest) (hout : w.outgoing skt = [])
    (hproper : Proper text) (hseek : isSeek (inBuffer text) = true)
    (hparse : parseSeekto (inBuffer text) = .ok (c, off)) (hreach : packets.length < 10 ∨ c ≤ 1)
    (hlimit : READ_WRITE_SIZE ≤ limit) :
    Ensures refused (dataProcessor World.sys limit skt) w (fun _ w' =>
      Settled w'.kernel packets ∧ Others skt w w' ∧
        w'.sent skt = w.sent skt ++ (Request.seek c off).reply packets) := by
  have hg := sys_grows.dataProcessor limit skt
  let w₀ := { w.moveTo w.nextFd 0 with nextFd := w.nextFd + 1 }
  have hs₀ : Settled w₀.kernel packets := hs
  have hin₀ : w₀.incoming skt = .done text :: rest := hin
  have hout₀ : w₀.outgoing skt = [] := hout
  have hrecv := hs₀.receive_seek (Function.update_self _ _ _) hin₀ hout₀ hproper hseek hparse
    hreach hlimit
  refine Ensures.step (t := w₀) rfl rfl (hrecv.bind (hg w).2 ?_)
  intro ret w₁ _ _ hdone
  obtain ⟨hret, hs₁, hothers, hsent⟩ := hdone
  subst hret
  exact ensures_call (fun _ => ⟨(), _, rfl, hs₁,
    ⟨hothers.incoming, hothers.outgoing, hothers.sent⟩, hsent⟩)

/-- What a client sends stands for a request. A seek command arrives in one piece, and is
written such that the server finds both numbers. -/
inductive Asks : List (List UInt8) → Request → Prop
  | store {chunks : List (List UInt8)} (h : OnePacket chunks) : Asks chunks (.store chunks.flatten)
  | seek {text : List UInt8} {rest : List (List UInt8)} {c off : Nat} (hproper : Proper text)
      (hseek : isSeek (inBuffer text) = true)
      (hparse : parseSeekto (inBuffer text) = .ok (c, off)) : Asks (text :: rest) (.seek c off)

/-- A seek command with a comma behind each number. -/
def seekLine (c off : Nat) : List UInt8 :=
  specialString ++ (decimal c ++ 44 :: (decimal off ++ [44, newline]))

theorem seekFields_closed {a b : List UInt8} {z : Bytes} (h0a : 0 ∉ a) (h0b : 0 ∉ b) (ha : 44 ∉ a)
    (hb : 44 ∉ b) (hane : a ≠ []) (hbne : b ≠ []) :
    seekFields (a.map some ++ some 44 :: (b.map some ++ some 44 :: z)) =
      .ok ((atoi a % 2 ^ 32).toNat, (atoi b % 2 ^ 32).toNat) := by
  have hfirst : strtok 44 (a.map some ++ some 44 :: (b.map some ++ some 44 :: z)) =
      .ok (some a, b.map some ++ some 44 :: z) := strtok_word (by decide) h0a ha hane rfl
  have hsecond : strtok 44 (b.map some ++ some 44 :: z) = .ok (some b, z) :=
    strtok_word (by decide) h0b hb hbne rfl
  simp [seekFields, bind, Except.bind, pure, Except.pure, seekNumber, hfirst, hsecond]

/-- The server understands it as long as the numbers have three digits between them. -/
theorem asks_seekLine {rest : List (List UInt8)}
    (hlen : (decimal c).length + (decimal off).length ≤ 3) :
    Asks (seekLine c off :: rest) (.seek c off) := by
  have hc : 0 < (decimal c).length := List.length_pos_iff.mpr (decimal_ne_nil c)
  have hoff : 0 < (decimal off).length := List.length_pos_iff.mpr (decimal_ne_nil off)
  have hnul : ∀ n, (0 : UInt8) ∉ decimal n := notMem_decimal (by decide)
  have hcomma : ∀ n, (44 : UInt8) ∉ decimal n := notMem_decimal (by decide)
  have hlength : (seekLine c off).length = (decimal c).length + (decimal off).length + 22 := by
    simp [seekLine, specialString]
    omega
  have hproper : Proper (seekLine c off) := by
    refine ⟨by simp [seekLine], ?_, ?_⟩
    · have hspecial : (0 : UInt8) ∉ specialString := by decide
      simp [seekLine, hspecial, hnul, newline]
    · rw [hlength, READ_WRITE_SIZE]
      omega
  refine .seek hproper (by simp [isSeek, inBuffer, seekLine, specialString]) ?_
  have hdrop : (seekLine c off).drop 19 =
      (decimal c ++ 44 :: (decimal off ++ [44])) ++ [newline] := by
    simp [seekLine, specialString]
  rw [parseSeekto_eq hproper.nul hproper.short (by omega), if_neg (by omega), hdrop,
    List.take_append, List.take_of_length_le (by simp; omega)]
  simp only [List.map_append, List.map_cons, List.append_assoc, List.cons_append,
    List.nil_append]
  rw [seekFields_closed (hnul c) (hnul off) (hcomma c) (hcomma off) (decimal_ne_nil c)
    (decimal_ne_nil off), atoi_decimal, atoi_decimal, seekNumber_small, seekNumber_small]
  · have := (length_decimal_le_iff (n := off) (by decide : 0 < 3)).mp (by omega)
    omega
  · have := (length_decimal_le_iff (n := c) (by decide : 0 < 3)).mp (by omega)
    omega

/-- One session, whatever it is for. -/
theorem Settled.request {r : Request} {chunks : List (List UInt8)} (hs : Settled w.kernel packets)
    (honline : Online w skt chunks) (hasks : Asks chunks r) (hreliable : r.Reliable packets)
    (hlimit : READ_WRITE_SIZE ≤ limit) :
    Ensures refused (dataProcessor World.sys limit skt) w (fun _ w' =>
      Settled w'.kernel (r.stores packets) ∧ Others skt w w' ∧
        w'.sent skt = w.sent skt ++ r.reply packets) := by
  cases hasks with
  | store h => exact hs.session honline h hlimit
  | seek hproper hseek hparse =>
    exact hs.seek_session honline.incoming honline.outgoing hproper hseek hparse hreliable hlimit

end Session

section Sessions
variable {w : World} {packets : List (List UInt8)} {segments : Nat → List (List UInt8)}
  {limit : Nat} (request : Nat → Request)

/-- The packets that the sessions on some connections store, one after the other. -/
def packetsAfter (packets : List (List UInt8)) (skts : List Nat) : List (List UInt8) :=
  skts.foldl (fun packets skt => (request skt).stores packets) packets

/-- The run of a sequence of sessions. The induction carries the packets that are there
already. -/
theorem requests_served (hs : Settled w.kernel packets) (hlimit : READ_WRITE_SIZE ≤ limit)
    (skts : List Nat) (hnodup : skts.Nodup)
    (honline : ∀ skt ∈ skts, Online w skt (segments skt))
    (hasks : ∀ skt ∈ skts, Asks (segments skt) (request skt))
    (hreliable : ∀ before skt after, skts = before ++ skt :: after →
      (request skt).Reliable (packetsAfter request packets before))
    (hnew : ∀ skt ∈ skts, w.sent skt = []) :
    Ensures refused (serve limit skts) w (fun _ w' =>
      Settled w'.kernel (packetsAfter request packets skts) ∧ (∀ j ∉ skts, w'.sent j = w.sent j) ∧
      ∀ before skt after, skts = before ++ skt :: after →
        w'.sent skt = (request skt).reply (packetsAfter request packets before)) := by
  induction skts generalizing w packets with
  | nil => exact ensures_pure ⟨hs, fun _ _ => rfl, by simp⟩
  | cons skt skts ih =>
    obtain ⟨hout, hnodup⟩ := List.nodup_cons.mp hnodup
    have hne : ∀ j ∈ skts, j ≠ skt := fun j hj he => hout (he ▸ hj)
    have hfirst := hreliable [] skt skts rfl
    refine (hs.request (honline skt List.mem_cons_self) (hasks skt List.mem_cons_self) hfirst
      hlimit).bind (grows_serve limit (skt :: skts)) ?_
    intro _ w₁ _ _ hdone
    obtain ⟨hs₁, hothers, hsent⟩ := hdone
    refine (ih hs₁ hnodup ?_ ?_ ?_ ?_).imp ?_
    · intro j hj
      exact (honline j (List.mem_cons_of_mem _ hj)).others hothers (hne j hj)
    · intro j hj
      exact hasks j (List.mem_cons_of_mem _ hj)
    · intro before j after heq
      exact hreliable (skt :: before) j after (congrArg (skt :: ·) heq)
    · intro j hj
      rw [hothers.sent j (hne j hj)]
      exact hnew j (List.mem_cons_of_mem _ hj)
    · intro _ w₂ _ hdone
      obtain ⟨hs₂, hrest, hall⟩ := hdone
      refine ⟨hs₂, ?_, ?_⟩
      · intro j hj
        simp only [List.mem_cons, not_or] at hj
        rw [hrest j hj.2, hothers.sent j hj.1]
      · intro before j after heq
        cases before with
        | nil =>
          obtain ⟨rfl, rfl⟩ : skt = j ∧ skts = after := by simpa using heq
          rw [hrest skt hout, hsent, hnew skt List.mem_cons_self]
          rfl
        | cons b before =>
          obtain ⟨rfl, rfl⟩ : skt = b ∧ skts = before ++ j :: after := by simpa using heq
          exact hall before j after rfl

end Sessions

/-- Two clients that store a packet each, and one that looks for the second byte of the
first one. -/
def threeClients : Nat → List (List UInt8)
  | 0 => [[97, 98], [10]]
  | 1 => [[99, 10]]
  | _ => [seekLine 0 1]

def threeRequests : Nat → Request
  | 0 => .store [97, 98, 10]
  | 1 => .store [99, 10]
  | _ => .seek 0 1

end Aesd.Proofs
