import Aesd.Proofs.Drain
import Aesd.Proofs.Session

namespace Aesd.Proofs
open Base Driver Server CString Segments
open Base.Code (Ensures ensures_pure ensures_call grows_call)

variable {g : Groups UInt8} {w : World} {n : Nat} {p : Int} {skt limit fuel : Nat}

section Device

/-- Nothing goes over the connections. -/
structure Silent (w w' : World) : Prop where
  incoming : w'.incoming = w.incoming
  outgoing : w'.outgoing = w.outgoing
  sent : w'.sent = w.sent

theorem Keeps.world_write {bytes : List UInt8} (hk : Keeps w.kernel g)
    (hpos : w.position n = some p) (hne : bytes ≠ []) (h0 : 0 ∉ bytes) :
    Ensures refused (Code.call (World.sys.write (some n) bytes)) w (fun r w' =>
      (∃ c, r = .done c) ∧ Keeps w'.kernel (g.add newline bytes) ∧
      (∃ p', w'.position n = some p') ∧ Silent w w') := by
  have hfile : w.file (some n) = some (n, p) := by simp [World.file, hpos]
  have hwrite := hk.write ⟨⟨bytes, false⟩, p⟩ ⟨hne, rfl⟩
  refine ensures_call (fun hquiet => ?_)
  simp only [World.sys, World.write, hfile] at hquiet ⊢
  cases hrun : (aesdWrite ⟨bytes, false⟩ p).run false w.kernel with
  | mk r k =>
    obtain ⟨ret, k', hrun', hret, hk'⟩ := hwrite (by
      rw [hrun] at hquiet ⊢
      cases r <;> exact hquiet)
    obtain ⟨rfl, rfl⟩ := Prod.mk.inj (hrun.symm.trans hrun')
    have hvis : visible ⟨bytes, false⟩ = bytes := takeWhile_of_no_nul bytes h0
    have hle : 0 ≤ ret.1 := by
      rw [hret]
      exact Int.natCast_nonneg _
    rw [hvis] at hk'
    refine ⟨_, _, rfl, ⟨ret.1.toNat, if_pos hle⟩, hk',
      ⟨if 0 ≤ ret.1 then ret.2 else p, ?_⟩, ⟨rfl, rfl, rfl⟩⟩
    simp [World.moveTo]

theorem Keeps.total_lt {k : Kernel} (hk : Keeps k g) :
    (lengths (g.messages.rtake 10)).sum < 2 ^ 26 := by
  obtain ⟨q, o, hh, _, hq, _⟩ := hk
  rw [← hq]
  exact hh.total_lt

/-- Reads keep what the device has taken in. -/
theorem Keeps.read {k : Kernel} {buf : UserDest} {res : ReadResult} (hk : Keeps k g)
    (hread : ∀ q o, Healthy k q o → q.map Packet.text = g.messages.rtake 10 →
      Ensures denied (aesdRead buf p) k (fun r k' => r = res ∧ Healthy k' q o ∧
        k'.dev.buffer = k.dev.buffer)) :
    Ensures denied (aesdRead buf p) k (fun r k' => r = res ∧ Keeps k' g) := by
  obtain ⟨q, o, hh, ho, hq, hrest⟩ := hk
  exact (hread q o hh hq).imp (fun r k' _ ⟨hr, hh', _⟩ => ⟨hr, q, o, hh', ho, hq, hrest⟩)

theorem Keeps.world_read (res : ReadResult) (count : Nat) (hpos : w.position n = some p)
    (hret : 0 ≤ res.retval)
    (hread : Ensures denied (aesdRead ⟨count, none⟩ p) w.kernel
      (fun r k' => r = res ∧ Keeps k' g)) :
    Ensures refused (Code.call (World.sys.read (some n) count)) w (fun r w' =>
      r = .done (res.retval.toNat, res.delivered) ∧ Keeps w'.kernel g ∧
      w'.position n = some res.fPos ∧ Silent w w') := by
  have hfile : w.file (some n) = some (n, p) := by simp [World.file, hpos]
  refine ensures_call (fun hquiet => ?_)
  simp only [World.sys, World.read, hfile] at hquiet ⊢
  cases hrun : (aesdRead ⟨count, none⟩ p).run false w.kernel with
  | mk r k =>
    obtain ⟨res', k', hrun', rfl, hk'⟩ := hread (by
      rw [hrun] at hquiet ⊢
      cases r <;> exact hquiet)
    obtain ⟨rfl, rfl⟩ := Prod.mk.inj (hrun.symm.trans hrun')
    refine ⟨_, _, rfl, if_pos hret, hk', ?_, ⟨rfl, rfl, rfl⟩⟩
    simp [World.moveTo, hret]

end Device

section Receive
variable {buf chunk : List UInt8}

/-- The receive buffer between two chunks of a packet without newlines and
colons that is shorter than the buffer. -/
structure Stale (buf : List UInt8) : Prop where
  length : buf.length = READ_WRITE_SIZE
  last : buf[1023]? = some 0
  newline : newline ∉ buf
  colon : 58 ∉ buf

theorem stale_blank : Stale blankBuffer :=
  ⟨List.length_replicate, by rw [blankBuffer, List.getElem?_replicate]; rfl,
    fun h => absurd (List.eq_of_mem_replicate h) (by decide),
    fun h => absurd (List.eq_of_mem_replicate h) (by decide)⟩

theorem Stale.fill (hb : Stale buf) (hlen : chunk.length < READ_WRITE_SIZE) :
    fill buf chunk = .ok (chunk ++ buf.drop chunk.length) := by
  rw [Server.fill, if_pos (by rw [hb.length]; omega)]

theorem Stale.nul_mem (hb : Stale buf) (hlen : chunk.length < READ_WRITE_SIZE) :
    (chunk ++ buf.drop chunk.length)[1023]? = some 0 := by
  have hle : chunk.length ≤ 1023 := Nat.le_of_lt_succ hlen
  rw [List.getElem?_append_right hle, List.getElem?_drop, Nat.add_sub_cancel' hle, hb.last]

theorem Stale.no_colon (hb : Stale buf) (hc : 58 ∉ chunk) : 58 ∉ chunk ++ buf.drop chunk.length :=
  fun h => (List.mem_append.mp h).elim hc (fun h => hb.colon (List.mem_of_mem_drop h))

theorem Stale.next (hb : Stale buf) (hlen : chunk.length < READ_WRITE_SIZE)
    (hn : Driver.newline ∉ chunk) (hc : 58 ∉ chunk) : Stale (chunk ++ buf.drop chunk.length) := by
  refine ⟨?_, hb.nul_mem hlen, fun h => ?_, hb.no_colon hc⟩
  · simp only [List.length_append, List.length_drop, hb.length]
    omega
  · exact (List.mem_append.mp h).elim hn (fun h => hb.newline (List.mem_of_mem_drop h))

/-- The search for a newline sees that of the chunk, and none of an earlier one. -/
theorem Stale.contains (hb : Stale buf) (hlen : chunk.length < READ_WRITE_SIZE) (h0 : 0 ∉ chunk) :
    contains Driver.newline ((chunk ++ buf.drop chunk.length).map some) =
      .ok (decide (Driver.newline ∈ chunk)) := by
  by_cases hn : Driver.newline ∈ chunk
  · rw [contains_hit hn h0, decide_eq_true hn]
  · have hnot : Driver.newline ∉ chunk ++ buf.drop chunk.length := fun h =>
      (List.mem_append.mp h).elim hn (fun h => hb.newline (List.mem_of_mem_drop h))
    rw [contains_miss hnot (List.mem_of_getElem? (hb.nul_mem hlen)), decide_eq_false hn]

/-- Without a colon there is no seek command. -/
theorem not_isSeek (hc : 58 ∉ buf) : isSeek buf = false := by
  rw [isSeek, decide_eq_false_iff_not]
  intro he
  exact hc (List.mem_of_mem_take (he ▸ (by decide) : (58 : UInt8) ∈ buf.take 19))

/-- A packet as a client sends it: bytes other than NUL and colon, the last and
only the last one a newline, in chunks that are not empty. -/
structure OnePacket (chunks : List (List UInt8)) : Prop where
  nonempty : ∀ chunk ∈ chunks, chunk ≠ []
  ended : ∃ body, chunks.flatten = body ++ [newline] ∧ newline ∉ body
  clean : ∀ b ∈ chunks.flatten, b ≠ 0 ∧ b ≠ 58
  short : chunks.flatten.length < READ_WRITE_SIZE

/-- The chunks before the last one do not contain the newline. -/
theorem OnePacket.split {chunks : List (List UInt8)} (h : OnePacket chunks) :
    ∃ parts last, chunks = parts ++ [last] ∧ newline ∈ last ∧ ∀ part ∈ parts, newline ∉ part := by
  obtain ⟨body, hflat, hbody⟩ := h.ended
  have hne : chunks ≠ [] := by
    rintro rfl
    simp at hflat
  obtain ⟨parts, last, rfl⟩ : ∃ parts last, chunks = parts ++ [last] :=
    ⟨_, _, (List.dropLast_append_getLast hne).symm⟩
  have hlast : last ≠ [] := h.nonempty last (by simp)
  obtain ⟨front, b, rfl⟩ : ∃ front b, last = front ++ [b] :=
    ⟨_, _, (List.dropLast_append_getLast hlast).symm⟩
  have heq : (parts.flatten ++ front) ++ [b] = body ++ [newline] := by simpa using hflat
  obtain ⟨rfl, hb⟩ := List.append_inj' heq rfl
  obtain rfl : b = newline := by simpa using hb
  refine ⟨parts, _, rfl, by simp, fun part hp hn => hbody ?_⟩
  exact List.mem_append_left _ (List.mem_flatten.mpr ⟨part, hp, hn⟩)

/-- The parts of the system that a session on another connection leaves alone. -/
structure Others (skt : Nat) (w w' : World) : Prop where
  incoming : ∀ j, j ≠ skt → w'.incoming j = w.incoming j
  outgoing : ∀ j, j ≠ skt → w'.outgoing j = w.outgoing j
  sent : ∀ j, j ≠ skt → w'.sent j = w.sent j

theorem Others.trans {w₁ w₂ : World} (h₁ : Others skt w w₁) (h₂ : Others skt w₁ w₂) :
    Others skt w w₂ :=
  ⟨fun j hj => (h₂.incoming j hj).trans (h₁.incoming j hj),
    fun j hj => (h₂.outgoing j hj).trans (h₁.outgoing j hj),
    fun j hj => (h₂.sent j hj).trans (h₁.sent j hj)⟩

/-- One chunk of a packet goes to the device as it came. -/
theorem put_chunk (hk : Keeps w.kernel g) (hpos : w.position n = some p) (hb : Stale buf)
    (hne : chunk ≠ []) (h0 : 0 ∉ chunk) (hc : 58 ∉ chunk) :
    Ensures refused (putChunk World.sys skt (some n) limit (chunk ++ buf.drop chunk.length)
        chunk.length (fuel + 1)) w (fun ret w' =>
      ret = none ∧ Keeps w'.kernel (g.add newline chunk) ∧ (∃ p', w'.position n = some p') ∧
      Silent w w') := by
  have hseek := not_isSeek (hb.no_colon hc)
  have htake : (chunk ++ buf.drop chunk.length).take chunk.length = chunk := by simp
  have hg := sys_grows.putChunk skt (some n) limit (chunk ++ buf.drop chunk.length) chunk.length
    (fuel + 1)
  unfold putChunk at hg ⊢
  refine Ensures.lock ?_
  have hg₁ := hg.1
  simp only [Bool.false_eq_true, ↓reduceIte, hseek, htake] at hg₁ ⊢
  refine (hk.world_write hpos hne h0).bind hg₁ (fun r w' _ _ ⟨⟨c, hr⟩, hrest⟩ => ?_)
  subst hr
  exact Ensures.release (ensures_pure ⟨rfl, hrest⟩)

/-- What a chunk of a packet looks like. -/
structure Chunk (chunk : List UInt8) : Prop where
  nonempty : chunk ≠ []
  nul : 0 ∉ chunk
  short : chunk.length < READ_WRITE_SIZE

theorem OnePacket.each {chunks : List (List UInt8)} (h : OnePacket chunks) :
    ∀ chunk ∈ chunks, Chunk chunk ∧ 58 ∉ chunk := by
  intro chunk hc
  have hmem : ∀ b ∈ chunk, b ∈ chunks.flatten := fun b hb => List.mem_flatten.mpr ⟨chunk, hc, hb⟩
  refine ⟨⟨h.nonempty chunk hc, fun h0 => (h.clean 0 (hmem 0 h0)).1 rfl,
    Nat.lt_of_le_of_lt ?_ h.short⟩, fun h58 => (h.clean 58 (hmem 58 h58)).2 rfl⟩
  exact (List.sublist_flatten_of_mem hc).length_le

theorem world_recv {rest : List (Result (List UInt8))}
    (hin : w.incoming skt = .done chunk :: rest) (hshort : chunk.length < READ_WRITE_SIZE) :
    Ensures refused (Code.call (World.sys.recv skt)) w (fun r w' => r = .done chunk ∧
      w' = { w with incoming := Function.update w.incoming skt rest }) :=
  ensures_call (fun _ => ⟨.done chunk, _, World.recv_done hin (Nat.le_of_lt hshort), rfl, rfl⟩)

/-- What a session on one connection has received and not answered yet. -/
structure Received (skt : Nat) (rest : List (Result (List UInt8))) (w w' : World) : Prop where
  incoming : w'.incoming = Function.update w.incoming skt rest
  outgoing : w'.outgoing = w.outgoing
  sent : w'.sent = w.sent

theorem Received.others {rest : List (Result (List UInt8))} {w' : World}
    (h : Received skt rest w w') : Others skt w w' := by
  refine ⟨fun j hj => ?_, fun j _ => by rw [h.outgoing], fun j _ => by rw [h.sent]⟩
  rw [h.incoming, Function.update_of_ne hj]

/-- One round of the loop. It is the last one if the chunk has a newline. -/
theorem receive_chunk {rest : List (Result (List UInt8))} {R : Int → World → Prop}
    (hin : w.incoming skt = .done chunk :: rest) (hc : Chunk chunk) (hcolon : 58 ∉ chunk)
    (hk : Keeps w.kernel g) (hpos : w.position n = some p) (hb : Stale buf)
    (hnext : ∀ w' p', Keeps w'.kernel (g.add newline chunk) → w'.position n = some p' →
      Received skt rest w w' →
      Ensures refused (if newline ∈ chunk then pure 0 else receiveLoop World.sys skt (some n)
        (limit + 1) fuel (chunk ++ buf.drop chunk.length)) w' R) :
    Ensures refused (receiveLoop World.sys skt (some n) (limit + 1) (fuel + 1) buf) w R := by
  have hg := sys_grows.receiveLoop skt (some n) (limit + 1) (fuel + 1) buf
  unfold receiveLoop at hg ⊢
  refine (world_recv hin hc.short).bind hg (fun r w₁ hg₁ _ ⟨hr, hw₁⟩ => ?_)
  obtain ⟨b, bs, rfl⟩ := List.exists_cons_of_ne_nil hc.nonempty
  subst hr
  have hk₁ : Keeps w₁.kernel g := by rwa [hw₁]
  have hpos₁ : w₁.position n = some p := by rwa [hw₁]
  simp only [hb.fill hc.short, Code.ofExcept_ok_bind, hb.contains hc.short hc.nul] at hg₁ ⊢
  refine (put_chunk hk₁ hpos₁ hb hc.nonempty hc.nul hcolon).bind hg₁
    (fun ret w₂ _ _ ⟨hret, hk₂, ⟨p', hpos₂⟩, hsilent⟩ => ?_)
  subst hret hw₁
  simpa using hnext w₂ p' hk₂ hpos₂ ⟨hsilent.incoming, hsilent.outgoing, hsilent.sent⟩

/-- A packet goes to the device chunk by chunk, and the loop ends with it. -/
theorem receive_packet (parts : List (List UInt8)) {last : List UInt8}
    (hin : w.incoming skt = (parts ++ [last]).map .done)
    (hchunks : ∀ chunk ∈ parts ++ [last], Chunk chunk ∧ 58 ∉ chunk)
    (hparts : ∀ part ∈ parts, newline ∉ part) (hlast : newline ∈ last)
    (hk : Keeps w.kernel g) (hpos : w.position n = some p) (hb : Stale buf)
    (hfuel : parts.length < fuel) :
    Ensures refused (receiveLoop World.sys skt (some n) (limit + 1) fuel buf) w (fun ret w' =>
      ret = 0 ∧ Keeps w'.kernel ((parts ++ [last]).foldl (Groups.add newline) g) ∧
      Received skt [] w w') := by
  induction parts generalizing w fuel buf g p with
  | nil =>
    obtain ⟨fuel, rfl⟩ := Nat.exists_eq_succ_of_ne_zero (Nat.ne_zero_of_lt hfuel)
    obtain ⟨hc, hcolon⟩ := hchunks last (by simp)
    refine receive_chunk hin hc hcolon hk hpos hb (fun w' p' hk' _ hreceived => ?_)
    simp only [hlast, ↓reduceIte]
    exact ensures_pure ⟨rfl, hk', hreceived⟩
  | cons part parts ih =>
    obtain ⟨fuel, rfl⟩ := Nat.exists_eq_succ_of_ne_zero (Nat.ne_zero_of_lt hfuel)
    obtain ⟨hpc, hcolon⟩ := hchunks part (by simp)
    have hpn := hparts part (by simp)
    refine receive_chunk hin hpc hcolon hk hpos hb (fun w' p' hk' hpos' hreceived => ?_)
    simp only [hpn, ↓reduceIte]
    refine (ih (by rw [hreceived.incoming, Function.update_self]; rfl)
      (fun c hc => hchunks c (by simp_all)) (fun c hc => hparts c (by simp [hc])) hk' hpos'
      (hb.next hpc.short hpn hcolon) (by simpa using hfuel)).imp
      (fun ret w'' _ ⟨hret, hk'', hrest⟩ => ⟨hret, hk'', ?_⟩)
    refine ⟨?_, hrest.outgoing.trans hreceived.outgoing, hrest.sent.trans hreceived.sent⟩
    rw [hrest.incoming, hreceived.incoming, Function.update_idem]

end Receive

section Reply
variable {buf : List UInt8}

theorem send_reply (bytes : List UInt8) (hout : w.outgoing skt = []) :
    Ensures refused (sendLoop World.sys skt bytes (limit + 1)) w (fun ok w' => ok = true ∧
      w' = { w with sent := Function.update w.sent skt (w.sent skt ++ bytes) }) := by
  have hsend : Ensures refused (Code.call (World.sys.send skt bytes)) w (fun r w' =>
      r = .done bytes.length ∧
        w' = { w with sent := Function.update w.sent skt (w.sent skt ++ bytes) }) :=
    ensures_call (fun _ => ⟨_, _, World.send_all bytes hout, rfl, rfl⟩)
  refine hsend.bind (sys_grows.sendLoop skt bytes (limit + 1)) (fun r w' _ _ ⟨hr, hw'⟩ => ?_)
  subst hr
  exact ensures_pure ⟨rfl, hw'⟩

/-- What a session has answered. -/
structure Answered (skt : Nat) (bytes : List UInt8) (w w' : World) : Prop where
  incoming : w'.incoming = w.incoming
  outgoing : w'.outgoing = w.outgoing
  sent : w'.sent = Function.update w.sent skt (w.sent skt ++ bytes)

theorem Answered.others {bytes : List UInt8} {w' : World} (h : Answered skt bytes w w') :
    Others skt w w' := by
  refine ⟨fun j _ => by rw [h.incoming], fun j _ => by rw [h.outgoing], fun j hj => ?_⟩
  rw [h.sent, Function.update_of_ne hj]

theorem Answered.sent_self {bytes : List UInt8} {w' : World} (h : Answered skt bytes w w') :
    w'.sent skt = w.sent skt ++ bytes := by
  rw [h.sent, Function.update_self]

/-- A text and the zero byte behind it fit into the reply buffer, and the text
can be taken out again. -/
theorem fill_text (text : List UInt8) (hbuf : buf.length = READ_WRITE_SIZE)
    (hlen : text.length < READ_WRITE_SIZE) :
    fill buf (text ++ [0]) = .ok (text ++ [0] ++ buf.drop (text.length + 1)) ∧
      front (text ++ [0] ++ buf.drop (text.length + 1)) text.length = .ok text ∧
      (text ++ [0] ++ buf.drop (text.length + 1)).length = READ_WRITE_SIZE := by
  refine ⟨?_, ?_, ?_⟩
  · rw [fill, if_pos (by simp; omega)]
    simp
  · rw [front, if_pos (by simp), List.append_assoc, List.take_left']
    rfl
  · simp
    omega

/-- One round of the loop: the rest of one packet is read and sent. -/
theorem reply_packet {p i j : Nat} {R : Unit → World → Prop}
    (h : locate (lengths (g.messages.rtake 10)) p = some (i, j)) (hk : Keeps w.kernel g)
    (hshort : ∀ t ∈ g.messages.rtake 10, t.length < READ_WRITE_SIZE)
    (hpos : w.position n = some (p : Int)) (hp : p < 2 ^ 63) (hbuf : buf.length = READ_WRITE_SIZE)
    (hout : w.outgoing skt = [])
    (hnext : ∀ w' buf', Keeps w'.kernel g → buf'.length = READ_WRITE_SIZE →
      w'.position n = some ((p + (((g.messages.rtake 10).getD i []).length - j) : Nat) : Int) →
      Answered skt (((g.messages.rtake 10).getD i []).drop j) w w' →
      Ensures refused (readLoop World.sys skt (some n) (limit + 1) fuel buf') w' R) :
    Ensures refused (readLoop World.sys skt (some n) (limit + 1) (fuel + 1) buf) w R := by
  generalize htexts : g.messages.rtake 10 = texts at h hshort hnext
  have hj := ((locate_some_iff _ _ _ _).mp h).1
  rw [getD_lengths] at hj
  have hmem : texts.getD i [] ∈ texts := by
    rw [List.getD_eq_getElem?_getD] at hj ⊢
    cases hi : texts[i]? with
    | none => simp [hi] at hj
    | some t => exact List.mem_of_getElem? hi
  have hlen : ((texts.getD i []).drop j).length = (texts.getD i []).length - j := List.length_drop
  have hlt := hshort _ hmem
  obtain ⟨hfill, hfront, hbuf'⟩ := fill_text ((texts.getD i []).drop j) hbuf (by omega)
  have hread := Keeps.world_read ⟨((texts.getD i []).length - j : Nat),
    (p + ((texts.getD i []).length - j) : Nat), (texts.getD i []).drop j ++ [0]⟩ READ_WRITE_SIZE
    hpos (Int.natCast_nonneg _) (hk.read (fun q o hh hq => by
      rw [← htexts, ← hq] at h ⊢
      exact read_rest _ rfl hh hp h))
  have hg := sys_grows.readLoop skt (some n) (limit + 1) (fuel + 1) buf
  unfold readLoop at hg ⊢
  refine hread.bind hg (fun r w₁ hg₁ _ ⟨hr, hk₁, hpos₁, hsilent⟩ => ?_)
  subst hr
  have hne : ¬ (texts.getD i []).length - j = 0 := by omega
  rw [hlen] at hfill hfront hbuf'
  simp only [Int.toNat_natCast, hfill, hfront, Code.ofExcept_ok_bind, hne, ↓reduceIte] at hg₁ ⊢
  have hout₁ : w₁.outgoing skt = [] := by rw [hsilent.outgoing, hout]
  refine (send_reply _ hout₁).bind hg₁ (fun ok w₂ _ _ ⟨hok, hw₂⟩ => ?_)
  subst hok hw₂
  exact hnext _ _ hk₁ hbuf' hpos₁ ⟨hsilent.incoming, hsilent.outgoing, by rw [hsilent.sent]⟩

/-- The reply is what the reads deliver, without the zero bytes behind it. -/
theorem reply_of_reads {p p' : Nat} {cs : List (List UInt8)}
    (hreads : Reads (g.messages.rtake 10) p cs p') (hk : Keeps w.kernel g)
    (hshort : ∀ t ∈ g.messages.rtake 10, t.length < READ_WRITE_SIZE)
    (hpos : w.position n = some (p : Int)) (hp : p < 2 ^ 63) (hbuf : buf.length = READ_WRITE_SIZE)
    (hout : w.outgoing skt = []) (hfuel : cs.length < fuel) :
    Ensures refused (readLoop World.sys skt (some n) (limit + 1) fuel buf) w (fun _ w' =>
      Keeps w'.kernel g ∧ Answered skt cs.flatten w w') := by
  induction hreads generalizing w fuel buf with
  | @done p h =>
    obtain ⟨fuel, rfl⟩ := Nat.exists_eq_succ_of_ne_zero (Nat.ne_zero_of_lt hfuel)
    have hg := sys_grows.readLoop skt (some n) (limit + 1) (fuel + 1) buf
    unfold readLoop at hg ⊢
    have hread := Keeps.world_read ⟨0, p, []⟩ READ_WRITE_SIZE hpos
      (Int.le_refl 0) (hk.read (fun q o hh hq => read_at_end _ hh hp (by rwa [hq])))
    refine hread.bind hg (fun r w₁ _ _ ⟨hr, hk₁, _, hsilent⟩ => ?_)
    subst hr
    have hfill : fill buf [] = .ok buf := by simp [fill]
    simp only [hfill, Code.ofExcept_ok_bind]
    exact ensures_pure ⟨hk₁, hsilent.incoming, hsilent.outgoing, by simp [hsilent.sent]⟩
  | @more p p' i j cs h hrest ih =>
    obtain ⟨fuel, rfl⟩ := Nat.exists_eq_succ_of_ne_zero (Nat.ne_zero_of_lt hfuel)
    refine reply_packet h hk hshort hpos hp hbuf hout
      (fun w₁ buf₁ hk₁ hbuf₁ hpos₁ hanswered => ?_)
    have hp₁ : p + (((g.messages.rtake 10).getD i []).length - j) < 2 ^ 63 := by
      have hend := locate_end_le h
      have htotal := hk.total_lt
      omega
    refine (ih hk₁ hpos₁ hp₁ hbuf₁ (by rw [hanswered.outgoing, hout]) (by simpa using hfuel)).imp
      (fun _ w₂ _ ⟨hk₂, hrest⟩ => ⟨hk₂, hrest.incoming.trans hanswered.incoming,
        hrest.outgoing.trans hanswered.outgoing, ?_⟩)
    rw [hrest.sent, hanswered.sent, Function.update_self, Function.update_idem, List.flatten_cons,
      List.append_assoc]

end Reply

section Sessions

theorem OnePacket.length_le {chunks : List (List UInt8)} (h : OnePacket chunks) :
    chunks.length ≤ chunks.flatten.length := by
  have hle := List.length_le_sum_of_one_le (chunks.map List.length) (fun n hn => by
    obtain ⟨chunk, hc, rfl⟩ := List.mem_map.mp hn
    exact List.length_pos_iff.mpr (h.nonempty chunk hc))
  rwa [List.length_map, ← List.length_flatten] at hle

/-- What the device is to have taken in between two sessions: whole packets that
fit into the reply buffer. -/
structure Settled (k : Kernel) (packets : List (List UInt8)) : Prop where
  keeps : ∃ g : Groups UInt8, Keeps k g ∧ g.messages = packets ∧ g.rest = []
  short : ∀ p ∈ packets, p.length < READ_WRITE_SIZE

/-- What a connection carries, with calls on it that do not fail. -/
structure Online (w : World) (skt : Nat) (chunks : List (List UInt8)) : Prop where
  incoming : w.incoming skt = chunks.map .done
  outgoing : w.outgoing skt = []

theorem Online.others {chunks : List (List UInt8)} {w' : World} {j : Nat}
    (h : Online w j chunks) (hothers : Others skt w w') (hj : j ≠ skt) : Online w' j chunks :=
  ⟨(hothers.incoming j hj).trans h.incoming, (hothers.outgoing j hj).trans h.outgoing⟩

/-- The packet of a client becomes one new entry of the ring. -/
theorem Settled.receive {packets chunks : List (List UInt8)} (hs : Settled w.kernel packets)
    (hpacket : OnePacket chunks) (hin : w.incoming skt = chunks.map .done)
    (hpos : w.position n = some p) (hlimit : READ_WRITE_SIZE ≤ limit) :
    Ensures refused (receiveAndWriteToFile World.sys limit skt (some n)) w (fun ret w' =>
      ret = 0 ∧ Settled w'.kernel (packets ++ [chunks.flatten]) ∧ Received skt [] w w') := by
  obtain ⟨g, hk, hmsg, hrest⟩ := hs.keeps
  obtain ⟨parts, last, rfl, hlast, hparts⟩ := hpacket.split
  have hcount := hpacket.length_le
  have hsize := hpacket.short
  obtain ⟨limit, rfl⟩ := Nat.exists_eq_succ_of_ne_zero
    (Nat.ne_zero_of_lt (Nat.lt_of_lt_of_le hsize hlimit))
  rw [List.length_append, List.length_singleton] at hcount
  refine (receive_packet parts hin hpacket.each hparts hlast hk
    hpos stale_blank (by omega)).imp (fun ret w' _ ⟨hret, hk', hreceived⟩ => ?_)
  rw [Groups.foldl_add_message newline g parts last hparts hlast] at hk'
  refine ⟨hret, ⟨⟨_, hk', ?_, rfl⟩, ?_⟩, hreceived⟩
  · simp [Groups.messages, ← hmsg, hrest]
  · intro t ht
    rcases List.mem_append.mp ht with ht | ht
    · exact hs.short t ht
    · rw [List.mem_singleton.mp ht]
      exact hsize

/-- The reply of a session is the content of the ring from its position on. -/
theorem Settled.reply {packets : List (List UInt8)} {p : Nat} (hs : Settled w.kernel packets)
    (hpos : w.position n = some (p : Int)) (hp : p < 2 ^ 63) (hout : w.outgoing skt = [])
    (hlimit : READ_WRITE_SIZE ≤ limit) :
    Ensures refused (readFileAndSend World.sys limit skt (some n)) w (fun _ w' =>
      Settled w'.kernel packets ∧ Answered skt ((packets.rtake 10).flatten.drop p) w w') := by
  obtain ⟨g, hk, rfl, hrest⟩ := hs.keeps
  obtain ⟨cs, p', hreads, hlen⟩ := exists_reads (g.messages.rtake 10) p
  have hten : (g.messages.rtake 10).length ≤ 10 := by
    simp only [List.rtake, List.length_drop]
    omega
  have hlt : 10 < limit := Nat.lt_of_lt_of_le (by decide) hlimit
  obtain ⟨limit, rfl⟩ := Nat.exists_eq_succ_of_ne_zero (Nat.ne_zero_of_lt hlt)
  refine (reply_of_reads hreads hk (fun t ht => hs.short t (List.mem_of_mem_drop ht)) hpos
    hp List.length_replicate hout (by omega)).imp (fun _ w' _ ⟨hk', hanswered⟩ => ?_)
  rw [hreads.flatten] at hanswered
  exact ⟨⟨⟨g, hk', rfl, hrest⟩, hs.short⟩, hanswered⟩

/-- A session stores its packet and replies with the last ten. -/
theorem Settled.session {packets chunks : List (List UInt8)} (hs : Settled w.kernel packets)
    (honline : Online w skt chunks) (hpacket : OnePacket chunks)
    (hlimit : READ_WRITE_SIZE ≤ limit) :
    Ensures refused (dataProcessor World.sys limit skt) w (fun _ w' =>
      Settled w'.kernel (packets ++ [chunks.flatten]) ∧ Others skt w w' ∧
      w'.sent skt = w.sent skt ++ ((packets ++ [chunks.flatten]).rtake 10).flatten) := by
  have hg := sys_grows.dataProcessor limit skt
  let w₀ := { w.moveTo w.nextFd 0 with nextFd := w.nextFd + 1 }
  have hrecv : Ensures refused (receiveAndWriteToFile World.sys limit skt (some w.nextFd)) w₀ _ :=
    Settled.receive hs hpacket honline.incoming (Function.update_self _ _ _) hlimit
  refine Ensures.step (t := w₀) rfl rfl (hrecv.bind (hg w).2
    (fun ret w₁ hg₁ _ ⟨hret, hs₁, hreceived⟩ => ?_))
  rw [if_pos hret] at hg₁ ⊢
  let w₂ := { w₁ with position := Function.update w₁.position w.nextFd none }
  let w₃ := { w₂.moveTo w₁.nextFd 0 with nextFd := w₁.nextFd + 1 }
  have hout : w₃.outgoing skt = [] := (congrFun hreceived.outgoing skt).trans honline.outgoing
  have hreply : Ensures refused (readFileAndSend World.sys limit skt (some w₁.nextFd)) w₃ _ :=
    Settled.reply (p := 0) hs₁ (Function.update_self _ _ _) (by decide) hout hlimit
  refine Ensures.step (t := w₂) rfl rfl (Ensures.step (t := w₃) rfl rfl
    (hreply.bind ((hg₁ w₁).2 w₂).2 (fun _ w₄ _ _ ⟨hs₄, hanswered⟩ => ?_)))
  rw [List.drop_zero] at hanswered
  obtain ⟨hin₁, hout₁, hsent₁⟩ := hreceived.others
  obtain ⟨hin₄, hout₄, hsent₄⟩ := hanswered.others
  have hfirst : Others skt w w₁ := ⟨hin₁, hout₁, hsent₁⟩
  have hothers : Others skt w w₄ := hfirst.trans ⟨hin₄, hout₄, hsent₄⟩
  have hsent : w₁.sent skt = w.sent skt := congrFun hreceived.sent skt
  refine Ensures.step rfl rfl (ensures_call (fun _ => ⟨(), _, rfl, hs₄,
    ⟨hothers.incoming, hothers.outgoing, hothers.sent⟩,
    hanswered.sent_self.trans (congrArg (· ++ _) hsent)⟩))

/-- Sessions one after the other, on the connections listed. -/
def serve (limit : Nat) : List Nat → Code World Fault Unit
  | [] => return ()
  | skt :: skts => do
    dataProcessor World.sys limit skt
    serve limit skts

theorem grows_serve (limit : Nat) (skts : List Nat) : Code.Grows refused (serve limit skts) := by
  induction skts with
  | nil => trivial
  | cons skt skts ih => exact (sys_grows.dataProcessor limit skt).bind (fun _ => ih)

/-- The run of a sequence of sessions. The induction carries the packets that
are there already. -/
theorem Settled.serve {packets : List (List UInt8)} {segments : Nat → List (List UInt8)}
    (hs : Settled w.kernel packets) (hlimit : READ_WRITE_SIZE ≤ limit) (skts : List Nat)
    (hnodup : skts.Nodup) (honline : ∀ skt ∈ skts, Online w skt (segments skt))
    (hpackets : ∀ skt ∈ skts, OnePacket (segments skt)) (hnew : ∀ skt ∈ skts, w.sent skt = []) :
    Ensures refused (serve limit skts) w (fun _ w' =>
      Settled w'.kernel (packets ++ skts.map (fun j => (segments j).flatten)) ∧
      (∀ j ∉ skts, w'.sent j = w.sent j) ∧
      ∀ before skt after, skts = before ++ skt :: after → w'.sent skt =
        ((packets ++ (before ++ [skt]).map (fun j => (segments j).flatten)).rtake 10).flatten) := by
  induction skts generalizing w packets with
  | nil => exact ensures_pure ⟨by simpa using hs, fun _ _ => rfl, by simp⟩
  | cons skt skts ih =>
    obtain ⟨hout, hnodup⟩ := List.nodup_cons.mp hnodup
    have hne : ∀ j ∈ skts, j ≠ skt := fun j hj he => hout (he ▸ hj)
    refine (hs.session (honline skt List.mem_cons_self) (hpackets skt List.mem_cons_self)
      hlimit).bind (grows_serve limit (skt :: skts)) (fun _ w₁ _ _ ⟨hs₁, hothers, hsent⟩ => ?_)
    refine (ih hs₁ hnodup (fun j hj => ?_) (fun j hj => ?_) (fun j hj => ?_)).imp
      (fun _ w₂ _ ⟨hs₂, hrest, hall⟩ => ⟨?_, fun j hj => ?_, ?_⟩)
    · exact (honline j (List.mem_cons_of_mem _ hj)).others hothers (hne j hj)
    · exact hpackets j (List.mem_cons_of_mem _ hj)
    · rw [hothers.sent j (hne j hj)]
      exact hnew j (List.mem_cons_of_mem _ hj)
    · rwa [List.append_assoc] at hs₂
    · simp only [List.mem_cons, not_or] at hj
      rw [hrest j hj.2, hothers.sent j hj.1]
    · intro before j after heq
      cases before with
      | nil =>
        obtain ⟨rfl, rfl⟩ : skt = j ∧ skts = after := by simpa using heq
        rw [hrest skt hout, hsent, hnew skt List.mem_cons_self]
        rfl
      | cons b before =>
        obtain ⟨rfl, rfl⟩ : skt = b ∧ skts = before ++ j :: after := by simpa using heq
        rw [hall before j after rfl, List.append_assoc]
        rfl

theorem rtake_concat_flatten {α : Type} (l : List (List α)) (x : List α) (n : Nat) :
    x <:+ ((l ++ [x]).rtake (n + 1)).flatten := by
  rw [List.rtake_concat_succ, List.flatten_append]
  exact ⟨_, by simp; rfl⟩

/-- Every session is answered with the last ten packets, its own at the end. -/
theorem sessions_echo_last_ten {grant : Nat → Bool} {k₀ : Kernel} {past : Nat → Nat}
    {incoming : Nat → List (List UInt8)} {limit : Nat} {r : Except Fault Unit} {w : World}
    (skts : List Nat) (hnodup : skts.Nodup) (hb : Booted grant k₀)
    (hpackets : ∀ skt ∈ skts, OnePacket (incoming skt)) (hlimit : READ_WRITE_SIZE ≤ limit)
    (hrun : (serve limit skts).run false (World.online k₀ past incoming) = (r, w))
    (hden : w.kernel.heap.denied = 0) :
    r = .ok () ∧ ringTexts w.kernel = .ok ((skts.map (fun j => (incoming j).flatten)).rtake 10) ∧
      ∀ before skt after, skts = before ++ skt :: after →
        w.sent skt = (((before ++ [skt]).map (fun j => (incoming j).flatten)).rtake 10).flatten ∧
        (incoming skt).flatten <:+ w.sent skt := by
  have hempty : Settled (World.online k₀ past incoming).kernel [] :=
    ⟨⟨.empty, hb.keeps, rfl, rfl⟩, by simp⟩
  obtain ⟨_, w', hrun', ⟨⟨g, hk, hmsg, _⟩, _⟩, _, hsent⟩ := hempty.serve hlimit skts hnodup
    (fun _ _ => ⟨rfl, rfl⟩) hpackets (fun _ _ => rfl)
    (by rw [hrun]; exact hden.trans hb.allocated.2.1.symm)
  obtain ⟨rfl, rfl⟩ := Prod.mk.inj (hrun.symm.trans hrun')
  refine ⟨rfl, ?_, fun before skt after heq => ?_⟩
  · rw [hk.ringTexts, hmsg]
    rfl
  · have hreply := hsent before skt after heq
    refine ⟨hreply, ?_⟩
    rw [hreply, List.map_append]
    exact rtake_concat_flatten _ _ 9

/-- What two clients send: a packet in two chunks, and another one in one. -/
abbrev twoClients : Nat → List (List UInt8)
  | 0 => [[97, 98], [10]]
  | _ => [[99, 10]]

/-- The second client gets both packets. -/
theorem second_session_echoes_both :
    ((serve 1024 [0, 1]).run false (World.online (booted plenty) (fun _ => 0) twoClients)).2.sent 1 =
      [97, 98, 10, 99, 10] := by
  have hpackets : ∀ skt ∈ [0, 1], OnePacket (twoClients skt) := by
    intro skt hskt
    rcases List.mem_pair.mp hskt with rfl | rfl
    · exact ⟨by decide, ⟨[97, 98], rfl, by decide⟩, by decide +kernel, by decide⟩
    · exact ⟨by decide, ⟨[99], rfl, by decide⟩, by decide +kernel, by decide⟩
  exact ((sessions_echo_last_ten [0, 1] (by decide) booted_plenty hpackets (Nat.le_refl 1024)
    Prod.mk.eta.symm (by decide +kernel)).2.2 [0] 1 [] rfl).1

end Sessions

end Aesd.Proofs
