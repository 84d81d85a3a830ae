import Aesd.Base.Segments
import Aesd.Server.Session
import Mathlib.Data.List.ReduceOption

namespace Aesd.Proofs
open Base Server

section Exchange
variable {σ : Type} {sys : Sys σ} {skt : Nat} {fd : Fd} {reads : σ → List (Option (List UInt8))}
  {writes : σ → List (Option Nat)} {sent : σ → List UInt8} {signal : Bool} {s : σ}

/-- A reply from the outside. `reads` is what `read` is still going to return before it
returns 0, and `writes` the numbers of bytes that the socket is going to take; `none`
stands for EINTR. `sent` is what the socket has taken. As the driver does, `read` may
store more than it reports. -/
structure Exchange (sys : Sys σ) (skt : Nat) (fd : Fd) (reads : σ → List (Option (List UInt8)))
    (writes : σ → List (Option Nat)) (sent : σ → List UInt8) : Prop where
  read : ∀ s bytes rest, reads s = some bytes :: rest → bytes.length ≤ READ_WRITE_SIZE →
    ∃ extra t, sys.read fd READ_WRITE_SIZE s = (.ok (.done (bytes.length, bytes ++ extra)), t) ∧
      (bytes ++ extra).length ≤ READ_WRITE_SIZE ∧ reads t = rest ∧ writes t = writes s ∧
      sent t = sent s
  readAgain : ∀ s rest, reads s = none :: rest →
    ∃ t, sys.read fd READ_WRITE_SIZE s = (.ok .eintr, t) ∧ reads t = rest ∧
      writes t = writes s ∧ sent t = sent s
  ended : ∀ s, reads s = [] →
    ∃ t, sys.read fd READ_WRITE_SIZE s = (.ok (.done (0, [])), t) ∧ sent t = sent s
  send : ∀ s bytes n rest, writes s = some n :: rest →
    ∃ t, sys.send skt bytes s = (.ok (.done n), t) ∧ reads t = reads s ∧ writes t = rest ∧
      sent t = sent s ++ bytes.take n
  sendAgain : ∀ s bytes rest, writes s = none :: rest →
    ∃ t, sys.send skt bytes s = (.ok .eintr, t) ∧ reads t = reads s ∧ writes t = rest ∧
      sent t = sent s

/-- Each chunk with the number of its bytes that the socket takes. -/
def chunksTaken (reads : List (Option (List UInt8))) (writes : List (Option Nat)) :
    List (List UInt8 × Nat) :=
  reads.reduceOption.zip writes.reduceOption

/-- The bytes that are taken of the chunks. -/
def bytesTaken (taken : List (List UInt8 × Nat)) : List UInt8 :=
  (taken.map (fun p => p.1.take p.2)).flatten

/-- The inner loop is over with the first write that is not interrupted. -/
theorem Exchange.sendLoop (hx : Exchange sys skt fd reads writes sent) (bytes : List UInt8)
    {ws : List (Option Nat)} {n : Nat} {ns : List Nat} (hws : writes s = ws)
    (hn : ws.reduceOption = n :: ns) :
    ∃ t, reads t = reads s ∧ (writes t).reduceOption = ns ∧ (writes t).length ≤ ws.length ∧
      sent t = sent s ++ bytes.take n ∧
      ∀ fuel, ws.length ≤ fuel → (sendLoop sys skt bytes fuel).run signal s = (.ok true, t) := by
  induction ws generalizing s with
  | nil => cases hn
  | cons w ws ih =>
    cases w with
    | none =>
      obtain ⟨u, hsend, hr, hw, hs⟩ := hx.sendAgain s bytes ws hws
      obtain ⟨t, hr', hns, hlen, hs', hrun⟩ := ih hw hn
      refine ⟨t, hr'.trans hr, hns, Nat.le_succ_of_le hlen, by rw [hs', hs], fun fuel hfuel => ?_⟩
      obtain ⟨extra, rfl⟩ := Nat.exists_eq_add_of_lt hfuel
      rw [Server.sendLoop, Code.run_bind, Code.run_call, hsend]
      exact hrun _ (Nat.le_add_right _ extra)
    | some m =>
      obtain ⟨t, hsend, hr, hw, hs⟩ := hx.send s bytes m ws hws
      obtain ⟨rfl, rfl⟩ := List.cons.inj hn
      refine ⟨t, hr, by rw [hw]; rfl, by rw [hw]; exact Nat.le_succ _, hs, fun fuel hfuel => ?_⟩
      obtain ⟨extra, rfl⟩ := Nat.exists_eq_add_of_lt hfuel
      rw [Server.sendLoop, Code.run_bind, Code.run_call, hsend]
      rfl

/-- What was read is what is handed to the socket. -/
theorem front_of_read {buf bytes extra : List UInt8} (hlen : (bytes ++ extra).length ≤ buf.length) :
    ∃ buf', fill buf (bytes ++ extra) = .ok buf' ∧ buf'.length = buf.length ∧
      front buf' bytes.length = .ok bytes := by
  refine ⟨_, if_pos hlen, ?_, ?_⟩
  · rw [List.length_append, List.length_drop]
    omega
  · rw [front, if_pos (by simp only [List.length_append]; omega), List.append_assoc,
      List.take_left]

/-- A round of the outer loop that hands on a chunk. -/
theorem run_readLoop_chunk {u v : σ} {n limit fuel : Nat} {buf buf' stored bytes : List UInt8}
    (hread : sys.read fd READ_WRITE_SIZE s = (.ok (.done (n, stored)), u)) (hn : n ≠ 0)
    (hfill : fill buf stored = .ok buf') (hfront : front buf' n = .ok bytes)
    (hsend : (sendLoop sys skt bytes limit).run signal u = (.ok true, v)) :
    (readLoop sys skt fd limit (fuel + 1) buf).run signal s =
      (readLoop sys skt fd limit fuel buf').run signal v := by
  rw [readLoop, Code.run_bind, Code.run_call, hread]
  dsimp only
  rw [hfill, Code.ofExcept_ok_bind, if_neg hn, hfront, Code.ofExcept_ok_bind, Code.run_bind, hsend]
  rfl

/-- The run of the outer loop. -/
theorem Exchange.readLoop (hx : Exchange sys skt fd reads writes sent) {buf : List UInt8}
    {rs : List (Option (List UInt8))} (hbuf : buf.length = READ_WRITE_SIZE) (hrs : reads s = rs)
    (hreads : ∀ b ∈ rs.reduceOption, 0 < b.length ∧ b.length ≤ READ_WRITE_SIZE)
    (hwrites : rs.reduceOption.length ≤ (writes s).reduceOption.length) :
    ∃ t, sent t = sent s ++ bytesTaken (chunksTaken rs (writes s)) ∧
      ∀ limit fuel, (writes s).length ≤ limit → rs.length < fuel →
        (readLoop sys skt fd limit fuel buf).run signal s = (.ok (), t) := by
  induction rs generalizing s buf with
  | nil =>
    obtain ⟨t, hread, hs⟩ := hx.ended s hrs
    refine ⟨t, by simp [hs, bytesTaken, chunksTaken], fun limit fuel _ hfuel => ?_⟩
    obtain ⟨extra, rfl⟩ := Nat.exists_eq_add_of_lt hfuel
    rw [Server.readLoop, Code.run_bind, Code.run_call, hread]
    rfl
  | cons r rs ih =>
    cases r with
    | none =>
      obtain ⟨u, hread, hr, hw, hs⟩ := hx.readAgain s rs hrs
      obtain ⟨t, ht, hrun⟩ := ih hbuf hr hreads (by rw [hw]; exact hwrites)
      rw [hw] at ht hrun
      refine ⟨t, by rw [ht, hs]; rfl, fun limit fuel hlimit hfuel => ?_⟩
      obtain ⟨extra, rfl⟩ := Nat.exists_eq_add_of_lt hfuel
      rw [Server.readLoop, Code.run_bind, Code.run_call, hread]
      exact hrun limit _ hlimit (Nat.lt_of_lt_of_le (Nat.lt_succ_self _) (Nat.le_add_right _ extra))
    | some bytes =>
      obtain ⟨⟨hpos, hfits⟩, hrest⟩ := List.forall_mem_cons.mp hreads
      obtain ⟨extra, u, hread, hstored, hr, hw, hs⟩ := hx.read s bytes rs hrs hfits
      obtain ⟨buf', hfill, hbuf', hfront⟩ := front_of_read (hbuf.symm ▸ hstored)
      -- there is a write for every chunk, so there is one for this
      obtain ⟨n, ns, hns⟩ : ∃ n ns, (writes s).reduceOption = n :: ns :=
        List.exists_cons_of_length_pos (Nat.lt_of_lt_of_le (Nat.succ_pos _) hwrites)
      obtain ⟨v, hrv, hwv, hlen, hsv, hsend⟩ := hx.sendLoop bytes hw hns
      obtain ⟨t, ht, hrun⟩ := ih (hbuf'.trans hbuf) (hrv.trans hr) hrest (by
        rw [hns] at hwrites
        rw [hwv]
        exact Nat.le_of_succ_le_succ hwrites)
      refine ⟨t, ?_, fun limit fuel hlimit hfuel => ?_⟩
      · rw [ht, hsv, hs, chunksTaken, chunksTaken, hwv, hns, List.append_assoc]
        rfl
      · obtain ⟨extra, rfl⟩ := Nat.exists_eq_add_of_lt hfuel
        rw [run_readLoop_chunk hread (Nat.ne_of_gt hpos) hfill hfront (hsend limit hlimit)]
        exact hrun limit _ (Nat.le_trans hlen hlimit)
          (Nat.lt_of_lt_of_le (Nat.lt_succ_self _) (Nat.le_add_right _ extra))

/-- All is taken exactly if all is taken of every chunk. -/
theorem bytesTaken_eq_iff {chunks : List (List UInt8)} {counts : List Nat}
    (hlen : chunks.length ≤ counts.length)
    (hle : ∀ p ∈ chunks.zip counts, p.2 ≤ p.1.length) :
    bytesTaken (chunks.zip counts) = chunks.flatten ↔
      ∀ p ∈ chunks.zip counts, p.2 = p.1.length := by
  have hchunks : ((chunks.zip counts).map Prod.fst).flatten = chunks.flatten := by
    rw [List.map_fst_zip hlen]
  rw [← hchunks, bytesTaken, Segments.flatten_eq_iff (fun p _ => List.take_prefix _ _)]
  refine forall₂_congr (fun p hp => ?_)
  rw [List.take_eq_self_iff]
  exact ⟨Nat.le_antisymm (hle p hp), Nat.le_of_eq ∘ Eq.symm⟩

/-- The reply is complete exactly if every write that is not interrupted takes all it
is given. What a short write leaves over is never sent. -/
theorem reply_complete_iff {σ : Type} {sys : Sys σ} {skt : Nat} {fd : Fd}
    {reads : σ → List (Option (List UInt8))} {writes : σ → List (Option Nat)}
    {sent : σ → List UInt8} (hx : Exchange sys skt fd reads writes sent) (signal : Bool) (s : σ)
    (hreads : ∀ b ∈ (reads s).reduceOption, 0 < b.length ∧ b.length ≤ READ_WRITE_SIZE)
    (hwrites : (reads s).reduceOption.length ≤ (writes s).reduceOption.length)
    (hcounts : ∀ p ∈ chunksTaken (reads s) (writes s), p.2 ≤ p.1.length) :
    ∃ t least, (∀ limit, least ≤ limit →
        (readFileAndSend sys limit skt fd).run signal s = (.ok (), t)) ∧
      (sent t = sent s ++ (reads s).reduceOption.flatten ↔
        ∀ p ∈ chunksTaken (reads s) (writes s), p.2 = p.1.length) := by
  obtain ⟨t, ht, hrun⟩ := hx.readLoop List.length_replicate rfl hreads hwrites
  refine ⟨t, (reads s).length + 1 + (writes s).length, fun limit hlimit => ?_, ?_⟩
  · exact hrun limit limit (by omega) (by omega)
  · rw [ht, List.append_cancel_left_eq]
    exact bytesTaken_eq_iff hwrites hcounts

/-- A reply and nothing else. A socket whose writes are used up takes everything. -/
structure Tape where
  reads : List (Option (List UInt8))
  writes : List (Option Nat)
  sent : List UInt8
  deriving DecidableEq

def taped : Sys Tape :=
  { openDevice := fun s => (.ok (some 0), s)
    closeDevice := fun _ s => (.ok (), s)
    recv := fun _ s => (.ok (.done []), s)
    send := fun _ bytes s => match s.writes with
      | [] => (.ok (.done bytes.length), { s with sent := s.sent ++ bytes })
      | none :: writes => (.ok .eintr, { s with writes })
      | some n :: writes => (.ok (.done n), { s with writes, sent := s.sent ++ bytes.take n })
    read := fun _ _ s => match s.reads with
      | [] => (.ok (.done (0, [])), s)
      | none :: reads => (.ok .eintr, { s with reads })
      | some bytes :: reads => (.ok (.done (bytes.length, bytes)), { s with reads })
    write := fun _ bytes s => (.ok (.done bytes.length), s)
    ioctl := fun _ _ _ s => (.ok 0, s)
    complete := fun _ s => (.ok (), s) }

theorem taped_exchange (skt : Nat) (fd : Fd) :
    Exchange taped skt fd Tape.reads Tape.writes Tape.sent where
  read := by
    rintro ⟨_, writes, sent⟩ bytes rest rfl hlen
    exact ⟨[], ⟨rest, writes, sent⟩, by simp [taped], by simpa using hlen, rfl, rfl, rfl⟩
  readAgain := by
    rintro ⟨_, writes, sent⟩ rest rfl
    exact ⟨⟨rest, writes, sent⟩, rfl, rfl, rfl, rfl⟩
  ended := by
    rintro ⟨_, writes, sent⟩ rfl
    exact ⟨_, rfl, rfl⟩
  send := by
    rintro ⟨reads, _, sent⟩ bytes n rest rfl
    exact ⟨⟨reads, rest, sent ++ bytes.take n⟩, rfl, rfl, rfl, rfl⟩
  sendAgain := by
    rintro ⟨reads, _, sent⟩ bytes rest rfl
    exact ⟨⟨reads, rest, sent⟩, rfl, rfl, rfl, rfl⟩

/-- Interruptions alone do no harm. -/
theorem interrupted_reply_complete :
    ∃ t least, (∀ limit, least ≤ limit → (readFileAndSend taped limit 0 none).run false
        ⟨[some [104, 105], none, some [10]], [none, some 2, none, some 1], []⟩ = (.ok (), t)) ∧
      t.sent = [104, 105, 10] := by
  obtain ⟨t, least, hrun, hiff⟩ := reply_complete_iff (taped_exchange 0 none) false
    ⟨[some [104, 105], none, some [10]], [none, some 2, none, some 1], []⟩ (by decide) (by decide)
    (by decide)
  exact ⟨t, least, hrun, hiff.mpr (by decide)⟩

/-- The socket takes one byte of three, and the other two are never sent. -/
theorem short_write_loses_rest :
    (readFileAndSend taped 2 0 none).run false ⟨[some [104, 105, 10]], [some 1], []⟩ =
      (.ok (), ⟨[], [], [104]⟩) := by
  decide +kernel

end Exchange

end Aesd.Proofs
