import Aesd.Proofs.Carriage
import Aesd.Proofs.Descriptors
import Aesd.Proofs.Handles

namespace Aesd.Proofs
open Base Driver Server CString Segments

section Device
variable {packets : List (List UInt8)} {chunk : List UInt8} {w : World} {n m : Nat} {p : Int}

/-- A packet that is written in one piece becomes the newest entry. -/
theorem Settled.world_write (hs : Settled w.kernel packets) (hpos : w.position n = some p)
    (hc : Chunk chunk) (hend : newline ∈ chunk)
    (hquiet : refused (World.sys.write (some n) chunk w).2 = refused w) :
    (∃ c, (World.sys.write (some n) chunk w).1 = .ok (.done c)) ∧
      Settled (World.sys.write (some n) chunk w).2.kernel (packets ++ [chunk]) ∧
      (World.sys.write (some n) chunk w).2.incoming = w.incoming := by
  obtain ⟨g, hk, hmsg, hrest⟩ := hs.keeps
  have hwrite := hk.world_write hpos hc.nonempty hc.nul
  rw [Code.Ensures, Code.run_call] at hwrite
  obtain ⟨r, w', hrun, ⟨c, rfl⟩, hk', _, hsilent⟩ := hwrite hquiet
  rw [hrun]
  refine ⟨⟨c, rfl⟩, ⟨⟨_, hk', ?_, ?_⟩, ?_⟩, hsilent.incoming⟩
  · simp [Groups.add, hend, Groups.messages, ← hmsg, hrest]
  · simp [Groups.add, hend]
  · intro t ht
    rcases List.mem_append.mp ht with ht | ht
    · exact hs.short t ht
    · rw [List.mem_singleton.mp ht]
      exact hc.short

/-- From the start of a packet a read gets all of it. Behind the last it gets nothing. -/
theorem Settled.world_read (hs : Settled w.kernel packets) (hten : packets.length ≤ 10)
    (hne : ∀ t ∈ packets, t ≠ [])
    (hpos : w.position n = some ((((lengths packets).take m).sum : Nat) : Int))
    (hquiet : refused (World.sys.read (some n) READ_WRITE_SIZE w).2 = refused w) :
    (packets[m]? = none ∧
      (World.sys.read (some n) READ_WRITE_SIZE w).1 = .ok (.done (0, []))) ∨
    ∃ t, packets[m]? = some t ∧
      (World.sys.read (some n) READ_WRITE_SIZE w).1 = .ok (.done (t.length, t ++ [0])) ∧
      (World.sys.read (some n) READ_WRITE_SIZE w).2.position n =
        some ((((lengths packets).take (m + 1)).sum : Nat) : Int) := by
  obtain ⟨g, hk, hmsg, _⟩ := hs.keeps
  have htexts : g.messages.rtake 10 = packets := by
    rw [hmsg]
    exact Queue.rtake_of_le packets hten
  have htotal := hk.total_lt
  rw [htexts] at htotal
  have hle := sum_take_le (lengths packets) m
  have hp : ((lengths packets).take m).sum < 2 ^ 63 := by omega
  cases hat : packets[m]? with
  | none =>
    have hend : locate (lengths packets) ((lengths packets).take m).sum = none := by
      rw [locate_none_iff, List.take_of_length_le]
      simpa [lengths] using hat
    have hread := Keeps.world_read ⟨0, ((lengths packets).take m).sum, []⟩ READ_WRITE_SIZE hpos
      (Int.le_refl 0) (hk.read (fun q o hh hq => read_at_end _ hh hp (by rwa [hq, htexts])))
    rw [Code.Ensures, Code.run_call] at hread
    obtain ⟨r, w', hrun, rfl, _⟩ := hread hquiet
    rw [hrun]
    exact Or.inl ⟨rfl, rfl⟩
  | some t =>
    have hloc := locate_start hat (hne t (List.mem_of_getElem? hat))
    have hget : packets.getD m [] = t := by rw [List.getD_eq_getElem?_getD, hat]; rfl
    have hread := Keeps.world_read
      ⟨(t.length : Nat), (((lengths packets).take m).sum + t.length : Nat), t ++ [0]⟩
      READ_WRITE_SIZE hpos (Int.natCast_nonneg _) (hk.read (fun q o hh hq => by
        have hrest := read_rest ⟨READ_WRITE_SIZE, none⟩ rfl hh hp (by rwa [hq, htexts])
        rw [hq, htexts, hget] at hrest
        simpa using hrest))
    rw [Code.Ensures, Code.run_call] at hread
    obtain ⟨r, w', hrun, rfl, _, hpos', _⟩ := hread hquiet
    rw [hrun]
    refine Or.inr ⟨t, rfl, rfl, ?_⟩
    rw [hpos', sum_take_succ, getD_lengths, hget]

theorem Settled.after_read (hs : Settled w.kernel packets) (fd : Fd) (count : Nat) :
    Settled (World.sys.read fd count w).2.kernel packets := by
  obtain ⟨⟨g, hk, hmsg⟩, hshort⟩ := hs
  exact ⟨⟨g, hk.after_read fd count, hmsg⟩, hshort⟩

/-- A packet that a client sends in one piece. It is not to be taken for a command. -/
structure OnePiece (packet : List UInt8) : Prop extends Chunk packet where
  ended : newline ∈ packet
  plain : ¬ specialString <+: packet

/-- It is no command, however it is followed. -/
theorem OnePiece.not_isSeek_append (hc : OnePiece chunk) (rest : List UInt8) :
    isSeek (chunk ++ rest) = false := by
  rw [isSeek, decide_eq_false_iff_not]
  intro he
  by_cases hlen : 19 ≤ chunk.length
  · rw [List.take_append_of_le_length hlen] at he
    apply hc.plain
    rw [← he]
    exact List.take_prefix 19 chunk
  · have hmem : newline ∈ (chunk ++ rest).take 19 := by
      rw [List.take_append]
      rw [List.take_of_length_le (by omega)]
      exact List.mem_append_left _ hc.ended
    rw [he] at hmem
    revert hmem
    decide

end Device

/-- The places of a session that was sent no command. It has a file open where it
needs one. -/
def usual : Place → Bool
  | .start => true
  | .outside (some _) => true
  | .inside (some _) => true
  | .between => true
  | .replying false (some _) => true
  | .pending false (some _) _ => true
  | .replied false (some _) => true
  | .marked (some _) => true
  | .finished false => true
  | .crashed => true
  | _ => false

/-- The session is done with receiving. -/
def answers : Place → Bool
  | .between => true
  | .replying _ _ => true
  | .pending _ _ _ => true
  | .replied _ _ => true
  | .marked _ => true
  | .finished _ => true
  | _ => false

/-- Where the packet of a client is: on its way, with the session, or in the device. -/
inductive Delivery (packet : List UInt8) (stored : Prop) :
    Parcel → List (Result (List UInt8)) → Prop
  | awaited (h : ¬ stored) : Delivery packet stored .awaited [.done packet]
  | taken (h : ¬ stored) : Delivery packet stored (.taken packet) []
  | stored (h : stored) : Delivery packet stored .stored []

/-- Each packet is in the device once or not at all. `order` lists the sessions that
have stored theirs. -/
structure Posted (packet : Nat → List UInt8) (started : Nat → Bool) (stage : Nat → Place)
    (parcel : Nat → Parcel) (order : List Nat) (w : World) : Prop where
  nodup : order.Nodup
  known : ∀ i ∈ order, started i = true
  settled : Settled w.kernel (order.map packet)
  each : ∀ i, Delivery (packet i) (i ∈ order) (parcel i) (w.incoming i)
  reliable : ∀ i, w.outgoing i = []
  usual : ∀ i, usual (stage i) = true
  later : ∀ i, answers (stage i) = true → i ∈ order

section Posted
variable {packet : Nat → List UInt8} {started : Nat → Bool} {stage : Nat → Place}
  {parcel : Nat → Parcel} {order : List Nat} {w w' : World} {i : Nat} {place' : Place}
  {parcel' : Parcel} {m m' : Shared World}

theorem incoming_read (fd : Fd) (count : Nat) (w : World) :
    (World.sys.read fd count w).2.incoming = w.incoming := by
  simp only [World.sys, World.read]
  split
  · rfl
  · split <;> rfl

theorem incoming_close (fd : Fd) (w : World) :
    (World.sys.closeDevice fd w).2.incoming = w.incoming := by
  cases fd <;> rfl

/-- What a step of session `i` has to show. The others keep what they have. -/
theorem Posted.set (hs : Posted packet started stage parcel order w) {order' : List Nat}
    (hnodup : order'.Nodup) (hknown : ∀ j ∈ order', started j = true)
    (horder : ∀ j, j ≠ i → (j ∈ order' ↔ j ∈ order))
    (hsettled : Settled w'.kernel (order'.map packet))
    (hincoming : ∀ j, j ≠ i → w'.incoming j = w.incoming j)
    (heach : Delivery (packet i) (i ∈ order') parcel' (w'.incoming i))
    (hreliable : ∀ j, w'.outgoing j = []) (husual : Proofs.usual place' = true)
    (hlater : answers place' = true → i ∈ order') :
    Posted packet started (Function.update stage i place') (Function.update parcel i parcel')
      order' w' := by
  refine ⟨hnodup, hknown, hsettled, ?_, hreliable, ?_, ?_⟩
  · intro j
    by_cases hj : j = i
    · subst hj
      rwa [Function.update_self]
    · rw [Function.update_of_ne hj, hincoming j hj, horder j hj]
      exact hs.each j
  · intro j
    by_cases hj : j = i
    · subst hj
      rwa [Function.update_self]
    · rw [Function.update_of_ne hj]
      exact hs.usual j
  · intro j hanswers
    by_cases hj : j = i
    · subst hj
      rw [Function.update_self] at hanswers
      exact hlater hanswers
    · rw [Function.update_of_ne hj] at hanswers
      exact (horder j hj).mpr (hs.later j hanswers)

/-- A step that moves no packet. -/
theorem Posted.move (hs : Posted packet started stage parcel order w)
    (hparcel : parcel' = parcel i) (hsettled : Settled w'.kernel (order.map packet))
    (hincoming : w'.incoming = w.incoming) (hreliable : ∀ j, w'.outgoing j = [])
    (husual : Proofs.usual place' = true) (hlater : answers place' = true → i ∈ order) :
    Posted packet started (Function.update stage i place') (Function.update parcel i parcel')
      order w' := by
  refine hs.set hs.nodup hs.known (fun _ _ => Iff.rfl) hsettled (fun j _ => ?_) ?_ hreliable
    husual hlater
  · rw [hincoming]
  · rw [hincoming, hparcel]
    exact hs.each i

/-- The session receives. -/
theorem Posted.recv (hs : Posted packet started stage parcel order w) (hc : Chunk (packet i))
    (hparcel : parcel' = afterRecv (parcel i) (World.sys.recv i w).1)
    (husual : Proofs.usual place' = true) (hlater : answers place' = true → i ∈ order) :
    Posted packet started (Function.update stage i place') (Function.update parcel i parcel')
      order (World.sys.recv i w).2 := by
  have heach := hs.each i
  generalize hold : parcel i = old at heach hparcel
  generalize hin : w.incoming i = incoming at heach
  cases heach with
  | awaited hnot =>
    obtain ⟨b, bs, hb⟩ := List.exists_cons_of_ne_nil hc.nonempty
    have hrecv : World.sys.recv i w = (.ok (.done (packet i)),
        { w with incoming := Function.update w.incoming i [] }) :=
      World.recv_done hin (Nat.le_of_lt hc.short)
    rw [hrecv] at hparcel ⊢
    refine hs.set hs.nodup hs.known (fun _ _ => Iff.rfl) hs.settled (fun j hj => ?_) ?_
      hs.reliable husual hlater
    · exact Function.update_of_ne hj _ _
    · rw [hparcel, hb]
      change Delivery (b :: bs) (i ∈ order) (.taken (b :: bs)) (Function.update w.incoming i [] i)
      rw [Function.update_self]
      exact .taken hnot
  | taken hnot | stored hmem =>
    have hrecv : World.sys.recv i w = (.ok (.done []), w) := World.recv_closed hin
    rw [hrecv] at hparcel ⊢
    exact hs.move (hparcel.trans hold.symm) hs.settled rfl hs.reliable husual hlater

/-- The session stores its packet. -/
theorem Posted.write (hs : Posted packet started stage parcel order w) (hc : OnePiece (packet i))
    (hi : started i = true) {n : Nat} {p : Int} {bytes : List UInt8}
    (hpos : w.position n = some p) (htaken : parcel i = .taken bytes)
    (hquiet : refused (World.sys.write (some n) bytes w).2 = refused w)
    (hparcel : refusedWrite (World.sys.write (some n) bytes w).1 = false → parcel' = .stored) :
    refusedWrite (World.sys.write (some n) bytes w).1 = false ∧
      Posted packet started (Function.update stage i (.inside (some n)))
        (Function.update parcel i parcel') (order ++ [i]) (World.sys.write (some n) bytes w).2 := by
  have heach := hs.each i
  rw [htaken] at heach
  generalize hin : w.incoming i = incoming at heach
  cases heach with
  | taken hnot =>
    obtain ⟨⟨c, hdone⟩, hsettled, hincoming⟩ :=
      hs.settled.world_write hpos hc.toChunk hc.ended hquiet
    have hok : refusedWrite (World.sys.write (some n) (packet i) w).1 = false := by
      rw [hdone]
      rfl
    refine ⟨hok, hs.set ?_ ?_ ?_ ?_ ?_ ?_ ?_ rfl (by simp [answers])⟩
    · rw [← List.concat_eq_append]
      exact List.Nodup.concat hnot hs.nodup
    · intro j hj
      rcases List.mem_append.mp hj with hj | hj
      · exact hs.known j hj
      · rw [List.mem_singleton.mp hj]
        exact hi
    · intro j hj
      simp [hj]
    · rw [List.map_append]
      exact hsettled
    · intro j _
      rw [hincoming]
    · rw [hparcel hok, hincoming, hin]
      exact .stored (by simp)
    · intro j
      rw [(through_write (some n) _ w).outgoing]
      exact hs.reliable j

theorem Posted.taken_eq (hs : Posted packet started stage parcel order w) {chunk : List UInt8}
    (htaken : parcel i = .taken chunk) : chunk = packet i := by
  have heach := hs.each i
  generalize w.incoming i = incoming at heach
  rw [htaken] at heach
  cases heach with
  | taken => rfl

theorem Posted.stored_of_ready (hs : Posted packet started stage parcel order w)
    (hready : parcel i = .stored ∨ parcel i = .lost) : i ∈ order := by
  have heach := hs.each i
  generalize w.incoming i = incoming at heach
  rcases hready with hready | hready
  · rw [hready] at heach
    cases heach with
    | stored hmem => exact hmem
  · rw [hready] at heach
    cases heach

theorem usual_afterRead {seek : Bool} {fd : Fd} {r : Except Fault (Result (Nat × List UInt8))}
    (husual : Proofs.usual (.replying seek fd) = true) (h : AfterRead seek fd r place') :
    Proofs.usual place' = true := by
  cases seek with
  | true => cases husual
  | false =>
    cases fd with
    | none => cases husual
    | some n => cases h <;> rfl

theorem usual_pending (seek : Bool) (fd : Fd) (bytes : List UInt8) :
    Proofs.usual (.pending seek fd bytes) = Proofs.usual (.replying seek fd) := by
  cases seek <;> cases fd <;> rfl

/-- A call of session `i`. Only a write adds to the packets in the device. -/
theorem Posted.act (hs : Posted packet started stage parcel order m.inner)
    (hc : OnePiece (packet i)) (hi : started i = true)
    (hopen : ∀ n, openFile (stage i) = some n → m.inner.position n ≠ none)
    (hact : Act World.sys.shared i (stage i) m place' m')
    (hcarries : Carries World.sys i (parcel i) m parcel' m')
    (hquiet : refused m'.inner = refused m.inner) :
    ∃ order', (order' = order ∨ order' = order ++ [i]) ∧
      Posted packet started (Function.update stage i place') (Function.update parcel i parcel')
        order' m'.inner := by
  have husual := hs.usual i
  have hlater := hs.later i
  have hreliable : ∀ j, m'.inner.outgoing j = [] := by
    intro j
    have hsuffix := (act_effect hact).outgoing j
    rwa [hs.reliable j, List.suffix_nil] at hsuffix
  generalize hplace : stage i = place at hact hopen husual hlater
  obtain ⟨call, hcalls, hdone⟩ := hcarries
  cases hact with
  | openFirst | openLast =>
    obtain rfl : .openDevice = call := by simpa [Sys.shared, traced] using hcalls
    exact ⟨order, Or.inl rfl, hs.move hdone hs.settled rfl hreliable rfl hlater⟩
  | @recv _ fd =>
    obtain rfl : .recv i = call := by simpa [Sys.shared, traced] using hcalls
    exact ⟨order, Or.inl rfl, hs.recv hc.toChunk hdone husual hlater⟩
  | @ioctl _ fd c o =>
    -- the chunk would have to be a command
    obtain rfl : .ioctl c o = call := by simpa [Sys.shared, traced] using hcalls
    obtain ⟨chunk, rest, htaken, hseek⟩ := hdone
    obtain rfl := hs.taken_eq htaken
    rw [hc.not_isSeek_append rest] at hseek
    cases hseek
  | @write _ fd bytes =>
    obtain rfl : .write bytes _ = call := by simpa [Sys.shared, traced] using hcalls
    obtain ⟨htaken, hstored⟩ := hdone
    cases fd with
    | none => cases husual
    | some n =>
      obtain ⟨p, hp⟩ := Option.ne_none_iff_exists'.mp (hopen n rfl)
      obtain ⟨hok, hs'⟩ := hs.write hc hi hp htaken hquiet hstored
      refine ⟨order ++ [i], Or.inr rfl, ?_⟩
      rw [if_neg]
      · exact hs'
      · change ¬ refusedWrite (World.sys.write (some n) bytes m.inner).1 = true
        simp [hok]
  | @closeFirst _ fd =>
    obtain rfl : .closeDevice = call := by simpa [Sys.shared, traced] using hcalls
    obtain ⟨hready, hsame⟩ := hdone
    refine ⟨order, Or.inl rfl, hs.move hsame ?_ (incoming_close fd _) hreliable rfl
      (fun _ => ?_)⟩
    · exact (kernel_close fd m.inner).symm ▸ hs.settled
    · exact hs.stored_of_ready hready
  | @read _ seek fd _ h =>
    obtain rfl : .read = call := by simpa [Sys.shared, traced] using hcalls
    exact ⟨order, Or.inl rfl, hs.move hdone (hs.settled.after_read fd _) (incoming_read fd _ _)
      hreliable (usual_afterRead husual h) (fun _ => hlater rfl)⟩
  | @send _ seek fd bytes =>
    obtain rfl : .send i bytes = call := by simpa [Sys.shared, traced] using hcalls
    refine ⟨order, Or.inl rfl, hs.move hdone hs.settled rfl hreliable ?_ (fun _ => hlater rfl)⟩
    have hsend : (World.sys.shared.send i bytes m).1 = .ok (.done bytes.length) :=
      congrArg Prod.fst (World.send_all bytes (hs.reliable i))
    rw [hsend]
    change Proofs.usual (.replying seek fd) = true
    rwa [usual_pending] at husual
  | @complete _ fd =>
    obtain rfl : .complete i = call := by simpa [Sys.shared, traced] using hcalls
    refine ⟨order, Or.inl rfl, hs.move hdone hs.settled rfl hreliable ?_ hlater⟩
    cases fd with
    | none => cases husual
    | some n => rfl
  | @closeLast _ fd =>
    obtain rfl : .closeDevice = call := by simpa [Sys.shared, traced] using hcalls
    refine ⟨order, Or.inl rfl, hs.move hdone.2 ?_ (incoming_close fd _) hreliable rfl hlater⟩
    exact (kernel_close fd m.inner).symm ▸ hs.settled
  | closeSought => cases husual

/-- A step that is no call. -/
theorem Posted.still (hs : Posted packet started stage parcel order w)
    (h : Still (stage i) place') :
    Posted packet started (Function.update stage i place') (Function.update parcel i (parcel i))
      order w := by
  have husual := hs.usual i
  have hlater := hs.later i
  generalize stage i = place at h husual hlater
  apply hs.move rfl hs.settled rfl hs.reliable
  · cases h with
    | stay => exact husual
    | @enter fd | @leave fd =>
      cases fd with
      | none => cases husual
      | some n => rfl
    | answer => cases husual
  · cases h with
    | stay => exact hlater
    | enter | leave => simp [answers]
    | answer => cases husual

end Posted

/-- How far the reply of session `i` is, of which `count` packets were sent. -/
def Standing (packets : List (List UInt8)) (done : Prop) (count : Nat) (w : World) :
    Place → Prop
  | .replying _ fd => ∀ n, fd = some n →
      w.position n = some ((((lengths packets).take count).sum : Nat) : Int)
  | .pending _ fd bytes => packets[count]? = some bytes ∧ ∀ n, fd = some n →
      w.position n = some ((((lengths packets).take (count + 1)).sum : Nat) : Int)
  | .replied _ _ => done
  | .marked _ => done
  | .finished _ => done
  | .crashed => True
  | _ => count = 0

/-- What client `i` was sent are the first `count` packets of the device. When the reply
is complete its own is among them. -/
structure Told (packet : Nat → List UInt8) (order : List Nat) (i count : Nat) (place : Place)
    (w : World) : Prop where
  le : count ≤ order.length
  sent : w.sent i = ((order.take count).map packet).flatten
  standing : Standing (order.map packet) (i ∈ order.take count) count w place

section Told
variable {packet : Nat → List UInt8} {order : List Nat} {w w' : World} {i j count : Nat}
  {place place' : Place} {m m' : Shared World}

/-- Steps of the others change nothing about it. -/
theorem Told.frame (hs : Told packet order i count place w) (hsent : w'.sent i = w.sent i)
    (hposition : ∀ n, openFile place = some n → w'.position n = w.position n) :
    Told packet order i count place w' := by
  refine ⟨hs.le, hsent.trans hs.sent, ?_⟩
  have hstanding := hs.standing
  cases place with
  | replying seek fd =>
    intro n hn
    rw [hposition n hn]
    exact hstanding n hn
  | pending seek fd bytes =>
    refine ⟨hstanding.1, fun n hn => ?_⟩
    rw [hposition n hn]
    exact hstanding.2 n hn
  | start | outside | inside | sought | between | replied | marked | finished | crashed =>
    exact hstanding

/-- Packets that come later are behind the ones that were read. -/
theorem Told.append (hs : Told packet order i count place w) (later : List Nat) :
    Told packet (order ++ later) i count place w := by
  have htake : (order ++ later).take count = order.take count :=
    List.take_append_of_le_length hs.le
  have hstanding := hs.standing
  refine ⟨?_, ?_, ?_⟩
  · rw [List.length_append]
    exact Nat.le_add_right_of_le hs.le
  · rw [htake]
    exact hs.sent
  · rw [htake]
    cases place with
    | replying seek fd =>
      intro n hn
      rw [hstanding n hn, List.map_append, take_lengths_append]
      simpa using hs.le
    | pending seek fd bytes =>
      have hlt : count < (order.map packet).length :=
        (List.getElem?_eq_some_iff.mp hstanding.1).1
      refine ⟨?_, fun n hn => ?_⟩
      · rw [List.map_append, List.getElem?_append_left hlt]
        exact hstanding.1
      · rw [hstanding.2 n hn, List.map_append, take_lengths_append]
        exact hlt
    | start | outside | inside | sought | between | replied | marked | finished | crashed =>
      exact hstanding

theorem Told.still (hs : Told packet order i count place w) (h : Still place place')
    (husual : usual place = true) : Told packet order i count place' w := by
  cases h with
  | stay => exact hs
  | enter | leave => exact ⟨hs.le, hs.sent, hs.standing⟩
  | answer => cases husual

theorem standing_of_end {packets : List (List UInt8)} {done : Prop} {seek : Bool} {fd : Fd}
    {r : Except Fault (Result (Nat × List UInt8))} (hr : r = .ok (.done (0, []))) (hdone : done)
    (h : AfterRead seek fd r place') : Standing packets done count w place' := by
  cases h with
  | eintr | failed => cases hr
  | atEnd => exact hdone
  | got hn =>
    cases hr
    exact absurd rfl hn
  | crashed => trivial

theorem standing_of_packet {packets : List (List UInt8)} {done : Prop} {seek : Bool} {n : Nat}
    {t : List UInt8} {r : Except Fault (Result (Nat × List UInt8))}
    (hr : r = .ok (.done (t.length, t ++ [0]))) (hne : t ≠ []) (ht : packets[count]? = some t)
    (hposition : w.position n = some ((((lengths packets).take (count + 1)).sum : Nat) : Int))
    (h : AfterRead seek (some n) r place') : Standing packets done count w place' := by
  cases h with
  | eintr | failed => cases hr
  | atEnd =>
    simp only [Except.ok.injEq, Result.done.injEq, Prod.mk.injEq] at hr
    exact absurd (List.length_eq_zero_iff.mp hr.1.symm) hne
  | @got _ _ rest hn =>
    simp only [Except.ok.injEq, Result.done.injEq, Prod.mk.injEq] at hr
    obtain ⟨rfl, rfl⟩ := hr
    refine ⟨?_, fun n' hn' => ?_⟩
    · rw [List.append_assoc, List.take_left]
      exact ht
    · obtain rfl := Option.some.inj hn'
      exact hposition
  | crashed => trivial

/-- The session reads. It gets the next packet, or it is behind the last. -/
theorem Told.read {seek : Bool} {n : Nat}
    (hs : Told packet order i count (.replying seek (some n)) w)
    (hsettled : Settled w.kernel (order.map packet)) (hten : order.length ≤ 10)
    (hne : ∀ j, packet j ≠ []) (hi : i ∈ order)
    (hquiet : refused (World.sys.read (some n) READ_WRITE_SIZE w).2 = refused w)
    (h : AfterRead seek (some n) (World.sys.read (some n) READ_WRITE_SIZE w).1 place') :
    Told packet order i count place' (World.sys.read (some n) READ_WRITE_SIZE w).2 := by
  have hsent := congrFun (through_read (some n) READ_WRITE_SIZE w).sent i
  refine ⟨hs.le, hsent.trans hs.sent, ?_⟩
  have hfilled : ∀ t ∈ order.map packet, t ≠ [] := by
    intro t ht
    obtain ⟨j, _, rfl⟩ := List.mem_map.mp ht
    exact hne j
  rcases hsettled.world_read (by rwa [List.length_map]) hfilled (hs.standing n rfl) hquiet with
    ⟨hnone, hr⟩ | ⟨t, ht, hr, hposition⟩
  · apply standing_of_end hr _ h
    rw [List.take_of_length_le]
    · exact hi
    · simpa using hnone
  · exact standing_of_packet hr (hfilled t (List.mem_of_getElem? ht)) ht hposition h

/-- The session sends the packet that it has read. -/
theorem Told.send {seek : Bool} {fd : Fd} {bytes : List UInt8}
    (hs : Told packet order i count (.pending seek fd bytes) w) (hout : w.outgoing i = []) :
    Told packet order i (count + 1) (afterSend seek fd bytes (World.sys.send i bytes w).1)
      (World.sys.send i bytes w).2 := by
  obtain ⟨hbytes, hposition⟩ := hs.standing
  obtain ⟨hlt, hget⟩ := List.getElem?_eq_some_iff.mp hbytes
  rw [List.length_map] at hlt
  have hsend : World.sys.send i bytes w = _ := World.send_all bytes hout
  rw [hsend]
  refine ⟨hlt, ?_, hposition⟩
  change Function.update w.sent i (w.sent i ++ bytes) i = _
  rw [Function.update_self, hs.sent, List.take_succ_eq_append_getElem hlt, List.map_append,
    List.flatten_append, ← hget]
  simp

/-- A call of the session itself. -/
theorem Told.act (hs : Told packet order i count place m.inner)
    (hsettled : Settled m.inner.kernel (order.map packet)) (hten : order.length ≤ 10)
    (hne : ∀ j, packet j ≠ []) (husual : usual place = true)
    (hlater : answers place = true → i ∈ order) (hout : m.inner.outgoing i = [])
    (h : Act World.sys.shared i place m place' m')
    (hquiet : refused m'.inner = refused m.inner) :
    ∃ count', Told packet order i count' place' m'.inner := by
  cases h with
  | openFirst => exact ⟨count, hs.le, hs.sent, hs.standing⟩
  | openLast =>
    refine ⟨count, hs.le, hs.sent, ?_⟩
    obtain rfl : count = 0 := hs.standing
    intro n hn
    obtain rfl := Option.some.inj hn
    exact Function.update_self ..
  | @recv _ fd =>
    have hthrough := through_recv fd i m.inner
    exact ⟨count, hs.le, (congrFun hthrough.sent i).trans hs.sent, hs.standing⟩
  | @write _ fd bytes =>
    have hthrough := through_write fd bytes m.inner
    refine ⟨count, hs.le, (congrFun hthrough.sent i).trans hs.sent, ?_⟩
    split <;> exact hs.standing
  | @ioctl _ fd c o =>
    have hthrough := through_ioctl fd c o m.inner
    exact ⟨count, hs.le, (congrFun hthrough.sent i).trans hs.sent, hs.standing⟩
  | @read _ seek fd _ h =>
    cases fd with
    | none => cases seek <;> cases husual
    | some n => exact ⟨count, hs.read hsettled hten hne (hlater rfl) hquiet h⟩
  | send => exact ⟨count + 1, hs.send hout⟩
  | complete => exact ⟨count, hs.le, hs.sent, hs.standing⟩
  | @closeFirst _ fd | @closeLast _ fd | @closeSought _ fd =>
    refine ⟨count, hs.le, ?_, hs.standing⟩
    cases fd <;> exact hs.sent

end Told

/-- The sessions and the packets of their clients. -/
structure Echoing (packet : Nat → List UInt8) (started : Nat → Bool) (stage : Nat → Place)
    (parcel : Nat → Parcel) (order : List Nat) (pool : System Nat Nat (Shared World) Fault) :
    Prop where
  carried : System.Staged (carriage World.sys) (fun _ => True) parcel pool
  awaited : ∀ i, started i = false → parcel i = .awaited
  posted : Posted packet started stage parcel order pool.mem.inner
  told : order.length ≤ 10 → ∀ i, ∃ count, Told packet order i count (stage i) pool.mem.inner

section Echoing
variable {limit : Nat} {packet : Nat → List UInt8} {started : Nat → Bool} {stage : Nat → Place}
  {file : Nat → Fd} {parcel : Nat → Parcel} {order : List Nat}
  {pool pool' : System Nat Nat (Shared World) Fault} {place' : Place}

theorem echoing_start {grant : Nat → Bool} {k₀ : Kernel} (hb : Booted grant k₀)
    (past : Nat → Nat) (flags : Nat → Nat) :
    Echoing packet (fun _ => false) (fun _ => .start) (fun _ => .awaited) []
      (.start ⟨World.online k₀ past (fun i => [packet i]), flags, []⟩) where
  carried i t ht := by cases ht
  awaited _ _ := rfl
  posted := by
    refine ⟨List.nodup_nil, by simp, ?_, fun i => .awaited (by simp), fun _ => rfl,
      fun _ => rfl, ?_⟩
    · exact ⟨⟨.empty, hb.keeps, rfl, rfl⟩, by simp⟩
    · intro i hi
      cases hi
  told _ i := ⟨0, Nat.le_refl _, rfl, rfl⟩

theorem Echoing.flags (hs : Echoing packet started stage parcel order pool) (f : Nat → Nat) :
    Echoing packet started stage parcel order
      { pool with mem := { pool.mem with threadComplete := f } } :=
  ⟨hs.carried, hs.awaited, hs.posted, hs.told⟩

theorem Echoing.launch (hs : Echoing packet started stage parcel order pool) {i : Nat}
    (hi : started i = false) (hnone : pool.tasks i = none) :
    Echoing packet (Function.update started i true) stage parcel order
      (pool.goto i (some ⟨i, dataProcessor World.sys.shared limit i⟩)) := by
  have h : System.Step (dataProcessor World.sys.shared limit) pool _ _ := .invoke i hnone
  obtain ⟨_, ⟨rfl, _⟩, hcarried⟩ :=
    hs.carried.step h (fun _ => carriage_dataProcessor World.sys limit i)
  rw [← hs.awaited i hi, Function.update_eq_self] at hcarried
  refine ⟨hcarried, ?_, ?_, hs.told⟩
  · intro j hj
    apply hs.awaited
    by_cases hji : j = i
    · rwa [hji]
    · rwa [Function.update_of_ne hji] at hj
  · refine ⟨hs.posted.nodup, fun j hj => ?_, hs.posted.settled, hs.posted.each,
      hs.posted.reliable, hs.posted.usual, hs.posted.later⟩
    by_cases hji : j = i
    · rw [hji, Function.update_self]
    · rw [Function.update_of_ne hji]
      exact hs.posted.known j hj

theorem carries_or_kept {parcel parcel' : Parcel} {m m' : Shared World} {e : Event Nat Nat}
    {i : Nat} (hkind : e.kind ≠ .invoke) (hcall : e.call = i)
    (h : System.Moves (carriage World.sys) (fun _ => True) .awaited e parcel m parcel' m') :
    (e.kind = .act → Carries World.sys i parcel m parcel' m') ∧
      (e.kind ≠ .act → parcel' = parcel) := by
  subst hcall
  unfold System.Moves at h
  cases hk : e.kind with
  | invoke => exact absurd hk hkind
  | acquire | interrupt | unlock =>
    simp only [hk] at h
    exact ⟨by simp, fun _ => h.1⟩
  | act =>
    simp only [hk] at h
    exact ⟨fun _ => h, by simp⟩
  | finish =>
    simp only [hk] at h
    exact ⟨by simp, fun _ => h.2.1⟩

/-- What the others were told stays true when session `i` makes a call. -/
theorem Held.told_of_ne (hh : Held started stage file pool) {i j count : Nat} (hj : j ≠ i)
    {m' : Shared World} (hact : Act World.sys.shared i (stage i) pool.mem place' m')
    (hs : Told packet order j count (stage j) pool.mem.inner) :
    Told packet order j count (stage j) m'.inner := by
  have heffect := act_effect hact
  apply hs.frame (heffect.sent j hj)
  intro n hn
  have hfile : file j = some n := by
    rcases hh.file_eq j with hfile | hcrashed
    · rwa [hfile]
    · rw [hcrashed] at hn
      cases hn
  apply heffect.elsewhere n (hh.owned.lt j n hfile)
  intro hi
  have hfile' : file i = some n := by
    rcases hh.file_eq i with hfile | hcrashed
    · rwa [hfile]
    · rw [hcrashed] at hi
      cases hi
  exact hj (hh.owned.apart j i n hfile hfile')

theorem Echoing.step (hs : Echoing packet started stage parcel order pool)
    (hh : Held started stage file pool) (hpackets : ∀ i, OnePiece (packet i))
    {e : Event Nat Nat} (hkind : e.kind ≠ .invoke)
    (h : System.Step (dataProcessor World.sys.shared limit) pool e pool')
    (hquiet : refused pool'.mem.inner = refused pool.mem.inner)
    (hact : (e.kind = .act ∧
        Act World.sys.shared e.task (stage e.task) pool.mem place' pool'.mem) ∨
      (e.kind ≠ .act ∧ pool'.mem = pool.mem ∧ Still (stage e.task) place')) :
    ∃ parcel' order', Echoing packet started (Function.update stage e.task place') parcel' order'
      pool' := by
  obtain ⟨parcel', hmoves, hcarried⟩ := hs.carried.step h (fun hi => absurd hi hkind)
  obtain ⟨hcarries, hkept⟩ := carries_or_kept hkind (hh.own.call_eq h hkind) hmoves
  have hstarted : started e.task = true := by
    cases hi : started e.task with
    | true => rfl
    | false => exact absurd (h.was_none_iff.mp (hh.unstarted _ hi).1) hkind
  have hawaited : ∀ j, started j = false → Function.update parcel e.task parcel' j = .awaited := by
    intro j hj
    have hne : j ≠ e.task := by
      intro he
      rw [he, hstarted] at hj
      cases hj
    rw [Function.update_of_ne hne]
    exact hs.awaited j hj
  rcases hact with ⟨hkind', hact⟩ | ⟨hkind', hmem, hstill⟩
  · have hopen : ∀ n, openFile (stage e.task) = some n → pool.mem.inner.position n ≠ none := by
      intro n hn
      apply (hh.owned.open_iff n).mpr
      rcases hh.file_eq e.task with hfile | hcrashed
      · exact ⟨e.task, hfile.trans hn⟩
      · rw [hcrashed] at hn
        cases hn
    obtain ⟨order', horder, hposted⟩ :=
      hs.posted.act (hpackets e.task) hstarted hopen hact (hcarries hkind') hquiet
    refine ⟨_, order', hcarried, hawaited, hposted, fun hten' j => ?_⟩
    obtain ⟨later, rfl⟩ : ∃ later, order' = order ++ later := by
      rcases horder with rfl | rfl
      · exact ⟨[], (List.append_nil _).symm⟩
      · exact ⟨_, rfl⟩
    have hten : order.length ≤ 10 := by
      rw [List.length_append] at hten'
      omega
    obtain ⟨count, htold⟩ := hs.told hten j
    by_cases hj : j = e.task
    · subst hj
      rw [Function.update_self]
      obtain ⟨count', htold'⟩ := htold.act hs.posted.settled hten (fun k => (hpackets k).nonempty)
        (hs.posted.usual e.task) (hs.posted.later e.task) (hs.posted.reliable e.task) hact hquiet
      exact ⟨count', htold'.append later⟩
    · rw [Function.update_of_ne hj]
      exact ⟨count, (hh.told_of_ne hj hact htold).append later⟩
  · obtain rfl := hkept hkind'
    refine ⟨_, order, hcarried, hawaited, ?_, ?_⟩
    · rw [hmem]
      exact hs.posted.still hstill
    · intro hten j
      obtain ⟨count, htold⟩ := hs.told hten j
      rw [hmem]
      by_cases hj : j = e.task
      · subst hj
        rw [Function.update_self]
        exact ⟨count, htold.still hstill (hs.posted.usual e.task)⟩
      · rw [Function.update_of_ne hj]
        exact ⟨count, htold⟩

/-- What is known of the sessions of clients with one packet each: where they are, and what
has become of the packets unless a request for memory was denied. -/
def Echoes (packet : Nat → List UInt8) (started : Nat → Bool)
    (pool : System Nat Nat (Shared World) Fault) : Prop :=
  ∃ stage file, Held started stage file pool ∧ (refused pool.mem.inner = 0 →
    ∃ parcel order, Echoing packet started stage parcel order pool)

theorem echoes_start {grant : Nat → Bool} {k₀ : Kernel} (hb : Booted grant k₀)
    (packet : Nat → List UInt8) (past flags : Nat → Nat) :
    Echoes packet (fun _ => false)
      (.start ⟨World.online k₀ past (fun i => [packet i]), flags, []⟩) :=
  ⟨_, _, held_start k₀ past _ _ flags, fun _ => ⟨_, _, echoing_start hb past flags⟩⟩

theorem echoes_lasting (hpackets : ∀ i, OnePiece (packet i)) :
    Lasting World.sys limit (Echoes packet) := by
  refine ⟨?_, ?_, ?_⟩
  · intro started pool e pool' hs hkind h
    obtain ⟨stage, file, hh, hs⟩ := hs
    obtain ⟨place', hh', hact⟩ := hh.step hkind h
    refine ⟨_, _, hh', fun hzero => ?_⟩
    have hle : refused pool.mem.inner ≤ refused pool'.mem.inner := by
      rcases hact with ⟨_, hact⟩ | ⟨_, hmem, _⟩
      · exact refused_le hact
      · rw [hmem]
    obtain ⟨parcel, order, hs⟩ := hs (by omega)
    exact hs.step hh hpackets hkind h (by omega) hact
  · intro started pool i hs hi hnone
    obtain ⟨stage, file, hh, hs⟩ := hs
    refine ⟨_, _, hh.launch hi, fun hzero => ?_⟩
    obtain ⟨parcel, order, hs⟩ := hs hzero
    exact ⟨parcel, order, hs.launch hi hnone⟩
  · intro started pool f hs
    obtain ⟨stage, file, hh, hs⟩ := hs
    refine ⟨_, _, hh.flags f, fun hzero => ?_⟩
    obtain ⟨parcel, order, hs⟩ := hs hzero
    exact ⟨parcel, order, hs.flags f⟩

/-- What the device and the clients have got by then. -/
theorem Echoes.answers (h : Echoes packet started pool)
    (hdenied : pool.mem.inner.kernel.heap.denied = 0) :
    ∃ order : List Nat, order.Nodup ∧ (∀ i ∈ order, started i = true) ∧
      (∀ i, started i = true → pool.tasks i = none → i ∈ order) ∧
      ringTexts pool.mem.inner.kernel = .ok ((order.map packet).rtake 10) ∧
      (order.length ≤ 10 → ∀ i, ∃ count,
        pool.mem.inner.sent i = ((order.take count).map packet).flatten ∧
        (started i = true → pool.tasks i = none → i ∈ order.take count)) := by
  obtain ⟨stage, file, hh, hs⟩ := h
  obtain ⟨parcel, order, hs⟩ := hs hdenied
  refine ⟨order, hs.posted.nodup, hs.posted.known, ?_, ?_, ?_⟩
  · intro i hi htask
    obtain ⟨seek, hfinished⟩ := hh.ended i hi htask
    apply hs.posted.later
    rw [hfinished]
    rfl
  · obtain ⟨g, hk, hmsg, _⟩ := hs.posted.settled.keeps
    rw [hk.ringTexts, hmsg]
  · intro hten i
    obtain ⟨count, htold⟩ := hs.told hten i
    refine ⟨count, htold.sent, fun hi htask => ?_⟩
    obtain ⟨seek, hfinished⟩ := hh.ended i hi htask
    have hstanding := htold.standing
    rw [hfinished] at hstanding
    exact hstanding

end Echoing

/-- The packets of two clients. -/
def pair : Nat → List UInt8
  | 0 => [97, 58, 10]
  | _ => [98, 10]

theorem pair_packets (i : Nat) : OnePiece (pair i) := by
  cases i with
  | zero => exact ⟨⟨by decide, by decide, by decide⟩, by decide, by decide⟩
  | succ i =>
    change OnePiece [98, 10]
    exact ⟨⟨by decide, by decide, by decide⟩, by decide, by decide⟩

end Aesd.Proofs
