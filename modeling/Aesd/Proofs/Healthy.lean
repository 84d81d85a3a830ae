import Aesd.Proofs.Calls
import Aesd.Proofs.Ring

namespace Aesd.Proofs
open Base Driver CString

/-- A packet in memory: the name of its block and its bytes. -/
structure Packet where
  id : Nat
  text : List UInt8
  deriving DecidableEq

def Packet.entry (p : Packet) : BufferEntry := ⟨.cell p.id 0, p.text.length⟩

/-- The packet being assembled. `lost` is the state after a failed `krealloc`:
the flag says that a packet is open, its size is on record, and its pointer is
NULL. A newline may have been seen for it. -/
inductive Pending where
  | closed
  | opened (p : Packet) (size : Nat)
  | lost (size : Nat) (ended : Bool)

namespace Pending

def ids : Pending → List Nat
  | opened p _ => [p.id]
  | _ => []

def text : Pending → List UInt8
  | opened p _ => p.text
  | _ => []

def size : Pending → Nat
  | closed => 0
  | opened _ n => n
  | lost n _ => n

/-- A newline has been seen, but the packet was not closed. -/
def ended : Pending → Bool
  | lost _ e => e
  | _ => false

/-- The bytes that were written are in memory. -/
def Held : Pending → Prop
  | lost _ _ => False
  | _ => True

/-- What a packet starts with when it is continued: its bytes so far, or, where these
are lost, whatever the new block happens to hold. -/
def Begins (t : List UInt8) : Pending → Prop
  | closed => t = []
  | opened p _ => t = p.text
  | lost n _ => t.length ≤ n

@[simp] theorem ids_closed : closed.ids = [] := rfl
@[simp] theorem ids_opened : (opened p n).ids = [p.id] := rfl
@[simp] theorem ids_lost : (lost n e).ids = [] := rfl
@[simp] theorem text_closed : closed.text = [] := rfl
@[simp] theorem text_opened : (opened p n).text = p.text := rfl
@[simp] theorem size_closed : closed.size = 0 := rfl
@[simp] theorem size_opened : (opened p n).size = n := rfl
@[simp] theorem size_lost : (lost n e).size = n := rfl
@[simp] theorem held_closed : closed.Held := trivial
@[simp] theorem held_opened : (opened p n).Held := trivial
@[simp] theorem not_held_lost : ¬ (lost n e).Held := id

theorem Held.ended {o : Pending} (ho : o.Held) : o.ended = false := by
  cases o with
  | closed => rfl
  | opened => rfl
  | lost => exact ho.elim

/-- The recorded size of an open packet is the capacity of its block, which is
not the length of its text: every part has brought a terminator of its own. -/
def Matches (k : Kernel) : Pending → Prop
  | closed => k.dev.firstPacket = 0
  | opened p n => k.dev.firstPacket = 1 ∧ k.dev.bufferEntry = ⟨.cell p.id 0, n⟩ ∧
      n ≤ kmallocMaxSize ∧ 0 ∉ p.text ∧ ∃ rest,
        k.heap.view p.id = some (p.text.map some ++ some 0 :: rest) ∧
        p.text.length + 1 + rest.length = n
  | lost n _ => k.dev.firstPacket = 1 ∧ k.dev.bufferEntry = ⟨.null, n⟩ ∧ n ≤ kmallocMaxSize

end Pending

/-- The blocks that the device still has a use for. -/
def owned (q : List Packet) (o : Pending) : List Nat := q.map Packet.id ++ o.ids

/-- The ring holds the packets `q`, each in a live block of its own, and `o` is
the packet under assembly. -/
structure Sound (k : Kernel) (q : List Packet) (o : Pending) : Prop where
  ring : Ring k.dev.buffer (q.map Packet.entry)
  strings : ∀ p ∈ q, k.heap.Str p.id p.text
  bounded : ∀ p ∈ q, p.text.length < kmallocMaxSize
  distinct : (owned q o).Nodup
  pending : o.Matches k

/-- The invariant between calls. Only a failed `krealloc` may leave the flag for the
end of the packet set, and only a denied request loses a packet. -/
structure Healthy (k : Kernel) (q : List Packet) (o : Pending) : Prop extends Sound k q o where
  flag : k.dev.endOfPacket = o.ended.toNat
  excused : o.Held ∨ 0 < k.heap.denied

theorem Healthy.quiet (hk : Healthy k q o) (ho : o.Held) : k.dev.endOfPacket = 0 := by
  rw [hk.flag, ho.ended]
  rfl

/-- The ring does not notice what happens outside its own blocks. -/
theorem Sound.reopen (hk : Sound k q o) (hbuf : k'.dev.buffer = k.dev.buffer)
    (hview : ∀ p ∈ q, k'.heap.view p.id = k.heap.view p.id) (hd : (owned q o').Nodup)
    (hm : o'.Matches k') : Sound k' q o' := by
  refine ⟨hbuf ▸ hk.ring, ?_, hk.bounded, hd, hm⟩
  intro p hp
  obtain ⟨bs, hv, ht⟩ := hk.strings p hp
  exact ⟨bs, by rw [hview p hp, hv], ht⟩

theorem mem_owned_of_mem {p : Packet} (hp : p ∈ q) (o : Pending) : p.id ∈ owned q o :=
  List.mem_append_left _ (List.mem_map.mpr ⟨p, hp, rfl⟩)

/-- Blocks that the device does not use may come and go. -/
theorem Sound.frame (hk : Sound k q o) (hbuf : k'.dev.buffer = k.dev.buffer)
    (hentry : k'.dev.bufferEntry = k.dev.bufferEntry)
    (hfirst : k'.dev.firstPacket = k.dev.firstPacket)
    (hview : ∀ id ∈ owned q o, k'.heap.view id = k.heap.view id) : Sound k' q o := by
  refine hk.reopen hbuf (fun p hp => hview p.id (mem_owned_of_mem hp o)) hk.distinct ?_
  have hp := hk.pending
  cases o with
  | closed => exact hfirst.trans hp
  | opened p n =>
    obtain ⟨h1, he, hn, h0, rest, hv, hlen⟩ := hp
    refine ⟨hfirst.trans h1, hentry.trans he, hn, h0, rest, ?_, hlen⟩
    rw [hview p.id (List.mem_append_right _ (by simp [Pending.ids])), hv]
  | lost n e => exact ⟨hfirst.trans hp.1, hentry.trans hp.2.1, hp.2.2⟩

/-- The address of the read entry plays no part either. -/
theorem Healthy.frame {r : Ptr} (hk : Healthy k q o) (hdev : k'.dev = { k.dev with readEntry := r })
    (hview : ∀ id ∈ owned q o, k'.heap.view id = k.heap.view id)
    (hden : k.heap.denied ≤ k'.heap.denied) : Healthy k' q o := by
  refine ⟨hk.toSound.frame (by rw [hdev]) (by rw [hdev]) (by rw [hdev]) hview, ?_,
    hk.excused.imp_right (fun h => Nat.lt_of_lt_of_le h hden)⟩
  rw [hdev]
  exact hk.flag

/-- Every block in use is allocated. -/
theorem Sound.live (hk : Sound k q o) : ∀ id ∈ owned q o, k.heap.view id ≠ none := by
  intro id hid
  rcases List.mem_append.mp hid with hid | hid
  · obtain ⟨p, hp, rfl⟩ := List.mem_map.mp hid
    obtain ⟨bs, hv, _⟩ := hk.strings p hp
    simp [hv]
  · have hp := hk.pending
    cases o with
    | closed => simp [Pending.ids] at hid
    | lost => simp [Pending.ids] at hid
    | opened p n =>
      obtain ⟨_, _, _, _, rest, hv, _⟩ := hp
      simp only [Pending.ids, List.mem_singleton] at hid
      simp [hid, hv]

theorem Sound.lt (hk : Sound k q o) : ∀ id ∈ owned q o, id < k.heap.blocks.length := by
  intro id hid
  cases hv : k.heap.view id with
  | none => exact absurd hv (hk.live id hid)
  | some bs => exact Heap.lt_of_view hv

theorem Sound.fresh (hk : Sound k q o) {w : Nat} (hw : k.heap.view w = none) :
    w ∉ owned q o := fun hm => hk.live w hm hw

/-- The three parts that loading the module allocates. -/
def parts (dev : AesdDev) : Ptr × Ptr × Ptr := (dev.bufferPtr, dev.bufferEntryPtr, dev.readEntry)

/-- The parts of the device are where they were, and at least `n` more blocks
are allocated than before. -/
structure Adds (n : Nat) (k k' : Kernel) : Prop where
  parts : parts k'.dev = parts k.dev
  live : k.heap.live + n ≤ k'.heap.live

theorem Adds.trans {m n : Nat} {k₁ k₂ : Kernel} (h₁ : Adds m k k₁) (h₂ : Adds n k₁ k₂) :
    Adds (m + n) k k₂ := by
  refine ⟨h₂.parts.trans h₁.parts, ?_⟩
  have := h₁.live
  have := h₂.live
  omega

section Content

/-- The slots in use, in reading order. -/
def ringSlots (b : CircularBuffer) : List BufferEntry :=
  (Queue.walk b.entry b.outOffs .blank).filter (fun e => decide (e.buffptr ≠ .null))

/-- The packets in the ring, oldest first. -/
def ringTexts (k : Kernel) : Except Fault (List (List UInt8)) :=
  (ringSlots k.dev.buffer).mapM (fun e => k.heap.string e.buffptr)

/-- The packet under assembly, empty if there is none. -/
def openText (k : Kernel) : Except Fault (List UInt8) :=
  if k.dev.firstPacket = 1 then k.heap.string k.dev.bufferEntry.buffptr else .ok []

theorem Ring.slots {b : CircularBuffer} {q : List BufferEntry} (hr : Ring b q) :
    ringSlots b = q := by
  rw [ringSlots, hr.holds.walk_eq, List.filter_append, List.filter_eq_self.mpr,
    List.filter_eq_nil_iff.mpr, List.append_nil]
  · intro e he
    simp [(List.mem_replicate.mp he).2, BufferEntry.blank]
  · intro e he
    simpa using hr.nonnull e he

theorem mapM_ok {α β ε : Type} {f : α → Except ε β} {g : α → β} {l : List α}
    (h : ∀ a ∈ l, f a = .ok (g a)) : l.mapM f = .ok (l.map g) := by
  induction l with
  | nil => rfl
  | cons a l ih =>
    rw [List.mapM_cons, h a List.mem_cons_self, ih (fun b hb => h b (List.mem_cons_of_mem _ hb))]
    rfl

theorem Sound.ringSlots (hk : Sound k q o) : ringSlots k.dev.buffer = q.map Packet.entry :=
  hk.ring.slots

theorem Sound.ringTexts (hk : Sound k q o) : ringTexts k = .ok (q.map Packet.text) := by
  rw [Proofs.ringTexts, hk.ringSlots, List.mapM_map]
  exact mapM_ok (fun p hp => (hk.strings p hp).string)

theorem Sound.openText (hk : Sound k q o) (ho : o.Held) : openText k = .ok o.text := by
  have hp := hk.pending
  unfold Proofs.openText
  cases o with
  | lost => exact ho.elim
  | closed =>
    simp only [Pending.Matches] at hp
    simp [hp, Pending.text]
  | opened p n =>
    obtain ⟨h1, he, _, h0, rest, hv, _⟩ := hp
    simp only [h1, he, ↓reduceIte, Pending.text]
    exact Heap.string_cell hv (text_append _ rest h0)

end Content

end Aesd.Proofs
