import Aesd.Proofs.Healthy

namespace Aesd.Proofs
open Base Driver CString

variable {signal : Bool} {k : Kernel} {q : List Packet} {o : Pending} {w : Nat} {wb : Bytes}
  {s : List UInt8}

theorem run_strlen (hw : k.heap.view w = some wb) (ht : text wb = .ok s) :
    (strlen (.cell w 0)).run signal k = (.ok s.length, k) :=
  run_askHeap_ok (Heap.strlen_ok (Heap.string_cell hw ht))

/-- The first part of a packet gets a cleared block just large enough. -/
theorem alloc_first (signal : Bool) (hw : k.heap.view w = some wb) (ht : text wb = .ok s)
    (hfirst : k.dev.firstPacket = 0) (hg : k.heap.granted (s.length + 1) = true) :
    ∃ h, (allocPacket (.cell w 0)).run signal k = (.ok (s.length + 1),
        ⟨h, { k.dev with bufferEntry := ⟨.cell k.heap.blocks.length 0, k.dev.bufferEntry.size⟩ }⟩) ∧
      h.view = Function.update k.heap.view k.heap.blocks.length
        (some (List.replicate (s.length + 1) (some 0))) ∧
      h.denied = k.heap.denied ∧ h.live = k.heap.live + 1 ∧ Heap.Later 1 k.heap h := by
  have hm := Heap.kmalloc_granted (Nat.succ_ne_zero s.length) hg
  have hv : (k.heap.push (List.replicate (s.length + 1) none)).view k.heap.blocks.length =
      some (List.replicate (s.length + 1) none) := by simp
  refine ⟨(k.heap.push (List.replicate (s.length + 1) none)).put k.heap.blocks.length
    (List.replicate (s.length + 1) (some 0)), ?_, by simp, rfl, by simp [Heap.live_put hv],
    ⟨rfl, rfl, rfl⟩⟩
  simp only [allocPacket, Code.run_bind, run_getDev, run_strlen hw ht, hfirst, ↓reduceIte,
    run_kmalloc, hm, run_setDev, memset]
  rw [run_changeHeap_ok (Heap.memset_cell hv 0 (by simp))]
  rfl

/-- Clearing the block comes before the test for NULL. -/
theorem alloc_first_denied (signal : Bool) (hw : k.heap.view w = some wb) (ht : text wb = .ok s)
    (hfirst : k.dev.firstPacket = 0) (hg : k.heap.granted (s.length + 1) = false) :
    (allocPacket (.cell w 0)).run signal k = (.error .nullDeref,
      ⟨k.heap.deny, { k.dev with bufferEntry := ⟨.null, k.dev.bufferEntry.size⟩ }⟩) := by
  have hm := Heap.kmalloc_denied (Nat.succ_ne_zero s.length) hg
  simp only [allocPacket, Code.run_bind, run_getDev, run_strlen hw ht, hfirst, ↓reduceIte,
    run_kmalloc, hm, run_setDev, memset]
  rw [run_changeHeap_error (e := .nullDeref) rfl]

/-- A continuation moves the packet to a block that has room for the new part
behind everything there was before. -/
theorem alloc_more (signal : Bool) {p : Packet} {n : Nat} {rest : Bytes}
    (hw : k.heap.view w = some wb) (ht : text wb = .ok s)
    (hfirst : k.dev.firstPacket = 1) (hentry : k.dev.bufferEntry = ⟨.cell p.id 0, n⟩)
    (hp : k.heap.view p.id = some (p.text.map some ++ some 0 :: rest))
    (hlen : p.text.length + 1 + rest.length = n)
    (hg : k.heap.granted (n + (s.length + 1)) = true) :
    ∃ h, (allocPacket (.cell w 0)).run signal k = (.ok (n + (s.length + 1)),
        ⟨h, { k.dev with bufferEntry := ⟨.cell k.heap.blocks.length 0, n⟩ }⟩) ∧
      h.view = Function.update (Function.update k.heap.view k.heap.blocks.length
        (some (p.text.map some ++ some 0 :: (rest ++ List.replicate (s.length + 1) none))))
        p.id none ∧
      h.denied = k.heap.denied ∧ h.live = k.heap.live ∧ Heap.Later 1 k.heap h := by
  have hm := Heap.krealloc_granted hp (by omega) hg
  have hold : (p.text.map some ++ some 0 :: rest).length = n := by simp; omega
  rw [List.take_of_length_le (by omega), hold, Nat.add_sub_cancel_left, List.append_assoc,
    List.cons_append] at hm
  have hstill : (k.heap.push (p.text.map some ++ some 0 ::
      (rest ++ List.replicate (s.length + 1) none))).view p.id =
        some (p.text.map some ++ some 0 :: rest) := by
    simpa [Nat.ne_of_lt (Heap.lt_of_view hp)] using hp
  have hlive := Heap.live_retire hstill
  rw [Heap.live_push] at hlive
  refine ⟨(k.heap.push (p.text.map some ++ some 0 ::
    (rest ++ List.replicate (s.length + 1) none))).retire p.id, ?_, by simp, rfl, by omega,
    ⟨rfl, rfl, rfl⟩⟩
  have hne : ¬ k.dev.firstPacket = 0 := by omega
  simp only [allocPacket, Code.run_bind, run_getDev, run_strlen hw ht, hne, ↓reduceIte, hentry,
    run_krealloc_ok hm, run_setDev]
  rfl

/-- Once there is room, the new part is appended and the packet is open. -/
theorem grow_of_alloc {k₁ : Kernel} {id n : Nat} {t : List UInt8} {rest : Bytes}
    (ha : (allocPacket (.cell w 0)).run signal k = (.ok n, k₁))
    (hbuf : k₁.dev.bufferEntry.buffptr = .cell id 0)
    (hid : k₁.heap.view id = some (t.map some ++ some 0 :: rest)) (ht0 : 0 ∉ t)
    (hw : k₁.heap.view w = some wb) (ht : text wb = .ok s) (hfit : s.length ≤ rest.length) :
    ∃ h, (growPacket (.cell w 0)).run signal k = (.ok true, ⟨h, { k₁.dev with
        bufferEntry := ⟨.cell id 0, n⟩, firstPacket := 1 }⟩) ∧
      h.view = Function.update k₁.heap.view id
        (some ((t ++ s).map some ++ some 0 :: rest.drop s.length)) ∧
      h.denied = k₁.heap.denied ∧ h.live = k₁.heap.live ∧ Heap.Later 0 k₁.heap h := by
  obtain ⟨hs0, _⟩ := (text_ok_iff wb s).mp ht
  have hcat := Heap.strcat_cell hid hw ht0 ht hfit
  rw [overwrite_append_in_place] at hcat
  refine ⟨_, ?_, Heap.view_put (Heap.lt_of_view hid), rfl, Heap.live_put hid, ⟨rfl, rfl, rfl⟩⟩
  simp only [growPacket, Code.run_bind, ha, run_getDev, hbuf, reduceCtorEq, ↓reduceIte, strcat]
  rw [run_changeHeap_ok hcat]
  simp only [run_setDev, hbuf]
  rfl

/-- A new block is none of those in use. -/
theorem owned_opened_nodup (hk : Sound k q o) (t : List UInt8) (n : Nat) :
    (owned q (.opened ⟨k.heap.blocks.length, t⟩ n)).Nodup := by
  have hq := (List.nodup_append.mp hk.distinct).1
  refine List.nodup_append.mpr ⟨hq, by simp [Pending.ids], ?_⟩
  intro a ha b hb
  have hlt := hk.lt a (List.mem_append_left _ ha)
  simp only [Pending.ids, List.mem_singleton] at hb
  omega

section Lost
variable {n : Nat} {e : Bool} {d t : List UInt8}

/-- The C string at the start of the leftover bytes `d`, if it is at most `n` long. -/
def salvage (d : List UInt8) (n : Nat) : Option (List UInt8) :=
  if (d.takeWhile (· != 0)).length ≤ n then some (d.takeWhile (· != 0)) else none

theorem salvage_eq_some_iff :
    salvage d n = some t ↔ t.length ≤ n ∧ d.takeWhile (· != 0) = t := by
  rw [salvage, Option.ite_none_right_eq_some, Option.some.injEq]
  constructor
  · intro h
    exact ⟨h.2 ▸ h.1, h.2⟩
  · intro h
    exact ⟨h.2.symm ▸ h.1, h.2⟩

theorem no_nul_of_salvage (h : salvage d n = some t) : 0 ∉ t := by
  intro hm
  rw [← (salvage_eq_some_iff.mp h).2] at hm
  simpa using List.mem_takeWhile_imp hm

/-- The terminator is inside the block, with room behind it. -/
theorem split_of_salvage (h : salvage d n = some t) (hn : n < d.length) :
    ∃ rest : List UInt8, d = t ++ 0 :: rest := by
  obtain ⟨hle, ht⟩ := salvage_eq_some_iff.mp h
  have hsplit : t ++ d.dropWhile (· != 0) = d := by rw [← ht, List.takeWhile_append_dropWhile]
  have hhead := List.head?_dropWhile_not (· != (0 : UInt8)) d
  cases hd : d.dropWhile (· != 0) with
  | nil =>
    have hsum := congrArg List.length hsplit
    rw [hd, List.append_nil] at hsum
    omega
  | cons b rest =>
    obtain rfl : b = 0 := by simpa [hd] using hhead
    exact ⟨rest, by rw [← hd, hsplit]⟩

theorem overruns_of_salvage (h : salvage d n = none) {rest : List UInt8} (hd : d = t ++ 0 :: rest)
    (h0 : 0 ∉ t) (hlen : d.length = n + (s.length + 1)) : rest.length < s.length := by
  have htake : (t ++ 0 :: rest).takeWhile (· != 0) = t := by
    rw [List.takeWhile_append_of_pos, List.takeWhile_cons_of_neg, List.append_nil]
    · simp
    · intro b hb
      simpa using fun he : b = 0 => h0 (he ▸ hb)
  rw [salvage, hd, htake] at h
  simp only [ite_eq_right_iff, reduceCtorEq, imp_false] at h
  rw [hd, List.length_append, List.length_cons] at hlen
  omega

theorem alloc_lost (signal : Bool) (hk : Sound k q (.lost n e)) (hw : k.heap.view w = some wb)
    (ht : text wb = .ok s) (hg : k.heap.granted (n + (s.length + 1)) = true) :
    (allocPacket (.cell w 0)).run signal k = (.ok (n + (s.length + 1)),
      ⟨k.heap.push ((k.heap.leftover (n + (s.length + 1))).map some),
        { k.dev with bufferEntry := ⟨.cell k.heap.blocks.length 0, n⟩ }⟩) := by
  obtain ⟨hfirst, hentry, _⟩ := hk.pending
  have hne : ¬ k.dev.firstPacket = 0 := by omega
  have hre := Heap.krealloc_null_granted (by omega) hg
  simp only [allocPacket, Code.run_bind, run_getDev, run_strlen hw ht, hne, ↓reduceIte, hentry,
    run_krealloc_ok hre, run_setDev, Code.run_pure]

/-- With no terminator in the new block, or one too far behind, the next part is written
past its end. -/
theorem grow_overruns (signal : Bool) (hk : Sound k q (.lost n e)) (hw : k.heap.view w = some wb)
    (ht : text wb = .ok s) (hg : k.heap.granted (n + (s.length + 1)) = true)
    (hnone : salvage (k.heap.leftover (n + (s.length + 1))) n = none) :
    ∃ k', (growPacket (.cell w 0)).run signal k = (.error .outOfBounds, k') ∧
      k'.heap.denied = k.heap.denied := by
  have hwne : w ≠ k.heap.blocks.length := Nat.ne_of_lt (Heap.lt_of_view hw)
  have hcat : (k.heap.push ((k.heap.leftover (n + (s.length + 1))).map some)).strcat
      (.cell k.heap.blocks.length 0) (.cell w 0) = .error .outOfBounds :=
    Heap.strcat_overruns (by simp) (by simpa [hwne] using hw) ht
      (fun _ _ hd h0 => overruns_of_salvage hnone hd h0 Heap.length_leftover)
  refine ⟨⟨k.heap.push ((k.heap.leftover (n + (s.length + 1))).map some),
    { k.dev with bufferEntry := ⟨.cell k.heap.blocks.length 0, n⟩ }⟩, ?_, rfl⟩
  simp only [growPacket, Code.run_bind, alloc_lost signal hk hw ht hg, run_getDev, reduceCtorEq,
    ↓reduceIte, strcat]
  rw [run_changeHeap_error hcat]

end Lost

/-- What the next part is appended to, if a new block holds the bytes `d`: there may be
nothing to append to once the packet is lost. -/
def Pending.start (d : List UInt8) : Pending → Option (List UInt8)
  | .closed => some []
  | .opened p _ => some p.text
  | .lost n _ => salvage d n

theorem Pending.Held.start {d : List UInt8} (ho : o.Held) : o.start d = some o.text := by
  cases o with
  | closed => rfl
  | opened => rfl
  | lost => exact ho.elim

theorem Pending.Held.eq_text {d t : List UInt8} (ho : o.Held) (h : o.start d = some t) :
    t = o.text := Option.some.inj (h.symm.trans ho.start)

theorem Pending.Held.start_ne_none {d : List UInt8} (ho : o.Held) : o.start d ≠ none := by
  simp [ho.start]

theorem Pending.begins_of_start {d t : List UInt8} (h : o.start d = some t) : o.Begins t := by
  cases o with
  | closed => exact (Option.some.inj h).symm
  | opened => exact (Option.some.inj h).symm
  | lost => exact (salvage_eq_some_iff.mp h).1

/-- With memory for it, the next part is appended to whatever there is of the
packet, and the packet has moved to a block of its own. -/
theorem grow_packet (signal : Bool) (hk : Sound k q o) {t : List UInt8}
    (hstart : o.start (k.heap.leftover (o.size + (s.length + 1))) = some t)
    (hw : k.heap.view w = some wb) (ht : text wb = .ok s) (hwo : w ∉ owned q o)
    (hg : k.heap.granted (o.size + (s.length + 1)) = true) :
    ∃ k', (growPacket (.cell w 0)).run signal k = (.ok true, k') ∧
      Sound k' q (.opened ⟨k.heap.blocks.length, t ++ s⟩ (o.size + (s.length + 1))) ∧
      k'.dev.endOfPacket = k.dev.endOfPacket ∧ k'.heap.view w = some wb ∧
      k'.heap.denied = k.heap.denied ∧ Adds (1 - o.ids.length) k k' ∧
      Heap.Later 1 k.heap k'.heap := by
  have hmax : o.size + (s.length + 1) ≤ kmallocMaxSize := by
    simp only [Heap.granted, Bool.and_eq_true, decide_eq_true_eq] at hg
    exact hg.1
  have hs0 := ((text_ok_iff wb s).mp ht).1
  have hwne : w ≠ k.heap.blocks.length := Nat.ne_of_lt (Heap.lt_of_view hw)
  have hqne : ∀ p ∈ q, p.id ≠ k.heap.blocks.length := fun p hp =>
    Nat.ne_of_lt (hk.lt p.id (mem_owned_of_mem hp o))
  have hnodup := owned_opened_nodup hk (t ++ s) (o.size + (s.length + 1))
  cases o with
  | closed =>
    obtain rfl : [] = t := Option.some.inj hstart
    simp only [Pending.size, Nat.zero_add, List.nil_append] at hg hmax hnodup ⊢
    obtain ⟨h, ha, hv, hd, hl, hlater⟩ := alloc_first signal hw ht hk.pending hg
    have hnew : h.view k.heap.blocks.length =
        some (List.map some [] ++ some 0 :: List.replicate s.length (some 0)) := by
      simp [hv, List.replicate_succ]
    obtain ⟨h', hgrow, hv', hd', hl', hlater'⟩ := grow_of_alloc ha rfl hnew (by simp)
      (by simp [hv, hwne, hw]) ht (by simp)
    refine ⟨_, hgrow, hk.reopen rfl ?_ hnodup ?_, rfl, ?_, by simp [hd', hd],
      ⟨rfl, by simp [hl', hl]⟩, hlater.trans hlater'⟩
    · intro p hp
      simp [hv', hv, hqne p hp]
    · exact ⟨rfl, rfl, hmax, hs0, [], by simp [hv'], by simp⟩
    · simp [hv', hv, hwne, hw]
  | opened p n =>
    obtain rfl : p.text = t := Option.some.inj hstart
    simp only [Pending.size] at hg hmax hnodup ⊢
    obtain ⟨hfirst, hentry, _, hp0, rest, hp, hlen⟩ := hk.pending
    have hpne : p.id ≠ k.heap.blocks.length := Nat.ne_of_lt (Heap.lt_of_view hp)
    have hwp : w ≠ p.id := fun he => hwo (by simp [owned, Pending.ids, he])
    have hqp : ∀ r ∈ q, r.id ≠ p.id := fun r hr =>
      (List.nodup_append.mp hk.distinct).2.2 r.id (List.mem_map.mpr ⟨r, hr, rfl⟩) p.id
        (by simp [Pending.ids])
    obtain ⟨h, ha, hv, hd, hl, hlater⟩ := alloc_more signal hw ht hfirst hentry hp hlen hg
    obtain ⟨h', hgrow, hv', hd', hl', hlater'⟩ := grow_of_alloc ha rfl
      (by simp [hv, Ne.symm hpne]; rfl) hp0 (by simp [hv, hwne, hwp, hw]) ht (by simp; omega)
    refine ⟨_, hgrow, hk.reopen rfl ?_ hnodup ?_, rfl, ?_, by simp [hd', hd],
      ⟨rfl, by simp [hl', hl]⟩, hlater.trans hlater'⟩
    · intro r hr
      simp [hv', hv, hqne r hr, hqp r hr]
    · exact ⟨rfl, rfl, hmax, by simp [hp0, hs0], _, by simp [hv']; rfl, by simp; omega⟩
    · simp [hv', hv, hwne, hwp, hw]
  | lost n e =>
    -- the bytes before the terminator are whatever the block held before
    simp only [Pending.size, Pending.start] at hstart hg hmax hnodup ⊢
    have hlen : (k.heap.leftover (n + (s.length + 1))).length = n + (s.length + 1) :=
      Heap.length_leftover
    have hle := (salvage_eq_some_iff.mp hstart).1
    have ht0 := no_nul_of_salvage hstart
    obtain ⟨rest, hleft⟩ := split_of_salvage hstart (by omega)
    have ha := alloc_lost signal hk hw ht hg
    rw [hleft, List.map_append, List.map_cons] at ha
    rw [hleft, List.length_append, List.length_cons] at hlen
    obtain ⟨h', hgrow, hv', hd', hl', hlater⟩ := grow_of_alloc ha rfl (by simp; rfl) ht0
      (by simpa [hwne] using hw) ht (by rw [List.length_map]; omega)
    refine ⟨_, hgrow, hk.reopen rfl ?_ hnodup ?_, rfl, ?_, hd',
      ⟨rfl, by simp [hl']⟩, ⟨hlater.grant, hlater.stale, hlater.requests⟩⟩
    · intro p hp
      simp [hv', hqne p hp]
    · refine ⟨rfl, rfl, hmax, by simp [ht0, hs0], (rest.map some).drop s.length, by simp [hv'], ?_⟩
      simp only [List.length_append, List.length_drop, List.length_map]
      omega
    · simpa [hv', hwne] using hw

/-- Of the device only the pointer to the open packet is gone. -/
def Forgets (k k' : Kernel) : Prop :=
  k'.dev = { k.dev with bufferEntry := ⟨.null, k.dev.bufferEntry.size⟩ }

theorem Sound.firstPacket (hk : Sound k q o) (ho : o ≠ .closed) : k.dev.firstPacket = 1 := by
  have hp := hk.pending
  cases o with
  | closed => exact absurd rfl ho
  | opened p n => exact hp.1
  | lost n e => exact hp.1

theorem Sound.recorded (hk : Sound k q o) (ho : o ≠ .closed) :
    k.dev.bufferEntry.size = o.size ∧ o.size ≤ kmallocMaxSize := by
  have hp := hk.pending
  cases o with
  | closed => exact absurd rfl ho
  | opened p n => exact ⟨by rw [hp.2.1]; rfl, hp.2.2.1⟩
  | lost n e => exact ⟨by rw [hp.2.1]; rfl, hp.2.2⟩

/-- A continuation that gets no memory forgets where the packet was. -/
theorem grow_denied (signal : Bool) (hk : Sound k q o) (ho : o ≠ .closed) (e : Bool)
    (hw : k.heap.view w = some wb) (ht : text wb = .ok s)
    (hg : k.heap.granted (o.size + (s.length + 1)) = false) :
    ∃ k', (growPacket (.cell w 0)).run signal k = (.ok false, k') ∧ Sound k' q (.lost o.size e) ∧
      k'.heap.view = k.heap.view ∧ k'.heap.denied = k.heap.denied + 1 ∧ Adds 0 k k' ∧
      Forgets k k' := by
  have hfirst := hk.firstPacket ho
  obtain ⟨hsize, hmax⟩ := hk.recorded ho
  have hne : ¬ k.dev.firstPacket = 0 := by omega
  have hre : k.heap.krealloc k.dev.bufferEntry.buffptr (k.dev.bufferEntry.size + (s.length + 1)) =
      .ok (.null, k.heap.deny) := by
    rw [hsize]
    have hp := hk.pending
    cases o with
    | closed => exact absurd rfl ho
    | opened p n =>
      obtain ⟨_, hentry, _, _, rest, hv, _⟩ := hp
      rw [hentry]
      exact Heap.krealloc_denied hv (by omega) hg
    | lost n e =>
      rw [hp.2.1]
      exact Heap.krealloc_null_denied (by omega) hg
  have hq := (List.nodup_append.mp hk.distinct).1
  refine ⟨⟨k.heap.deny, { k.dev with bufferEntry := ⟨.null, k.dev.bufferEntry.size⟩ }⟩, ?_,
    hk.reopen rfl (fun _ _ => rfl) (by simpa [owned, Pending.ids] using hq)
      ⟨hfirst, by rw [hsize], hmax⟩, rfl, rfl, ⟨rfl, Nat.le_refl _⟩, rfl⟩
  simp only [growPacket, allocPacket, Code.run_bind, run_getDev, run_strlen hw ht, hne, ↓reduceIte,
    run_krealloc_ok hre, run_setDev, Code.run_pure]

theorem grow_first_denied (signal : Bool) (hk : Sound k q .closed) (hw : k.heap.view w = some wb)
    (ht : text wb = .ok s) (hg : k.heap.granted (s.length + 1) = false) :
    ∃ k', (growPacket (.cell w 0)).run signal k = (.error .nullDeref, k') ∧
      k'.heap.denied = k.heap.denied + 1 ∧ Sound k' q .closed := by
  have ha := alloc_first_denied signal hw ht hk.pending hg
  exact ⟨_, Code.run_bind_error ha, rfl, hk.reopen rfl (fun _ _ => rfl) hk.distinct hk.pending⟩

end Aesd.Proofs
