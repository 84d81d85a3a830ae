import Aesd.Base.Segments
import Aesd.Proofs.Healthy
import Mathlib.Algebra.Order.BigOperators.Group.List
import Mathlib.Algebra.Order.Ring.Nat
import Mathlib.Algebra.GroupWithZero.Action.Defs

namespace Aesd.Proofs
open Base Driver Segments

/-- The sizes of the ten slots in reading order. -/
def slotSizes (b : CircularBuffer) : List Nat :=
  (Queue.walk b.entry b.outOffs .blank).map BufferEntry.size

@[simp] theorem length_slotSizes (b : CircularBuffer) : (slotSizes b).length = 10 := by
  simp [slotSizes, Queue.walk]

theorem slot_read (b : CircularBuffer) {c : Nat} (hc : c < 10) :
    ∃ e, b.entry[(b.outOffs + c) % 10]? = some e ∧ (slotSizes b)[c]? = some e.size := by
  have hlt : (b.outOffs + c) % 10 < 10 := Nat.mod_lt _ (by decide)
  refine ⟨b.entry[(b.outOffs + c) % 10], by simp [hlt], ?_⟩
  simp [slotSizes, Queue.walk, hc, hlt]

/-- The search after `c` rounds: the cursor stands at slot `c` and the total is
that of the slots before it. Sums that stay below 2^64 do not wrap. -/
theorem find_loop (b : CircularBuffer) (p : Nat) (hsum : (slotSizes b).sum < 2 ^ 64) :
    ∀ fuel c, c + fuel = 10 → 0 < fuel → ((slotSizes b).take c).sum ≤ p →
      findLoop p b.outOffs fuel { b with outOffs := (b.outOffs + c) % 10 }
          ((slotSizes b).take c).sum c =
        .ok ((locate ((slotSizes b).drop c) (p - ((slotSizes b).take c).sum)).map
          (fun (i, j) => ((b.outOffs + (c + i)) % 10, j)), b) := by
  intro fuel
  induction fuel with
  | zero => simp
  | succ fuel ih =>
    intro c hfuel _ hp
    have hc : c < 10 := by omega
    obtain ⟨e, he, hs⟩ := slot_read b hc
    have hdrop : (slotSizes b).drop c = e.size :: (slotSizes b).drop (c + 1) := by
      rw [List.drop_eq_getElem_cons (by simpa using hc), (List.getElem?_eq_some_iff.mp hs).2]
    have htake : ((slotSizes b).take (c + 1)).sum = e.size + ((slotSizes b).take c).sum := by
      rw [sum_take_succ, List.getD_eq_getElem?_getD, hs, Nat.add_comm]
      rfl
    have hle := sum_take_le (slotSizes b) (c + 1)
    have hmod : (e.size + ((slotSizes b).take c).sum) % 2 ^ 64 =
        ((slotSizes b).take (c + 1)).sum := by
      rw [← htake, Nat.mod_eq_of_lt (by omega)]
    simp only [findLoop, he, hmod, hdrop, locate]
    by_cases hend : p ≥ ((slotSizes b).take (c + 1)).sum
    · have hout : ¬ p - ((slotSizes b).take c).sum < e.size := by omega
      simp only [hend, ↓reduceIte, hout]
      by_cases hlast : c + 1 ≥ 10
      · have hnil : (slotSizes b).drop (c + 1) = [] := List.drop_eq_nil_of_le (by simp; omega)
        simp [hlast, hnil, locate]
      · have hnext := Queue.next_mod (Nat.succ_pos 9) b.outOffs c
        have hsub : p - ((slotSizes b).take c).sum - e.size =
            p - ((slotSizes b).take (c + 1)).sum := by omega
        simp only [hlast, ↓reduceIte, hnext, ih (c + 1) (by omega) (by omega) hend, hsub,
          Option.map_map]
        congr 3
        funext found
        obtain ⟨i, j⟩ := found
        simp only [Function.comp_apply, Prod.mk.injEq, and_true]
        congr 1
        omega
    · have hin : p - ((slotSizes b).take c).sum < e.size := by omega
      simp [hend, hin, hp]

/-- The lookup finds the slot that holds the position, and leaves the buffer as
it was. -/
theorem find_entry_eq (b : CircularBuffer) (p : Nat) (hout : b.outOffs < 10)
    (hsum : (slotSizes b).sum < 2 ^ 64) :
    aesdCircularBufferFindEntryOffsetForFpos b p =
      .ok ((locate (slotSizes b) p).map (fun (i, j) => ((b.outOffs + i) % 10, j)), b) := by
  have h := find_loop b p hsum 10 0 (by decide) (by decide) (by simp)
  simpa [aesdCircularBufferFindEntryOffsetForFpos, Nat.mod_eq_of_lt hout] using h

/-- What `*entry_offset_byte_rtn` holds after a search, if it held `rtn` before. -/
def offsetAfter (rtn : Nat) (found : Option (Nat × Nat)) : Nat := (found.map Prod.snd).getD rtn

/-- Positions name slots one to one. -/
theorem locate_unique {ns : List Nat} {p i j i' j' : Nat}
    (h : j < ns.getD i 0 ∧ p = (ns.take i).sum + j)
    (h' : j' < ns.getD i' 0 ∧ p = (ns.take i').sum + j') : i = i' ∧ j = j' := by
  have he := ((locate_some_iff ns p i j).mpr h).symm.trans ((locate_some_iff ns p i' j').mpr h')
  simpa using he

/-- The lookup is exact, whatever the ten slots hold. -/
theorem find_entry_exact (b : CircularBuffer) (p rtn : Nat) (hout : b.outOffs < 10)
    (hsum : (slotSizes b).sum < 2 ^ 64) :
    ∃ found, aesdCircularBufferFindEntryOffsetForFpos b p = .ok (found, b) ∧
      (∀ i j, i < 10 → (found = some ((b.outOffs + i) % 10, j) ∧ offsetAfter rtn found = j ↔
        j < (slotSizes b).getD i 0 ∧ p = ((slotSizes b).take i).sum + j)) ∧
      (∀ i j i' j', (j < (slotSizes b).getD i 0 ∧ p = ((slotSizes b).take i).sum + j) →
        (j' < (slotSizes b).getD i' 0 ∧ p = ((slotSizes b).take i').sum + j') →
        i = i' ∧ j = j') ∧
      (found = none ∧ offsetAfter rtn found = rtn ↔ (slotSizes b).sum ≤ p) ∧
      (∀ slot j, found = some (slot, j) → ∃ i, i < 10 ∧ slot = (b.outOffs + i) % 10) := by
  refine ⟨_, find_entry_eq b p hout hsum, fun i j hi => ?_, fun _ _ _ _ => locate_unique, ?_, ?_⟩
  · rw [← locate_some_iff]
    constructor
    · rintro ⟨hfound, _⟩
      obtain ⟨⟨i', j'⟩, hl, he⟩ := Option.map_eq_some_iff.mp hfound
      obtain ⟨hslot, rfl⟩ := Prod.mk.inj he
      have hi' : i' < 10 := by simpa using locate_lt hl
      have hii : i' = i := by
        by_contra hne
        exact Queue.mod_ne hi' hi hne hslot
      rw [hl, hii]
    · intro hl
      simp [hl, offsetAfter]
  · rw [← locate_none_iff]
    constructor
    · rintro ⟨hnone, _⟩
      exact Option.map_eq_none_iff.mp hnone
    · intro hl
      simp [hl, offsetAfter]
  · intro slot j hfound
    obtain ⟨⟨i, j'⟩, hl, he⟩ := Option.map_eq_some_iff.mp hfound
    exact ⟨i, by simpa using locate_lt hl, (Prod.mk.inj he).1.symm⟩

/-- A ring that is read from its last slot on and has an empty slot behind it. -/
abbrev gappedBuffer : CircularBuffer :=
  ⟨((Vector.replicate 10 .blank).set 9 ⟨.zeroSize, 2⟩).set 1 ⟨.zeroSize, 3⟩, 2, 9⟩

theorem find_entry_behind_gap :
    aesdCircularBufferFindEntryOffsetForFpos gappedBuffer 4 = .ok (some (1, 2), gappedBuffer) := by
  obtain ⟨found, hrun, hsome, _⟩ := find_entry_exact gappedBuffer 4 0 (by decide) (by decide)
  have hfound : found = some (1, 2) := ((hsome 2 2 (by decide)).mpr (by decide)).1
  rw [hrun, hfound]

section Rounds

/-- The branches of the search loop: the position lies behind the entry, in it, or
neither, or there is no such entry. -/
inductive Branch where
  | behind
  | inside
  | neither
  | outside
  deriving DecidableEq

/-- The search loop together with the index and the branch of each of its rounds. -/
def findRounds (charOffset restoreOutOffs : Nat) : Nat → CircularBuffer → Nat → Nat →
    Except Fault (Option (Nat × Nat) × CircularBuffer) × List (Nat × Branch)
  | 0, _, _, _ => (.error .stuck, [])
  | fuel + 1, buffer, totalBeginning, loopCount =>
    match buffer.entry[buffer.outOffs]? with
    | none => (.error .outOfBounds, [(buffer.outOffs, .outside)])
    | some e =>
      let totalEnd := (e.size + totalBeginning) % 2 ^ 64
      if charOffset ≥ totalEnd then
        if loopCount + 1 ≥ 10 then
          (.ok (none, { buffer with outOffs := restoreOutOffs }), [(buffer.outOffs, .behind)])
        else
          let (result, rounds) := findRounds charOffset restoreOutOffs fuel
            { buffer with outOffs := Queue.next 10 buffer.outOffs } totalEnd (loopCount + 1)
          (result, (buffer.outOffs, .behind) :: rounds)
      else if charOffset ≥ totalBeginning then
        (.ok (some (buffer.outOffs, charOffset - totalBeginning),
          { buffer with outOffs := restoreOutOffs }), [(buffer.outOffs, .inside)])
      else
        let (result, rounds) := findRounds charOffset restoreOutOffs fuel buffer totalEnd
          (loopCount + 1)
        (result, (buffer.outOffs, .neither) :: rounds)

/-- Keeping a record changes nothing. -/
theorem findRounds_fst (p restore fuel : Nat) (b : CircularBuffer) (total c : Nat) :
    (findRounds p restore fuel b total c).1 = findLoop p restore fuel b total c := by
  induction fuel generalizing b total c with
  | zero => rfl
  | succ fuel ih =>
    simp only [findRounds, findLoop]
    cases b.entry[b.outOffs]? with
    | none => rfl
    | some e =>
      simp only [← ih]
      split_ifs <;> rfl

/-- What is found is a byte of an entry. -/
def Within (b : CircularBuffer) (found : Option (Nat × Nat)) : Prop :=
  ∀ slot j, found = some (slot, j) → slot < 10 ∧ j < ((b.entry[slot]?).getD .blank).size

/-- One round, from a total that has not passed the position. It ends the search or
moves the cursor, and again the total has not passed the position: where the sum
wraps, it has become smaller. -/
theorem find_round (b : CircularBuffer) {p c total : Nat} (hc : c < 10) (htotal : total ≤ p) :
    (∃ found branch, branch ≠ .neither ∧ Within b found ∧ ∀ fuel,
      findRounds p b.outOffs (fuel + 1) { b with outOffs := (b.outOffs + c) % 10 } total c =
        (.ok (found, b), [((b.outOffs + c) % 10, branch)])) ∨
    c + 1 < 10 ∧ ∃ total' ≤ p, ∀ fuel found rounds,
      findRounds p b.outOffs fuel { b with outOffs := (b.outOffs + (c + 1)) % 10 } total' (c + 1) =
        (.ok (found, b), rounds) →
      findRounds p b.outOffs (fuel + 1) { b with outOffs := (b.outOffs + c) % 10 } total c =
        (.ok (found, b), ((b.outOffs + c) % 10, .behind) :: rounds) := by
  obtain ⟨e, he, _⟩ := slot_read b hc
  have hslot : (b.outOffs + c) % 10 < 10 := Nat.mod_lt _ (by decide)
  by_cases hend : p ≥ (e.size + total) % 2 ^ 64
  · by_cases hlast : c + 1 ≥ 10
    · refine Or.inl ⟨none, .behind, nofun, nofun, fun fuel => ?_⟩
      simp only [findRounds, he, hend, hlast, ↓reduceIte]
    · have hnext := Queue.next_mod (Nat.succ_pos 9) b.outOffs c
      refine Or.inr ⟨Nat.lt_of_not_le hlast, _, hend, fun fuel found rounds hrest => ?_⟩
      simp only [findRounds, he, hend, hlast, ↓reduceIte, hnext, hrest]
  · have hwrap : (e.size + total) % 2 ^ 64 ≤ e.size + total := Nat.mod_le _ _
    refine Or.inl ⟨some ((b.outOffs + c) % 10, p - total), .inside, nofun, ?_, fun fuel => ?_⟩
    · intro slot j hfound
      obtain ⟨rfl, rfl⟩ := Prod.mk.inj (Option.some.inj hfound)
      rw [he, Option.getD_some]
      exact ⟨hslot, by omega⟩
    · simp only [findRounds, he, hend, htotal, ↓reduceIte]

/-- The rounds from one on, at most `m`. -/
theorem find_rounds (b : CircularBuffer) (p m : Nat) :
    ∀ c total, c + m = 10 → 0 < m → total ≤ p → ∃ found rounds, Within b found ∧
      rounds.length ≤ m ∧ (∀ r ∈ rounds, r.1 < 10 ∧ r.2 ≠ .neither) ∧
      ∀ fuel, m ≤ fuel → findRounds p b.outOffs fuel
        { b with outOffs := (b.outOffs + c) % 10 } total c = (.ok (found, b), rounds) := by
  induction m with
  | zero =>
    intro c total _ hpos
    exact absurd hpos (Nat.lt_irrefl 0)
  | succ m ih =>
    intro c total hc _ htotal
    have hslot : (b.outOffs + c) % 10 < 10 := Nat.mod_lt _ (by decide)
    have hfuel : ∀ fuel, m + 1 ≤ fuel → ∃ n, m ≤ n ∧ fuel = n + 1 := fun fuel hle =>
      ⟨fuel - 1, by omega, by omega⟩
    rcases find_round b (by omega : c < 10) htotal with
      ⟨found, branch, hbranch, hin, hrun⟩ | ⟨hmore, total', htotal', hrun⟩
    · refine ⟨found, [((b.outOffs + c) % 10, branch)], hin,
        Nat.succ_le_succ (Nat.zero_le m), ?_, fun fuel hle => ?_⟩
      · exact List.forall_mem_singleton.mpr ⟨hslot, hbranch⟩
      · obtain ⟨n, _, rfl⟩ := hfuel fuel hle
        exact hrun n
    · obtain ⟨found, rounds, hin, hlen, hrounds, hrest⟩ :=
        ih (c + 1) total' (by omega) (by omega) htotal'
      refine ⟨found, ((b.outOffs + c) % 10, .behind) :: rounds, hin, Nat.succ_le_succ hlen,
        ?_, fun fuel hle => ?_⟩
      · exact List.forall_mem_cons.mpr ⟨⟨hslot, nofun⟩, hrounds⟩
      · obtain ⟨n, hn, rfl⟩ := hfuel fuel hle
        exact hrun n found rounds (hrest n hn)

/-- Whatever the sizes, the search is over after ten rounds at most, stays in the
array, has left the buffer as it was, and has found a byte of an entry or nothing. -/
theorem find_entry_ends (b : CircularBuffer) (p : Nat) (hout : b.outOffs < 10) :
    ∃ found rounds, aesdCircularBufferFindEntryOffsetForFpos b p = .ok (found, b) ∧
      (∀ fuel, 10 ≤ fuel → findRounds p b.outOffs fuel b 0 0 = (.ok (found, b), rounds)) ∧
      rounds.length ≤ 10 ∧ (∀ r ∈ rounds, r.1 < 10 ∧ r.2 ≠ .neither) ∧
      ∀ slot j, found = some (slot, j) → slot < 10 ∧
        j < ((b.entry[slot]?).getD .blank).size ∧
        0 < ((b.entry[slot]?).getD .blank).size - j := by
  obtain ⟨found, rounds, hin, hlen, hrounds, hrun⟩ :=
    find_rounds b p 10 0 0 rfl (by decide) (Nat.zero_le p)
  rw [Nat.add_zero, Nat.mod_eq_of_lt hout] at hrun
  refine ⟨found, rounds, ?_, hrun, hlen, hrounds, fun slot j hfound => ?_⟩
  · rw [aesdCircularBufferFindEntryOffsetForFpos, ← findRounds_fst, hrun 10 (Nat.le_refl 10)]
  · obtain ⟨hslot, hj⟩ := hin slot j hfound
    exact ⟨hslot, hj, Nat.sub_pos_of_lt hj⟩

/-- Ten sizes that add up to more than 2^64. -/
abbrev wrappingBuffer : CircularBuffer :=
  ⟨Vector.replicate 10 ⟨.zeroSize, 2 ^ 63 + 1⟩, 3, 3⟩

/-- The total wraps to 2 in the second round, and the position is found in the third. -/
theorem find_entry_ends_wrapped :
    aesdCircularBufferFindEntryOffsetForFpos wrappingBuffer (2 ^ 63 + 1) =
        .ok (some (5, 2 ^ 63 - 1), wrappingBuffer) ∧
      2 ^ 63 - 1 < ((wrappingBuffer.entry[5]?).getD BufferEntry.blank).size := by
  obtain ⟨found, rounds, hrun, _, _, _, hin⟩ :=
    find_entry_ends wrappingBuffer (2 ^ 63 + 1) (by decide)
  have heval : aesdCircularBufferFindEntryOffsetForFpos wrappingBuffer (2 ^ 63 + 1) =
      .ok (some (5, 2 ^ 63 - 1), wrappingBuffer) := by decide +kernel
  rw [heval] at hrun
  have hfound := (Prod.mk.inj (Except.ok.inj hrun)).1
  exact ⟨heval, (hin 5 (2 ^ 63 - 1) hfound.symm).2.1⟩

end Rounds

section Length
variable {b : CircularBuffer}

theorem foldl_sizes (es : List BufferEntry) (acc : Nat)
    (h : acc + (es.map BufferEntry.size).sum < 2 ^ 63) :
    es.foldl (fun size e => Int.bmod (e.size + size) (2 ^ 64)) (acc : Int) =
      ((acc + (es.map BufferEntry.size).sum : Nat) : Int) := by
  induction es generalizing acc with
  | nil => simp
  | cons e es ih =>
    rw [List.map_cons, List.sum_cons] at h ⊢
    have hmod : Int.bmod (e.size + acc) (2 ^ 64) = ((acc + e.size : Nat) : Int) := by
      rw [Int.bmod_eq_of_le] <;> omega
    rw [List.foldl_cons, hmod, ih (acc + e.size) (by omega), Nat.add_assoc]

/-- The length adds up the slots in another order than they are read in. -/
theorem getAesdBufferLength_eq (hsum : (slotSizes b).sum < 2 ^ 63) :
    getAesdBufferLength b = ((slotSizes b).sum : Nat) := by
  have hperm : (slotSizes b).sum = (b.entry.toList.map BufferEntry.size).sum :=
    ((Queue.walk_perm b.entry b.outOffs .blank).map BufferEntry.size).sum_eq
  have hfold := foldl_sizes b.entry.toList 0 (by omega)
  rw [hperm]
  simpa [getAesdBufferLength] using hfold

end Length

variable {k : Kernel} {q : List Packet} {o : Pending}

theorem Sound.slotSizes (hk : Sound k q o) : slotSizes k.dev.buffer =
    lengths (q.map Packet.text) ++ List.replicate (10 - q.length) 0 := by
  rw [Proofs.slotSizes, hk.ring.holds.walk_eq]
  simp [lengths, Packet.entry, BufferEntry.blank, Function.comp_def]

/-- All packets together are far from the range of `size_t`, because no packet
is larger than an allocation can be. -/
theorem Sound.total_lt (hk : Sound k q o) : (lengths (q.map Packet.text)).sum < 2 ^ 26 := by
  have hle : (lengths (q.map Packet.text)).sum ≤ (lengths (q.map Packet.text)).length • 2 ^ 22 := by
    apply List.sum_le_card_nsmul
    intro n hn
    simp only [lengths, List.map_map, List.mem_map, Function.comp_apply] at hn
    obtain ⟨p, hp, rfl⟩ := hn
    exact Nat.le_of_lt (hk.bounded p hp)
  have hfits := hk.ring.holds.fits
  simp only [lengths, List.length_map, smul_eq_mul] at hle hfits ⊢
  omega

theorem Sound.find (hk : Sound k q o) (p : Nat) :
    aesdCircularBufferFindEntryOffsetForFpos k.dev.buffer p =
      .ok ((locate (lengths (q.map Packet.text)) p).map
        (fun (i, j) => ((k.dev.buffer.outOffs + i) % 10, j)), k.dev.buffer) := by
  have htotal := hk.total_lt
  rw [find_entry_eq _ _ hk.ring.holds.out_lt, hk.slotSizes, locate_append_zeros]
  rw [hk.slotSizes, List.sum_append]
  simp only [List.sum_replicate, smul_zero]
  omega

theorem Sound.length_eq (hk : Sound k q o) :
    getAesdBufferLength k.dev.buffer = ((lengths (q.map Packet.text)).sum : Nat) := by
  have htotal := hk.total_lt
  have hsum : (Proofs.slotSizes k.dev.buffer).sum = (lengths (q.map Packet.text)).sum := by
    rw [hk.slotSizes, List.sum_append]
    simp
  rw [getAesdBufferLength_eq (by omega), hsum]

theorem Sound.length_nonneg (hk : Sound k q o) : 0 ≤ getAesdBufferLength k.dev.buffer := by
  rw [hk.length_eq]
  exact Int.natCast_nonneg _

/-- The packets are in the slots from `outOffs` on. -/
theorem Sound.slot (hk : Sound k q o) {i : Nat} {p : Packet} (hi : q[i]? = some p) :
    k.dev.buffer.entry[(k.dev.buffer.outOffs + i) % 10]? = some p.entry := by
  have hfits := hk.ring.holds.fits
  have hlt := (List.getElem?_eq_some_iff.mp hi).1
  rw [List.length_map] at hfits
  rw [hk.ring.holds.slot i (by omega)]
  simp [List.getD, hi]

end Aesd.Proofs
