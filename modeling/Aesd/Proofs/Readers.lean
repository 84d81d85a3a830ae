import Aesd.Proofs.Store

namespace Aesd.Proofs
open Base Driver Segments

/-- What the reads on a file have delivered, call by call. -/
def got (file : OpenFile) : List (List UInt8) :=
  (file.answers.filter (fun a => decide (0 < a.retval))).map
    (fun a => a.delivered.take a.retval.toNat)

/-- The file has been read packet by packet from the start. -/
def ByPacket (packets : List (List UInt8)) (file : OpenFile) : Prop :=
  ∃ m, m ≤ packets.length ∧ file.fPos = (((lengths packets).take m).sum : Nat) ∧
    got file = packets.take m

section ByPacket
variable {packets packets' : List (List UInt8)} {file : OpenFile}

theorem byPacket_fresh (packets : List (List UInt8)) : ByPacket packets .fresh :=
  ⟨0, Nat.zero_le _, by simp [OpenFile.fresh], rfl⟩

theorem got_answered (file : OpenFile) (fPos : Int) (a : Answer) :
    got (file.answered fPos a) =
      got file ++ if 0 < a.retval then [a.delivered.take a.retval.toNat] else [] := by
  unfold got OpenFile.answered
  by_cases h : 0 < a.retval <;> simp [h]

/-- New packets do not disturb it. -/
theorem ByPacket.mono (h : ByPacket packets file) (hp : packets <+: packets') :
    ByPacket packets' file := by
  obtain ⟨m, hm, hpos, hgot⟩ := h
  obtain ⟨more, rfl⟩ := hp
  have hlen : m ≤ (lengths packets).length := by simpa [lengths] using hm
  refine ⟨m, by simp; omega, ?_, ?_⟩
  · have hlens : lengths (packets ++ more) = lengths packets ++ lengths more := List.map_append
    rw [hpos, hlens, List.take_append_of_le_length hlen]
  · rw [hgot, List.take_append_of_le_length hm]

/-- Nor does a call that gives nothing. -/
theorem ByPacket.nothing (h : ByPacket packets file) {a : Answer} (ha : a.retval ≤ 0) :
    ByPacket packets (file.answered file.fPos a) := by
  obtain ⟨m, hm, hpos, hgot⟩ := h
  refine ⟨m, hm, hpos, ?_⟩
  rw [got_answered, if_neg (by omega), List.append_nil, hgot]

/-- Where a packet ends the next one begins. -/
theorem locate_boundary {i j m : Nat} (hne : ∀ p ∈ packets, p ≠ [])
    (h : locate (lengths packets) ((lengths packets).take m).sum = some (i, j)) :
    i = m ∧ j = 0 ∧ ∃ p, packets[m]? = some p := by
  have hm : m < packets.length := by
    by_contra hge
    have hend : locate (lengths packets) ((lengths packets).take m).sum = none := by
      rw [locate_none_iff, List.take_of_length_le (by simp [lengths]; omega)]
    cases hend.symm.trans h
  have hp : packets[m]? = some packets[m] := List.getElem?_eq_getElem hm
  cases (locate_start hp (hne _ (List.getElem_mem hm))).symm.trans h
  exact ⟨rfl, rfl, _, hp⟩

/-- A read gives the next packet, or fails and leaves the position. -/
theorem ByPacket.read (h : ByPacket packets file) (hne : ∀ p ∈ packets, p ≠ [])
    (htotal : (lengths packets).sum < 2 ^ 63) {buf : UserDest} {res : ReadResult}
    (hgives : Gives buf file.fPos packets res 0) :
    ByPacket packets (file.answered (if 0 ≤ res.retval then res.fPos else file.fPos)
      ⟨res.retval, res.delivered⟩) := by
  cases hgives with
  | atEnd => simpa using h.nothing (a := ⟨0, []⟩) (Int.le_refl 0)
  | copyFault =>
    have hneg : -EFAULT < (0 : Int) := by decide
    rw [if_neg (Int.not_le.mpr hneg)]
    exact h.nothing (Int.le_of_lt hneg)
  | @copied i j n hl hn _ =>
    obtain ⟨m, hm, hpos, hgot⟩ := h
    have hle := sum_take_le (lengths packets) m
    rw [hpos, sizeT_natCast (by omega)] at hl
    obtain ⟨rfl, rfl, p, hp⟩ := locate_boundary hne hl
    have hget : packets.getD i [] = p := by simp [List.getD, hp]
    rw [hget] at hn ⊢
    have hlens : (lengths packets).getD i 0 = n := by rw [getD_lengths, hget, hn, Nat.sub_zero]
    have hnext := sum_take_le (lengths packets) (i + 1)
    rw [sum_take_succ, hlens] at hnext
    have hlt : i < packets.length := (List.getElem?_eq_some_iff.mp hp).1
    have hn0 : 0 < n := by
      rw [hn]
      exact List.length_pos_iff.mpr (hne p (List.mem_of_getElem? hp))
    refine ⟨i + 1, hlt, ?_, ?_⟩
    · simp only [Int.natCast_nonneg, ↓reduceIte, OpenFile.answered]
      rw [hpos, ← Int.natCast_add, loff_of_lt (by omega), sum_take_succ, hlens]
    · rw [got_answered, if_pos (by simpa using hn0), hgot, List.take_add_one, hp]
      simp [hn]

end ByPacket

section Runs
variable {ι : Type} {st st' : Store}

/-- How many packets the turns bring to their end. -/
def closes (ts : List (Turn ι FileCall)) : Nat :=
  (partsOf ts).countP (fun part => decide (newline ∈ part))

theorem closes_cons (t : Turn ι FileCall) (ts : List (Turn ι FileCall)) :
    closes (t :: ts) = closes [t] + closes ts := by
  unfold closes partsOf
  rw [← List.countP_append, ← List.filterMap_append]
  rfl

/-- The packets of a store that never had to make room or to do without memory. -/
structure Filling (st : Store) (st' : Store) (n : Nat) : Prop where
  grows : st.packets <+: st'.packets
  count : st'.packets.length ≤ st.packets.length + n
  nonempty : (∀ p ∈ st.packets, p ≠ []) → ∀ p ∈ st'.packets, p ≠ []
  held : st'.assembly.Held

theorem filling_refl (ha : st.assembly.Held) (n : Nat) : Filling st st n :=
  ⟨List.prefix_rfl, Nat.le_add_right _ _, fun h => h, ha⟩

theorem Store.Serves.filling {file file' : OpenFile} {t : Turn ι FileCall}
    (h : st.Serves file t.call t.signal st' file' 0) (ha : st.assembly.Held)
    (hroom : st.packets.length + closes [t] ≤ 10) : Filling st st' (closes [t]) := by
  obtain ⟨i, c, signal⟩ := t
  cases h with
  | interrupted | read | sought | refused => exact filling_refl ha _
  | @write buf _ _ _ _ h =>
    cases h with
    | copyFault => exact filling_refl ha _
    | appended => exact ⟨List.prefix_rfl, Nat.le_add_right _ _, fun h => h, trivial⟩
    | stored hb hs =>
      obtain rfl := ha.begins_iff.mp hb
      rw [closing_of_held ha, decide_eq_true_eq] at hs
      have hone : closes [(⟨i, .write buf, false⟩ : Turn ι FileCall)] = 1 := by
        simp [closes, partsOf, part, hs]
      have hkeep : (st.keep (st.assembly.text ++ visible buf)).packets =
          st.packets ++ [st.assembly.text ++ visible buf] := Queue.push_filling (by omega) _
      refine ⟨⟨_, hkeep.symm⟩, by simp [hkeep, hone], fun hne p hp => ?_, trivial⟩
      rw [hkeep] at hp
      rcases List.mem_append.mp hp with hp | hp
      · exact hne p hp
      · rw [List.mem_singleton.mp hp]
        exact List.ne_nil_of_mem (List.mem_append_right _ hs)

variable [DecidableEq ι] {files files' : ι → OpenFile} {ts : List (Turn ι FileCall)} {d : Nat}

theorem Store.Runs.filling (h : st.Runs files ts st' files' d) (hd : d = 0)
    (ha : st.assembly.Held) (hroom : st.packets.length + closes ts ≤ 10) :
    Filling st st' (closes ts) := by
  induction h with
  | nil => exact filling_refl ha _
  | @cons st st₁ st' files files' t ts file d₁ d₂ hserves hrest ih =>
    obtain ⟨rfl, rfl⟩ := Nat.add_eq_zero_iff.mp hd
    rw [closes_cons] at hroom ⊢
    have h₁ := hserves.filling ha (by omega)
    have hcount := h₁.count
    have h₂ := ih rfl h₁.held (by omega)
    have hcount' := h₂.count
    exact ⟨h₁.grows.trans h₂.grows, by omega, fun hne => h₂.nonempty (h₁.nonempty hne), h₂.held⟩

def FileCall.isRead : FileCall → Bool
  | .read _ => true
  | _ => false

theorem ByPacket.serves {file file' : OpenFile} {c : FileCall} {signal : Bool}
    (h : ByPacket st.packets file) (hne : ∀ p ∈ st.packets, p ≠ [])
    (htotal : (lengths st.packets).sum < 2 ^ 63) (hc : FileCall.isRead c = true)
    (hserves : st.Serves file c signal st' file' 0) : ByPacket st'.packets file' := by
  cases hserves with
  | interrupted => exact h.nothing (by decide)
  | read hgives => exact h.read hne htotal hgives
  | write | sought | refused => cases hc

theorem sum_lengths_le {xs ys : List (List UInt8)} (h : xs <+: ys) :
    (lengths xs).sum ≤ (lengths ys).sum := by
  obtain ⟨zs, rfl⟩ := h
  simp [lengths]

/-- A file that is only read from sees the packets in order, whatever happens on
other files in the meantime. -/
theorem Store.Runs.byPacket {i : ι} (h : st.Runs files ts st' files' d) (hd : d = 0)
    (ha : st.assembly.Held) (hroom : st.packets.length + closes ts ≤ 10)
    (hne : ∀ p ∈ st.packets, p ≠ [])
    (htotal : (lengths st'.packets).sum < 2 ^ 63)
    (hreads : ∀ c ∈ callsOn i ts, FileCall.isRead c = true) (hi : ByPacket st.packets (files i)) :
    ByPacket st'.packets (files' i) := by
  induction h with
  | nil => exact hi
  | @cons st st₁ st' files files' t ts file d₁ d₂ hserves hrest ih =>
    obtain ⟨rfl, rfl⟩ := Nat.add_eq_zero_iff.mp hd
    rw [closes_cons] at hroom
    have h₁ := hserves.filling ha (by omega)
    have hcount := h₁.count
    rw [callsOn_cons] at hreads
    refine ih rfl h₁.held (by omega) (h₁.nonempty hne) htotal
      (fun c hc => hreads c (List.mem_append_right _ hc)) ?_
    by_cases hi' : t.task = i
    · subst hi'
      have h₂ := hrest.filling rfl h₁.held (by omega)
      have hle := sum_lengths_le (h₁.grows.trans h₂.grows)
      rw [Function.update_self]
      exact hi.serves hne (by omega) (hreads t.call (by simp)) hserves
    · rw [Function.update_of_ne (Ne.symm hi')]
      exact hi.mono h₁.grows

variable {k : Kernel} {es : List (Event ι (ι × FileCall))}
  {s : System ι (ι × FileCall) (Kernel × (ι → OpenFile)) Fault}

/-- A call of a reader waits for a writer, and gets what that has written, but only when it
tries again: the first copy fails after a byte. -/
def readAfterWrite : List (Fin 2 × System.Choice (Fin 2 × FileCall)) :=
  [(1, .call (1, .read ⟨9, some 1⟩)), (0, .call (0, .write ⟨[104, 105, 10], false⟩))] ++
  List.replicate 22 (0, .go) ++ List.replicate 12 (1, .go) ++
  (1, .call (1, .read ⟨9, none⟩)) :: List.replicate 12 (1, .go)

end Runs

end Aesd.Proofs
