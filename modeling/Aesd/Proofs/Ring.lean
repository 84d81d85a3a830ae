import Aesd.Driver.CircularBuffer

namespace Aesd.Proofs
open Base Driver

/-- The ring holds the entries `q`, oldest first. That it is full can be told
from the slot to be written next, because no stored pointer is NULL. -/
structure Ring (b : CircularBuffer) (q : List BufferEntry) : Prop where
  holds : Queue.Holds .blank b.entry b.inOffs b.outOffs q
  nonnull : ∀ e ∈ q, e.buffptr ≠ .null

theorem init_ring : Ring aesdCircularBufferInit [] :=
  ⟨Queue.holds_empty (by decide), by simp⟩

/-- What is given back to make room for a new entry. -/
def evicted (q : List BufferEntry) : Ptr :=
  if q.length = 10 then (q.getD 0 .blank).buffptr else .null

theorem Ring.next_slot {b : CircularBuffer} {q : List BufferEntry} (hr : Ring b q) :
    ∃ slot, b.entry[b.inOffs]? = some slot ∧ slot.buffptr = evicted q ∧
      (slot.buffptr ≠ .null ↔ q.length = 10) := by
  by_cases hq : q.length = 10
  · refine ⟨_, hr.holds.slot_full hq, by simp [evicted, hq], ?_⟩
    have h0 : 0 < q.length := by omega
    have hmem : q.getD 0 .blank ∈ q := by simp [List.getD, h0]
    exact iff_of_true (hr.nonnull _ hmem) hq
  · have hlt : q.length < 10 := by
      have := hr.holds.fits
      omega
    exact ⟨_, hr.holds.slot_filling hlt, by simp [evicted, hq, BufferEntry.blank],
      by simp [hq, BufferEntry.blank]⟩

/-- One more entry, in both the filling and the full ring. -/
theorem Ring.push {b : CircularBuffer} {q : List BufferEntry} (hr : Ring b q) (e : BufferEntry)
    (he : e.buffptr ≠ .null) :
    Ring { entry := b.entry.setIfInBounds b.inOffs e
           inOffs := Queue.next 10 b.inOffs
           outOffs := if q.length = 10 then Queue.next 10 b.outOffs else b.outOffs }
      (Queue.push 10 q e) := by
  by_cases hq : q.length = 10
  · simp only [hq, ↓reduceIte, Queue.push_full (by decide) hq]
    refine ⟨hr.holds.push_full hq e, ?_⟩
    intro x hx
    rcases List.mem_append.mp hx with hx | hx
    · exact hr.nonnull x (List.mem_of_mem_tail hx)
    · exact List.mem_singleton.mp hx ▸ he
  · have hlt : q.length < 10 := by
      have := hr.holds.fits
      omega
    simp only [hq, ↓reduceIte, Queue.push_filling hlt]
    refine ⟨hr.holds.push_filling hlt e, ?_⟩
    intro x hx
    rcases List.mem_append.mp hx with hx | hx
    · exact hr.nonnull x hx
    · exact List.mem_singleton.mp hx ▸ he

section AddEntry
variable {h : Heap} {b : CircularBuffer} {e : BufferEntry} {s : List UInt8}

theorem add_entry_refused (hs : h.string e.buffptr = .ok s)
    (hn : (h.kmalloc s.length).1 = .null) :
    aesdCircularBufferAddEntry h b e = .ok (.null, (h.kmalloc s.length).2, b) := by
  simp [aesdCircularBufferAddEntry, Heap.strlen_ok hs, hn, bind, Except.bind, pure, Except.pure]

/-- The entry is stored under its measured length, whatever size it came with. -/
theorem add_entry_stored (hr : Ring b q) (hs : h.string e.buffptr = .ok s)
    (he : e.buffptr ≠ .null) (hn : (h.kmalloc s.length).1 ≠ .null) :
    ∃ b', aesdCircularBufferAddEntry h b e = .ok (evicted q, (h.kmalloc s.length).2, b') ∧
      Ring b' (Queue.push 10 q ⟨e.buffptr, s.length⟩) ∧ b'.inOffs = Queue.next 10 b.inOffs := by
  obtain ⟨slot, hslot, hev, hfull⟩ := hr.next_slot
  have hs' := Heap.strlen_ok (Heap.string_kmalloc hs s.length)
  refine ⟨_, ?_, hr.push ⟨e.buffptr, s.length⟩ he, rfl⟩
  have hret : (if q.length = 10 then slot.buffptr else .null) = evicted q := by
    rw [hev]
    unfold evicted
    split <;> rfl
  simp only [aesdCircularBufferAddEntry, Heap.strlen_ok hs, bind, Except.bind, hn, ↓reduceIte,
    hslot, hs', pure, Except.pure, hfull, hret]

end AddEntry

/-- How the system is going to answer the request of a call, which is for as many bytes
as the string has. One for no bytes is always answered with a pointer. -/
def answer (h : Heap) (e : BufferEntry) : Bool :=
  match h.strlen e.buffptr with
  | .ok n => decide (n = 0) || h.granted n
  | .error _ => false

theorem answer_eq {h : Heap} {e : BufferEntry} {s : List UInt8}
    (hs : h.string e.buffptr = .ok s) :
    answer h e = decide ((h.kmalloc s.length).1 ≠ .null) := by
  simp only [answer, Heap.strlen_ok hs]
  by_cases hn : s.length = 0
  · simp [hn, Heap.kmalloc]
  · simp [hn, Heap.kmalloc_null_iff hn]

/-- A call of `aesd_circular_buffer_add_entry` with the answer to its request and
everything it did. -/
structure Added where
  entry : BufferEntry
  granted : Bool
  returned : Ptr
  before : CircularBuffer
  after : CircularBuffer

/-- A sequence of calls, with a record of each. -/
def addEntries (h : Heap) (b : CircularBuffer) :
    List BufferEntry → Except Fault (List Added × Heap × CircularBuffer)
  | [] => .ok ([], h, b)
  | e :: es => do
    let (p, h', b') ← aesdCircularBufferAddEntry h b e
    let (log, h'', b'') ← addEntries h' b' es
    return (⟨e, answer h e, p, b, b'⟩ :: log, h'', b'')

/-- The calls that found memory. -/
def stored (log : List Added) : List Added := log.filter Added.granted

/-- An entry as the ring keeps it: with the length of its string. -/
def measured (h : Heap) (e : BufferEntry) : BufferEntry :=
  ⟨e.buffptr, ((h.string e.buffptr).toOption.getD []).length⟩

theorem measured_eq {h : Heap} {e : BufferEntry} {s : List UInt8}
    (hs : h.string e.buffptr = .ok s) : measured h e = ⟨e.buffptr, s.length⟩ := by
  simp [measured, hs, Except.toOption]

theorem evicted_rtake (all : List BufferEntry) :
    evicted (all.rtake 10) =
      if all.length < 10 then .null else (all.getD (all.length - 10) .blank).buffptr := by
  unfold evicted
  rw [Queue.length_rtake]
  by_cases hlt : all.length < 10
  · rw [if_neg (by omega), if_pos hlt]
  · rw [if_pos (by omega), if_neg hlt]
    simp [List.rtake, List.getD]

theorem add_entry_log (hr : Ring b (all.rtake 10)) (hs : h.string e.buffptr = .ok s) :
    ∃ p h' b', aesdCircularBufferAddEntry h b e = .ok (p, h', b') ∧
      (∀ q u, h.string q = .ok u → h'.string q = .ok u) ∧
      ((answer h e = false ∧ b' = b ∧ p = .null) ∨
       (answer h e = true ∧ Ring b' ((all ++ [measured h e]).rtake 10) ∧
        b'.inOffs = Queue.next 10 b.inOffs ∧ p = evicted (all.rtake 10))) := by
  have hkeep : ∀ q u, h.string q = .ok u → (h.kmalloc s.length).2.string q = .ok u :=
    fun q u hq => Heap.string_kmalloc hq s.length
  by_cases hn : (h.kmalloc s.length).1 = .null
  · refine ⟨_, _, _, add_entry_refused hs hn, hkeep, Or.inl ⟨?_, rfl, rfl⟩⟩
    simp [answer_eq hs, hn]
  · obtain ⟨b', ha, hb, hin⟩ := add_entry_stored hr hs (Heap.ne_null_of_string hs) hn
    refine ⟨_, _, b', ha, hkeep, Or.inr ⟨?_, ?_, hin, rfl⟩⟩
    · simp [answer_eq hs, hn]
    · rw [measured_eq hs, ← Queue.push_rtake]
      exact hb

/-- A call does not change the strings of the others, so that their entries measure the
same after it. -/
theorem map_measured_eq {h₁ : Heap} {es : List BufferEntry} {log done : List Added}
    (hes : ∀ e ∈ es, ∃ s, h.string e.buffptr = .ok s)
    (hkeep : ∀ q u, h.string q = .ok u → h₁.string q = .ok u)
    (hlog : log.map Added.entry = es) (hdone : ∀ a ∈ done, a ∈ log) :
    done.map (fun a => measured h₁ a.entry) = done.map (fun a => measured h a.entry) := by
  apply List.map_congr_left
  intro a ha
  have hmem : a.entry ∈ es := by
    rw [← hlog]
    exact List.mem_map.mpr ⟨a, hdone a ha, rfl⟩
  obtain ⟨u, hu⟩ := hes _ hmem
  rw [measured_eq hu, measured_eq (hkeep _ _ hu)]

theorem mem_of_mem_stored {log : List Added} {a : Added} (h : a ∈ stored log) : a ∈ log :=
  (List.mem_filter.mp h).1

/-- The induction over a sequence of calls. `all` is what earlier calls have
stored since the buffer was initialised. -/
theorem add_entries_log (es : List BufferEntry) (h : Heap) (b : CircularBuffer)
    (all : List BufferEntry) (hr : Ring b (all.rtake 10)) (hin : b.inOffs = all.length % 10)
    (hes : ∀ e ∈ es, ∃ s, h.string e.buffptr = .ok s) :
    ∃ log h' b', addEntries h b es = .ok (log, h', b') ∧ log.map Added.entry = es ∧
      (∀ q u, h.string q = .ok u → h'.string q = .ok u) ∧
      (∀ a ∈ log, a.granted = false → a.after = a.before ∧ a.returned = .null) ∧
      Ring b' ((all ++ (stored log).map (fun a => measured h a.entry)).rtake 10) ∧
      b'.inOffs = (all.length + (stored log).length) % 10 ∧
      (∀ j a, (stored log)[j]? = some a → a.returned =
        evicted ((all ++ ((stored log).take j).map (fun a => measured h a.entry)).rtake 10)) := by
  induction es generalizing h b all with
  | nil =>
    exact ⟨[], h, b, rfl, rfl, fun _ _ hq => hq, by simp, by simpa [stored] using hr,
      by simpa [stored] using hin, by simp [stored]⟩
  | cons e es ih =>
    obtain ⟨s, hs⟩ := hes e List.mem_cons_self
    obtain ⟨p, h₁, b₁, ha, hkeep, hstep⟩ := add_entry_log (e := e) hr hs
    have hrun : ∀ log h₂ b₂, addEntries h₁ b₁ es = .ok (log, h₂, b₂) →
        addEntries h b (e :: es) =
          .ok (⟨e, answer h e, p, b, b₁⟩ :: log, h₂, b₂) := by
      intro log h₂ b₂ he
      simp [addEntries, ha, he, bind, Except.bind, pure, Except.pure]
    have hothers : ∀ x ∈ es, ∃ u, h.string x.buffptr = .ok u :=
      fun x hx => hes x (List.mem_cons_of_mem _ hx)
    have hes₁ : ∀ x ∈ es, ∃ u, h₁.string x.buffptr = .ok u := by
      intro x hx
      obtain ⟨u, hu⟩ := hothers x hx
      exact ⟨u, hkeep _ _ hu⟩
    rcases hstep with ⟨hans, rfl, rfl⟩ | ⟨hans, hr₁, hnext, rfl⟩
    · obtain ⟨log, h₂, b₂, he, hlog, hk, hfail, hring, hoff, hret⟩ := ih h₁ b₁ all hr hin hes₁
      have hst : stored (⟨e, answer h e, .null, b₁, b₁⟩ :: log) = stored log := by
        simp [stored, hans]
      refine ⟨_, h₂, b₂, hrun log h₂ b₂ he, by simp [hlog],
        fun q u hq => hk q u (hkeep q u hq), ?_, ?_, by rw [hst, hoff], ?_⟩
      · intro a hm hg
        rcases List.mem_cons.mp hm with rfl | hm
        · exact ⟨rfl, rfl⟩
        · exact hfail a hm hg
      · rwa [hst, ← map_measured_eq hothers hkeep hlog (fun a => mem_of_mem_stored)]
      · intro j a hj
        rw [hst] at hj ⊢
        rw [← map_measured_eq hothers hkeep hlog
          (fun a ha => mem_of_mem_stored (List.mem_of_mem_take ha))]
        exact hret j a hj
    · have hin₁ : b₁.inOffs = (all ++ [measured h e]).length % 10 := by
        rw [hnext, Queue.next_eq hr.holds.inn_lt, hin]
        simp
      obtain ⟨log, h₂, b₂, he, hlog, hk, hfail, hring, hoff, hret⟩ := ih h₁ b₁ _ hr₁ hin₁ hes₁
      have hst : stored (⟨e, answer h e, evicted (all.rtake 10), b, b₁⟩ :: log) =
          ⟨e, true, evicted (all.rtake 10), b, b₁⟩ :: stored log := by
        simp [stored, hans]
      refine ⟨_, h₂, b₂, hrun log h₂ b₂ he, by simp [hlog],
        fun q u hq => hk q u (hkeep q u hq), ?_, ?_, ?_, ?_⟩
      · intro a hm hg
        rcases List.mem_cons.mp hm with rfl | hm
        · simp [hans] at hg
        · exact hfail a hm hg
      · rw [hst]
        rw [map_measured_eq hothers hkeep hlog (fun a => mem_of_mem_stored)] at hring
        simpa using hring
      · rw [hst, hoff]
        simp [Nat.add_assoc, Nat.add_comm 1]
      · intro j a hj
        rw [hst] at hj ⊢
        cases j with
        | zero =>
          obtain rfl : _ = a := by simpa using hj
          simp
        | succ j =>
          have hafter := hret j a (by simpa using hj)
          rw [map_measured_eq hothers hkeep hlog
            (fun a ha => mem_of_mem_stored (List.mem_of_mem_take ha))] at hafter
          simpa using hafter

/-- The ring is a queue of the ten entries stored last. `done` are the calls
that found memory; a call that did not leaves no trace. -/
theorem add_entries_keep_last_ten (h : Heap) (es : List BufferEntry)
    (hes : ∀ e ∈ es, ∃ s, h.string e.buffptr = .ok s) :
    ∃ log h' b', addEntries h aesdCircularBufferInit es = .ok (log, h', b') ∧
      log.map Added.entry = es ∧
      (∀ a ∈ log, a.granted = false → a.after = a.before ∧ a.returned = .null) ∧
      ∃ done k, done = stored log ∧ k = done.length ∧
        b'.inOffs < 10 ∧ b'.outOffs < 10 ∧ b'.inOffs = k % 10 ∧
        b'.outOffs = (if k < 10 then 0 else b'.inOffs) ∧
        (∀ i, i < min 10 k → ∃ a s, done[k - min 10 k + i]? = some a ∧
          h.string a.entry.buffptr = .ok s ∧ h'.string a.entry.buffptr = .ok s ∧
          b'.entry[(b'.outOffs + i) % 10]? = some ⟨a.entry.buffptr, s.length⟩) ∧
        (∀ i, min 10 k ≤ i → i < 10 →
          b'.entry[(b'.outOffs + i) % 10]? = some ⟨.null, 0⟩) ∧
        (∀ j a, done[j]? = some a → a.returned =
          if j < 10 then .null else ((done[j - 10]?).map (·.entry.buffptr)).getD .null) := by
  obtain ⟨log, h', b', he, hlog, hk, hfail, hring, hoff, hret⟩ :=
    add_entries_log es h aesdCircularBufferInit [] (by simpa using init_ring) rfl hes
  simp only [List.nil_append, List.length_nil, Nat.zero_add] at hring hret hoff
  have hlen := Queue.length_rtake ((stored log).map (fun a => measured h a.entry)) 10
  rw [List.length_map] at hlen
  have hold := hring.holds
  have hstr : ∀ a ∈ stored log, ∃ s, h.string a.entry.buffptr = .ok s := by
    intro a ha
    apply hes
    rw [← hlog]
    exact List.mem_map.mpr ⟨a, (List.mem_filter.mp ha).1, rfl⟩
  refine ⟨log, h', b', he, hlog, hfail, stored log, _, rfl, rfl, hold.inn_lt, hold.out_lt, hoff,
    ?_, ?_, ?_, ?_⟩
  · by_cases hlt : (stored log).length < 10
    · rw [if_pos hlt, hold.start (by omega)]
    · rw [if_neg hlt, hold.inn_full (by omega)]
  · intro i hi
    have hidx : (stored log).length - min 10 (stored log).length + i < (stored log).length := by omega
    obtain ⟨s, hs⟩ := hstr _ (List.getElem_mem hidx)
    refine ⟨_, s, List.getElem?_eq_getElem hidx, hs, hk _ _ hs, ?_⟩
    rw [hold.slot i (by omega), ← measured_eq hs]
    have hdrop : (stored log).length - 10 = (stored log).length - min 10 (stored log).length := by
      omega
    simp [List.rtake, List.getD, hdrop, hidx]
  · intro i hi hi10
    rw [hold.slot i hi10, List.getD, List.getElem?_eq_none (by omega)]
    rfl
  · intro j a hj
    have hjlt := (List.getElem?_eq_some_iff.mp hj).1
    rw [hret j a hj, evicted_rtake, List.length_map, List.length_take, Nat.min_eq_left (by omega)]
    split
    · rfl
    · rename_i hge
      have h10 : j - 10 < j := by omega
      simp only [List.getD, List.getElem?_map, List.getElem?_take, h10, ↓reduceIte]
      cases (stored log)[j - 10]? <;> simp [measured, BufferEntry.blank]

/-- A heap with the string "h", on which the second request for memory fails. -/
abbrev tightHeap : Heap := ⟨[⟨[some 104, some 0], true⟩], fun n => n != 1, fun _ _ => 0, 0, 0⟩

/-- Of two calls the first stores its string, and the second finds no memory. -/
theorem add_entries_second_denied :
    ∃ log h' b', addEntries tightHeap aesdCircularBufferInit
        [⟨.cell 0 0, 0⟩, ⟨.cell 0 0, 0⟩] = .ok (log, h', b') ∧
      log.map Added.granted = [true, false] ∧ b'.inOffs = 1 ∧ b'.outOffs = 0 ∧
      b'.entry[0]? = some ⟨.cell 0 0, 1⟩ ∧
      ∀ a ∈ log, a.granted = false → a.after = a.before ∧ a.returned = .null := by
  have hstring : ∀ e ∈ [(⟨.cell 0 0, 0⟩ : BufferEntry), ⟨.cell 0 0, 0⟩],
      tightHeap.string e.buffptr = .ok [104] := by
    intro e he
    obtain rfl : e = ⟨.cell 0 0, 0⟩ := by simpa using he
    rfl
  have hanswers : (addEntries tightHeap aesdCircularBufferInit
      [⟨.cell 0 0, 0⟩, ⟨.cell 0 0, 0⟩]).map (fun r => r.1.map Added.granted) =
        .ok [true, false] := by decide
  obtain ⟨log, h', b', hrun, hlog, hfail, done, k, rfl, rfl, _, _, hin, hout, hslots, _⟩ :=
    add_entries_keep_last_ten tightHeap [⟨.cell 0 0, 0⟩, ⟨.cell 0 0, 0⟩]
      (fun e he => ⟨[104], hstring e he⟩)
  have hgranted : log.map Added.granted = [true, false] := by
    rw [hrun] at hanswers
    exact Except.ok.inj hanswers
  obtain ⟨a₁, a₂, rfl⟩ : ∃ a₁ a₂, log = [a₁, a₂] :=
    List.length_eq_two.mp (by simpa using congrArg List.length hgranted)
  obtain ⟨hg₁, hg₂⟩ : a₁.granted = true ∧ a₂.granted = false := by simpa using hgranted
  have hdone : stored [a₁, a₂] = [a₁] := by simp [stored, hg₁, hg₂]
  rw [hdone] at hin hout hslots
  have hout : b'.outOffs = 0 := hout
  obtain ⟨a, s, ha, hs, _, hslot⟩ := hslots 0 (by simp)
  obtain rfl : a₁ = a := by simpa using ha
  obtain ⟨hentry, _⟩ : a₁.entry = ⟨.cell 0 0, 0⟩ ∧ a₂.entry = ⟨.cell 0 0, 0⟩ := by simpa using hlog
  rw [hentry] at hs hslot
  obtain rfl : [104] = s := Except.ok.inj ((hstring _ List.mem_cons_self).symm.trans hs)
  rw [hout] at hslot
  exact ⟨_, h', b', hrun, hgranted, hin, hout, hslot, hfail⟩

end Aesd.Proofs
