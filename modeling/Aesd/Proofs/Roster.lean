import Aesd.Server.Main

namespace Aesd.Proofs
open Base Server

/-- The node that `add_slist_entry` is about to link. -/
def entry : Pc → Option Nat
  | .add i => some i
  | .create i => some i
  | .insert i => some i
  | .walk i _ => some i
  | .nullEntry i => some i
  | _ => none

/-- The node that one of the loops over the list is at. -/
def cursor : Pc → Option Nat
  | .walk _ current => current
  | .sweep current => current
  | .join i => some i
  | .close i => some i
  | .clear i => some i
  | .last current => current
  | .lastJoin i => some i
  | .lastClose i => some i
  | _ => none

/-- How many nodes are in the list. -/
def linked (pc : Pc) (accepted : Nat) : Nat := (entry pc).getD accepted

/-- The list has the connections in the order in which they were accepted, and
`main` follows its links. -/
structure Roster (pc : Pc) (list : SList Nat) (accepted : Nat) : Prop where
  chain : SList.Chain list.next list.head (List.range (linked pc accepted))
  entry_eq : ∀ i, entry pc = some i → accepted = i + 1
  cursor_lt : ∀ i, cursor pc = some i → i < linked pc accepted
  on_list : ∀ i, pc ≠ .walk i none

theorem linked_of_entry {pc : Pc} {i accepted : Nat} (h : entry pc = some i) :
    linked pc accepted = i := by
  rw [linked, h]
  rfl

theorem linked_of_none {pc : Pc} {accepted : Nat} (h : entry pc = none) :
    linked pc accepted = accepted := by
  rw [linked, h]
  rfl

section Links
variable {pc pc' : Pc} {list : SList Nat} {accepted i : Nat}

theorem Roster.head_lt (hs : Roster pc list accepted) (h : list.head = some i) :
    i < linked pc accepted := by
  rw [hs.chain.start_eq, List.head?_range] at h
  split at h
  · cases h
  · obtain rfl := Option.some.inj h
    omega

theorem Roster.next_eq (hs : Roster pc list accepted) (hi : i < linked pc accepted) :
    list.next i = if i + 1 < linked pc accepted then some (i + 1) else none := by
  have hat : (List.range (linked pc accepted))[i]? = some i := by simp [hi]
  rw [hs.chain.next_eq hat]
  split
  · simp [*]
  · simp only [List.getElem?_eq_none_iff, List.length_range]
    omega

theorem Roster.next_lt (hs : Roster pc list accepted) (hi : i < linked pc accepted) {j : Nat}
    (h : list.next i = some j) : j < linked pc accepted := by
  rw [hs.next_eq hi] at h
  split at h
  · obtain rfl := Option.some.inj h
    assumption
  · cases h

/-- While no node is being added, every connection is on the list. -/
theorem Roster.cursor_accepted (hs : Roster pc list accepted) (hentry : entry pc = none)
    (hcursor : cursor pc = some i) : i < accepted := by
  have hi := hs.cursor_lt i hcursor
  rwa [linked_of_none hentry] at hi

theorem Roster.head_accepted (hs : Roster pc list accepted) (hentry : entry pc = none)
    (hsome : 0 < accepted) : list.head = some 0 := by
  have hhead := hs.chain.start_eq
  rwa [linked_of_none hentry, List.head?_range, if_neg (Nat.ne_of_gt hsome)] at hhead

theorem Roster.next_accepted (hs : Roster pc list accepted) (hentry : entry pc = none)
    (hi : i < accepted) : list.next i = if i + 1 < accepted then some (i + 1) else none := by
  have hlinked : linked pc accepted = accepted := linked_of_none hentry
  have hnext := hs.next_eq (hlinked.symm ▸ hi)
  rwa [hlinked] at hnext

/-- A move of `main` that leaves the list alone. -/
theorem Roster.goto (hs : Roster pc list accepted) (hentry : entry pc' = entry pc)
    (hcursor : ∀ i, cursor pc' = some i → i < linked pc accepted)
    (hlist : ∀ i, pc' ≠ .walk i none) : Roster pc' list accepted := by
  have hlinked : linked pc' accepted = linked pc accepted := by rw [linked, hentry, linked]
  refine ⟨?_, ?_, ?_, hlist⟩
  · rw [hlinked]
    exact hs.chain
  · rw [hentry]
    exact hs.entry_eq
  · rw [hlinked]
    exact hcursor

/-- To a place in the loop at which no node is being looked at. -/
theorem Roster.leave (hs : Roster pc list accepted) (hentry : entry pc' = entry pc)
    (hcursor : cursor pc' = none) (hlist : ∀ i, pc' ≠ .walk i none) : Roster pc' list accepted :=
  hs.goto hentry (fun i hi => by simp [hcursor] at hi) hlist

/-- To another place with the same node. -/
theorem Roster.stay (hs : Roster pc list accepted) (hentry : entry pc' = entry pc)
    (hcursor : cursor pc' = cursor pc) (hlist : ∀ i, pc' ≠ .walk i none) :
    Roster pc' list accepted :=
  hs.goto hentry (fun i hi => hs.cursor_lt i (hcursor ▸ hi)) hlist

/-- The new node has been linked. -/
theorem Roster.enter (hs : Roster pc list accepted) (hentry : entry pc = some i)
    {list' : SList Nat} (hchain : SList.Chain list'.next list'.head (List.range (i + 1))) :
    Roster (.sweep list'.head) list' accepted := by
  have haccepted := hs.entry_eq i hentry
  have hlinked : linked (.sweep list'.head) accepted = i + 1 := haccepted
  refine ⟨?_, ?_, ?_, ?_⟩
  · rw [hlinked]
    exact hchain
  · intro j hj
    cases hj
  · intro j hj
    have hhead : list'.head = some j := hj
    rw [hchain.start_eq, List.head?_range, if_neg (Nat.succ_ne_zero i)] at hhead
    obtain rfl := Option.some.inj hhead
    omega
  · simp

end Links

section Steps
variable {σ : Type} {code : Nat → Code (Shared σ) Fault Unit} {s s' : Process σ}

theorem roster_start : Roster .top ⟨none, fun _ => none⟩ 0 where
  chain := .nil
  entry_eq := by simp [entry]
  cursor_lt := by simp [cursor]
  on_list := by simp

theorem Roster.mainStep (hs : Roster s.main s.list s.accepted)
    (h : Process.MainStep code s s') : Roster s'.main s'.list s'.accepted := by
  cases h with
  | stop hpc => exact hs.goto (by rw [hpc]; rfl) (fun i hi => hs.head_lt hi) (by simp)
  | listen hpc | again hpc | refuse hpc | swept hpc | passed hpc | keep hpc | follow hpc =>
    exact hs.leave (by rw [hpc]; rfl) rfl (by simp)
  | accept fd hpc =>
    have hlinked : linked s.main s.accepted = s.accepted := linked_of_none (by rw [hpc]; rfl)
    refine ⟨hlinked ▸ hs.chain, ?_, ?_, by simp⟩
    · intro i hi
      obtain rfl := Option.some.inj hi
      rfl
    · intro i hi
      cases hi
  | add hpc | noMemory hpc | create hpc | noThread hpc =>
    exact hs.leave (by rw [hpc]; rfl) rfl (by simp)
  | @first i hpc hempty =>
    have hentry : entry s.main = some i := by rw [hpc]; rfl
    have hnil := (SList.chain_isEmpty hs.chain).mp hempty
    refine hs.enter hentry ?_
    have hchain := hs.chain
    rw [linked_of_entry hentry] at hnil hchain
    obtain rfl : i = 0 := by simpa using hnil
    exact hchain.insertHead (by simp)
  | @search i hpc hempty =>
    refine hs.goto (by rw [hpc]; rfl) (fun i hi => hs.head_lt hi) ?_
    intro j hj
    simp [SList.isEmpty, (Pc.walk.inj hj).2] at hempty
  | @link i x hpc hlast =>
    have hentry : entry s.main = some i := by rw [hpc]; rfl
    have hx : x < linked s.main s.accepted := hs.cursor_lt x (by rw [hpc]; rfl)
    rw [hs.next_eq hx] at hlast
    refine hs.enter hentry ?_
    have hchain := hs.chain
    rw [linked_of_entry hentry] at hx hlast hchain
    -- the walk has come to the last node
    obtain rfl : i = x + 1 := by
      split at hlast
      · cases hlast
      · omega
    rw [List.range_succ (n := x + 1)]
    exact hchain.insertAfter List.nodup_range (by simp) (by simp [List.range_succ])
  | @further i x hpc hmore =>
    have hx : x < linked s.main s.accepted := hs.cursor_lt x (by rw [hpc]; rfl)
    refine hs.goto (by rw [hpc]; rfl) (fun j hj => hs.next_lt hx hj) ?_
    intro j hj
    exact hmore (Pc.walk.inj hj).2
  | astray hpc => exact absurd hpc (hs.on_list _)
  | ready hpc | busy hpc | joined hpc | lastReady hpc | lastBusy hpc | lastJoined hpc =>
    exact hs.stay (by rw [hpc]; rfl) (by rw [hpc]; rfl) (by simp)
  | @close i hpc =>
    obtain ⟨_, _, hclose⟩ := s.closeSocket_eq i
    rw [hclose]
    exact hs.stay (by rw [hpc]; rfl) (by rw [hpc]; rfl) (by simp)
  | @clear i hpc =>
    have hi : i < linked s.main s.accepted := hs.cursor_lt i (by rw [hpc]; rfl)
    exact hs.goto (by rw [hpc]; rfl) (fun j hj => hs.next_lt hi hj) (by simp)
  | @lastClose i hpc =>
    have hi : i < linked s.main s.accepted := hs.cursor_lt i (by rw [hpc]; rfl)
    obtain ⟨_, _, hclose⟩ := s.closeSocket_eq i
    rw [hclose]
    exact hs.goto (by rw [hpc]; rfl) (fun j hj => hs.next_lt hi hj) (by simp)
  | drop hpc hempty hlist =>
    -- an empty list has no head to remove
    have hnull : s.list.head = none := Option.isNone_iff_eq_none.mp hempty
    simp [SList.removeHead, hnull] at hlist

theorem Roster.step (hs : Roster s.main s.list s.accepted) (h : Process.Step code s s') :
    Roster s'.main s'.list s'.accepted := by
  cases h with
  | signal => exact hs
  | worker => exact hs
  | main h => exact hs.mainStep h

theorem roster_of_runs {Ok : Process σ → Process σ → Prop} {mem : Shared σ}
    (hrun : Process.Runs code Ok (.start mem) s) : Roster s.main s.list s.accepted := by
  induction hrun with
  | refl => exact roster_start
  | step _ _ h ih => exact ih.step h

end Steps

end Aesd.Proofs
