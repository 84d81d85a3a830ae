import Aesd.Proofs.Roster

namespace Aesd.Proofs
open Base Server

variable {σ : Type} {code : Nat → Code (Shared σ) Fault Unit} {s s' : Process σ}

/-- The node that `main` has joined and is about to close the socket of. -/
def tending : Pc → Option Nat
  | .join i => some i
  | .close i => some i
  | .lastJoin i => some i
  | .lastClose i => some i
  | _ => none

/-- A connection that is not closed still has its descriptor, and one whose thread
has been joined is closed next. -/
structure Attended (s : Process σ) : Prop where
  still : ∀ i, i < s.accepted → i ∈ s.closed ∨ s.sockets (s.connectedSktFd i) = some i
  attended : ∀ i ∈ s.joins, i ∈ s.closed ∨ tending s.main = some i

theorem attended_start (mem : Shared σ) : Attended (.start mem) where
  still := by
    intro i hi
    cases hi
  attended := by
    intro i hi
    cases hi

/-- A step of `main` that neither accepts nor closes a connection. -/
theorem Attended.goto (hs : Attended s) (haccepted : s'.accepted = s.accepted)
    (hclosed : s'.closed = s.closed) (hsockets : s'.sockets = s.sockets)
    (hfds : s'.connectedSktFd = s.connectedSktFd)
    (hjoins : ∀ i ∈ s'.joins, i ∈ s.joins ∨ tending s'.main = some i)
    (htending : ∀ i, tending s.main = some i → tending s'.main = some i) : Attended s' where
  still := by
    rw [haccepted, hclosed, hsockets, hfds]
    exact hs.still
  attended := by
    intro i hi
    rw [hclosed]
    rcases hjoins i hi with hi | hi
    · exact (hs.attended i hi).imp_right (htending i)
    · exact Or.inr hi

/-- A step of `main` between two nodes. -/
theorem Attended.leave (hs : Attended s) (haccepted : s'.accepted = s.accepted)
    (hclosed : s'.closed = s.closed) (hsockets : s'.sockets = s.sockets)
    (hfds : s'.connectedSktFd = s.connectedSktFd) (hjoins : s'.joins = s.joins)
    (htending : tending s.main = none) : Attended s' :=
  hs.goto haccepted hclosed hsockets hfds (fun i hi => Or.inl (hjoins ▸ hi))
    (fun i hi => by simp [htending] at hi)

theorem Attended.accept (hs : Attended s) {fd : Nat} (hfree : s.sockets fd = none)
    (htending : tending s.main = none) : Attended ((s.accept fd).goto (.add s.accepted)) where
  still := by
    intro i hi
    simp only [Process.goto, Process.accept]
    by_cases he : i = s.accepted
    · subst he
      simp
    · rw [Function.update_of_ne he]
      have hlt : i < s.accepted := Nat.lt_of_le_of_ne (Nat.le_of_lt_succ hi) he
      refine (hs.still i hlt).imp_right (fun hsocket => ?_)
      -- the number of an open connection is not given out
      have hne : s.connectedSktFd i ≠ fd := by
        intro hfd
        rw [hfd, hfree] at hsocket
        cases hsocket
      rw [Function.update_of_ne hne]
      exact hsocket
  attended := by
    intro i hi
    have hclosed := hs.attended i hi
    simp only [htending, reduceCtorEq, or_false] at hclosed
    exact Or.inl hclosed

/-- Closing the descriptor of a node: its connection is closed by then. -/
theorem Attended.closeSocket (hs : Attended s) {i : Nat} (hi : i < s.accepted) :
    i ∈ (s.closeSocket i).closed ∧ s.closed ⊆ (s.closeSocket i).closed ∧
    ∀ j, j < s.accepted → j ∈ (s.closeSocket i).closed ∨
      (s.closeSocket i).sockets (s.connectedSktFd j) = some j := by
  unfold Process.closeSocket
  split
  · rename_i hnone
    refine ⟨?_, List.Subset.refl _, hs.still⟩
    simpa [hnone] using hs.still i hi
  · rename_i k hk
    refine ⟨?_, List.subset_append_left _ _, ?_⟩
    · rcases hs.still i hi with hmem | hsocket
      · exact List.mem_append_left _ hmem
      · obtain rfl := Option.some.inj (hk.symm.trans hsocket)
        simp
    · intro j hj
      rcases hs.still j hj with hmem | hsocket
      · exact Or.inl (List.mem_append_left _ hmem)
      · by_cases hfd : s.connectedSktFd j = s.connectedSktFd i
        · rw [hfd, hk] at hsocket
          obtain rfl := Option.some.inj hsocket
          exact Or.inl (by simp)
        · exact Or.inr ((Function.update_of_ne hfd _ _).trans hsocket)

theorem Attended.close (hs : Attended s) {i : Nat} (hi : i < s.accepted)
    (htending : tending s.main = some i) (pc : Pc) : Attended ((s.closeSocket i).goto pc) := by
  obtain ⟨hmem, hsub, hstill⟩ := hs.closeSocket hi
  obtain ⟨_, _, hclose⟩ := s.closeSocket_eq i
  rw [hclose] at hmem hsub hstill ⊢
  refine ⟨hstill, fun j hj => Or.inl ?_⟩
  rcases hs.attended j hj with hj | hj
  · exact hsub hj
  · obtain rfl := Option.some.inj (htending.symm.trans hj)
    exact hmem

theorem Attended.mainStep (hs : Attended s)
    (hr : Roster s.main s.list s.accepted) (h : Process.MainStep code s s') : Attended s' := by
  cases h with
  | stop hpc | listen hpc | again hpc | refuse hpc | add hpc | noMemory hpc | create hpc
  | noThread hpc | first hpc | search hpc | link hpc | further hpc | astray hpc | swept hpc
  | busy hpc | clear hpc | passed hpc | lastBusy hpc | keep hpc | follow hpc | drop hpc =>
    exact hs.leave rfl rfl rfl rfl rfl (by rw [hpc]; rfl)
  | accept fd hpc hfree => exact hs.accept hfree (by rw [hpc]; rfl)
  | ready hpc | lastReady hpc =>
    exact hs.goto rfl rfl rfl rfl (by simp [tending, eq_comm]) (by simp [hpc, tending])
  | joined hpc | lastJoined hpc =>
    exact hs.goto rfl rfl rfl rfl (fun i hi => Or.inl hi) (by simp [hpc, tending])
  | @close i hpc | @lastClose i hpc =>
    have hi : i < s.accepted := hr.cursor_accepted (by rw [hpc]; rfl) (by rw [hpc]; rfl)
    exact hs.close hi (by rw [hpc]; rfl) _

/-- The last pass over the list is beyond node `i`. -/
def past : Pc → Nat → Bool
  | .last none, _ => true
  | .last (some j), i => i < j
  | .lastJoin j, i => i < j
  | .lastClose j, i => i < j
  | .free, _ => true
  | .exited ret, _ => ret = 0
  | .nullHead, _ => true
  | _, _ => false

/-- No connection is closed twice, and the last pass closes all that are left. -/
structure Closings (s : Process σ) : Prop where
  nodup : s.closed.Nodup
  lt : ∀ i ∈ s.closed, i < s.accepted
  unused : ∀ fd i, s.sockets fd = some i →
    fd = s.connectedSktFd i ∧ i < s.accepted ∧ i ∉ s.closed
  passed : ∀ i, i < s.accepted → past s.main i = true → i ∈ s.closed

theorem closings_start (mem : Shared σ) : Closings (.start mem) where
  nodup := .nil
  lt := by
    intro i hi
    cases hi
  unused := by
    intro fd i hfd
    cases hfd
  passed := by
    intro i hi
    cases hi

/-- A step of `main` that neither accepts nor closes a connection. -/
theorem Closings.goto (hs : Closings s) (haccepted : s'.accepted = s.accepted)
    (hclosed : s'.closed = s.closed) (hsockets : s'.sockets = s.sockets)
    (hfds : s'.connectedSktFd = s.connectedSktFd)
    (hpast : ∀ i, i < s.accepted → past s'.main i = true → past s.main i = true) :
    Closings s' where
  nodup := by
    rw [hclosed]
    exact hs.nodup
  lt := by
    rw [hclosed, haccepted]
    exact hs.lt
  unused := by
    rw [hsockets, hfds, haccepted, hclosed]
    exact hs.unused
  passed := by
    intro i hi hpass
    rw [haccepted] at hi
    rw [hclosed]
    exact hs.passed i hi (hpast i hi hpass)

theorem Closings.accept (hs : Closings s) {fd : Nat} :
    Closings ((s.accept fd).goto (.add s.accepted)) where
  nodup := hs.nodup
  lt := fun i hi => Nat.lt_succ_of_lt (hs.lt i hi)
  unused := by
    intro fd' i hfd'
    simp only [Process.goto, Process.accept] at hfd' ⊢
    by_cases he : fd' = fd
    · subst he
      rw [Function.update_self] at hfd'
      obtain rfl := Option.some.inj hfd'
      rw [Function.update_self]
      exact ⟨rfl, Nat.lt_succ_self _, fun hmem => Nat.lt_irrefl _ (hs.lt _ hmem)⟩
    · rw [Function.update_of_ne he] at hfd'
      obtain ⟨hnumber, hlt, hnot⟩ := hs.unused fd' i hfd'
      exact ⟨hnumber.trans (Function.update_of_ne hlt.ne _ _).symm, Nat.lt_succ_of_lt hlt, hnot⟩
  passed := by
    intro i _ hpass
    cases hpass

/-- The connection that a descriptor stands for is closed once. -/
theorem Closings.closeSocket (hs : Closings s) (i : Nat) :
    (s.closeSocket i).closed.Nodup ∧ (∀ j ∈ (s.closeSocket i).closed, j < s.accepted) ∧
    ∀ fd j, (s.closeSocket i).sockets fd = some j →
      fd = s.connectedSktFd j ∧ j < s.accepted ∧ j ∉ (s.closeSocket i).closed := by
  unfold Process.closeSocket
  split
  · exact ⟨hs.nodup, hs.lt, hs.unused⟩
  · rename_i k hk
    obtain ⟨hnumber, hlt, hnot⟩ := hs.unused _ k hk
    refine ⟨?_, ?_, ?_⟩
    · rw [← List.concat_eq_append]
      exact List.Nodup.concat hnot hs.nodup
    · intro j hj
      rcases List.mem_append.mp hj with hj | hj
      · exact hs.lt j hj
      · obtain rfl : j = k := by simpa using hj
        exact hlt
    · intro fd j hfd
      have hne : fd ≠ s.connectedSktFd i := by
        rintro rfl
        simp at hfd
      obtain ⟨hfd', hlt', hnot'⟩ := hs.unused fd j ((Function.update_of_ne hne _ _).symm.trans hfd)
      refine ⟨hfd', hlt', ?_⟩
      -- a connection has no second descriptor
      have hjk : j ≠ k := by
        rintro rfl
        exact hne (hfd'.trans hnumber.symm)
      simpa [hjk] using hnot'

theorem Closings.close (hs : Closings s) (ha : Attended s) {i : Nat} (hi : i < s.accepted)
    {pc : Pc} (hpast : ∀ j, j < s.accepted → past pc j = true → past s.main j = true ∨ j = i) :
    Closings ((s.closeSocket i).goto pc) := by
  obtain ⟨hmem, hsub, _⟩ := ha.closeSocket hi
  obtain ⟨hnodup, hlt, hunused⟩ := hs.closeSocket i
  obtain ⟨_, _, hclose⟩ := s.closeSocket_eq i
  rw [hclose] at hmem hsub hnodup hlt hunused ⊢
  refine ⟨hnodup, hlt, hunused, fun j hj hpass => ?_⟩
  rcases hpast j hj hpass with hj' | rfl
  · exact hsub (hs.passed j hj hj')
  · exact hmem

theorem Closings.mainStep (hs : Closings s) (ha : Attended s)
    (hr : Roster s.main s.list s.accepted) (h : Process.MainStep code s s') : Closings s' := by
  cases h with
  | stop hpc =>
    refine hs.goto rfl rfl rfl rfl (fun i hi hpass => ?_)
    -- the pass begins with the first node
    change past (.last s.list.head) i = true at hpass
    rw [hr.head_accepted (by rw [hpc]; rfl) (Nat.zero_lt_of_lt hi)] at hpass
    simp [past] at hpass
  | listen hpc | again hpc | refuse hpc | add hpc | noMemory hpc | create hpc | noThread hpc
  | first hpc | search hpc | link hpc | further hpc | astray hpc | swept hpc | ready hpc | busy hpc
  | joined hpc | clear hpc => exact hs.goto rfl rfl rfl rfl (by simp [past])
  | passed hpc | lastReady hpc | lastBusy hpc | lastJoined hpc | keep hpc | follow hpc =>
    exact hs.goto rfl rfl rfl rfl (by simp [hpc, past])
  | accept fd hpc => exact hs.accept
  | @close i hpc =>
    have hi : i < s.accepted := hr.cursor_accepted (by rw [hpc]; rfl) (by rw [hpc]; rfl)
    exact hs.close ha hi (by simp [past])
  | @lastClose i hpc =>
    have hi : i < s.accepted := hr.cursor_accepted (by rw [hpc]; rfl) (by rw [hpc]; rfl)
    refine hs.close ha hi (fun j hj hpass => ?_)
    have hle : j ≤ i := by
      rw [hr.next_accepted (by rw [hpc]; rfl) hi] at hpass
      split at hpass
      · exact Nat.le_of_lt_succ (of_decide_eq_true hpass)
      · omega
    rcases Nat.eq_or_lt_of_le hle with rfl | hlt
    · exact Or.inr rfl
    · rw [hpc]
      exact Or.inl (decide_eq_true hlt)
  | drop => exact hs.goto rfl rfl rfl rfl (fun _ _ h => h)

theorem sockets_of_runs {Ok : Process σ → Process σ → Prop} {mem : Shared σ}
    (hrun : Process.Runs code Ok (.start mem) s) : Attended s ∧ Closings s := by
  induction hrun with
  | refl => exact ⟨attended_start mem, closings_start mem⟩
  | step hs _ h ih =>
    obtain ⟨ha, hc⟩ := ih
    cases h with
    | signal => exact ⟨⟨ha.1, ha.2⟩, ⟨hc.1, hc.2, hc.3, hc.4⟩⟩
    | worker => exact ⟨⟨ha.1, ha.2⟩, ⟨hc.1, hc.2, hc.3, hc.4⟩⟩
    | main h =>
      have hr := roster_of_runs hs
      exact ⟨ha.mainStep hr h, hc.mainStep ha hr h⟩

end Aesd.Proofs
