import Aesd.Proofs.Joins
import Aesd.Proofs.Sockets

namespace Aesd.Proofs
open Base Server

variable {σ : Type} {sys : Sys σ} {limit : Nat} {stage : Nat → Progress} {s s' : Process σ}

/-- `main` is in the branch for a caught signal, or has left through it. -/
def leaving : Pc → Bool
  | .last _ => true
  | .lastJoin _ => true
  | .lastClose _ => true
  | .free => true
  | .exited ret => ret = 0
  | .nullHead => true
  | _ => false

/-- Before that a connection is closed after its thread has been joined, and only
then. -/
structure Parted (s : Process σ) : Prop where
  gone : ∀ i ∈ s.closed, i ∈ s.joins ∧ s.pool.tasks i = none ∧ tending s.main ≠ some i
  called : ∀ i, tending s.main = some i → i ∈ s.joins
  ended : ∀ i, s.main = .close i → s.pool.tasks i = none

theorem parted_start (mem : Shared σ) : Parted (.start mem) where
  gone := by
    intro i hi
    cases hi
  called := by
    intro i hi
    cases hi
  ended := by
    intro i hi
    cases hi

/-- A thread that has ended takes no more steps. -/
theorem Parted.worker (hs : Parted s) {code : Nat → Code (Shared σ) Fault Unit}
    {e : Event Nat Nat} {pool : System Nat Nat (Shared σ) Fault} (hkind : e.kind ≠ .invoke)
    (h : System.Step code s.pool e pool) : Parted { s with pool := pool } := by
  have hstays : ∀ i, s.pool.tasks i = none → pool.tasks i = none := by
    intro i hi
    have hne : i ≠ e.task := by
      intro he
      apply hkind
      apply h.was_none_iff.mp
      rwa [he] at hi
    rwa [h.tasks_of_ne hne]
  refine ⟨?_, hs.called, ?_⟩
  · intro i hi
    obtain ⟨hjoined, htask, htending⟩ := hs.gone i hi
    exact ⟨hjoined, hstays i htask, htending⟩
  · intro i hi
    exact hstays i (hs.ended i hi)

/-- A step of `main` that leaves the threads and the connections alone. -/
theorem Parted.goto (hs : Parted s) (htasks : s'.pool.tasks = s.pool.tasks)
    (hclosed : s'.closed = s.closed) (hjoins : s'.joins = s.joins)
    (htending : ∀ i, tending s'.main = some i → tending s.main = some i)
    (hclose : ∀ i, s'.main = .close i → s.pool.tasks i = none) : Parted s' where
  gone := by
    intro i hi
    rw [hclosed] at hi
    obtain ⟨hjoined, htask, hnot⟩ := hs.gone i hi
    rw [hjoins, htasks]
    exact ⟨hjoined, htask, mt (htending i) hnot⟩
  called := by
    intro i hi
    rw [hjoins]
    exact hs.called i (htending i hi)
  ended := by
    intro i hi
    rw [htasks]
    exact hclose i hi

/-- One that is not about to close a connection after it. -/
theorem Parted.leave (hs : Parted s) (htasks : s'.pool.tasks = s.pool.tasks)
    (hclosed : s'.closed = s.closed) (hjoins : s'.joins = s.joins)
    (htending : tending s'.main = none) : Parted s' := by
  apply hs.goto htasks hclosed hjoins
  · intro i hi
    cases htending.symm.trans hi
  · intro i hi
    rw [hi] at htending
    cases htending

/-- A thread is created for a connection that has not been closed. -/
theorem Parted.launch (hs : Parted s) (hc : Crew stage s) (hf : Flags stage s) {i : Nat}
    {code : Nat → Code (Shared σ) Fault Unit} (hpc : s.main = .create i) :
    Parted ((s.launch code i).goto (.insert i)) := by
  have hnot : s.started i = false := by
    apply hc.early
    rw [hpc]
    exact Or.inr rfl
  have hfirst := (hc.unstarted i hnot).2
  refine ⟨?_, ?_, ?_⟩
  · intro j hj
    obtain ⟨hjoined, htask, _⟩ := hs.gone j hj
    have hne : j ≠ i := by
      intro he
      have hcomplete := hf.joined j hjoined
      rw [he, hfirst] at hcomplete
      cases hcomplete
    exact ⟨hjoined, (Function.update_of_ne hne _ _).trans htask, by simp [tending]⟩
  · intro j hj
    cases hj
  · intro j hj
    cases hj

/-- A flag that `main` acts upon is that of a connection which is not closed. -/
theorem Parted.join (hs : Parted s) (hf : Flags stage s) {i : Nat}
    (hpc : s.main = .sweep (some i)) (hflag : s.threadComplete i = 1) :
    Parted { s with joins := s.joins ++ [i], main := .join i } where
  gone := by
    intro j hj
    obtain ⟨hjoined, htask, _⟩ := hs.gone j hj
    refine ⟨List.mem_append_left _ hjoined, htask, ?_⟩
    intro he
    obtain rfl := Option.some.inj he
    have htested := hf.tested i hjoined hflag
    rw [hpc] at htested
    cases htested
  called := by
    intro j hj
    obtain rfl := Option.some.inj hj
    simp
  ended := by
    intro j hj
    cases hj

/-- The descriptor of the node still stands for its own connection. -/
theorem Parted.close (hs : Parted s) (ha : Attended s) {i : Nat} (hpc : s.main = .close i)
    (hi : i < s.accepted) : Parted ((s.closeSocket i).goto (.clear i)) := by
  have htending : tending s.main = some i := by
    rw [hpc]
    rfl
  have hopen : s.sockets (s.connectedSktFd i) = some i := by
    apply (ha.still i hi).resolve_left
    intro hclosed
    exact (hs.gone i hclosed).2.2 htending
  simp only [Process.closeSocket, hopen]
  refine ⟨?_, ?_, ?_⟩
  · intro j hj
    refine ⟨?_, ?_, by simp [tending]⟩
    all_goals rcases List.mem_append.mp hj with hj | hj
    · exact (hs.gone j hj).1
    · obtain rfl : j = i := by simpa using hj
      exact hs.called j htending
    · exact (hs.gone j hj).2.1
    · obtain rfl : j = i := by simpa using hj
      exact hs.ended j hpc
  · intro j hj
    cases hj
  · intro j hj
    cases hj

theorem Parted.mainStep (hs : Parted s) (hc : Crew stage s) (hf : Flags stage s)
    (hr : Roster s.main s.list s.accepted) (ha : Attended s)
    (h : Process.MainStep (dataProcessor sys.shared limit) s s')
    (hserving : leaving s'.main = false) : Parted s' := by
  cases h with
  | listen | again | refuse | add | noMemory | noThread | first | search | link | further
  | astray | swept | busy | clear => exact hs.leave rfl rfl rfl rfl
  | accept fd hpc => exact hs.leave rfl rfl rfl rfl
  | create hpc => exact hs.launch hc hf hpc
  | ready hpc hflag => exact hs.join hf hpc hflag
  | joined hpc hdone =>
    refine hs.goto rfl rfl rfl ?_ ?_
    · intro i hi
      rw [hpc]
      exact hi
    · intro i hi
      obtain rfl := Pc.close.inj hi
      exact hdone
  | @close i hpc => exact hs.close ha hpc (hr.cursor_accepted (by rw [hpc]; rfl) (by rw [hpc]; rfl))
  | stop | passed | lastReady | lastBusy | lastJoined | lastClose | keep | follow => cases hserving
  | drop hpc =>
    change leaving s.main = false at hserving
    rw [hpc] at hserving
    cases hserving

/-- There is no way back from the branch for a signal. -/
theorem leaving_of_mainStep {code : Nat → Code (Shared σ) Fault Unit}
    (h : Process.MainStep code s s') (hserving : leaving s'.main = false) :
    leaving s.main = false := by
  cases h with
  | stop | passed | lastReady | lastBusy | lastJoined | lastClose | keep | follow => cases hserving
  | drop => exact hserving
  | listen hpc | again hpc | refuse hpc | accept _ hpc | add hpc | noMemory hpc | create hpc
  | noThread hpc | first hpc | search hpc | link hpc | further hpc | astray hpc | swept hpc
  | ready hpc | busy hpc | joined hpc | close hpc | clear hpc =>
    rw [hpc]
    rfl

theorem parted_of_runs {Ok : Process σ → Process σ → Prop} {inner : σ} {flags : Nat → Nat}
    (hrun : Process.Runs (dataProcessor sys.shared limit) Ok (.start ⟨inner, flags, []⟩) s)
    (hserving : leaving s.main = false) : Parted s := by
  induction hrun with
  | refl => exact parted_start _
  | @step s s' hs _ h ih =>
    cases h with
    | signal =>
      have hp := ih hserving
      exact ⟨hp.gone, hp.called, hp.ended⟩
    | worker _ hkind h => exact (ih hserving).worker hkind h
    | main h =>
      obtain ⟨stage, hc, hf⟩ := crew_flags_of_runs hs
      have hp := ih (leaving_of_mainStep h hserving)
      exact hp.mainStep hc hf (roster_of_runs hs) (sockets_of_runs hs).1 h hserving

/-- Until the server shuts down, the socket of a session that runs is open. -/
theorem open_of_running {inner : σ} {flags : Nat → Nat}
    (hrun : Process.Runs (dataProcessor sys.shared limit) (fun _ _ => True)
      (.start ⟨inner, flags, []⟩) s) (hserving : leaving s.main = false) {i : Nat}
    (hi : s.pool.tasks i ≠ none) :
    s.sockets (s.connectedSktFd i) = some i ∧ i ∉ s.closed := by
  obtain ⟨stage, hc, _⟩ := crew_flags_of_runs hrun
  have hp := parted_of_runs hrun hserving
  have hnot : i ∉ s.closed := fun hclosed => hi (hp.gone i hclosed).2.1
  have hlt : i < s.accepted := by
    by_contra hge
    exact hi (hc.unstarted i (hc.early i (Or.inl (Nat.not_lt.mp hge)))).1
  exact ⟨((sockets_of_runs hrun).1.still i hlt).resolve_left hnot, hnot⟩

/-- Until the server shuts down, a session that runs has its socket to itself: the
descriptor in its node stands for its own connection, no other session that runs has
the same number, and nobody has closed it. What has been closed belonged to threads
that had been joined. -/
theorem running_sessions_keep_sockets {σ : Type} {sys : Sys σ} {limit : Nat} {inner : σ}
    {flags : Nat → Nat} {s : Process σ}
    (hrun : Process.Runs (dataProcessor sys.shared limit) (fun _ _ => True)
      (.start ⟨inner, flags, []⟩) s) (hserving : leaving s.main = false) :
    (∀ i, s.pool.tasks i ≠ none → s.sockets (s.connectedSktFd i) = some i ∧ i ∉ s.closed) ∧
    (∀ i j, s.pool.tasks i ≠ none → s.pool.tasks j ≠ none →
      s.connectedSktFd i = s.connectedSktFd j → i = j) ∧
    ∀ i ∈ s.closed, i ∈ s.joins ∧ s.pool.tasks i = none := by
  have hopen : ∀ i, s.pool.tasks i ≠ none →
      s.sockets (s.connectedSktFd i) = some i ∧ i ∉ s.closed :=
    fun i hi => open_of_running hrun hserving hi
  have hp := parted_of_runs hrun hserving
  refine ⟨hopen, ?_, ?_⟩
  · intro i j hi hj he
    have hsocket := (hopen i hi).1
    rw [he, (hopen j hj).1] at hsocket
    exact (Option.some.inj hsocket).symm
  · intro i hi
    obtain ⟨hjoined, htask, _⟩ := hp.gone i hi
    exact ⟨hjoined, htask⟩

/-- The third connection is given the number of the first, which has been closed. -/
theorem running_session_keeps_reused_number :
    ∃ s : Process Unit,
      Process.Runs (dataProcessor (stub [10] (.done 1)).shared 4) (fun _ _ => True)
        (.start ⟨(), fun _ => 0, []⟩) s ∧
      s.closed = [0] ∧ s.connectedSktFd 0 = 4 ∧ s.connectedSktFd 2 = 4 ∧
      s.sockets 4 = some 2 ∧ 2 ∉ s.closed := by
  have hplay : (play (stub [10] (.done 1))
      (proceed 4 8 ++ work 0 11 ++ proceed 5 14 ++ proceed 4 3)).map
      (fun s => (s.main, s.closed, s.connectedSktFd 0, s.connectedSktFd 2,
        (s.pool.tasks 2).isSome)) = some (.insert 2, [0], 4, 4, true) := by decide +kernel
  obtain ⟨s, hs, hobs⟩ := Option.map_eq_some_iff.mp hplay
  simp only [Prod.mk.injEq] at hobs
  obtain ⟨hmain, hclosed, hfirst, hthird, htask⟩ := hobs
  have hkeeps := running_sessions_keep_sockets (runs_play hs) (by rw [hmain]; rfl)
  obtain ⟨hsocket, hnot⟩ := hkeeps.1 2 (Option.isSome_iff_ne_none.mp htask)
  rw [hthird] at hsocket
  exact ⟨s, runs_play hs, hclosed, hfirst, hthird, hsocket, hnot⟩

end Aesd.Proofs
