import Aesd.Proofs.Joins
import Aesd.Proofs.Sockets

namespace Aesd.Proofs
open Base Server

variable {σ : Type} {sys : Sys σ} {limit : Nat} {stage : Nat → Progress} {s s' : Process σ}

/-- A step in which no session issues a seek command, and none marks its node
between the test of its flag and the store that clears it. -/
def Considerate (s s' : Process σ) : Prop :=
  (∀ c o, s'.pool.mem.calls ≠ s.pool.mem.calls ++ [.ioctl c o]) ∧
  ∀ i, s.main = .clear i → s'.pool.mem.calls ≠ s.pool.mem.calls ++ [.complete i]

/-- The mark of a session is not lost before `main` has seen it. -/
structure Remembered (stage : Nat → Progress) (s : Process σ) : Prop where
  unsought : ∀ i, (stage i).sought = false
  seen : ∀ i, (stage i).complete = true → i ∉ s.joins → s.threadComplete i = 1
  clearing : ∀ i, s.main = .clear i → i ∉ s.joins → (stage i).complete = false
  joining : ∀ i, s.main = .join i ∨ s.main = .close i → i ∈ s.joins

theorem remembered_start (mem : Shared σ) : Remembered (fun _ => Progress.first) (.start mem) where
  unsought _ := rfl
  seen := by
    intro i hi
    cases hi
  clearing := by
    intro i hi
    cases hi
  joining := by
    intro i hi
    rcases hi with hi | hi <;> cases hi

theorem Remembered.worker (hs : Remembered stage s) {i : Nat} {st' : Progress}
    {pool : System Nat Nat (Shared σ) Fault}
    (hadv : Advance i (stage i) s.pool.mem st' pool.mem)
    (hok : Considerate s { s with pool := pool }) :
    Remembered (Function.update stage i st') { s with pool := pool } := by
  refine ⟨?_, ?_, ?_, hs.joining⟩
  · intro j
    by_cases hj : j = i
    · subst hj
      rw [Function.update_self]
      by_contra hsought
      rw [Bool.not_eq_false] at hsought
      cases hadv with
      | leave _ _ _ hlater =>
        rcases hlater hsought with hbefore | ⟨c, o, hcalls⟩
        · cases (hs.unsought j).symm.trans hbefore
        · exact hok.1 c o hcalls
      | mark _ _ _ hsame => cases (hs.unsought j).symm.trans (hsame ▸ hsought)
    · rw [Function.update_of_ne hj]
      exact hs.unsought j
  · intro j hcomplete hnot
    change pool.mem.threadComplete j = 1
    by_cases hj : j = i
    · subst hj
      rw [Function.update_self] at hcomplete
      cases hadv with
      | leave hflags hsame =>
        rw [hflags]
        exact hs.seen j (hsame ▸ hcomplete) hnot
      | mark hflags =>
        rw [hflags]
        exact Function.update_self _ _ _
    · rw [Function.update_of_ne hj] at hcomplete
      have hbefore : s.pool.mem.threadComplete j = 1 := hs.seen j hcomplete hnot
      cases hadv with
      | leave hflags => rwa [hflags]
      | mark hflags => rwa [hflags, Function.update_of_ne hj]
  · intro j hpc hnot
    by_cases hj : j = i
    · subst hj
      rw [Function.update_self]
      cases hadv with
      | leave _ hsame =>
        rw [hsame]
        exact hs.clearing j hpc hnot
      | mark _ _ _ _ hcalls => exact absurd hcalls (hok.2 j hpc)
    · rw [Function.update_of_ne hj]
      exact hs.clearing j hpc hnot

/-- A step of `main` that clears no flag and does not start to. -/
theorem Remembered.goto (hs : Remembered stage s) (hflags : s'.threadComplete = s.threadComplete)
    (hjoins : s'.joins = s.joins)
    (hpc : ∀ i, s'.main ≠ .clear i ∧ s'.main ≠ .join i ∧ s'.main ≠ .close i) :
    Remembered stage s' where
  unsought := hs.unsought
  seen := by
    rw [hflags, hjoins]
    exact hs.seen
  clearing := fun i hi => absurd hi (hpc i).1
  joining := by
    intro i hi
    rcases hi with hi | hi
    · exact absurd hi (hpc i).2.1
    · exact absurd hi (hpc i).2.2

/-- A flag that nobody has set and not yet acted upon is cleared. -/
theorem Remembered.cleared (hs : Remembered stage s) {i : Nat} {pc : Pc}
    (hi : i ∉ s.joins → (stage i).complete = false)
    (hpc : ∀ i, pc ≠ .clear i ∧ pc ≠ .join i ∧ pc ≠ .close i) :
    Remembered stage ((s.setComplete i 0).goto pc) where
  unsought := hs.unsought
  seen := by
    intro j hcomplete hnot
    have hj : j ≠ i := by
      rintro rfl
      cases hcomplete.symm.trans (hi hnot)
    exact (Function.update_of_ne hj _ _).trans (hs.seen j hcomplete hnot)
  clearing := fun j hj => absurd hj (hpc j).1
  joining := by
    intro j hj
    rcases hj with hj | hj
    · exact absurd hj (hpc j).2.1
    · exact absurd hj (hpc j).2.2

/-- One more thread has been joined. -/
theorem Remembered.join (hs : Remembered stage s) {i : Nat} {pc : Pc}
    (hpc : pc = .join i ∨ pc = .lastJoin i) :
    Remembered stage { s with joins := s.joins ++ [i], main := pc } where
  unsought := hs.unsought
  seen := fun j hcomplete hnot =>
    hs.seen j hcomplete (fun hmem => hnot (List.mem_append_left _ hmem))
  clearing := by
    intro j hj
    rcases hpc with rfl | rfl <;> cases hj
  joining := by
    intro j hj
    have hji : j = i := by
      rcases hpc with rfl | rfl <;> rcases hj with hj | hj <;> cases hj
      rfl
    simp [hji]

theorem Remembered.mainStep {code : Nat → Code (Shared σ) Fault Unit} (hs : Remembered stage s)
    (hc : Crew stage s) (h : Process.MainStep code s s') : Remembered stage s' := by
  cases h with
  | stop | listen | again | refuse | accept | noMemory | create | noThread | first | search | link
  | further | astray | swept | passed | lastBusy | lastJoined | keep | follow =>
    exact hs.goto rfl rfl (by simp)
  | @add i hpc =>
    have hnot := hc.early i (Or.inr (by rw [hpc]; rfl))
    refine hs.cleared (fun _ => ?_) (by simp)
    rw [(hc.unstarted i hnot).2]
    rfl
  | ready => exact hs.join (Or.inl rfl)
  | lastReady => exact hs.join (Or.inr rfl)
  | @busy i hpc hflag =>
    refine ⟨hs.unsought, hs.seen, ?_, by simp⟩
    intro j hj hnot
    obtain rfl : i = j := Pc.clear.inj hj
    by_contra hcomplete
    exact hflag (hs.seen i (by simpa using hcomplete) hnot)
  | @joined i hpc =>
    have hmem := hs.joining i (Or.inl hpc)
    refine ⟨hs.unsought, hs.seen, by simp, ?_⟩
    intro j hj
    obtain rfl : i = j := by simpa using hj
    exact hmem
  | @close i hpc =>
    have hmem := hs.joining i (Or.inr hpc)
    obtain ⟨_, _, hclose⟩ := s.closeSocket_eq i
    rw [hclose]
    refine ⟨hs.unsought, hs.seen, ?_, by simp⟩
    intro j hj hnot
    obtain rfl : i = j := Pc.clear.inj hj
    exact absurd hmem hnot
  | @clear i hpc => exact hs.cleared (hs.clearing i hpc) (by simp)
  | @lastClose i hpc =>
    obtain ⟨_, _, hclose⟩ := s.closeSocket_eq i
    rw [hclose]
    exact hs.goto rfl rfl (by simp)
  | drop hpc => exact hs.goto rfl rfl (by simp [hpc])

/-- All that is known of a state. -/
structure Minded (stage : Nat → Progress) (s : Process σ) : Prop where
  roster : Roster s.main s.list s.accepted
  crew : Crew stage s
  flags : Flags stage s
  remembered : Remembered stage s
  attended : Attended s

theorem minded_start (inner : σ) (flags : Nat → Nat) :
    Minded (fun _ => Progress.first) (.start ⟨inner, flags, []⟩) :=
  ⟨roster_start, crew_start inner flags, flags_start _, remembered_start _, attended_start _⟩

theorem Minded.step (hs : Minded stage s) (hok : Considerate s s')
    (h : Process.Step (dataProcessor sys.shared limit) s s') :
    ∃ stage', Minded stage' s' ∧
      ∀ i, (stage i).complete = true → (stage' i).complete = true := by
  obtain ⟨hr, hc, hf, hm, ha⟩ := hs
  have hr' := hr.step h
  cases h with
  | signal =>
    exact ⟨stage, ⟨hr', hc.move rfl rfl rfl (fun _ h => h),
      hf.goto rfl rfl rfl (fun _ h => h) (fun _ h => h), ⟨hm.1, hm.2, hm.3, hm.4⟩, ⟨ha.1, ha.2⟩⟩,
      fun _ h => h⟩
  | @worker e pool _ hkind h =>
    obtain ⟨st', hadv, hc'⟩ := hc.worker hkind h
    exact ⟨_, ⟨hr', hc', hf.worker hadv, hm.worker hadv hok, ⟨ha.1, ha.2⟩⟩,
      fun _ => hadv.update⟩
  | main h =>
    exact ⟨stage, ⟨hr', hc.mainStep hr h, hf.mainStep hr h, hm.mainStep hc h, ha.mainStep hr h⟩,
      fun _ h => h⟩

theorem Minded.runs (hs : Minded stage s)
    (hrun : Process.Runs (dataProcessor sys.shared limit) Considerate s s') :
    ∃ stage', Minded stage' s' ∧
      ∀ i, (stage i).complete = true → (stage' i).complete = true := by
  induction hrun with
  | refl => exact ⟨stage, hs, fun _ h => h⟩
  | step _ hok h ih =>
    obtain ⟨stage₁, hs₁, hmono₁⟩ := ih
    obtain ⟨stage₂, hs₂, hmono₂⟩ := hs₁.step hok h
    exact ⟨stage₂, hs₂, fun i hi => hmono₂ i (hmono₁ i hi)⟩

/-- The sweep has yet to come to node `i`. -/
def awaits : Pc → Nat → Bool
  | .sweep (some j), i => j ≤ i
  | .join j, i => j < i
  | .close j, i => j < i
  | .clear j, i => j < i
  | _, _ => false

/-- The thread of connection `i` has been joined, or this sweep will join it. -/
def Due (s : Process σ) (i : Nat) : Prop :=
  i ∈ s.joins ∨ (s.threadComplete i = 1 ∧ i < s.accepted ∧ awaits s.main i = true)

theorem joins_subset {code : Nat → Code (Shared σ) Fault Unit}
    (h : Process.MainStep code s s') : s.joins ⊆ s'.joins := by
  cases h with
  | ready | lastReady => exact List.subset_append_left _ _
  | @close i | @lastClose i =>
    obtain ⟨_, _, hclose⟩ := s.closeSocket_eq i
    rw [hclose]
    exact List.Subset.refl _
  | stop | listen | again | refuse | accept | add | noMemory | create | noThread | first | search
  | link | further | astray | swept | busy | joined | clear | passed | lastBusy | lastJoined | keep
  | follow | drop => exact List.Subset.refl _

theorem Due.mainStep {code : Nat → Code (Shared σ) Fault Unit} {i : Nat} (hs : Due s i)
    (hr : Roster s.main s.list s.accepted) (h : Process.MainStep code s s') : Due s' i := by
  rcases hs with hs | ⟨hflag, hi, hawaits⟩
  · exact Or.inl (joins_subset h hs)
  cases h with
  | @ready j hpc =>
    rw [hpc] at hawaits
    have hle : j ≤ i := of_decide_eq_true hawaits
    rcases Nat.eq_or_lt_of_le hle with rfl | hlt
    · exact Or.inl (by simp)
    · exact Or.inr ⟨hflag, hi, decide_eq_true hlt⟩
  | @busy j hpc hnot =>
    rw [hpc] at hawaits
    have hle : j ≤ i := of_decide_eq_true hawaits
    rcases Nat.eq_or_lt_of_le hle with rfl | hlt
    · exact absurd hflag hnot
    · exact Or.inr ⟨hflag, hi, decide_eq_true hlt⟩
  | joined hpc =>
    rw [hpc] at hawaits
    exact Or.inr ⟨hflag, hi, hawaits⟩
  | @close j hpc =>
    rw [hpc] at hawaits
    obtain ⟨_, _, hclose⟩ := s.closeSocket_eq j
    rw [hclose]
    exact Or.inr ⟨hflag, hi, hawaits⟩
  | @clear j hpc =>
    have hj : j < s.accepted := hr.cursor_accepted (by rw [hpc]; rfl) (by rw [hpc]; rfl)
    have hnext := hr.next_accepted (by rw [hpc]; rfl) hj
    rw [hpc] at hawaits
    have hlt : j < i := of_decide_eq_true hawaits
    rw [if_pos (by omega)] at hnext
    refine Or.inr ⟨(Function.update_of_ne hlt.ne' _ _).trans hflag, hi, ?_⟩
    change awaits (.sweep (s.list.next j)) i = true
    rw [hnext]
    exact decide_eq_true hlt
  | stop hpc | listen hpc | again hpc | refuse hpc | accept _ hpc | add hpc | noMemory hpc
  | create hpc | noThread hpc | first hpc | search hpc | link hpc | further hpc | astray hpc
  | swept hpc | passed hpc | lastReady hpc | lastBusy hpc | lastJoined hpc | lastClose hpc
  | keep hpc | follow hpc | drop hpc =>
    rw [hpc] at hawaits
    cases hawaits

theorem Due.step {i : Nat} (hs : Due s i) (hr : Roster s.main s.list s.accepted)
    (hc : Crew stage s) (h : Process.Step (dataProcessor sys.shared limit) s s') : Due s' i := by
  cases h with
  | signal => exact hs
  | @worker e pool _ hkind h =>
    obtain ⟨st', hadv, _⟩ := hc.worker hkind h
    refine hs.imp_right (fun ⟨hflag, hi, hawaits⟩ => ⟨?_, hi, hawaits⟩)
    change pool.mem.threadComplete i = 1
    cases hadv with
    | leave hflags =>
      rw [hflags]
      exact hflag
    | mark hflags =>
      rw [hflags, Function.update_apply]
      split
      · rfl
      · exact hflag
  | main h => exact hs.mainStep hr h

/-- A sweep joins the threads that were due when it began. -/
theorem Due.runs {i : Nat} (hs : Due s i) (hm : Minded stage s)
    (hrun : Process.Runs (dataProcessor sys.shared limit) Considerate s s') : Due s' i := by
  induction hrun with
  | refl => exact hs
  | step hs₁ _ h ih =>
    obtain ⟨_, hm₁, _⟩ := hm.runs hs₁
    exact ih.step hm₁.roster hm₁.crew h

/-- A thread that has returned has marked its node, unless it issued a seek command. -/
theorem Crew.returned (hc : Crew stage s) {i : Nat} (hstart : s.started i = true)
    (hret : returned s.pool i = true) : (stage i).Over := by
  unfold Proofs.returned at hret
  split at hret
  · exact hc.ended i hstart ‹_›
  · exact hc.staged i _ ‹_›
  · cases hret

theorem Crew.accepted (hc : Crew stage s) {i : Nat} (hcomplete : (stage i).complete = true) :
    i < s.accepted := by
  by_contra hle
  have hnot := hc.early i (Or.inl (Nat.not_lt.mp hle))
  rw [(hc.unstarted i hnot).2] at hcomplete
  cases hcomplete

/-- At the beginning of a sweep every session that has marked its node is due. -/
theorem Minded.due (hs : Minded stage s) {i : Nat} (hcomplete : (stage i).complete = true)
    (hpc : s.main = .sweep s.list.head) : Due s i := by
  by_cases hmem : i ∈ s.joins
  · exact Or.inl hmem
  have hi := hs.crew.accepted hcomplete
  refine Or.inr ⟨hs.remembered.seen i hcomplete hmem, hi, ?_⟩
  rw [hpc, hs.roster.head_accepted (by rw [hpc]; rfl) (Nat.zero_lt_of_lt hi)]
  exact decide_eq_true (Nat.zero_le i)

/-- In runs in which no session issues a seek command, and none marks its node just
between `main`'s test of the flag and the store that clears it: a thread that has
returned and for which `pthread_join` has not been called has its flag set. Each
sweep that begins later ends with the thread joined and the connection closed. -/
theorem finished_session_remembered {σ : Type} {sys : Sys σ} {limit : Nat} {inner : σ}
    {flags : Nat → Nat} {s : Process σ}
    (hrun : Process.Runs (dataProcessor sys.shared limit) Considerate
      (.start ⟨inner, flags, []⟩) s) {i : Nat} (hstart : s.started i = true)
    (hret : returned s.pool i = true) :
    (i ∉ s.joins → s.threadComplete i = 1) ∧
    ∀ s₁ s₂, Process.Runs (dataProcessor sys.shared limit) Considerate s s₁ →
      s₁.main = .sweep s₁.list.head →
      Process.Runs (dataProcessor sys.shared limit) Considerate s₁ s₂ → s₂.main = .top →
      i ∈ s₂.joins ∧ i ∈ s₂.closed := by
  obtain ⟨stage, hs, _⟩ := (minded_start inner flags).runs hrun
  have hcomplete : (stage i).complete = true :=
    (hs.crew.returned hstart hret).2.mpr (hs.remembered.unsought i)
  refine ⟨hs.remembered.seen i hcomplete, fun s₁ s₂ hrun₁ hsweep hrun₂ htop => ?_⟩
  obtain ⟨stage₁, hs₁, hmono⟩ := hs.runs hrun₁
  have hdue := (hs₁.due (hmono i hcomplete) hsweep).runs hs₁ hrun₂
  obtain ⟨_, hs₂, _⟩ := hs₁.runs hrun₂
  have hjoined : i ∈ s₂.joins := by simpa [Due, htop, awaits] using hdue
  refine ⟨hjoined, ?_⟩
  simpa [htop, tending] using hs₂.attended.attended i hjoined

/-- `Considerate`, to be evaluated. -/
def considerate (s s' : Process σ) : Bool :=
  match s'.pool.mem.calls.drop s.pool.mem.calls.length with
  | [.ioctl _ _] => false
  | [.complete i] => s.main != .clear i
  | _ => true

theorem considerate_of_check (s s' : Process σ) (h : considerate s s' = true) :
    Considerate s s' := by
  refine ⟨fun c o hcalls => ?_, fun i hpc hcalls => ?_⟩
  · simp [considerate, hcalls] at h
  · simp [considerate, hcalls, hpc] at h

/-- A session that ends while `main` is not looking. -/
theorem finished_session_flagged :
    ∃ s : Process Unit,
      Process.Runs (dataProcessor (stub [10] (.done 1)).shared 4) Considerate
        (.start ⟨(), fun _ => 0, []⟩) s ∧
      returned s.pool 0 = true ∧ s.joins = [] ∧ s.threadComplete 0 = 1 := by
  have hplay : (Process.exec (dataProcessor (stub [10] (.done 1)).shared 4) considerate
      (.start ⟨(), fun _ => 0, []⟩) (proceed 4 8 ++ work 0 11)).map
      (fun s => (s.started 0, returned s.pool 0, s.joins)) = some (true, true, []) := by
    decide +kernel
  obtain ⟨s, hs, hobs⟩ := Option.map_eq_some_iff.mp hplay
  simp only [Prod.mk.injEq] at hobs
  obtain ⟨hstart, hret, hjoins⟩ := hobs
  have hrun : Process.Runs (dataProcessor (stub [10] (.done 1)).shared 4) Considerate
      (.start ⟨(), fun _ => 0, []⟩) s := Process.Runs.refl.exec considerate_of_check hs
  have hflag := (finished_session_remembered hrun hstart hret).1 (by simp [hjoins])
  exact ⟨s, hrun, hret, hjoins, hflag⟩

/-- A seek command with its numbers. -/
def seekChunk : List UInt8 := specialString ++ [48, 44, 49, 44, 10]

/-- A session that marks its node between the test and the store is forgotten, and
so is one that ends with a seek command. -/
theorem finished_session_forgotten :
    (∃ s : Process Unit,
      Process.Runs (dataProcessor (stub [10] (.done 1)).shared 4) (fun _ _ => True)
        (.start ⟨(), fun _ => 0, []⟩) s ∧
      s.main = .top ∧ s.started 0 = true ∧ returned s.pool 0 = true ∧ s.joins = [] ∧
      s.threadComplete 0 = 0) ∧
    ∃ s : Process Unit,
      Process.Runs (dataProcessor (stub seekChunk (.done 1)).shared 4) (fun _ _ => True)
        (.start ⟨(), fun _ => 0, []⟩) s ∧
      s.main = .top ∧ s.started 0 = true ∧ returned s.pool 0 = true ∧ s.joins = [] ∧
      s.threadComplete 0 = 0 := by
  have hrace : (play (stub [10] (.done 1)) (proceed 4 6 ++ work 0 11 ++ proceed 4 2)).map
      (fun s => (s.main, s.started 0, returned s.pool 0, s.joins, s.threadComplete 0)) =
      some (.top, true, true, [], 0) := by decide +kernel
  have hseek : (play (stub seekChunk (.done 1)) (proceed 4 8 ++ work 0 8)).map
      (fun s => (s.main, s.started 0, returned s.pool 0, s.joins, s.threadComplete 0)) =
      some (.top, true, true, [], 0) := by decide +kernel
  obtain ⟨s, hs, hobs⟩ := Option.map_eq_some_iff.mp hrace
  obtain ⟨s', hs', hobs'⟩ := Option.map_eq_some_iff.mp hseek
  simp only [Prod.mk.injEq] at hobs hobs'
  exact ⟨⟨s, runs_play hs, hobs⟩, s', runs_play hs', hobs'⟩

end Aesd.Proofs
