import Aesd.Proofs.GivenBack
import Aesd.Proofs.Roster

namespace Aesd.Proofs
open Base Server

variable {σ : Type} {sys : Sys σ} {limit : Nat}

/-- What a step of the thread of connection `i` comes to. Either it marks its node,
which it does once, or it leaves the flags alone. -/
inductive Advance (i : Nat) (st : Progress) (mem : Shared σ) (st' : Progress) (mem' : Shared σ) :
    Prop
  | leave (hflags : mem'.threadComplete = mem.threadComplete)
      (hcomplete : st'.complete = st.complete) (hcalls : mem.calls ⊆ mem'.calls)
      (hsought : st'.sought = true → st.sought = true ∨
        ∃ c o, mem'.calls = mem.calls ++ [.ioctl c o])
  | mark (hflags : mem'.threadComplete = Function.update mem.threadComplete i 1)
      (hbefore : st.complete = false) (hafter : st'.complete = true)
      (hsought : st'.sought = st.sought) (hcalls : mem'.calls = mem.calls ++ [.complete i])

section Advance
variable {i : Nat} {st st' : Progress} {mem mem' : Shared σ}

/-- A step that is only about the lock. -/
theorem advance_of_eq (hmem : mem' = mem) (hcomplete : st'.complete = st.complete)
    (hsought : st'.sought = st.sought) : Advance i st mem st' mem' := by
  subst hmem
  exact .leave rfl hcomplete (List.Subset.refl _) (fun h => Or.inl (hsought ▸ h))

theorem advance_of_makes {c : Call} (hmakes : Makes c mem mem') (hmay : st.May i c) :
    Advance i st mem (st.next c) mem' := by
  have hcalls : mem.calls ⊆ mem'.calls := by
    rw [hmakes.calls]
    exact List.subset_append_left _ _
  cases c with
  | complete j =>
    obtain ⟨rfl, _, hcomplete, _⟩ := hmay
    exact .mark hmakes.flags hcomplete rfl rfl hmakes.calls
  | ioctl c o => exact .leave hmakes.flags rfl hcalls (fun _ => Or.inr ⟨c, o, hmakes.calls⟩)
  | write bytes failed =>
    have hsame : (st.next (.write bytes failed)).complete = st.complete ∧
        (st.next (.write bytes failed)).sought = st.sought := by
      cases failed <;> exact ⟨rfl, rfl⟩
    exact .leave hmakes.flags hsame.1 hcalls (fun h => Or.inl (hsame.2 ▸ h))
  | openDevice | closeDevice | recv | send | read =>
    exact .leave hmakes.flags rfl hcalls Or.inl

theorem advance_of_moves {e : Event Nat Nat} (hkind : e.kind ≠ .invoke)
    (h : System.Moves conduct Progress.Over Progress.first e st mem st' mem') :
    Advance e.call st mem st' mem' := by
  unfold System.Moves at h
  cases hk : e.kind with
  | invoke => exact absurd hk hkind
  | acquire =>
    simp only [hk] at h
    obtain ⟨⟨_, rfl⟩, hmem⟩ := h
    exact advance_of_eq hmem st.complete_taken st.sought_taken
  | interrupt =>
    simp only [hk] at h
    obtain ⟨rfl, hmem⟩ := h
    exact advance_of_eq hmem rfl rfl
  | unlock =>
    simp only [hk] at h
    obtain ⟨⟨_, rfl⟩, hmem⟩ := h
    exact advance_of_eq hmem st.complete_given st.sought_given
  | act =>
    simp only [hk] at h
    obtain ⟨c, hmakes, hmay, rfl⟩ := h
    exact advance_of_makes hmakes hmay
  | finish =>
    simp only [hk] at h
    obtain ⟨_, rfl, hmem⟩ := h
    exact advance_of_eq hmem rfl rfl

theorem Advance.complete (h : Advance i st mem st' mem') (hst : st.complete = true) :
    st'.complete = true := by
  cases h with
  | leave _ hcomplete => rwa [hcomplete]
  | mark _ _ hafter => exact hafter

/-- A session that has marked its node stays so. -/
theorem Advance.update {stage : Nat → Progress} (h : Advance i (stage i) mem st' mem') {j : Nat}
    (hj : (stage j).complete = true) : (Function.update stage i st' j).complete = true := by
  by_cases he : j = i
  · subst he
    rw [Function.update_self]
    exact h.complete hj
  · rwa [Function.update_of_ne he]

theorem Advance.calls (h : Advance i st mem st' mem') : mem.calls ⊆ mem'.calls := by
  cases h with
  | leave _ _ hcalls => exact hcalls
  | mark _ _ _ _ hcalls =>
    rw [hcalls]
    exact List.subset_append_left _ _

end Advance

/-- The node whose thread has not been created yet. -/
def unborn : Pc → Option Nat
  | .add i => some i
  | .create i => some i
  | _ => none

/-- Each connection has one thread at most, which runs its session. -/
structure Crew (stage : Nat → Progress) (s : Process σ) : Prop where
  staged : System.Staged conduct Progress.Over stage s.pool
  own : System.Own s.pool
  unstarted : ∀ i, s.started i = false → s.pool.tasks i = none ∧ stage i = Progress.first
  early : ∀ i, s.accepted ≤ i ∨ unborn s.main = some i → s.started i = false
  ended : ∀ i, s.started i = true → s.pool.tasks i = none → (stage i).Over
  told : ∀ i, (stage i).complete = true → .complete i ∈ s.pool.mem.calls

section Crew
variable {stage : Nat → Progress} {s s' : Process σ}

theorem crew_start (inner : σ) (flags : Nat → Nat) :
    Crew (fun _ => Progress.first) (.start ⟨inner, flags, []⟩) where
  staged := by
    intro i t ht
    cases ht
  own := by
    intro i t ht
    cases ht
  unstarted _ _ := ⟨rfl, rfl⟩
  early _ _ := rfl
  ended := by
    intro i hi
    cases hi
  told := by
    intro i hi
    cases hi

theorem Crew.worker (hs : Crew stage s) {e : Event Nat Nat}
    {pool : System Nat Nat (Shared σ) Fault} (hkind : e.kind ≠ .invoke)
    (h : System.Step (dataProcessor sys.shared limit) s.pool e pool) :
    ∃ st', Advance e.task (stage e.task) s.pool.mem st' pool.mem ∧
      Crew (Function.update stage e.task st') { s with pool := pool } := by
  obtain ⟨st', hmoves, hstaged⟩ := hs.staged.step h (fun hi => absurd hi hkind)
  have hcall := hs.own.call_eq h hkind
  have hadv := advance_of_moves hkind hmoves
  rw [hcall] at hadv
  refine ⟨st', hadv, hstaged, hs.own.step h hcall, ?_, hs.early, ?_, ?_⟩
  · intro j hj'
    by_cases hj : j = e.task
    · subst hj
      exact absurd (h.was_none_iff.mp (hs.unstarted _ hj').1) hkind
    · rw [Function.update_of_ne hj, h.tasks_of_ne hj]
      exact hs.unstarted j hj'
  · intro j hstarted hnone
    by_cases hj : j = e.task
    · subst hj
      have hfinish := h.task_none_iff.mp hnone
      simp only [System.Moves, hfinish] at hmoves
      rw [Function.update_self, hmoves.2.1]
      exact hmoves.1
    · rw [Function.update_of_ne hj]
      exact hs.ended j hstarted (h.tasks_of_ne hj ▸ hnone)
  · intro j hcomplete
    by_cases hj : j = e.task
    · subst hj
      rw [Function.update_self] at hcomplete
      cases hadv with
      | leave _ hsame hcalls => exact hcalls (hs.told _ (hsame ▸ hcomplete))
      | mark _ _ _ _ hcalls =>
        rw [hcalls]
        simp
    · rw [Function.update_of_ne hj] at hcomplete
      exact hadv.calls (hs.told j hcomplete)

/-- A step of `main` that creates no thread. -/
theorem Crew.move (hs : Crew stage s) (htasks : s'.pool.tasks = s.pool.tasks)
    (hcalls : s'.pool.mem.calls = s.pool.mem.calls) (hstarted : s'.started = s.started)
    (hearly : ∀ i, s'.accepted ≤ i ∨ unborn s'.main = some i →
      s.accepted ≤ i ∨ unborn s.main = some i) : Crew stage s' where
  staged := by
    intro i t ht
    exact hs.staged i t (htasks ▸ ht)
  own := by
    rw [System.Own, htasks]
    exact hs.own
  unstarted := by
    rw [hstarted, htasks]
    exact hs.unstarted
  early := by
    intro i hi
    rw [hstarted]
    exact hs.early i (hearly i hi)
  ended := by
    rw [hstarted, htasks]
    exact hs.ended
  told := by
    rw [hcalls]
    exact hs.told

/-- And is not about to create one. -/
theorem Crew.goto (hs : Crew stage s) (htasks : s'.pool.tasks = s.pool.tasks)
    (hcalls : s'.pool.mem.calls = s.pool.mem.calls) (hstarted : s'.started = s.started)
    (haccepted : s'.accepted = s.accepted) (hunborn : unborn s'.main = none) : Crew stage s' := by
  refine hs.move htasks hcalls hstarted (fun i hi => Or.inl ?_)
  rcases hi with hi | hi
  · rwa [← haccepted]
  · cases hunborn.symm.trans hi

theorem Crew.launch (hs : Crew stage s) {i : Nat} (hpc : s.main = .create i)
    (hi : i < s.accepted) :
    Crew stage ((s.launch (dataProcessor sys.shared limit) i).goto (.insert i)) := by
  have hnot : s.started i = false := hs.early i (Or.inr (by rw [hpc]; rfl))
  obtain ⟨hnone, hfirst⟩ := hs.unstarted i hnot
  have h : System.Step (dataProcessor sys.shared limit) s.pool _ _ := .invoke i hnone
  obtain ⟨_, ⟨rfl, _⟩, hstaged⟩ :=
    hs.staged.step h (fun _ => follows_dataProcessor sys limit i)
  rw [← hfirst, Function.update_eq_self] at hstaged
  have hother : ∀ j, j ≠ i →
      (s.launch (dataProcessor sys.shared limit) i).started j = s.started j :=
    fun j hj => Function.update_of_ne hj _ _
  refine ⟨hstaged, hs.own.step h rfl, ?_, ?_, ?_, hs.told⟩
  · intro j hstarted
    have hj : j ≠ i := by
      rintro rfl
      simp [Process.launch, Process.goto] at hstarted
    obtain ⟨htask, hst⟩ := hs.unstarted j (hother j hj ▸ hstarted)
    exact ⟨(h.tasks_of_ne hj).trans htask, hst⟩
  · intro j hlate
    rcases hlate with hlate | hlate
    · have hj : j ≠ i := by
        rintro rfl
        exact absurd hi (Nat.not_lt.mpr hlate)
      exact (hother j hj).trans (hs.early j (Or.inl hlate))
    · cases hlate
  · intro j hstarted htask
    have hj : j ≠ i := by
      rintro rfl
      cases h.task_none_iff.mp htask
    exact hs.ended j (hother j hj ▸ hstarted) (h.tasks_of_ne hj ▸ htask)

theorem Crew.mainStep (hs : Crew stage s) (hr : Roster s.main s.list s.accepted)
    (h : Process.MainStep (dataProcessor sys.shared limit) s s') : Crew stage s' := by
  cases h with
  | accept fd hpc =>
    refine hs.move rfl rfl rfl (fun i hi => Or.inl ?_)
    rcases hi with hi | hi
    · exact Nat.le_of_succ_le hi
    · exact (Option.some.inj hi).le
  | add hpc =>
    refine hs.move rfl rfl rfl (fun i hi => ?_)
    rw [hpc]
    exact hi
  | @create i hpc =>
    have haccepted := hr.entry_eq i (by rw [hpc]; rfl)
    exact hs.launch hpc (by omega)
  | @close i | @lastClose i =>
    obtain ⟨_, _, hclose⟩ := s.closeSocket_eq i
    rw [hclose]
    exact hs.goto rfl rfl rfl rfl rfl
  | stop | listen | again | refuse | noMemory | noThread | first | search | link | further | astray
  | swept | ready | busy | joined | clear | passed | lastReady | lastBusy | lastJoined | keep
  | follow => exact hs.goto rfl rfl rfl rfl rfl
  | drop hpc => exact hs.goto rfl rfl rfl rfl (by rw [hpc]; rfl)

end Crew

/-- The node whose flag has not been written yet. -/
def blank : Pc → Option Nat
  | .add i => some i
  | .nullEntry i => some i
  | _ => none

/-- Whether `main` can come to test the flag of node `i` without clearing it first. -/
def mayTest : Pc → Nat → Bool
  | .join j, i => i != j
  | .close j, i => i != j
  | .clear j, i => i != j
  | .last none, _ => false
  | .last (some j), i => j ≤ i
  | .lastJoin j, i => j < i
  | .lastClose j, i => j < i
  | .free, _ => false
  | .exited _, _ => false
  | .nullEntry _, _ => false
  | .nullHead, _ => false
  | _, _ => true

/-- A flag that is set was set by its thread, and one that `main` has acted upon is
not acted upon again. -/
structure Flags (stage : Nat → Progress) (s : Process σ) : Prop where
  nodup : s.joins.Nodup
  joined : ∀ i ∈ s.joins, (stage i).complete = true
  flagged : ∀ i, i < s.accepted → blank s.main ≠ some i → s.threadComplete i = 1 →
    (stage i).complete = true
  tested : ∀ i ∈ s.joins, s.threadComplete i = 1 → mayTest s.main i = false

section Flags
variable {stage : Nat → Progress} {s s' : Process σ}

theorem flags_start (mem : Shared σ) : Flags (fun _ => Progress.first) (.start mem) where
  nodup := .nil
  joined := by
    intro i hi
    cases hi
  flagged := by
    intro i hi
    cases hi
  tested := by
    intro i hi
    cases hi

theorem Flags.worker (hs : Flags stage s) {i : Nat} {st' : Progress}
    {pool : System Nat Nat (Shared σ) Fault}
    (hadv : Advance i (stage i) s.pool.mem st' pool.mem) :
    Flags (Function.update stage i st') { s with pool := pool } := by
  -- a flag that is set was set before, or has been set by this step
  have hflag : ∀ j, pool.mem.threadComplete j = 1 → s.threadComplete j = 1 ∨
      (j = i ∧ (stage i).complete = false ∧ st'.complete = true) := by
    intro j hj
    cases hadv with
    | leave hflags => exact Or.inl ((congrFun hflags j).symm.trans hj)
    | mark hflags hbefore hafter =>
      by_cases he : j = i
      · exact Or.inr ⟨he, hbefore, hafter⟩
      · rw [hflags, Function.update_of_ne he] at hj
        exact Or.inl hj
  refine ⟨hs.nodup, fun j hj => hadv.update (hs.joined j hj), ?_, ?_⟩
  · intro j hlt hblank hj
    rcases hflag j hj with hj | ⟨rfl, _, hafter⟩
    · exact hadv.update (hs.flagged j hlt hblank hj)
    · rwa [Function.update_self]
  · intro j hmem hj
    rcases hflag j hj with hj | ⟨rfl, hbefore, _⟩
    · exact hs.tested j hmem hj
    · cases hbefore.symm.trans (hs.joined j hmem)

/-- A step of `main` that sets no flag and joins nobody. -/
theorem Flags.move (hs : Flags stage s) (hjoins : s'.joins = s.joins)
    (haccepted : s'.accepted = s.accepted)
    (hflags : ∀ i, s'.threadComplete i = 1 → s.threadComplete i = 1 ∧
      (blank s.main = some i → blank s'.main = some i) ∧
      (mayTest s'.main i = true → mayTest s.main i = true)) : Flags stage s' where
  nodup := by
    rw [hjoins]
    exact hs.nodup
  joined := by
    rw [hjoins]
    exact hs.joined
  flagged := by
    intro i hi hblank hflag
    obtain ⟨hbefore, hb, _⟩ := hflags i hflag
    exact hs.flagged i (haccepted ▸ hi) (mt hb hblank) hbefore
  tested := by
    intro i hi hflag
    obtain ⟨hbefore, _, ht⟩ := hflags i hflag
    have hfalse := hs.tested i (hjoins ▸ hi) hbefore
    exact Bool.eq_false_iff.mpr (mt ht (Bool.eq_false_iff.mp hfalse))

/-- One that leaves the flags alone. -/
theorem Flags.goto (hs : Flags stage s) (hjoins : s'.joins = s.joins)
    (haccepted : s'.accepted = s.accepted) (hflags : s'.threadComplete = s.threadComplete)
    (hblank : ∀ i, blank s.main = some i → blank s'.main = some i)
    (htest : ∀ i, mayTest s'.main i = true → mayTest s.main i = true) : Flags stage s' :=
  hs.move hjoins haccepted (fun i hi => ⟨congrFun hflags i ▸ hi, hblank i, htest i⟩)

/-- From a place where any flag may be tested. -/
theorem Flags.leave (hs : Flags stage s) (hjoins : s'.joins = s.joins)
    (haccepted : s'.accepted = s.accepted) (hflags : s'.threadComplete = s.threadComplete)
    (hblank : blank s.main = none) (htest : ∀ i, mayTest s.main i = true) : Flags stage s' :=
  hs.goto hjoins haccepted hflags (fun i hi => by simp [hblank] at hi) (fun i _ => htest i)

theorem Flags.cleared (hs : Flags stage s) {i : Nat} {pc : Pc}
    (hblank : ∀ j, j ≠ i → blank s.main ≠ some j)
    (htest : ∀ j, j ≠ i → mayTest s.main j = true) :
    Flags stage ((s.setComplete i 0).goto pc) := by
  refine hs.move rfl rfl (fun j hj => ?_)
  have hne : j ≠ i := by
    rintro rfl
    simp [Process.setComplete, Process.goto, Process.threadComplete] at hj
  have hbefore : s.threadComplete j = 1 := (Function.update_of_ne hne _ _).symm.trans hj
  exact ⟨hbefore, fun hb => absurd hb (hblank j hne), fun _ => htest j hne⟩

theorem Flags.join (hs : Flags stage s) {i : Nat} {pc : Pc} (hi : i < s.accepted)
    (hblank : blank s.main = none) (hflag : s.threadComplete i = 1)
    (htest : mayTest s.main i = true)
    (hpc : ∀ j, mayTest pc j = true → mayTest s.main j = true ∧ j ≠ i) :
    Flags stage { s with joins := s.joins ++ [i], main := pc } := by
  have hcomplete := hs.flagged i hi (by simp [hblank]) hflag
  have hnot : i ∉ s.joins := by
    intro hmem
    cases htest.symm.trans (hs.tested i hmem hflag)
  refine ⟨?_, ?_, ?_, ?_⟩
  · rw [← List.concat_eq_append]
    exact List.Nodup.concat hnot hs.nodup
  · intro j hj
    rcases List.mem_append.mp hj with hj | hj
    · exact hs.joined j hj
    · obtain rfl : j = i := by simpa using hj
      exact hcomplete
  · intro j hj _ hone
    exact hs.flagged j hj (by simp [hblank]) hone
  · intro j hj hone
    by_contra hmay
    obtain ⟨hbefore, hne⟩ := hpc j (by simpa using hmay)
    have hmem : j ∈ s.joins := by simpa [hne] using hj
    cases hbefore.symm.trans (hs.tested j hmem hone)

theorem Flags.mainStep {code : Nat → Code (Shared σ) Fault Unit} (hs : Flags stage s)
    (hr : Roster s.main s.list s.accepted) (h : Process.MainStep code s s') : Flags stage s' := by
  cases h with
  | stop hpc | listen hpc | again hpc | refuse hpc | create hpc | noThread hpc | first hpc
  | search hpc | link hpc | further hpc | astray hpc | swept hpc | busy hpc =>
    exact hs.leave rfl rfl rfl (by rw [hpc]; rfl) (by simp [hpc, mayTest])
  | accept fd hpc =>
    refine ⟨hs.nodup, hs.joined, ?_, ?_⟩
    · intro i hi hblank hflag
      have hne : i ≠ s.accepted := by
        rintro rfl
        exact hblank rfl
      have hlt : i < s.accepted := Nat.lt_of_le_of_ne (Nat.le_of_lt_succ hi) hne
      exact hs.flagged i hlt (by simp [hpc, blank]) hflag
    · intro i hi hflag
      have hfalse := hs.tested i hi hflag
      simp [hpc, mayTest] at hfalse
  | @add i hpc =>
    refine hs.cleared (fun j hj hb => ?_) (by simp [hpc, mayTest])
    rw [hpc] at hb
    exact hj (Option.some.inj hb).symm
  | noMemory hpc => exact hs.goto rfl rfl rfl (by simp [hpc, blank]) (by simp [mayTest])
  | @ready i hpc hflag =>
    have hi : i < s.accepted := hr.cursor_accepted (by rw [hpc]; rfl) (by rw [hpc]; rfl)
    exact hs.join hi (by rw [hpc]; rfl) hflag (by simp [hpc, mayTest]) (by simp [hpc, mayTest])
  | joined hpc => exact hs.goto rfl rfl rfl (by simp [hpc, blank]) (by simp [hpc, mayTest])
  | @close i hpc =>
    obtain ⟨_, _, hclose⟩ := s.closeSocket_eq i
    rw [hclose]
    exact hs.goto rfl rfl rfl (by simp [hpc, blank]) (by simp [hpc, mayTest])
  | @clear i hpc => exact hs.cleared (by simp [hpc, blank]) (by simp [hpc, mayTest])
  | @lastReady i hpc hflag =>
    have hi : i < s.accepted := hr.cursor_accepted (by rw [hpc]; rfl) (by rw [hpc]; rfl)
    refine hs.join hi (by rw [hpc]; rfl) hflag (by simp [hpc, mayTest]) (fun j hj => ?_)
    have hlt : i < j := by simpa [mayTest] using hj
    exact ⟨by simpa [hpc, mayTest] using hlt.le, hlt.ne'⟩
  | @lastBusy i hpc =>
    refine hs.goto rfl rfl rfl (by simp [hpc, blank]) (fun j hj => ?_)
    have hlt : i < j := by simpa [mayTest] using hj
    simpa [hpc, mayTest] using hlt.le
  | lastJoined hpc => exact hs.goto rfl rfl rfl (by simp [hpc, blank]) (by simp [hpc, mayTest])
  | @lastClose i hpc =>
    have hi : i < s.accepted := hr.cursor_accepted (by rw [hpc]; rfl) (by rw [hpc]; rfl)
    obtain ⟨_, _, hclose⟩ := s.closeSocket_eq i
    rw [hclose]
    refine hs.goto rfl rfl rfl (by simp [hpc, blank]) (fun j hj => ?_)
    -- the next node is the one after this
    change mayTest (.last (s.list.next i)) j = true at hj
    rw [hr.next_accepted (by rw [hpc]; rfl) hi] at hj
    split at hj
    · have hlt : i < j := of_decide_eq_true hj
      simpa [hpc, mayTest] using hlt
    · cases hj
  | passed hpc | keep hpc | follow hpc =>
    exact hs.goto rfl rfl rfl (by simp [hpc, blank]) (by simp [mayTest])
  | drop hpc => exact hs.goto rfl rfl rfl (fun _ h => h) (fun _ h => h)

/-- One step of the server. -/
theorem crew_flags_step (hc : Crew stage s) (hf : Flags stage s)
    (hr : Roster s.main s.list s.accepted)
    (h : Process.Step (dataProcessor sys.shared limit) s s') :
    ∃ stage', Crew stage' s' ∧ Flags stage' s' := by
  cases h with
  | signal =>
    exact ⟨stage, hc.move rfl rfl rfl (fun _ h => h), hf.goto rfl rfl rfl (fun _ h => h)
      (fun _ h => h)⟩
  | worker _ hkind h =>
    obtain ⟨st', hadv, hc'⟩ := hc.worker hkind h
    exact ⟨_, hc', hf.worker hadv⟩
  | main h => exact ⟨stage, hc.mainStep hr h, hf.mainStep hr h⟩

theorem crew_flags_of_runs {Ok : Process σ → Process σ → Prop} {inner : σ} {flags : Nat → Nat}
    (hrun : Process.Runs (dataProcessor sys.shared limit) Ok (.start ⟨inner, flags, []⟩) s) :
    ∃ stage, Crew stage s ∧ Flags stage s := by
  induction hrun with
  | refl => exact ⟨_, crew_start inner flags, flags_start _⟩
  | step hs _ h ih =>
    obtain ⟨stage, hc, hf⟩ := ih
    exact crew_flags_step hc hf (roster_of_runs hs) h

end Flags

/-- In every state that the server comes to, its list has one node for each
connection in the order of the accepts, save for a node that is just being added.
`pthread_join` has been called at most once for a thread, and only for one that had
marked its node. -/
theorem joins_follow_accepts {σ : Type} {sys : Sys σ} {limit : Nat} {inner : σ}
    {flags : Nat → Nat} {s : Process σ}
    (hrun : Process.Runs (dataProcessor sys.shared limit) (fun _ _ => True)
      (.start ⟨inner, flags, []⟩) s) :
    (entry s.main = none → SList.Chain s.list.next s.list.head (List.range s.accepted)) ∧
    (∀ i, entry s.main = some i → s.accepted = i + 1 ∧
      SList.Chain s.list.next s.list.head (List.range i)) ∧
    s.joins.Nodup ∧ ∀ i ∈ s.joins, .complete i ∈ s.pool.mem.calls := by
  have hr := roster_of_runs hrun
  obtain ⟨stage, hc, hf⟩ := crew_flags_of_runs hrun
  refine ⟨fun hnone => ?_, fun i hi => ⟨hr.entry_eq i hi, ?_⟩, hf.nodup, ?_⟩
  · have hchain := hr.chain
    rwa [linked_of_none hnone] at hchain
  · have hchain := hr.chain
    rwa [linked_of_entry hi] at hchain
  · exact fun i hi => hc.told i (hf.joined i hi)

/-- `main` takes `n` steps, in which nothing is denied to it and `fd` is the
descriptor of a connection that it accepts. -/
def proceed (fd n : Nat) : List Process.Choice :=
  List.replicate n (.main ⟨.connection fd, true, true⟩)

/-- The thread of connection `i` takes `n` steps. -/
def work (i n : Nat) : List Process.Choice := List.replicate n (.worker i)

abbrev play (sys : Sys Unit) (schedule : List Process.Choice) : Option (Process Unit) :=
  Process.exec (dataProcessor sys.shared 4) (fun _ _ => true) (.start ⟨(), fun _ => 0, []⟩) schedule

theorem runs_play {sys : Sys Unit} {schedule : List Process.Choice} {s : Process Unit}
    (h : play sys schedule = some s) :
    Process.Runs (dataProcessor sys.shared 4) (fun _ _ => True) (.start ⟨(), fun _ => 0, []⟩) s :=
  Process.Runs.refl.exec (fun _ _ _ => trivial) h

/-- The first session is over when the second connection is accepted. -/
theorem joins_follow_two_accepts :
    ∃ s : Process Unit,
      Process.Runs (dataProcessor (stub [10] (.done 1)).shared 4) (fun _ _ => True)
        (.start ⟨(), fun _ => 0, []⟩) s ∧
      s.joins = [0] ∧ SList.Chain s.list.next s.list.head [0, 1] ∧
      .complete 0 ∈ s.pool.mem.calls := by
  have hplay : (play (stub [10] (.done 1)) (proceed 4 8 ++ work 0 11 ++ proceed 5 7)).map
      (fun s => (s.main, s.accepted, s.joins)) = some (.join 0, 2, [0]) := by decide +kernel
  obtain ⟨s, hs, hobs⟩ := Option.map_eq_some_iff.mp hplay
  simp only [Prod.mk.injEq] at hobs
  obtain ⟨hmain, haccepted, hjoins⟩ := hobs
  obtain ⟨hlist, _, _, htold⟩ := joins_follow_accepts (runs_play hs)
  have hchain := hlist (by rw [hmain]; rfl)
  rw [haccepted] at hchain
  exact ⟨s, runs_play hs, hjoins, hchain, htold 0 (by simp [hjoins])⟩

end Aesd.Proofs
