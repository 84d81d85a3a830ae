import Aesd.Base.Ending
import Aesd.Proofs.Joins

namespace Aesd.Proofs
open Base Server
open Base.Code (Never never_pure never_ofExcept never_call never_lock never_release)

variable {σ : Type} {sys : Sys σ} {limit : Nat} {s s' : Process σ}

section Session
variable {α : Type} {i : Nat}

/-- The step that sets the flag of session `i`. -/
def marks (i : Nat) (m m' : Shared σ) : Prop := m'.calls = m.calls ++ [.complete i]

/-- The last two calls of a session do not fault: it sets a flag and closes a file. -/
structure EndsWell (sys : Sys σ) : Prop where
  complete : ∀ i s, ∃ a, (sys.complete i s).1 = .ok a
  closeDevice : ∀ fd s, ∃ a, (sys.closeDevice fd s).1 = .ok a

theorem never_traced {f : σ → Except Fault α × σ} {c : Except Fault α → Call}
    (hc : ∀ r, c r ≠ .complete i) : Never (marks i) (Code.call (traced f c)) := by
  apply never_call
  intro m hmark
  simp only [marks, traced, List.append_cancel_left_eq, List.cons.injEq] at hmark
  exact hc _ hmark.1

theorem never_sendLoop (skt : Nat) (bytes : List UInt8) (fuel : Nat) :
    Never (marks i) (sendLoop sys.shared skt bytes fuel) := by
  induction fuel with
  | zero => trivial
  | succ fuel ih =>
    apply (never_traced (by simp)).bind
    intro r
    cases r with
    | done => exact never_pure _
    | eintr => exact ih
    | failed => exact never_pure _

theorem never_readLoop (skt : Nat) (fd : Fd) (limit fuel : Nat) (buf : List UInt8) :
    Never (marks i) (readLoop sys.shared skt fd limit fuel buf) := by
  induction fuel generalizing buf with
  | zero => trivial
  | succ fuel ih =>
    apply (never_traced (by simp)).bind
    intro r
    cases r with
    | eintr => exact ih buf
    | failed => exact never_pure _
    | done res =>
      apply (never_ofExcept _).bind
      intro buf'
      split
      · exact never_pure _
      · apply (never_ofExcept _).bind
        intro bytes
        apply (never_sendLoop skt bytes limit).bind
        intro ok
        split
        · exact ih buf'
        · exact never_pure _

theorem never_putChunk (skt : Nat) (fd : Fd) (limit : Nat) (buf : List UInt8) (n fuel : Nat) :
    Never (marks i) (putChunk sys.shared skt fd limit buf n fuel) := by
  induction fuel with
  | zero => trivial
  | succ fuel ih =>
    apply never_lock.bind
    intro interrupted
    split
    · exact ih
    · split
      · apply (never_ofExcept _).bind
        intro args
        apply (never_traced (by simp)).bind
        intro _
        apply never_release.bind
        intro _
        apply (never_readLoop skt fd limit limit blankBuffer).bind
        intro _
        exact never_pure _
      · apply (never_traced (by simp)).bind
        intro r
        cases r with
        | eintr => exact ih
        | failed => exact never_pure _
        | done =>
          apply never_release.bind
          intro _
          exact never_pure _

theorem never_receiveLoop (skt : Nat) (fd : Fd) (limit fuel : Nat) (buf : List UInt8) :
    Never (marks i) (receiveLoop sys.shared skt fd limit fuel buf) := by
  induction fuel generalizing buf with
  | zero => trivial
  | succ fuel ih =>
    apply (never_traced (by simp)).bind
    intro r
    cases r with
    | eintr => exact ih buf
    | failed => exact never_pure _
    | done chunk =>
      cases chunk with
      | nil => exact ih buf
      | cons b bs =>
        apply (never_ofExcept _).bind
        intro buf'
        apply (never_ofExcept _).bind
        intro endOfPacket
        apply (never_putChunk skt fd limit buf' _ limit).bind
        intro ret
        cases ret with
        | some ret => exact never_pure _
        | none =>
          dsimp only
          split
          · exact never_pure _
          · exact ih buf'

/-- A session that has set its flag closes its file, and that is all. -/
theorem dataProcessor_endsAfter (hsys : EndsWell sys) (limit i : Nat) :
    Code.EndsAfter (marks i) 1 (dataProcessor sys.shared limit i) := by
  apply (never_traced (by simp)).endsAfter
  intro fd
  apply (never_receiveLoop i fd limit limit blankBuffer).endsAfter
  intro ret
  split
  · apply (never_traced (by simp)).endsAfter
    intro _
    apply (never_traced (by simp)).endsAfter
    intro fd'
    apply (never_readLoop i fd' limit limit blankBuffer).endsAfter
    intro _
    apply Code.endsAfter_call
    intro m
    obtain ⟨a, ha⟩ := hsys.complete i m.inner
    refine ⟨a, ha, ?_, (never_traced (by simp)).endsAfter_self⟩
    apply Code.ends_call
    intro m'
    exact hsys.closeDevice fd' m'.inner
  · exact (never_traced (by simp)).endsAfter_self

end Session

section Threads
variable {stage : Nat → Progress}

/-- The threads that have set their flags have one step left before they end. -/
abbrev LastSteps (stage : Nat → Progress) (s : Process σ) : Prop :=
  System.Brief marks 1 (fun i => (stage i).complete = true) s.pool

/-- A step of `main` that leaves the threads alone. -/
theorem LastSteps.goto (hs : LastSteps stage s) (htasks : s'.pool.tasks = s.pool.tasks) :
    LastSteps stage s' := by
  intro i t ht
  rw [htasks] at ht
  exact hs i t ht

theorem LastSteps.mainStep (hs : LastSteps stage s) (hsys : EndsWell sys) (hc : Crew stage s)
    (h : Process.MainStep (dataProcessor sys.shared limit) s s') : LastSteps stage s' := by
  cases h with
  | @create i hpc =>
    have hnot : s.started i = false := by
      apply hc.early
      rw [hpc]
      exact Or.inr rfl
    have hfirst := (hc.unstarted i hnot).2
    refine System.Brief.goto hs i (fun _ _ h => h) (fun t' ht' => ?_)
    obtain rfl := Option.some.inj ht'
    refine ⟨dataProcessor_endsAfter hsys limit i, fun hdone => ?_⟩
    rw [hfirst] at hdone
    cases hdone
  | @close i | @lastClose i =>
    obtain ⟨_, _, hclose⟩ := s.closeSocket_eq i
    rw [hclose]
    exact hs.goto rfl
  | stop | listen | again | refuse | accept | add | noMemory | noThread | first | search | link
  | further | astray | swept | ready | busy | joined | clear | passed | lastReady | lastBusy
  | lastJoined | keep | follow | drop => exact hs.goto rfl

theorem LastSteps.worker (hs : LastSteps stage s) {e : Event Nat Nat} {st' : Progress}
    {pool : System Nat Nat (Shared σ) Fault} {code : Nat → Code (Shared σ) Fault Unit}
    (hkind : e.kind ≠ .invoke) (h : System.Step code s.pool e pool)
    (hadv : Advance e.task (stage e.task) s.pool.mem st' pool.mem) :
    LastSteps (Function.update stage e.task st') { s with pool := pool } := by
  refine System.Brief.step hs h hkind (fun i hdone => ?_)
  by_cases hi : i = e.task
  · subst hi
    rw [Function.update_self] at hdone
    cases hadv with
    | leave _ hcomplete => exact Or.inl (hcomplete.symm.trans hdone)
    | mark _ hbefore hafter _ hcalls =>
      refine Or.inr ⟨rfl, ?_, hcalls⟩
      -- only a call adds to the trace
      by_contra hact
      have hmem : pool.mem = s.pool.mem := by
        cases h with
        | act => exact absurd rfl hact
        | invoke | acquire | interrupt | unlock | finish => rfl
      rw [hmem] at hcalls
      simp at hcalls
  · rw [Function.update_of_ne hi] at hdone
    exact Or.inl hdone

theorem lastSteps_of_runs {Ok : Process σ → Process σ → Prop} {inner : σ} {flags : Nat → Nat}
    (hsys : EndsWell sys)
    (hrun : Process.Runs (dataProcessor sys.shared limit) Ok (.start ⟨inner, flags, []⟩) s) :
    ∃ stage, Crew stage s ∧ Flags stage s ∧ LastSteps stage s := by
  induction hrun with
  | refl =>
    refine ⟨_, crew_start inner flags, flags_start _, fun i t ht => ?_⟩
    cases ht
  | step hs _ h ih =>
    obtain ⟨stage, hc, hf, hl⟩ := ih
    cases h with
    | signal =>
      exact ⟨stage, hc.move rfl rfl rfl (fun _ h => h),
        hf.goto rfl rfl rfl (fun _ h => h) (fun _ h => h), hl.goto rfl⟩
    | worker _ hkind h =>
      obtain ⟨st', hadv, hc'⟩ := hc.worker hkind h
      exact ⟨_, hc', hf.worker hadv, hl.worker hkind h hadv⟩
    | main h =>
      have hr := roster_of_runs hs
      exact ⟨stage, hc.mainStep hr h, hf.mainStep hr h, hl.mainStep hsys hc h⟩

/-- A thread with `n` steps to go can take them, whoever has the lock. -/
theorem runs_out {code : Nat → Code (Shared σ) Fault Unit} {i n : Nat}
    {t : Task Nat (Shared σ) Fault} (hrunning : s.main.running = true)
    (ht : s.pool.tasks i = some t) (hends : t.rest.Ends n) :
    ∃ k, k ≤ n + 1 ∧ ∃ s', Process.exec code (fun _ _ => true) s (work i k) = some s' ∧
      s'.pool.tasks i = none ∧ s'.main = s.main := by
  induction n generalizing s t with
  | zero =>
    obtain ⟨e, pool, hnext, hnone | ⟨m, _, hm, _⟩⟩ := System.next_of_ends code ht hends
    · refine ⟨1, Nat.le_refl _, { s with pool := pool }, ?_, hnone, rfl⟩
      simp [work, Process.exec, Process.next, hrunning, hnext]
    · cases hm
  | succ n ih =>
    obtain ⟨e, pool, hnext, hnone | ⟨m, t', hm, ht', hends'⟩⟩ := System.next_of_ends code ht hends
    · refine ⟨1, Nat.le_add_left 1 _, { s with pool := pool }, ?_, hnone, rfl⟩
      simp [work, Process.exec, Process.next, hrunning, hnext]
    · obtain rfl := Nat.succ.inj hm
      obtain ⟨k, hk, s', hexec, hnone, hmain⟩ := ih (s := { s with pool := pool }) hrunning ht' hends'
      refine ⟨k + 1, Nat.succ_le_succ hk, s', ?_, hnone, hmain⟩
      simpa [work, List.replicate_succ, Process.exec, Process.next, hrunning, hnext] using hexec

end Threads

section Main
variable {code : Nat → Code (Shared σ) Fault Unit}

/-- How many steps `main` takes at most once it has been told to stop, with `n`
connections so far. -/
def toGo (n : Nat) : Pc → Nat
  | .top => 3 * n + 3
  | .accept => 8 * n + 16
  | .add _ => 8 * n + 7
  | .create _ => 8 * n + 6
  | .insert _ => 8 * n + 5
  | .walk _ (some x) => n - x + 7 * n + 4
  | .walk _ none => 7 * n + 4
  | .sweep (some j) => 4 * (n - j) + 3 * n + 4
  | .sweep none => 3 * n + 4
  | .join j => 4 * (n - j) + 3 * n + 3
  | .close j => 4 * (n - j) + 3 * n + 2
  | .clear j => 4 * (n - j) + 3 * n + 1
  | .last (some j) => 3 * (n - j) + 2
  | .last none => 2
  | .lastJoin j => 3 * (n - j) + 1
  | .lastClose j => 3 * (n - j)
  | .free => 1
  | .exited _ => 0
  | .nullEntry _ => 0
  | .nullHead => 0

theorem toGo_le (n : Nat) (pc : Pc) : toGo n pc ≤ 8 * n + 16 := by
  cases pc with
  | walk i current | sweep current | last current =>
    cases current <;> simp only [toGo] <;> omega
  | top | accept | add | create | insert | join | close | clear | lastJoin | lastClose | free
  | exited | nullEntry | nullHead =>
    simp only [toGo]
    omega

theorem toGo_sweep_le (n : Nat) (current : Option Nat) : toGo n (.sweep current) ≤ 7 * n + 4 := by
  cases current <;> simp only [toGo] <;> omega

theorem toGo_last_le (n : Nat) (current : Option Nat) : toGo n (.last current) ≤ 3 * n + 2 := by
  cases current <;> simp only [toGo] <;> omega

/-- `main` may be about to accept a connection, which it does before it looks at the
signal again. -/
def expecting (pc : Pc) : Nat := if pc = .accept then 1 else 0

theorem toGo_decreases (hr : Roster s.main s.list s.accepted) (hsignal : s.caughtSignal = true)
    (h : Process.MainStep code s s') :
    toGo s'.accepted s'.main < toGo s.accepted s.main := by
  cases h with
  | stop hpc =>
    have hle := toGo_last_le s.accepted s.list.head
    rw [hpc]
    simp only [Process.goto, toGo] at hle ⊢
    omega
  | listen _ hnot => cases hsignal.symm.trans hnot
  | again hpc | refuse hpc | accept _ hpc | add hpc | noMemory hpc | create hpc | noThread hpc
  | swept hpc | ready hpc | busy hpc | joined hpc | passed hpc | lastReady hpc | lastBusy hpc
  | lastJoined hpc | keep hpc | follow hpc =>
    rw [hpc]
    simp only [Process.goto, Process.accept, Process.setComplete, Process.launch, toGo]
    omega
  | @first i hpc =>
    have hle := toGo_sweep_le s.accepted (s.list.insertHead i).head
    rw [hpc]
    change toGo s.accepted (.sweep (s.list.insertHead i).head) < 8 * s.accepted + 5
    omega
  | search hpc =>
    rw [hpc]
    change toGo s.accepted (.walk _ s.list.head) < 8 * s.accepted + 5
    cases s.list.head <;> simp only [toGo] <;> omega
  | @link i x hpc =>
    have hle := toGo_sweep_le s.accepted (s.list.insertAfter x i).head
    have hx : x < linked s.main s.accepted := hr.cursor_lt x (by rw [hpc]; rfl)
    have haccepted := hr.entry_eq i (by rw [hpc]; rfl)
    rw [hpc] at hx ⊢
    change toGo s.accepted (.sweep (s.list.insertAfter x i).head) <
      s.accepted - x + 7 * s.accepted + 4
    change x < i at hx
    omega
  | @further i x hpc =>
    have hx : x < linked s.main s.accepted := hr.cursor_lt x (by rw [hpc]; rfl)
    have hnext := hr.next_eq hx
    have haccepted := hr.entry_eq i (by rw [hpc]; rfl)
    rw [hpc] at hx hnext ⊢
    change toGo s.accepted (.walk i (s.list.next x)) < s.accepted - x + 7 * s.accepted + 4
    change x < i at hx
    rw [hnext]
    split <;> simp only [toGo] <;> omega
  | astray hpc => exact absurd hpc (hr.on_list _)
  | @close i hpc =>
    obtain ⟨_, _, hclose⟩ := s.closeSocket_eq i
    rw [hclose, hpc]
    simp only [Process.goto, toGo]
    omega
  | @clear i hpc =>
    have hi : i < s.accepted := hr.cursor_accepted (by rw [hpc]; rfl) (by rw [hpc]; rfl)
    have hnext := hr.next_accepted (by rw [hpc]; rfl) hi
    rw [hpc]
    change toGo s.accepted (.sweep (s.list.next i)) < 4 * (s.accepted - i) + 3 * s.accepted + 1
    rw [hnext]
    split <;> simp only [toGo] <;> omega
  | @lastClose i hpc =>
    have hi : i < s.accepted := hr.cursor_accepted (by rw [hpc]; rfl) (by rw [hpc]; rfl)
    have hnext := hr.next_accepted (by rw [hpc]; rfl) hi
    obtain ⟨_, _, hclose⟩ := s.closeSocket_eq i
    rw [hclose, hpc]
    change toGo s.accepted (.last (s.list.next i)) < 3 * (s.accepted - i)
    rw [hnext]
    split <;> simp only [toGo] <;> omega
  | drop hpc hempty hlist =>
    -- an empty list has no head to remove
    have hnull : s.list.head = none := Option.isNone_iff_eq_none.mp hempty
    simp [SList.removeHead, hnull] at hlist

/-- What a step of `main` does once it has been told to stop. -/
theorem stopping_mainStep (hsignal : s.caughtSignal = true) (h : Process.MainStep code s s') :
    s'.caughtSignal = true ∧
      s'.accepted + expecting s'.main ≤ s.accepted + expecting s.main := by
  cases h with
  | listen _ hnot => cases hsignal.symm.trans hnot
  | @close i | @lastClose i =>
    obtain ⟨_, _, hclose⟩ := s.closeSocket_eq i
    rw [hclose]
    exact ⟨hsignal, Nat.add_le_add_left (Nat.zero_le _) _⟩
  | accept fd hpc =>
    rw [hpc]
    exact ⟨hsignal, Nat.le_refl _⟩
  | drop => exact ⟨hsignal, Nat.le_refl _⟩
  | stop | again | refuse | add | noMemory | create | noThread | first | search | link | further
  | astray | swept | ready | busy | joined | clear | passed | lastReady | lastBusy | lastJoined
  | keep | follow => exact ⟨hsignal, Nat.add_le_add_left (Nat.zero_le _) _⟩

/-- `n` steps of `main`, and any steps of others between them. -/
inductive MainSteps (code : Nat → Code (Shared σ) Fault Unit) (s₀ : Process σ) :
    Nat → Process σ → Prop
  | refl : MainSteps code s₀ 0 s₀
  | signal {n : Nat} {s : Process σ} (hs : MainSteps code s₀ n s) (hrun : s.main.running = true) :
      MainSteps code s₀ n { s with caughtSignal := true }
  | worker {n : Nat} {s : Process σ} {e : Event Nat Nat} {pool : System Nat Nat (Shared σ) Fault}
      (hs : MainSteps code s₀ n s) (hrun : s.main.running = true) (hkind : e.kind ≠ .invoke)
      (h : System.Step code s.pool e pool) : MainSteps code s₀ n { s with pool := pool }
  | main {n : Nat} {s s' : Process σ} (hs : MainSteps code s₀ n s)
      (h : Process.MainStep code s s') : MainSteps code s₀ (n + 1) s'

theorem MainSteps.runs {s₀ : Process σ} {n : Nat}
    (hrun : Process.Runs code (fun _ _ => True) s₀ s) (h : MainSteps code s n s') :
    Process.Runs code (fun _ _ => True) s₀ s' := by
  induction h with
  | refl => exact hrun
  | signal _ h ih => exact ih.step trivial (.signal h)
  | worker _ h hkind hstep ih => exact ih.step trivial (.worker h hkind hstep)
  | main _ h ih => exact ih.step trivial (.main h)

/-- The steps are paid for by what `main` had to do when the signal came. -/
theorem MainSteps.bound {mem : Shared σ} {n : Nat}
    (hrun : Process.Runs code (fun _ _ => True) (.start mem) s) (hsignal : s.caughtSignal = true)
    (h : MainSteps code s n s') :
    s'.caughtSignal = true ∧ n + toGo s'.accepted s'.main ≤ toGo s.accepted s.main ∧
      s'.accepted + expecting s'.main ≤ s.accepted + expecting s.main := by
  induction h with
  | refl => exact ⟨hsignal, (Nat.zero_add _).le, Nat.le_refl _⟩
  | signal _ _ ih => exact ⟨rfl, ih.2⟩
  | worker _ _ _ _ ih => exact ih
  | main hs h ih =>
    obtain ⟨hstill, hgo, haccepted⟩ := ih
    have hless := toGo_decreases (roster_of_runs (hs.runs hrun)) hstill h
    obtain ⟨hstill', hle⟩ := stopping_mainStep hstill h
    exact ⟨hstill', by omega, Nat.le_trans hle haccepted⟩

/-- A thread is waited for after the call of `pthread_join`. -/
theorem waiting_of_runs {Ok : Process σ → Process σ → Prop} {mem : Shared σ}
    (hrun : Process.Runs code Ok (.start mem) s) :
    ∀ i, s.main = .join i ∨ s.main = .lastJoin i → i ∈ s.joins := by
  induction hrun with
  | refl => simp [Process.start]
  | step _ _ h ih =>
    cases h with
    | signal => exact ih
    | worker => exact ih
    | main h =>
      cases h with
      | ready | lastReady =>
        intro i hi
        obtain rfl : _ = i := by simpa using hi
        simp
      | @close i | @lastClose i => simp
      | drop => exact ih
      | stop | listen | again | refuse | accept | add | noMemory | create | noThread | first
      | search | link | further | astray | swept | busy | joined | clear | passed | lastBusy
      | lastJoined | keep | follow => simp

/-- Only a call of `pthread_join` keeps `main` waiting. -/
theorem main_moves (hrunning : s.main.running = true) :
    (∃ answer s', Process.mainNext code s answer = some s') ∨
      ∃ i t, (s.main = .join i ∨ s.main = .lastJoin i) ∧ s.pool.tasks i = some t := by
  have hmoves : (Process.mainNext code s ⟨.again, true, true⟩).isSome = true ∨
      ∃ i t, (s.main = .join i ∨ s.main = .lastJoin i) ∧ s.pool.tasks i = some t := by
    cases hpc : s.main with
    | join i | lastJoin i =>
      cases ht : s.pool.tasks i with
      | none => exact Or.inl (by simp [Process.mainNext, hpc, ht])
      | some t => exact Or.inr ⟨i, t, by simp, ht⟩
    | exited | nullEntry | nullHead =>
      rw [hpc] at hrunning
      cases hrunning
    | walk i current | sweep current | last current =>
      cases current <;> exact Or.inl (by simp [Process.mainNext, hpc])
    | free =>
      refine Or.inl ?_
      simp only [Process.mainNext, hpc]
      split
      · split <;> rfl
      · rfl
    | top | accept | add | create | insert | close | clear | lastClose =>
      exact Or.inl (by simp [Process.mainNext, hpc])
  apply hmoves.imp_left
  intro hsome
  exact ⟨_, Option.isSome_iff_exists.mp hsome⟩

end Main

/-- After a signal the server comes to its end. However the steps of the threads fall
between those of `main`, it takes at most `8 n + 16` of them with `n` connections, and
accepts one more connection at most. It is never stuck: the only thing that it waits
for is the end of a thread that has set its flag, which is at most two steps of that
thread away, whoever has the lock. -/
theorem signal_ends_server {σ : Type} {sys : Sys σ} {limit : Nat} {inner : σ}
    {flags : Nat → Nat} {s s' : Process σ} {n : Nat} (hsys : EndsWell sys)
    (hrun : Process.Runs (dataProcessor sys.shared limit) (fun _ _ => True)
      (.start ⟨inner, flags, []⟩) s) (hsignal : s.caughtSignal = true)
    (hsteps : MainSteps (dataProcessor sys.shared limit) s n s') :
    n ≤ 8 * s.accepted + 16 ∧ s'.accepted ≤ s.accepted + 1 ∧
    (s'.main.running = true →
      (∃ answer s'', Process.mainNext (dataProcessor sys.shared limit) s' answer = some s'') ∨
      ∃ i, (s'.main = .join i ∨ s'.main = .lastJoin i) ∧ ∃ k, k ≤ 2 ∧ ∃ s'',
        Process.exec (dataProcessor sys.shared limit) (fun _ _ => true) s' (work i k) = some s'' ∧
        s''.pool.tasks i = none ∧ s''.main = s'.main) := by
  obtain ⟨_, hgo, haccepted⟩ := hsteps.bound hrun hsignal
  have hrun' := hsteps.runs hrun
  obtain ⟨stage, _, hf, hlast⟩ := lastSteps_of_runs hsys hrun'
  refine ⟨?_, ?_, fun hrunning => ?_⟩
  · have hle := toGo_le s.accepted s.main
    omega
  · have hone : expecting s.main ≤ 1 := by
      unfold expecting
      split <;> omega
    omega
  · apply (main_moves hrunning).imp_right
    intro hwait
    obtain ⟨i, t, hpc, ht⟩ := hwait
    refine ⟨i, hpc, ?_⟩
    apply runs_out hrunning ht
    apply (hlast i t ht).2
    apply hf.joined i
    exact waiting_of_runs hrun' i hpc

theorem stub_endsWell (chunk : List UInt8) (written : Result Nat) :
    EndsWell (stub chunk written) where
  complete _ _ := ⟨(), rfl⟩
  closeDevice _ _ := ⟨(), rfl⟩

/-- The signal comes while a session that has set its flag is about to close its
file. `main` waits for it. -/
theorem signal_waits_for_last_steps :
    ∃ s s' : Process Unit,
      MainSteps (dataProcessor (stub [10] (.done 1)).shared 4) s 2 s' ∧
      s'.main = .lastJoin 0 ∧ (s'.pool.tasks 0).isSome = true ∧ ∃ k, k ≤ 2 ∧ ∃ s'',
        Process.exec (dataProcessor (stub [10] (.done 1)).shared 4) (fun _ _ => true) s'
          (work 0 k) = some s'' ∧ s''.pool.tasks 0 = none := by
  have hplay : (play (stub [10] (.done 1)) (proceed 4 8 ++ work 0 9 ++ [.signal])).bind (fun s =>
      (Process.mainNext (dataProcessor (stub [10] (.done 1)).shared 4) s ⟨.again, true, true⟩).bind
      (fun s₁ => (Process.mainNext (dataProcessor (stub [10] (.done 1)).shared 4) s₁
        ⟨.again, true, true⟩).map
      (fun s₂ => (s.caughtSignal, s₂.main, (s₂.pool.tasks 0).isSome)))) =
      some (true, .lastJoin 0, true) := by decide +kernel
  obtain ⟨s, hs, hplay⟩ := Option.bind_eq_some_iff.mp hplay
  obtain ⟨s₁, hs₁, hplay⟩ := Option.bind_eq_some_iff.mp hplay
  obtain ⟨s₂, hs₂, hobs⟩ := Option.map_eq_some_iff.mp hplay
  simp only [Prod.mk.injEq] at hobs
  obtain ⟨hsignal, hmain, htask⟩ := hobs
  have hsteps : MainSteps (dataProcessor (stub [10] (.done 1)).shared 4) s 2 s₂ :=
    (MainSteps.refl.main (Process.step_of_mainNext hs₁)).main (Process.step_of_mainNext hs₂)
  obtain ⟨_, _, hgoes⟩ :=
    signal_ends_server (stub_endsWell [10] (.done 1)) (runs_play hs) hsignal hsteps
  refine ⟨s, s₂, hsteps, hmain, htask, ?_⟩
  rcases hgoes (by rw [hmain]; rfl) with ⟨answer, s₃, hnext⟩ | ⟨i, hpc, k, hk, s₃, hexec, hnone, _⟩
  · -- the thread is still there
    obtain ⟨t, ht⟩ := Option.isSome_iff_exists.mp htask
    simp [Process.mainNext, hmain, ht] at hnext
  · obtain rfl : i = 0 := by simpa [hmain, eq_comm] using hpc
    exact ⟨k, hk, s₃, hexec, hnone⟩

end Aesd.Proofs
